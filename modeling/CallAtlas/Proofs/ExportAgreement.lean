import CallAtlas.Drawing.Dot
import CallAtlas.Drawing.Export
import CallAtlas.Proofs.FirstOffence
import CallAtlas.Proofs.GraphHistory
import CallAtlas.Proofs.Renumbering

/-!
# The export of a drawing

The export knows nodes by their names alone, while a drawing knows them by number. It can still be
taken for the drawing: every name in it, that of a root or of an end of an edge, is the name of
exactly one node that it lists. Nodes are listed in an order that leaves nothing open, since no two
have the same depth and the same name, and edges are listed by number.

The DOT text of a drawing could be written from the export as well. Nodes and edges come in the
same order in both, and a node has an attribute in one if it has it in the other.

## Main definitions

* `GraphExport.ListsOnce` — a name that leads to one listed node
* `GraphExport.TellsOf` — what an export tells of a drawing
* `Drawing.dotHead`, `GraphExport.dotBody` — the DOT lines of the graph as a whole, and those that
  the export determines

## Main results

* `Drawing.map_nodes_toExport` — every node of the order of drawing is exported
* `Drawing.tellsOf_toExport` — the export of a drawing whose roots are nodes of depth zero
* `Drawing.dotLines_eq_dotBody` — the DOT text, written from the export
* `Query.tellsOf_of_draw` — the two exports of a query
-/

namespace CallAtlas

/-! ## What an export tells -/

namespace GraphExport

/-- Exactly one node is listed with this name. -/
def ListsOnce (x : GraphExport) (name : String) : Prop :=
  (x.nodes.map NodeExport.id).count name = 1

/-- The export tells of the whole drawing, and of nothing else. -/
structure TellsOf (x : GraphExport) (d : Drawing) : Prop where
  listsOnce : ∀ name, (d.graph.find? name).isSome → x.ListsOnce name
  /-- A listed node is a node of the graph, with all that is told of it. -/
  exists_node : ∀ n ∈ x.nodes, ∃ i, d.graph.find? n.id = some i ∧ d.exportNode i = some n
  increasing : x.nodes.Pairwise fun m n => m.depth < n.depth ∨ m.depth = n.depth ∧ m.id < n.id
  roots_eq : x.roots.map d.graph.find? = d.roots.map some
  listsOnce_root : ∀ r ∈ x.roots, x.ListsOnce r
  depth_root : ∀ n ∈ x.nodes, n.id ∈ x.roots → n.depth = 0
  /-- No edge is missing, and they are listed by number. -/
  exists_edges : ∃ edges : List GraphEdge, edges.Perm d.graph.edges ∧
    (edges.Pairwise fun a b => a.id < b.id) ∧
    x.edges.map (fun e => (d.graph.find? e.source, d.graph.find? e.target)) =
      edges.map fun e => (some e.source, some e.target)
  listsOnce_ends : ∀ e ∈ x.edges, x.ListsOnce e.source ∧ x.ListsOnce e.target

end GraphExport

/-- The line of an exported node: it has a list of attributes if there are any. -/
def NodeExport.dotLine (n : NodeExport) : String :=
  "    " ++ Drawing.dotQuote n.id ++
    (if n.attrs.isEmpty then ";" else " [" ++ Drawing.dotAttrs n.attrs ++ "];")

/-- The line of an exported edge. -/
def EdgeExport.dotLine (e : EdgeExport) : String :=
  "    " ++ Drawing.dotQuote e.source ++ " -> " ++ Drawing.dotQuote e.target ++ ";"

/-- The lines of nodes and edges, and the end of the text. -/
def GraphExport.dotBody (x : GraphExport) : List String :=
  [""] ++ x.nodes.map NodeExport.dotLine ++ [""] ++ x.edges.map EdgeExport.dotLine ++ ["\x7d"]

/-! ## The export of a drawing -/

namespace Drawing

variable {d : Drawing} {i : Nat} {n : NodeExport} {x : String}

/-- The lines that belong to the graph as a whole. -/
def dotHead (d : Drawing) : List String :=
  ["digraph CallGraph \x7b"] ++
    d.graphAttrs.entries.map (fun a => "    " ++ dotAttr a ++ ";") ++
    dotDefaults "node" d.nodeDefaults ++ dotDefaults "edge" d.edgeDefaults

theorem exists_exportNode (hi : d.graph.contains i) : ∃ n, d.exportNode i = some n := by
  obtain ⟨a, ha⟩ := CallGraph.contains_iff.mp hi
  exact ⟨_, by rw [exportNode, ha, Option.map_some]⟩

/-- What an export keeps of the drawing itself. -/
theorem fields_exportNode (hn : d.exportNode i = some n) :
    d.graph.contains i ∧ n.id = d.graph.name i ∧ n.depth = d.depths.get i ∧
      n.attrs = d.nodeAttrs i := by
  obtain ⟨a, ha, rfl⟩ := Option.map_eq_some_iff.mp hn
  exact ⟨CallGraph.contains_iff.mpr ⟨a, ha⟩, (CallGraph.name_eq_of_node? ha).symm, rfl, rfl⟩

/-- No node is left out of the export: what can be read off the exported nodes can be read off the
nodes of the drawing. -/
theorem map_nodes_toExport {β : Type} {f : NodeExport → β} {g : Nat → β}
    (hfg : ∀ i n, d.exportNode i = some n → f n = g i) :
    d.toExport.nodes.map f = d.displayOrder.map g := by
  rw [toExport, List.map_filterMap, ← List.filterMap_eq_map]
  refine List.filterMap_congr fun i hi => ?_
  obtain ⟨n, hn⟩ := exists_exportNode (Depths.mem_displayOrder.mp hi)
  rw [hn, Option.map_some, hfg i n hn, Function.comp_apply]

theorem map_id_toExport (d : Drawing) :
    d.toExport.nodes.map NodeExport.id = d.displayOrder.map d.graph.name :=
  map_nodes_toExport fun _ _ hn => (fields_exportNode hn).2.1

theorem listsOnce_toExport (hx : (d.graph.find? x).isSome) : d.toExport.ListsOnce x := by
  rw [GraphExport.ListsOnce, map_id_toExport]
  exact List.count_eq_one_of_mem d.nodup_map_name_displayOrder (mem_map_name_displayOrder.mpr hx)

theorem listsOnce_name (hi : d.graph.contains i) : d.toExport.ListsOnce (d.graph.name i) :=
  listsOnce_toExport (Option.isSome_of_eq_some (CallGraph.find?_name hi))

theorem find?_id_of_exportNode (hn : d.exportNode i = some n) : d.graph.find? n.id = some i := by
  obtain ⟨hi, hid, -⟩ := fields_exportNode hn
  rw [hid, CallGraph.find?_name hi]

theorem increasing_toExport (d : Drawing) :
    d.toExport.nodes.Pairwise
      fun m n => m.depth < n.depth ∨ m.depth = n.depth ∧ m.id < n.id := by
  have hnames := List.pairwise_map.mp d.nodup_map_name_displayOrder
  have horder := (d.depths.pairwise_displayOrder d.graph).and hnames
  refine List.pairwise_filterMap.mpr (horder.imp fun {i j} hij m hm n hn => ?_)
  obtain ⟨-, hmid, hmdepth, -⟩ := fields_exportNode hm
  obtain ⟨-, hnid, hndepth, -⟩ := fields_exportNode hn
  rw [hmid, hmdepth, hnid, hndepth]
  -- the order of drawing allows equal names, which a graph does not have
  refine (Depths.precedes_iff.mp hij.1).imp_right fun ⟨hdepth, hname⟩ => ⟨hdepth, ?_⟩
  exact lt_of_not_lt_of_ne hname hij.2.symm

theorem map_find?_edges_toExport (d : Drawing) :
    d.toExport.edges.map (fun e => (d.graph.find? e.source, d.graph.find? e.target)) =
      d.graph.edgesById.map fun e => (some e.source, some e.target) := by
  rw [toExport, CallGraph.edgePairs, List.map_map, List.map_map]
  refine List.map_congr_left fun e he => ?_
  have hcalls : d.graph.Calls e.source e.target :=
    ⟨e, (CallGraph.perm_edgesById _).mem_iff.mp he, rfl, rfl⟩
  simp only [Function.comp_apply, CallGraph.find?_name hcalls.contains_source,
    CallGraph.find?_name hcalls.contains_target]

/-- The export tells of the drawing if its roots are nodes at depth zero. -/
theorem tellsOf_toExport (hroots : ∀ r ∈ d.roots, d.graph.contains r)
    (hdepth : ∀ r ∈ d.roots, d.depths.get r = 0) : d.toExport.TellsOf d where
  listsOnce _ hname := listsOnce_toExport hname
  exists_node n hn := by
    obtain ⟨i, -, hi⟩ := List.mem_filterMap.mp hn
    exact ⟨i, find?_id_of_exportNode hi, hi⟩
  increasing := d.increasing_toExport
  roots_eq := by
    rw [toExport, List.map_map]
    exact List.map_congr_left fun r hr => CallGraph.find?_name (hroots r hr)
  listsOnce_root x hx := by
    obtain ⟨r, hr, rfl⟩ := List.mem_map.mp hx
    exact listsOnce_name (hroots r hr)
  depth_root n hn hroot := by
    obtain ⟨i, -, hi⟩ := List.mem_filterMap.mp hn
    obtain ⟨r, hr, hname⟩ := List.mem_map.mp hroot
    obtain ⟨hlive, hid, hdepthn, -⟩ := fields_exportNode hi
    -- the root with this name is the node itself
    obtain rfl := CallGraph.name_inj (hroots r hr) hlive (hname.trans hid)
    rw [hdepthn, hdepth r hr]
  exists_edges :=
    ⟨d.graph.edgesById, CallGraph.perm_edgesById _, CallGraph.increasing_edgesById _,
      d.map_find?_edges_toExport⟩
  listsOnce_ends x hx := by
    obtain ⟨⟨i, j⟩, hij, rfl⟩ := List.mem_map.mp hx
    have hcalls := CallGraph.mem_edgePairs.mp hij
    exact ⟨listsOnce_name hcalls.contains_source, listsOnce_name hcalls.contains_target⟩

/-- The DOT text could be written from the export. -/
theorem dotLines_eq_dotBody (d : Drawing) : d.dotLines = d.dotHead ++ d.toExport.dotBody := by
  have hnodes : d.toExport.nodes.map NodeExport.dotLine = d.displayOrder.map d.dotNode := by
    refine map_nodes_toExport fun i n hn => ?_
    obtain ⟨-, hid, -, hattrs⟩ := fields_exportNode hn
    rw [NodeExport.dotLine, hid, hattrs, dotNode]
  have hedges : d.toExport.edges.map EdgeExport.dotLine = d.graph.edgePairs.map d.dotEdge := by
    rw [toExport, List.map_map]
    rfl
  rw [GraphExport.dotBody, hnodes, hedges, dotLines, dotHead]
  simp only [List.append_assoc]

end Drawing

/-! ## The exports of a query -/

namespace Query

variable {ε : Type} [LayoutService ε] {q : Query} {base : CallGraph} {ps : Parameters}
  {engine engine' : ε} {d : Drawing}

/-- A query that is drawn has all its roots. -/
theorem find?_roots_of_draw (h : q.draw base ps engine = .ok (d, engine')) :
    ∀ r ∈ q.roots, (base.find? r).isSome := by
  by_contra habsent
  push Not at habsent
  have habsent : ∃ r ∈ q.roots, base.find? r = none := by simpa using habsent
  obtain ⟨root, hfirst⟩ := exists_isFirst habsent
  rw [draw_of_absent hfirst] at h
  cases h

/-- A query that is drawn is its view with the parameters applied, none of them refused. -/
theorem apply_of_draw (h : q.draw base ps engine = .ok (d, engine')) :
    (Drawing.ofView (q.view base) q.depthMode).apply ps engine = ((d, engine'), none) := by
  rw [draw_eq_apply (find?_roots_of_draw h)] at h
  generalize (Drawing.ofView (q.view base) q.depthMode).apply ps engine = applied at h ⊢
  obtain ⟨result, refused⟩ := applied
  cases refused with
  | none => exact congrArg (·, none) (Except.ok.inj h)
  | some e => cases h

/-- **The exports of a query.** Whenever a query is drawn, the drawing shows its view, the export
tells of the whole drawing with every name in it leading to exactly one listed node, and the DOT
text has the nodes, attributes and edges of the export in the same order. -/
theorem tellsOf_of_draw (h : q.draw base ps engine = .ok (d, engine')) :
    d.graph = (q.view base).graph ∧ d.toExport.TellsOf d ∧
      d.toDot = "\n".intercalate (d.dotHead ++ d.toExport.dotBody) := by
  obtain ⟨hwritten, -⟩ := Drawing.apply_eq_ok (apply_of_draw h)
  -- parameters leave the view and its depths as they are
  have hgraph : d.graph = (q.view base).graph := hwritten.graph_eq
  have hroots : d.roots = (q.view base).roots := hwritten.roots_eq
  have hdepths : d.depths = (q.view base).graph.depths (q.view base).roots q.depthMode :=
    hwritten.depths_eq
  refine ⟨hgraph, Drawing.tellsOf_toExport ?_ ?_, by rw [← Drawing.dotLines_eq_dotBody]; rfl⟩
  · rw [hroots, hgraph]
    exact contains_root_view
  · intro r hr
    rw [hroots] at hr
    rw [hdepths, CallGraph.get_depths_root contains_root_view hr]

/-- One node of three has an attribute. -/
theorem tellsOf_of_draw_marked :
    let q : Query := { roots := ["r"] }
    let base := CallGraph.ofCalls Registry.selfCalling
    let ps : Parameters := ⟨[⟨["node", "a", "color"], .text "red"⟩]⟩
    ∃ d engine, q.draw base ps Drawing.unasked = .ok (d, engine) ∧ d.toExport.ListsOnce "a" ∧
      d.toExport.TellsOf d ∧ d.toDot = "\n".intercalate (d.dotHead ++ d.toExport.dotBody) := by
  intro q base ps
  have hroots : ∀ r ∈ q.roots, (base.find? r).isSome := by decide +kernel
  have hsound : ∀ p ∈ ps.entries, p.fault? = none := by decide
  obtain ⟨⟨d, engine⟩, hdraw⟩ := (exists_draw_iff hroots).mpr fun p hp =>
    Parameter.fault?_eq_none_iff.mp (hsound p hp)
  obtain ⟨hgraph, htells, hdot⟩ := tellsOf_of_draw hdraw
  refine ⟨d, engine, hdraw, htells.listsOnce "a" ?_, htells, hdot⟩
  rw [hgraph]
  decide +kernel

end Query

end CallAtlas
