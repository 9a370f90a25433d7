import CallAtlas.Proofs.EdgeAge
import CallAtlas.Proofs.KeyedLists

/-!
# The graph of a registry, number by number

A graph is built from a registry in two rounds. The first makes a node of every record. The second
goes through the records again and makes their edges, and where an edge leads to a name without a
node it makes a node as well. The number of such a node therefore depends on everything mentioned
before it.

The invariant of the second round needs one list, the mentions so far as pairs of caller and target.
The edges are that list, and the nodes are those of the first round followed by the mentioned names
that were not among them, in the order of first mention. A step adds one mention.

## Main definitions

* `CallGraph.mentions` — all pairs of caller and target, in order
* `CallGraph.unknownTargets` — the targets without a record
* `CallGraph.IsBuiltFrom` — the invariant of the construction
* `CallGraph.Mirrors` — the contract of the graph of a registry

## Main results

* `CallGraph.IsBuiltFrom.linkTo`, `CallGraph.IsBuiltFrom.linkAll` — the steps
* `CallGraph.IsBuiltFrom.foldl_linkAll` — the run
* `CallGraph.mirrors_ofCalls_ofModules` — the contract holds
-/

namespace CallAtlas

namespace GraphTable

/-- While no slot is free, a new node gets the next number. -/
theorem slots_addNode {t : GraphTable} (ht : t.freeSlots = []) (n : GraphNode) :
    (t.addNode n).slots = t.slots.push (some n) := by
  rw [addNode, ht]

end GraphTable

namespace CallGraph

variable {g h : CallGraph} {ns : List GraphNode} {es : List (String × String)}
  {targets : Callable → NameSet} {r : Registry} {u x : String} {i : Nat}

/-! ## Slots without a gap -/

theorem node?_of_slots (hg : g.slots.toList = ns.map some) (i : Nat) : g.node? i = ns[i]? := by
  rw [GraphTable.node?, ← Array.getElem?_toList, hg, List.getElem?_map]
  cases ns[i]? <;> rfl

theorem freeSlots_of_slots (hg : g.slots.toList = ns.map some) : g.freeSlots = [] := by
  refine List.eq_nil_iff_forall_not_mem.mpr fun i hi => ?_
  have hnone := g.coherent.mem_freeSlots.mp hi
  rw [← Array.getElem?_toList, hg, List.getElem?_map, Option.map_eq_some_iff] at hnone
  obtain ⟨n, -, hn⟩ := hnone
  cases hn

theorem nodes_of_slots (hg : g.slots.toList = ns.map some) : g.nodes = List.range ns.length := by
  have hsize : g.slots.size = ns.length := by rw [← Array.length_toList, hg, List.length_map]
  rw [nodes, hsize, List.filter_eq_self]
  intro i hi
  rw [contains, node?_of_slots hg, List.getElem?_eq_getElem (List.mem_range.mp hi)]
  rfl

theorem find?_eq_none_iff_of_slots (hg : g.slots.toList = ns.map some) :
    g.find? x = none ↔ x ∉ ns.map GraphNode.name := by
  rw [Option.eq_none_iff_forall_ne_some]
  simp only [ne_eq, find?_eq_some_iff, node?_of_slots hg, List.mem_map]
  constructor
  · rintro hnone ⟨n, hn, hname⟩
    obtain ⟨i, hi⟩ := List.mem_iff_getElem?.mp hn
    exact hnone i ⟨n, hi, hname⟩
  · rintro hnone i ⟨n, hi, hname⟩
    exact hnone ⟨n, List.mem_of_getElem? hi, hname⟩

theorem slots_addNode (hg : g.slots.toList = ns.map some) {n : GraphNode}
    (hn : n.name ∉ ns.map GraphNode.name) :
    (g.addNode n).1.slots.toList = (ns ++ [n]).map some := by
  have hnone : g.find? n.name = none := (find?_eq_none_iff_of_slots hg).mpr hn
  rw [(addNode_of_find?_eq_none hnone).1, GraphTable.slots_addNode (freeSlots_of_slots hg),
    Array.toList_push, hg, List.map_append, List.map_singleton]

theorem addNode_of_mem (hg : g.slots.toList = ns.map some) {n : GraphNode}
    (hn : n.name ∈ ns.map GraphNode.name) : (g.addNode n).1 = g := by
  cases hfind : g.find? n.name with
  | none => exact absurd hn ((find?_eq_none_iff_of_slots hg).mp hfind)
  | some i => rw [addNode_of_find?_eq_some hfind]

/-! ## Edges between names -/

/-- The edges from the oldest to the newest, as pairs of names. -/
def namedEdges (g : CallGraph) : List (String × String) :=
  g.edges.map fun e => (g.name e.source, g.name e.target)

/-- A new node changes no name. -/
theorem name_addNode (n : GraphNode) (hi : g.contains i) : (g.addNode n).1.name i = g.name i :=
  name_of_find? (grows_addNode g n (find?_name hi))

theorem namedEdges_addNode (g : CallGraph) (n : GraphNode) :
    (g.addNode n).1.namedEdges = g.namedEdges := by
  rw [namedEdges, edges_addNode]
  refine List.map_congr_left fun e he => ?_
  obtain ⟨hsource, htarget⟩ := g.coherent.endpoints he
  rw [name_addNode n hsource, name_addNode n htarget]

/-- An edge is added at the end, and the slots stay as they are. -/
theorem exists_addEdge?_of_find? (hu : g.find? u = some i) {j : Nat} (hx : g.find? x = some j) :
    ∃ h, g.addEdge? i j = some h ∧ h.slots = g.slots ∧ h.namedEdges = g.namedEdges ++ [(u, x)] := by
  obtain ⟨h, hh, -⟩ := exists_addEdge? (contains_of_find? hu) (contains_of_find? hx)
  have htable := toGraphTable_of_addEdge? hh
  obtain ⟨id, hid⟩ := g.toGraphTable.exists_edges_addEdge i j
  have hname : h.name = g.name := by
    funext k
    rw [name, name, htable, GraphTable.node?_addEdge]
  refine ⟨h, hh, ?_, ?_⟩
  · rw [htable, GraphTable.addEdge]
    split <;> rfl
  · rw [namedEdges, htable, hid, hname, List.map_append, List.map_singleton, name_of_find? hu,
      name_of_find? hx]
    rfl

/-! ## The invariant -/

/-- The targets of `es` that are not among `names`, in the order of first mention. -/
def newTargets (names : List String) (es : List (String × String)) : List String :=
  (es.map Prod.snd).eraseDups.filter (· ∉ names)

/-- The nodes `ns`, and after them one for each other target of `es`. -/
def laidOut (ns : List GraphNode) (es : List (String × String)) : List GraphNode :=
  ns ++ (newTargets (ns.map GraphNode.name) es).map GraphNode.external

/-- `g` was built from the nodes `ns` by the mentions `es`. -/
structure IsBuiltFrom (ns : List GraphNode) (es : List (String × String)) (g : CallGraph) :
    Prop where
  slots_eq : g.slots.toList = (laidOut ns es).map some
  namedEdges_eq : g.namedEdges = es

theorem laidOut_nil (ns : List GraphNode) : laidOut ns [] = ns := by
  simp [laidOut, newTargets]

theorem map_name_laidOut (ns : List GraphNode) (es : List (String × String)) :
    (laidOut ns es).map GraphNode.name =
      ns.map GraphNode.name ++ newTargets (ns.map GraphNode.name) es := by
  rw [laidOut, List.map_append, List.map_map]
  exact congrArg _ (List.map_id _)

theorem newTargets_concat (names : List String) (es : List (String × String)) (u x : String) :
    newTargets names (es ++ [(u, x)]) =
      if x ∈ names ++ newTargets names es then newTargets names es
      else newTargets names es ++ [x] := by
  rw [newTargets, newTargets, List.map_append, List.map_singleton, eraseDups_concat]
  generalize es.map Prod.snd = xs
  by_cases hnames : x ∈ names <;> by_cases hxs : x ∈ xs <;> simp [hnames, hxs]

/-- A mention of a name without a node makes a node. -/
theorem laidOut_concat (ns : List GraphNode) (es : List (String × String)) (u x : String) :
    laidOut ns (es ++ [(u, x)]) =
      if x ∈ (laidOut ns es).map GraphNode.name then laidOut ns es
      else laidOut ns es ++ [.external x] := by
  rw [map_name_laidOut, laidOut, newTargets_concat]
  split
  · rfl
  · rw [List.map_append, ← List.append_assoc]
    rfl

theorem IsBuiltFrom.slots_addNode (hg : IsBuiltFrom ns es g) (u x : String) :
    (g.addNode (.external x)).1.slots.toList = (laidOut ns (es ++ [(u, x)])).map some := by
  rw [laidOut_concat]
  split
  case isTrue hx =>
    rw [addNode_of_mem hg.slots_eq hx, hg.slots_eq]
  case isFalse hx =>
    exact CallGraph.slots_addNode hg.slots_eq hx

/-- A link adds one mention. -/
theorem IsBuiltFrom.linkTo (hg : IsBuiltFrom ns es g) (hu : g.find? u = some i) (x : String) :
    IsBuiltFrom ns (es ++ [(u, x)]) (linkTo i g x) := by
  obtain ⟨h, hh, hslots, hedges⟩ := exists_addEdge?_of_find?
    (grows_addNode g (.external x) hu) (find?_addNode_self g (.external x))
  have hlink : CallGraph.linkTo i g x = h := by
    rw [CallGraph.linkTo]
    change ((g.addNode (.external x)).1.addEdge? i (g.addNode (.external x)).2).getD _ = h
    rw [hh]
    rfl
  rw [hlink]
  refine ⟨?_, ?_⟩
  · rw [hslots, hg.slots_addNode u x]
  · rw [hedges, namedEdges_addNode, hg.namedEdges_eq]
    rfl

theorem IsBuiltFrom.foldl_linkTo (hg : IsBuiltFrom ns es g) (hu : g.find? u = some i)
    (xs : List String) :
    IsBuiltFrom ns (es ++ xs.map fun x => (u, x)) (xs.foldl (CallGraph.linkTo i) g) := by
  induction xs generalizing g es with
  | nil => simpa using hg
  | cons x xs ih =>
    have hrest := ih (hg.linkTo hu x) ((adds_linkTo hu x).grows hu)
    rwa [List.append_assoc, List.singleton_append] at hrest

/-- The nodes of the first round keep their numbers, so they are found. -/
theorem IsBuiltFrom.find?_eq (hg : IsBuiltFrom ns es g) {n : GraphNode} (hn : ns[i]? = some n) :
    g.find? n.name = some i := by
  refine find?_eq_some_iff.mpr ⟨n, ?_, rfl⟩
  obtain ⟨hi, -⟩ := List.getElem?_eq_some_iff.mp hn
  rw [node?_of_slots hg.slots_eq, laidOut, List.getElem?_append_left hi, hn]

/-- A record adds its mentions. -/
theorem IsBuiltFrom.linkAll (hg : IsBuiltFrom ns es g) {c : Callable}
    (hc : g.find? c.name = some i) (targets : Callable → NameSet) :
    IsBuiltFrom ns (es ++ (targets c).toList.map fun x => (c.name, x)) (linkAll targets g c) := by
  rw [CallGraph.linkAll, hc]
  exact hg.foldl_linkTo hc _

/-- All pairs of caller and target: by the order of the records, and for one record by name. -/
def mentions (targets : Callable → NameSet) (cs : List Callable) : List (String × String) :=
  cs.flatMap fun c => (targets c).toList.map fun x => (c.name, x)

/-- The second round adds the mentions of all records. -/
theorem IsBuiltFrom.foldl_linkAll (hg : IsBuiltFrom ns es g) {cs : List Callable}
    (hcs : ∀ c ∈ cs, GraphNode.ofCallable c ∈ ns) (targets : Callable → NameSet) :
    IsBuiltFrom ns (es ++ mentions targets cs) (cs.foldl (CallGraph.linkAll targets) g) := by
  induction cs generalizing g es with
  | nil => simpa [mentions] using hg
  | cons c cs ih =>
    obtain ⟨i, hi⟩ := List.mem_iff_getElem?.mp (hcs c List.mem_cons_self)
    have hfound : g.find? c.name = some i := hg.find?_eq hi
    have hrest := ih (hg.linkAll hfound targets) fun b hb => hcs b (List.mem_cons_of_mem c hb)
    rwa [List.append_assoc] at hrest

/-! ## The first round -/

theorem slots_foldl_addNode {cs : List Callable} (hg : g.slots.toList = ns.map some)
    (hcs : (ns.map GraphNode.name ++ cs.map Callable.name).Nodup) :
    (cs.foldl (fun g c => (g.addNode (.ofCallable c)).1) g).slots.toList =
      (ns ++ cs.map GraphNode.ofCallable).map some := by
  induction cs generalizing g ns with
  | nil => simpa using hg
  | cons c cs ih =>
    have hc : (GraphNode.ofCallable c).name ∉ ns.map GraphNode.name := fun hmem =>
      (List.nodup_append.mp hcs).2.2 _ hmem c.name (by simp) rfl
    have hrest := ih (slots_addNode hg hc) (by simpa [GraphNode.ofCallable] using hcs)
    rwa [List.append_assoc, List.singleton_append, ← List.map_cons] at hrest

theorem namedEdges_foldl_addNode (cs : List Callable) (g : CallGraph) :
    (cs.foldl (fun g c => (g.addNode (.ofCallable c)).1) g).namedEdges = g.namedEdges := by
  induction cs generalizing g with
  | nil => rfl
  | cons c cs ih => rw [List.foldl_cons, ih, namedEdges_addNode]

theorem isBuiltFrom_nodesOf (r : Registry) :
    IsBuiltFrom (r.entries.map .ofCallable) [] (nodesOf r) where
  slots_eq := by
    have hempty : (∅ : CallGraph).slots.toList = ([] : List GraphNode).map some := rfl
    rw [laidOut_nil]
    exact slots_foldl_addNode hempty r.nodup
  namedEdges_eq := namedEdges_foldl_addNode r.entries ∅

/-! ## Both rounds -/

/-- The graph while it is built: some records have had their turn. -/
theorem isBuiltFrom_foldl_linkAll {before : List Callable} (hbefore : before ⊆ r.entries) :
    IsBuiltFrom (r.entries.map .ofCallable) (mentions targets before)
      (before.foldl (linkAll targets) (nodesOf r)) :=
  (isBuiltFrom_nodesOf r).foldl_linkAll (fun _ hc => List.mem_map_of_mem (hbefore hc)) targets

/-- Nothing is removed, so edges are numbered by age. -/
theorem edgesById_ofRelation (targets : Callable → NameSet) (r : Registry) :
    (ofRelation targets r).edgesById = (ofRelation targets r).edges := by
  obtain ⟨cs, hcs, hg⟩ := exists_history_removeNodes_ofRelation targets r []
  exact mergeSort_id_eq_of_perm (.refl _) (increasing_and_freeEdges hg hcs).1

theorem map_name_edgePairs_ofRelation (targets : Callable → NameSet) (r : Registry) :
    (ofRelation targets r).edgePairs.map
        (Prod.map (ofRelation targets r).name (ofRelation targets r).name) =
      (ofRelation targets r).namedEdges := by
  rw [edgePairs, edgesById_ofRelation, List.map_map]
  rfl

theorem nodup_mentions (targets : Callable → NameSet) (r : Registry) :
    (mentions targets r.entries).Nodup := by
  refine List.nodup_flatMap.mpr ⟨fun c _ => ?_, ?_⟩
  · have hnodup : (targets c).toList.Nodup := (targets c).increasing.imp String.ne_of_lt
    exact hnodup.map fun x y hxy => (Prod.mk.inj hxy).2
  · refine (List.pairwise_map.mp r.nodup).imp fun {b c} hbc => ?_
    rw [Function.onFun, List.disjoint_left]
    intro p hp hp'
    obtain ⟨x, -, rfl⟩ := List.mem_map.mp hp
    obtain ⟨y, -, hy⟩ := List.mem_map.mp hp'
    exact hbc (Prod.mk.inj hy).1.symm

/-- The targets that have no record, in the order of first mention. -/
def unknownTargets (targets : Callable → NameSet) (r : Registry) : List String :=
  (r.entries.flatMap fun c => (targets c).toList).eraseDups.filter (· ∉ r.names)

/-- The graph `g` shows the registry `r` and its targets in order. -/
structure Mirrors (targets : Callable → NameSet) (r : Registry) (g : CallGraph) : Prop where
  /-- The numbers start at zero and have no gaps. -/
  nodes_eq : g.nodes = List.range (r.size + (unknownTargets targets r).length)
  /-- The first numbers are those of the records, and the others those of unknown targets. -/
  node?_eq : ∀ i, g.node? i =
    (r.entries.map GraphNode.ofCallable ++
      (unknownTargets targets r).map GraphNode.external)[i]?
  /-- The edges, by their numbers, are the pairs of caller and target. -/
  edgePairs_eq : g.edgePairs.map (Prod.map g.name g.name) = mentions targets r.entries
  nodup_edgePairs : g.edgePairs.Nodup
  /-- Nothing leads away from an unknown target. -/
  outgoing_eq : ∀ i, r.size ≤ i → g.outgoing i = []
  /-- When the turn of a record comes, its node is found, and it has the number of the record. -/
  find?_caller : ∀ before c after, r.entries = before ++ c :: after →
    (before.foldl (linkAll targets) (nodesOf r)).find? c.name = some before.length

theorem laidOut_mentions (targets : Callable → NameSet) (r : Registry) :
    laidOut (r.entries.map .ofCallable) (mentions targets r.entries) =
      r.entries.map GraphNode.ofCallable ++
        (unknownTargets targets r).map GraphNode.external := by
  have htargets : (mentions targets r.entries).map Prod.snd =
      r.entries.flatMap fun c => (targets c).toList := by
    simp [mentions, List.map_flatMap, Function.comp_def]
  have hnames : (r.entries.map GraphNode.ofCallable).map GraphNode.name = r.names := by
    rw [List.map_map]
    rfl
  rw [laidOut, newTargets, htargets, hnames, unknownTargets]

/-- After the records come nodes of names that have none. -/
theorem name_notMem_names (hnode : ∀ i, g.node? i =
      (r.entries.map GraphNode.ofCallable ++
        (unknownTargets targets r).map GraphNode.external)[i]?)
    (hi : r.size ≤ i) (hcontains : g.contains i) : g.name i ∉ r.names := by
  obtain ⟨n, hn⟩ := contains_iff.mp hcontains
  have hlength : (r.entries.map GraphNode.ofCallable).length ≤ i := by
    rw [List.length_map]
    exact hi
  rw [name_eq_of_node? hn]
  rw [hnode, List.getElem?_append_right hlength] at hn
  obtain ⟨x, hx, rfl⟩ := List.mem_map.mp (List.mem_of_getElem? hn)
  exact of_decide_eq_true (List.mem_filter.mp hx).2

/-- The graph of a relation mirrors the registry. -/
theorem mirrors_ofRelation (targets : Callable → NameSet) (r : Registry) :
    Mirrors targets r (ofRelation targets r) := by
  have hbuilt : IsBuiltFrom (r.entries.map .ofCallable) (mentions targets r.entries)
      (ofRelation targets r) := isBuiltFrom_foldl_linkAll (List.Subset.refl _)
  have hslots := hbuilt.slots_eq
  rw [laidOut_mentions] at hslots
  have hedges : (ofRelation targets r).edgePairs.map
      (Prod.map (ofRelation targets r).name (ofRelation targets r).name) =
      mentions targets r.entries :=
    (map_name_edgePairs_ofRelation targets r).trans hbuilt.namedEdges_eq
  refine ⟨?_, node?_of_slots hslots, hedges, ?_, fun i hi => ?_, fun before c after hsplit => ?_⟩
  · rw [nodes_of_slots hslots, List.length_append, List.length_map, List.length_map]
    rfl
  · exact List.Nodup.of_map _ (hedges ▸ nodup_mentions targets r)
  · refine List.filter_eq_nil_iff.mpr fun e he hsource => ?_
    have hcalls : (ofRelation targets r).Calls i e.target :=
      ⟨e, he, of_decide_eq_true hsource, rfl⟩
    have hmention : ((ofRelation targets r).name i, (ofRelation targets r).name e.target) ∈
        mentions targets r.entries := hedges ▸ List.mem_map_of_mem (mem_edgePairs.mpr hcalls)
    obtain ⟨c, hc, hpair⟩ := List.mem_flatMap.mp hmention
    obtain ⟨x, -, hx⟩ := List.mem_map.mp hpair
    refine name_notMem_names (node?_of_slots hslots) hi hcalls.contains_source ?_
    rw [← (Prod.mk.inj hx).1]
    exact List.mem_map_of_mem hc
  · have hbefore : before ⊆ r.entries := by
      rw [hsplit]
      exact List.subset_append_left before _
    refine (isBuiltFrom_foldl_linkAll hbefore).find?_eq (n := .ofCallable c) ?_
    rw [hsplit, List.getElem?_map, List.getElem?_append_right (Nat.le_refl _), Nat.sub_self]
    rfl

/-- **Graphs mirror registries.** The nodes are the records and then the unknown targets, in the
order of first mention, and the edges are the pairs of caller and target, in order and without
repetition. -/
theorem mirrors_ofCalls_ofModules (r : Registry) :
    Mirrors Callable.calls r (ofCalls r) ∧ Mirrors Callable.usesModules r (ofModules r) :=
  ⟨mirrors_ofRelation Callable.calls r, mirrors_ofRelation Callable.usesModules r⟩

end CallGraph

end CallAtlas
