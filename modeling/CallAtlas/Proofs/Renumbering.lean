import CallAtlas.Proofs.RelationGraph
import CallAtlas.Proofs.SecondRun

/-!
# Views do not depend on the order of definitions

Two registries with the same records in different orders have graphs that differ in the numbers of
their nodes and edges. By name they are the same: `SameByName`. No step of a query can tell such
graphs apart. Every step removes nodes, and whether a node goes is decided by its record, by the
calls to it, or by the lengths of the paths to it. The node of the same name in the other graph,
which has another number, shares its fate.

The depth by distance and the order of a drawing follow. Depth by the walk over first predecessors
is left out: it is the numbers of the edges that say which predecessor is the first.

## Main definitions

* `CallGraph.SameByName`, `View.SameByName` — equal up to numbers
* `CallGraph.Matches` — the nodes of one name in two graphs
* `Drawing.depth?` — the depth of a name

## Main results

* `CallGraph.sameByName_ofRelation` — the graphs of two registries
* `CallGraph.SameByName.of_isInduced` — removing corresponding nodes
* `CallGraph.SameByName.exclude`, `CallGraph.SameByName.filterList` — the steps of a query
* `CallGraph.SameByName.survivors`, `Query.sameByName_view` — all of its steps
* `Drawing.map_name_displayOrder_eq` — the order of a drawing
* `Query.run_ofRelation_of_perm` — the result of a query
-/

namespace CallAtlas

namespace CallGraph

variable {g h g' h' : CallGraph} {roots roots' : List Nat} {i j k l : Nat} {x : String}

/-! ## Graphs that are the same by name -/

/-- The two graphs have the same nodes and the same edges, numbers aside. -/
structure SameByName (g h : CallGraph) : Prop where
  record?_eq : ∀ x, g.record? x = h.record? x
  hasEdge_iff : ∀ u v, g.HasEdge u v ↔ h.HasEdge u v

theorem SameByName.symm (hgh : g.SameByName h) : h.SameByName g :=
  ⟨fun x => (hgh.record?_eq x).symm, fun u v => (hgh.hasEdge_iff u v).symm⟩

/-- `i` in the first graph and `j` in the second are the nodes of one name. -/
def Matches (g h : CallGraph) (i j : Nat) : Prop :=
  ∃ x, g.find? x = some i ∧ h.find? x = some j

theorem Matches.symm (hij : g.Matches h i j) : h.Matches g j i := by
  obtain ⟨x, hi, hj⟩ := hij
  exact ⟨x, hj, hi⟩

theorem Matches.contains_left (hij : g.Matches h i j) : g.contains i := by
  obtain ⟨x, hi, -⟩ := hij
  exact contains_of_find? hi

theorem Matches.contains_iff (hij : g.Matches h i j) : g.contains i ↔ h.contains j :=
  iff_of_true hij.contains_left hij.symm.contains_left

theorem Matches.name_eq (hij : g.Matches h i j) : g.name i = h.name j := by
  obtain ⟨x, hi, hj⟩ := hij
  rw [name_of_find? hi, name_of_find? hj]

theorem Matches.find?_iff (hij : g.Matches h i j) : g.find? x = some i ↔ h.find? x = some j := by
  obtain ⟨y, hi, hj⟩ := hij
  constructor
  · intro hx
    rwa [find?_inj hx hi]
  · intro hx
    rwa [find?_inj hx hj]

theorem Matches.eq_iff (hij : g.Matches h i j) (hkl : g.Matches h k l) : i = k ↔ j = l := by
  obtain ⟨x, hi, hj⟩ := hij
  constructor
  · rintro rfl
    exact Option.some.inj (hj.symm.trans (hkl.find?_iff.mp hi))
  · rintro rfl
    exact Option.some.inj (hi.symm.trans (hkl.find?_iff.mpr hj))

theorem record?_eq_node? (hi : g.find? x = some i) : g.record? x = g.node? i := by
  rw [record?, hi, Option.bind_some]

theorem isSome_record? (g : CallGraph) (x : String) :
    (g.record? x).isSome = (g.find? x).isSome := by
  cases hi : g.find? x with
  | none => rw [record?, hi]; rfl
  | some i => rw [record?_eq_node? hi]; exact contains_of_find? hi

namespace SameByName

variable (hgh : g.SameByName h)

include hgh

theorem isSome_find? (x : String) : (g.find? x).isSome = (h.find? x).isSome := by
  rw [← isSome_record?, ← isSome_record?, hgh.record?_eq]

theorem exists_matches_of_find? (hi : g.find? x = some i) :
    ∃ j, h.find? x = some j ∧ g.Matches h i j := by
  have hsome : (h.find? x).isSome := by rw [← hgh.isSome_find? x, hi]; rfl
  obtain ⟨j, hj⟩ := Option.isSome_iff_exists.mp hsome
  exact ⟨j, hj, x, hi, hj⟩

theorem exists_matches (hi : g.contains i) : ∃ j, g.Matches h i j := by
  obtain ⟨x, hx⟩ := exists_find?_of_contains hi
  obtain ⟨j, -, hij⟩ := hgh.exists_matches_of_find? hx
  exact ⟨j, hij⟩

theorem node?_eq (hij : g.Matches h i j) : g.node? i = h.node? j := by
  obtain ⟨x, hi, hj⟩ := hij
  rw [← record?_eq_node? hi, ← record?_eq_node? hj, hgh.record?_eq]

theorem calls_of_calls (hij : g.Matches h i j) (hkl : g.Matches h k l) (hc : g.Calls i k) :
    h.Calls j l := by
  obtain ⟨x, hi, hj⟩ := hij
  obtain ⟨y, hk, hl⟩ := hkl
  obtain ⟨j', l', hj', hl', hc'⟩ := (hgh.hasEdge_iff x y).mp ⟨i, k, hi, hk, hc⟩
  obtain rfl : j = j' := Option.some.inj (hj.symm.trans hj')
  obtain rfl : l = l' := Option.some.inj (hl.symm.trans hl')
  exact hc'

theorem calls_iff (hij : g.Matches h i j) (hkl : g.Matches h k l) :
    g.Calls i k ↔ h.Calls j l :=
  ⟨hgh.calls_of_calls hij hkl, hgh.symm.calls_of_calls hij.symm hkl.symm⟩

end SameByName

/-! ## Removing corresponding nodes -/

/-- A node is found in an induced sub-graph exactly if it was there before and has stayed. -/
theorem IsInduced.find?_eq_some_iff (hg : IsInduced g' g) :
    g'.find? x = some i ↔ g.find? x = some i ∧ g'.contains i := by
  rw [hg.find?_eq, Option.filter_eq_some_iff]

theorem Matches.of_isInduced (hg : IsInduced g' g) (hh : IsInduced h' h)
    (hij : g'.Matches h' i j) : g.Matches h i j := by
  obtain ⟨x, hi, hj⟩ := hij
  exact ⟨x, hg.find?_eq_some hi, hh.find?_eq_some hj⟩

section

variable (hgh : g.SameByName h) (hg : IsInduced g' g) (hh : IsInduced h' h)

include hgh hg hh

theorem SameByName.exists_matches_of_isInduced
    (hkeep : ∀ {i j}, g.Matches h i j → g'.contains i → h'.contains j)
    (hi : g'.find? x = some i) : ∃ j, h'.find? x = some j ∧ g.Matches h i j := by
  obtain ⟨hi, hstay⟩ := hg.find?_eq_some_iff.mp hi
  obtain ⟨j, hj, hij⟩ := hgh.exists_matches_of_find? hi
  exact ⟨j, hh.find?_eq_some_iff.mpr ⟨hj, hkeep hij hstay⟩, hij⟩

theorem SameByName.record?_of_isInduced {a : GraphNode}
    (hkeep : ∀ {i j}, g.Matches h i j → g'.contains i → h'.contains j)
    (ha : g'.record? x = some a) : h'.record? x = some a := by
  obtain ⟨i, hi, ha⟩ := Option.bind_eq_some_iff.mp ha
  obtain ⟨j, hj, hij⟩ := hgh.exists_matches_of_isInduced hg hh hkeep hi
  calc h'.record? x
    _ = h'.node? j := record?_eq_node? hj
    _ = h.node? j := hh.node?_eq (contains_of_find? hj)
    _ = g.node? i := (hgh.node?_eq hij).symm
    _ = g'.node? i := (hg.node?_eq (contains_of_find? hi)).symm
    _ = some a := ha

theorem SameByName.hasEdge_of_isInduced {u v : String}
    (hkeep : ∀ {i j}, g.Matches h i j → g'.contains i → h'.contains j)
    (hc : g'.HasEdge u v) : h'.HasEdge u v := by
  obtain ⟨i, k, hi, hk, hc⟩ := hc
  obtain ⟨j, hj, hij⟩ := hgh.exists_matches_of_isInduced hg hh hkeep hi
  obtain ⟨l, hl, hkl⟩ := hgh.exists_matches_of_isInduced hg hh hkeep hk
  have hcalls : h.Calls j l := (hgh.calls_iff hij hkl).mp (hg.calls_iff.mp hc).1
  exact ⟨j, l, hj, hl, hh.calls_iff.mpr ⟨hcalls, contains_of_find? hj, contains_of_find? hl⟩⟩

/-- **Parts of two graphs are the same by name** if the graphs are and the parts keep corresponding
nodes. -/
theorem SameByName.of_isInduced
    (hkeep : ∀ {i j}, g.Matches h i j → (g'.contains i ↔ h'.contains j)) : g'.SameByName h' := by
  have hleft : ∀ {i j}, g.Matches h i j → g'.contains i → h'.contains j :=
    fun hij => (hkeep hij).mp
  have hright : ∀ {j i}, h.Matches g j i → h'.contains j → g'.contains i :=
    fun hji => (hkeep hji.symm).mpr
  refine ⟨fun x => Option.ext fun a => ?_, fun u v => ?_⟩
  · exact ⟨hgh.record?_of_isInduced hg hh hleft, hgh.symm.record?_of_isInduced hh hg hright⟩
  · exact ⟨hgh.hasEdge_of_isInduced hg hh hleft, hgh.symm.hasEdge_of_isInduced hh hg hright⟩

end

/-! ## The steps of a query -/

namespace SameByName

variable (hgh : g.SameByName h)

include hgh

theorem exclude (names files : List String) :
    (g.exclude names files).SameByName (h.exclude names files) := by
  refine hgh.of_isInduced (isInduced_removeNodes g _) (isInduced_removeNodes h _) fun hij => ?_
  rw [contains_exclude, contains_exclude, isExcluded, isExcluded, hgh.node?_eq hij,
    hij.contains_iff]

theorem condemned_of_condemned {action : FilterAction} {list : String × List String}
    (hkl : g.Matches h k l) (hk : g.Condemned action list k) : h.Condemned action list l := by
  obtain ⟨i, hi, hsucc, hne, hlist⟩ := hk
  obtain ⟨j, hj, hij⟩ := hgh.exists_matches_of_find? hi
  refine ⟨j, hj, ?_, mt (hkl.eq_iff hij).mpr hne, hkl.name_eq ▸ hlist⟩
  rw [mem_successors] at hsucc ⊢
  exact (hgh.calls_iff hij hkl).mp hsucc

theorem filterList (action : FilterAction) (list : String × List String) :
    (filterList action g list).SameByName (filterList action h list) := by
  refine hgh.of_isInduced (isInduced_filterList action g list) (isInduced_filterList action h list)
    fun hij => ?_
  rw [contains_filterList, contains_filterList, hij.contains_iff]
  exact and_congr_right fun _ => not_congr
    ⟨hgh.condemned_of_condemned hij, hgh.symm.condemned_of_condemned hij.symm⟩

theorem applyFilter (f : ConnectionFilter) : (g.applyFilter f).SameByName (h.applyFilter f) :=
  List.foldl_rel hgh fun list _ _ _ hstep => hstep.filterList f.action list

/-- What exclusion and filters leave is the same by name, although each list applies to what the
lists before it have left. -/
theorem survivors (q : Query) : (q.survivors g).SameByName (q.survivors h) :=
  List.foldl_rel (hgh.exclude q.excludeNodes q.excludeFiles) fun f _ _ _ hstep =>
    hstep.applyFilter f

/-! ## Paths -/

theorem reachesIn_of_reachesIn (hroots : ∀ {i j}, g.Matches h i j → i ∈ roots → j ∈ roots')
    (hij : g.Matches h i j) (hk : g.ReachesIn roots k i) : h.ReachesIn roots' k j := by
  induction k generalizing i j with
  | zero => exact hroots hij hk
  | succ k ih =>
    obtain ⟨m, hm, hc⟩ := hk
    obtain ⟨n, hmn⟩ := hgh.exists_matches hc.contains_source
    exact ⟨n, ih hmn hm, (hgh.calls_iff hmn hij).mp hc⟩

/-- The paths from corresponding roots to corresponding nodes have the same lengths. -/
theorem reachesIn_iff (hroots : ∀ {i j}, g.Matches h i j → (i ∈ roots ↔ j ∈ roots'))
    (hij : g.Matches h i j) : g.ReachesIn roots k i ↔ h.ReachesIn roots' k j :=
  ⟨hgh.reachesIn_of_reachesIn (fun hij => (hroots hij).mp) hij,
    hgh.symm.reachesIn_of_reachesIn (fun hji => (hroots hji.symm).mpr) hij.symm⟩

theorem isDistance (hroots : ∀ {i j}, g.Matches h i j → (i ∈ roots ↔ j ∈ roots'))
    (hij : g.Matches h i j) (hk : g.IsDistance roots i k) : h.IsDistance roots' j k :=
  ⟨(hgh.reachesIn_iff hroots hij).mp hk.reachesIn,
    fun hm => hk.le ((hgh.reachesIn_iff hroots hij).mpr hm)⟩

end SameByName

/-! ## The graphs of a registry -/

/-- The order of the records does not matter to the graph of a relation, numbers aside. -/
theorem sameByName_ofRelation (targets : Callable → NameSet) {r s : Registry}
    (hperm : r.entries.Perm s.entries) :
    (ofRelation targets r).SameByName (ofRelation targets s) := by
  have hfind : ∀ x, r.find? x = s.find? x := by
    intro x
    refine Option.ext fun c => ?_
    rw [Registry.find?_eq_some_iff, Registry.find?_eq_some_iff, hperm.mem_iff]
  refine ⟨fun x => ?_, fun u v => ?_⟩
  · rw [record?_ofRelation, record?_ofRelation, hfind, hperm.any_eq]
  · rw [hasEdge_ofRelation, hasEdge_ofRelation, hfind]

end CallGraph

/-! ## Drawings -/

namespace Drawing

variable {d e : Drawing} {x y : String}

/-- The depth of the node with a name. -/
def depth? (d : Drawing) (x : String) : Option Nat :=
  (d.graph.find? x).map d.depths.get

theorem depth?_ofView (v : View) (mode : DepthMode) (x : String) :
    (ofView v mode).depth? x = (v.graph.find? x).map (v.graph.depths v.roots mode).get := rfl

/-- The node `x` lies less deep than the node `y`, or as deep and has a name that is not greater. -/
def Precedes (d : Drawing) (x y : String) : Prop :=
  ∃ m n, d.depth? x = some m ∧ d.depth? y = some n ∧ (m < n ∨ m = n ∧ ¬ y < x)

theorem Precedes.antisymm (hxy : d.Precedes x y) (hyx : d.Precedes y x) : x = y := by
  obtain ⟨m, n, hm, hn, hmn⟩ := hxy
  obtain ⟨n', m', hn', hm', hnm⟩ := hyx
  obtain rfl : m = m' := Option.some.inj (hm.symm.trans hm')
  obtain rfl : n = n' := Option.some.inj (hn.symm.trans hn')
  rcases hmn with hlt | ⟨heq, hname⟩
  · omega
  · rcases hnm with hlt | ⟨-, hname'⟩
    · omega
    · exact String.le_antisymm (String.not_lt.mp hname) (String.not_lt.mp hname')

theorem mem_map_name_displayOrder :
    x ∈ d.displayOrder.map d.graph.name ↔ (d.graph.find? x).isSome := by
  rw [List.mem_map, Option.isSome_iff_exists]
  constructor
  · rintro ⟨i, hi, rfl⟩
    exact ⟨i, CallGraph.find?_name (Depths.mem_displayOrder.mp hi)⟩
  · rintro ⟨i, hi⟩
    exact ⟨i, Depths.mem_displayOrder.mpr (CallGraph.contains_of_find? hi),
      CallGraph.name_of_find? hi⟩

theorem nodup_map_name_displayOrder (d : Drawing) : (d.displayOrder.map d.graph.name).Nodup := by
  have hnodes : d.displayOrder.Nodup :=
    (List.mergeSort_perm d.graph.nodes _).nodup_iff.mpr (List.nodup_range.filter _)
  refine hnodes.map_on fun i hi j hj hname => ?_
  have hi' := CallGraph.find?_name (Depths.mem_displayOrder.mp hi)
  have hj' := CallGraph.find?_name (Depths.mem_displayOrder.mp hj)
  rw [hname, hj', Option.some.injEq] at hi'
  exact hi'.symm

/-- The names of a drawing are in order. -/
theorem pairwise_map_name_displayOrder (d : Drawing) :
    (d.displayOrder.map d.graph.name).Pairwise d.Precedes := by
  rw [List.pairwise_map]
  refine (d.depths.pairwise_displayOrder d.graph).imp_of_mem fun {i j} hi hj hij => ?_
  have hdepth : ∀ {i}, i ∈ d.displayOrder → d.depth? (d.graph.name i) = some (d.depths.get i) := by
    intro i hi
    rw [depth?, CallGraph.find?_name (Depths.mem_displayOrder.mp hi)]
    rfl
  exact ⟨_, _, hdepth hi, hdepth hj, Depths.precedes_iff.mp hij⟩

/-- The order of a drawing is determined by names and depths: it is the only arrangement of the
names without repetition that is in order. -/
theorem map_name_displayOrder_eq (hgraph : d.graph.SameByName e.graph)
    (hdepth : ∀ x, d.depth? x = e.depth? x) :
    d.displayOrder.map d.graph.name = e.displayOrder.map e.graph.name := by
  have hprecedes : ∀ {x y}, e.Precedes x y → d.Precedes x y := by
    rintro x y ⟨m, n, hm, hn, hmn⟩
    exact ⟨m, n, (hdepth x).trans hm, (hdepth y).trans hn, hmn⟩
  refine List.Perm.eq_of_pairwise (fun _ _ _ _ => Precedes.antisymm)
    d.pairwise_map_name_displayOrder (e.pairwise_map_name_displayOrder.imp hprecedes) ?_
  refine (List.perm_ext_iff_of_nodup d.nodup_map_name_displayOrder
    e.nodup_map_name_displayOrder).mpr fun x => ?_
  rw [mem_map_name_displayOrder, mem_map_name_displayOrder, hgraph.isSome_find?]

end Drawing

/-! ## Views -/

/-- The two views show the same nodes and edges for the same roots, numbers aside. -/
structure View.SameByName (v w : View) : Prop where
  graph : v.graph.SameByName w.graph
  roots_eq : v.roots.map v.graph.name = w.roots.map w.graph.name

namespace Query

variable {q : Query} {g h : CallGraph} {i j : Nat}

theorem map_name_roots_view (q : Query) (g : CallGraph) :
    (q.view g).roots.map (q.view g).graph.name =
      q.roots.filter fun x => ((q.survivors g).find? x).isSome := by
  rw [roots_view_eq_filterMap, List.map_filterMap, ← List.filterMap_eq_filter]
  refine List.filterMap_congr fun x hx => ?_
  cases hfind : (q.survivors g).find? x with
  | none => simp [Option.guard, hfind]
  | some r =>
    have hname := CallGraph.name_of_find? ((find?_view_of_mem_roots hx).trans hfind)
    simp [Option.guard, hfind, hname]

theorem mem_roots_view_iff_of_matches (hij : (q.survivors g).Matches (q.survivors h) i j) :
    i ∈ (q.view g).roots ↔ j ∈ (q.view h).roots := by
  rw [mem_roots_view_iff_find?, mem_roots_view_iff_find?]
  exact exists_congr fun x => and_congr_right fun _ => hij.find?_iff

section

variable (hgh : g.SameByName h) (hcut : q.maxDepth = none ∨ q.depthMode = .shortestPath)

include hgh hcut

/-- Views of graphs that are the same by name are the same by name. -/
theorem sameByName_view : (q.view g).SameByName (q.view h) := by
  have hsurv := hgh.survivors q
  refine ⟨hsurv.of_isInduced (q.isInduced_view g) (q.isInduced_view h) fun hij => ?_, ?_⟩
  · rw [contains_view_iff hcut, contains_view_iff hcut]
    exact exists_congr fun k => and_congr_right fun _ =>
      hsurv.reachesIn_iff mem_roots_view_iff_of_matches hij
  · simp only [map_name_roots_view, hsurv.isSome_find?]

theorem get_depths_view_of_matches (hij : (q.view g).graph.Matches (q.view h).graph i j) :
    ((q.view g).graph.depths (q.view g).roots .shortestPath).get i =
      ((q.view h).graph.depths (q.view h).roots .shortestPath).get j := by
  have hroots : ∀ {i j}, (q.view g).graph.Matches (q.view h).graph i j →
      (i ∈ (q.view g).roots ↔ j ∈ (q.view h).roots) := fun hij =>
    mem_roots_view_iff_of_matches (hij.of_isInduced (q.isInduced_view g) (q.isInduced_view h))
  -- In such a view the roots reach all nodes, so depths are distances.
  have hi := hij.contains_left
  obtain ⟨k, hk⟩ := CallGraph.exists_isDistance_iff.mpr (reaches_view hcut hi)
  have hk' := (sameByName_view hgh hcut).graph.isDistance hroots hij hk
  rw [CallGraph.get_depths_shortestPath contains_root_view hi hk,
    CallGraph.get_depths_shortestPath contains_root_view hij.symm.contains_left hk']

theorem depth?_view (x : String) :
    (Drawing.ofView (q.view g) .shortestPath).depth? x =
      (Drawing.ofView (q.view h) .shortestPath).depth? x := by
  have hview := (sameByName_view hgh hcut).graph
  rw [Drawing.depth?_ofView, Drawing.depth?_ofView]
  cases hi : (q.view g).graph.find? x with
  | none =>
    have hnone : (q.view h).graph.find? x = none := by
      rw [← Option.not_isSome_iff_eq_none, ← hview.isSome_find? x, hi]
      exact nofun
    rw [hnone, Option.map_none, Option.map_none]
  | some i =>
    obtain ⟨j, hj, hij⟩ := hview.exists_matches_of_find? hi
    rw [hj, Option.map_some, Option.map_some, get_depths_view_of_matches hgh hcut hij]

end

/-- **Views do not depend on the order of definitions**, be they views of calls or of module uses:
for two registries with the same records, a query fails with the same error, or it shows the same
nodes and edges, and they are drawn by distance at the same depths and in the same order. -/
theorem run_ofRelation_of_perm (targets : Callable → NameSet) {r s : Registry}
    (hperm : r.entries.Perm s.entries)
    (hcut : q.maxDepth = none ∨ q.depthMode = .shortestPath) :
    (∃ e, q.run (.ofRelation targets r) = .error e ∧ q.run (.ofRelation targets s) = .error e) ∨
    ∃ v w, q.run (.ofRelation targets r) = .ok v ∧ q.run (.ofRelation targets s) = .ok w ∧
      v.SameByName w ∧
      (∀ x, (Drawing.ofView v .shortestPath).depth? x =
        (Drawing.ofView w .shortestPath).depth? x) ∧
      (Drawing.ofView v .shortestPath).displayOrder.map v.graph.name =
        (Drawing.ofView w .shortestPath).displayOrder.map w.graph.name := by
  have hbase := CallGraph.sameByName_ofRelation targets hperm
  have hmissing : (fun x => ((CallGraph.ofRelation targets r).find? x).isNone) =
      fun x => ((CallGraph.ofRelation targets s).find? x).isNone := by
    funext x
    rw [← Option.not_isSome, ← Option.not_isSome, hbase.isSome_find?]
  cases hroots : q.roots.find? fun x => ((CallGraph.ofRelation targets s).find? x).isNone with
  | some x =>
    refine Or.inl ⟨.unknownRoot x, ?_, ?_⟩
    · rw [run, hmissing, hroots]
    · rw [run, hroots]
  | none =>
    have hview := sameByName_view hbase hcut
    have hdepth := depth?_view hbase hcut
    refine Or.inr ⟨q.view _, q.view _, ?_, ?_, hview, hdepth, ?_⟩
    · rw [run, hmissing, hroots]
    · rw [run, hroots]
    · exact Drawing.map_name_displayOrder_eq hview.graph hdepth

end Query

/-- The records of `Registry.selfCalling`, the last one first. -/
def Registry.selfCallingRotated : Registry :=
  ((∅ : Registry).insert (.caller "x" ["a"]) |>.insert (.caller "a" ["a"])).insert
    (.caller "r" ["x"])

/-- The root `r` has the number 1 in one graph and 2 in the other. -/
theorem Query.run_ofRelation_of_perm_selfCalling :
    let q : Query := { roots := ["r"], maxDepth := some 1, depthMode := .shortestPath }
    ∃ v w, q.run (.ofCalls Registry.selfCalling) = .ok v ∧
      q.run (.ofCalls Registry.selfCallingRotated) = .ok w ∧ v.roots = [1] ∧ w.roots = [2] ∧
      v.SameByName w ∧
      (∀ x, (Drawing.ofView v .shortestPath).depth? x =
        (Drawing.ofView w .shortestPath).depth? x) ∧
      (Drawing.ofView v .shortestPath).displayOrder.map v.graph.name =
        (Drawing.ofView w .shortestPath).displayOrder.map w.graph.name := by
  intro q
  have hperm : Registry.selfCalling.entries.Perm Registry.selfCallingRotated.entries :=
    List.perm_append_singleton (Callable.caller "x" ["a"])
      [Callable.caller "a" ["a"], Callable.caller "r" ["x"]]
  have hr : q.run (.ofCalls Registry.selfCalling) = .ok (q.view (.ofCalls Registry.selfCalling)) :=
    run_eq_ok (by decide +kernel)
  have hs : q.run (.ofCalls Registry.selfCallingRotated) =
      .ok (q.view (.ofCalls Registry.selfCallingRotated)) := run_eq_ok (by decide +kernel)
  rcases run_ofRelation_of_perm (q := q) Callable.calls hperm (Or.inr rfl) with
    ⟨e, he, -⟩ | ⟨v, w, hv, hw, hsame⟩
  · cases hr.symm.trans he
  · obtain rfl := eq_view_of_run hv
    obtain rfl := eq_view_of_run hw
    exact ⟨_, _, hv, hw, by decide +kernel, by decide +kernel, hsame⟩

end CallAtlas
