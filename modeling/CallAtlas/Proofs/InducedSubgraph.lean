import CallAtlas.View

/-!
# What removing nodes leaves

Every step of a query takes nodes out of a graph, one after the other. Whatever the order, what
stays is the sub-graph induced on the remaining nodes: a node keeps its number and its record, an
edge stays exactly if both of its ends stay, and the edges keep their numbers and their order.

`IsInduced` states this once. It is reflexive and transitive, `removeNode` satisfies it, and so
every step of a query does: later arguments only ask *which* nodes stay.

## Main definitions

* `CallGraph.Calls` — some edge leads from one node to another.
* `CallGraph.IsInduced` — one graph is an induced sub-graph of another.

## Main results

* `CallGraph.find?_eq_some_iff`, `CallGraph.mem_nodes`, `CallGraph.mem_successors` — reading a
  graph
* `CallGraph.isInduced_removeNodes` — removing nodes leaves an induced sub-graph
* `CallGraph.IsInduced.find?_eq`, `CallGraph.IsInduced.calls_iff` — reading an induced sub-graph
* `Query.isInduced_survivors`, `Query.isInduced_view` — the steps of a query
-/

namespace CallAtlas

namespace CallGraph

variable {g h : CallGraph} {i j : Nat}

/-! ## Reading a graph -/

/-- Some edge leads from `i` to `j`. -/
def Calls (g : CallGraph) (i j : Nat) : Prop :=
  ∃ e ∈ g.edges, e.source = i ∧ e.target = j

theorem contains_iff : g.contains i ↔ ∃ n, g.node? i = some n :=
  Option.isSome_iff_exists

theorem Calls.contains_source (hc : g.Calls i j) : g.contains i := by
  obtain ⟨e, he, rfl, -⟩ := hc
  exact (g.coherent.endpoints he).1

theorem Calls.contains_target (hc : g.Calls i j) : g.contains j := by
  obtain ⟨e, he, -, rfl⟩ := hc
  exact (g.coherent.endpoints he).2

theorem lt_size_of_contains (hi : g.contains i) : i < g.slots.size := by
  obtain ⟨n, hn⟩ := contains_iff.mp hi
  exact (Array.getElem?_eq_some_iff.mp (GraphTable.node?_eq_some.mp hn)).1

theorem mem_nodes : i ∈ g.nodes ↔ g.contains i := by
  rw [nodes, List.mem_filter, List.mem_range]
  exact ⟨fun hi => hi.2, fun hi => ⟨lt_size_of_contains hi, hi⟩⟩

theorem mem_successors : j ∈ g.successors i ↔ g.Calls i j := by
  rw [successors, List.mem_eraseDups, List.mem_mergeSort, List.mem_map]
  constructor
  · rintro ⟨e, he, hj⟩
    rw [GraphTable.outgoing, List.mem_filter, decide_eq_true_eq] at he
    exact ⟨e, he.1, he.2, hj⟩
  · rintro ⟨e, he, hi, hj⟩
    exact ⟨e, List.mem_filter.mpr ⟨he, decide_eq_true hi⟩, hj⟩

theorem find?_eq_some_iff {name : String} :
    g.find? name = some i ↔ ∃ n, g.node? i = some n ∧ n.name = name :=
  g.indexed name i

theorem name_eq_of_node? {a : GraphNode} (ha : g.node? i = some a) : g.name i = a.name := by
  rw [name, ha]
  rfl

theorem find?_name (hi : g.contains i) : g.find? (g.name i) = some i := by
  obtain ⟨a, ha⟩ := contains_iff.mp hi
  exact find?_eq_some_iff.mpr ⟨a, ha, (name_eq_of_node? ha).symm⟩

theorem name_of_find? {x : String} (hi : g.find? x = some i) : g.name i = x := by
  obtain ⟨a, ha, rfl⟩ := find?_eq_some_iff.mp hi
  exact name_eq_of_node? ha

theorem find?_inj {u v : String} (hu : g.find? u = some i) (hv : g.find? v = some i) : u = v := by
  obtain ⟨a, ha, rfl⟩ := find?_eq_some_iff.mp hu
  obtain ⟨b, hb, rfl⟩ := find?_eq_some_iff.mp hv
  rw [ha, Option.some.injEq] at hb
  rw [hb]

theorem contains_of_find? {x : String} (hi : g.find? x = some i) : g.contains i := by
  obtain ⟨n, hn, -⟩ := find?_eq_some_iff.mp hi
  exact contains_iff.mpr ⟨n, hn⟩

theorem exists_find?_of_contains (hi : g.contains i) : ∃ x, g.find? x = some i := by
  obtain ⟨n, hn⟩ := contains_iff.mp hi
  exact ⟨n.name, find?_eq_some_iff.mpr ⟨n, hn, rfl⟩⟩

/-- A name that leads to `i` is the name of no other node. -/
theorem eq_name_iff {x : String} (hi : g.find? x = some i) (hj : g.contains j) :
    x = g.name j ↔ j = i := by
  constructor
  · rintro rfl
    exact Option.some.inj ((find?_name hj).symm.trans hi)
  · rintro rfl
    exact (name_of_find? hi).symm

/-! ## Induced sub-graphs -/

/-- `h` is the sub-graph of `g` induced on the nodes of `h`. The slots of `h` are those of `g`,
some of them empty. -/
structure IsInduced (h g : CallGraph) : Prop where
  /-- A node that stays keeps its number and its record. -/
  node?_eq : ∀ {i : Nat}, h.contains i → h.node? i = g.node? i
  /-- The edges between two nodes that stay, with their numbers and in their order. -/
  edges_eq : h.edges = g.edges.filter fun e => h.contains e.source && h.contains e.target
  /-- There are as many slots as before. -/
  size_eq : h.slots.size = g.slots.size

theorem IsInduced.contains (hg : IsInduced h g) (hi : h.contains i) : g.contains i := by
  rw [CallGraph.contains, ← hg.node?_eq hi]
  exact hi

theorem IsInduced.refl (g : CallGraph) : IsInduced g g where
  node?_eq _ := rfl
  edges_eq := by
    refine (List.filter_eq_self.mpr fun e he => ?_).symm
    obtain ⟨hs, ht⟩ := g.coherent.endpoints he
    rw [Bool.and_eq_true]
    exact ⟨hs, ht⟩
  size_eq := rfl

theorem IsInduced.trans {a b c : CallGraph} (hcb : IsInduced c b) (hba : IsInduced b a) :
    IsInduced c a where
  node?_eq hi := (hcb.node?_eq hi).trans (hba.node?_eq (hcb.contains hi))
  edges_eq := by
    rw [hcb.edges_eq, hba.edges_eq, List.filter_filter]
    refine List.filter_congr fun e _ => ?_
    rw [Bool.eq_iff_iff]
    simp only [Bool.and_eq_true]
    exact ⟨fun he => he.1, fun he => ⟨he, hcb.contains he.1, hcb.contains he.2⟩⟩
  size_eq := hcb.size_eq.trans hba.size_eq

theorem IsInduced.calls_iff (hg : IsInduced h g) :
    h.Calls i j ↔ g.Calls i j ∧ h.contains i ∧ h.contains j := by
  constructor
  · intro hc
    refine ⟨?_, hc.contains_source, hc.contains_target⟩
    obtain ⟨e, he, hi, hj⟩ := hc
    rw [hg.edges_eq] at he
    exact ⟨e, (List.mem_filter.mp he).1, hi, hj⟩
  · rintro ⟨⟨e, he, rfl, rfl⟩, hi, hj⟩
    refine ⟨e, ?_, rfl, rfl⟩
    rw [hg.edges_eq, List.mem_filter, Bool.and_eq_true]
    exact ⟨he, hi, hj⟩

/-- A name leads to the same node as before, unless that node is gone. -/
theorem IsInduced.find?_eq (hg : IsInduced h g) (name : String) :
    h.find? name = (g.find? name).filter h.contains := by
  ext i
  rw [Option.filter_eq_some_iff, find?_eq_some_iff, find?_eq_some_iff]
  constructor
  · rintro ⟨n, hn, hname⟩
    have hi : h.contains i := contains_iff.mpr ⟨n, hn⟩
    exact ⟨⟨n, by rw [← hg.node?_eq hi, hn], hname⟩, hi⟩
  · rintro ⟨⟨n, hn, hname⟩, hi⟩
    exact ⟨n, by rw [hg.node?_eq hi, hn], hname⟩

/-! ## Removing nodes -/

theorem toGraphTable_removeNode (g : CallGraph) (i : Nat) :
    (g.removeNode i).toGraphTable = g.toGraphTable.removeNode i := by
  rw [removeNode]
  split
  case h_1 hi =>
    rw [GraphTable.removeNode, hi]
  case h_2 => rfl

theorem node?_removeNode (g : CallGraph) (i j : Nat) :
    (g.removeNode i).node? j = if j = i then none else g.node? j := by
  rw [toGraphTable_removeNode]
  exact GraphTable.node?_removeNode g.toGraphTable i j

theorem contains_removeNode : (g.removeNode i).contains j ↔ g.contains j ∧ j ≠ i := by
  rw [contains, node?_removeNode]
  split
  case isTrue => simp_all
  case isFalse hji =>
    exact ⟨fun hj => ⟨hj, hji⟩, fun hj => hj.1⟩

theorem edges_removeNode (g : CallGraph) (i : Nat) :
    (g.removeNode i).edges = g.edges.filter fun e => e.source ≠ i && e.target ≠ i := by
  rw [toGraphTable_removeNode, GraphTable.removeNode]
  cases hi : g.node? i with
  | some n => rfl
  | none =>
    -- No edge touches an empty slot, so nothing is filtered out.
    refine (List.filter_eq_self.mpr fun e he => ?_).symm
    obtain ⟨hs, ht⟩ := g.coherent.endpoints he
    have hne : ∀ {k : Nat}, (g.node? k).isSome → k ≠ i := by
      rintro k hk rfl
      simp [hi] at hk
    simp [hne hs, hne ht]

theorem size_removeNode (g : CallGraph) (i : Nat) :
    (g.removeNode i).slots.size = g.slots.size := by
  rw [toGraphTable_removeNode, GraphTable.removeNode]
  split
  · rfl
  · exact Array.size_setIfInBounds

theorem isInduced_removeNode (g : CallGraph) (i : Nat) : IsInduced (g.removeNode i) g where
  node?_eq {j} hj := by rw [node?_removeNode, if_neg (contains_removeNode.mp hj).2]
  edges_eq := by
    rw [edges_removeNode]
    refine List.filter_congr fun e he => ?_
    obtain ⟨hs, ht⟩ := g.coherent.endpoints he
    rw [Bool.eq_iff_iff]
    simp only [Bool.and_eq_true, decide_eq_true_eq, contains_removeNode]
    exact ⟨fun hne => ⟨⟨hs, hne.1⟩, ht, hne.2⟩, fun hc => ⟨hc.1.2, hc.2.2⟩⟩
  size_eq := size_removeNode g i

theorem isInduced_removeNodes (g : CallGraph) (is : List Nat) :
    IsInduced (g.removeNodes is) g := by
  induction is generalizing g with
  | nil => exact .refl g
  | cons i is ih => exact (ih (g.removeNode i)).trans (isInduced_removeNode g i)

theorem contains_removeNodes {is : List Nat} :
    (g.removeNodes is).contains j ↔ g.contains j ∧ j ∉ is := by
  induction is generalizing g with
  | nil => simp [removeNodes]
  | cons i is ih =>
    have hstep : g.removeNodes (i :: is) = (g.removeNode i).removeNodes is := rfl
    rw [hstep, ih, contains_removeNode, List.mem_cons, not_or, and_assoc]

/-- Removing the nodes that satisfy a condition leaves those that do not. -/
theorem contains_removeNodes_filter {p : Nat → Bool} :
    (g.removeNodes (g.nodes.filter p)).contains j ↔ g.contains j ∧ ¬ p j := by
  rw [contains_removeNodes, List.mem_filter, mem_nodes]
  exact ⟨fun hj => ⟨hj.1, fun hp => hj.2 ⟨hj.1, hp⟩⟩, fun hj => ⟨hj.1, fun hp => hj.2 hp.2⟩⟩

/-- A chain of steps that each leave an induced sub-graph leaves one. -/
theorem isInduced_foldl {α : Type} {step : CallGraph → α → CallGraph}
    (hstep : ∀ g a, IsInduced (step g a) g) (as : List α) (g : CallGraph) :
    IsInduced (as.foldl step g) g := by
  induction as generalizing g with
  | nil => exact .refl g
  | cons a as ih => exact (ih (step g a)).trans (hstep g a)

/-! ## Filters -/

theorem isInduced_filterOne (action : FilterAction) (listed : List String) (caller : Nat)
    (g : CallGraph) (i : Nat) : IsInduced (filterOne action listed caller g i) g := by
  rw [filterOne]
  split
  · exact isInduced_removeNode g i
  · exact .refl g

theorem isInduced_filterList (action : FilterAction) (g : CallGraph)
    (list : String × List String) : IsInduced (filterList action g list) g := by
  rw [filterList]
  split
  · exact .refl g
  · exact isInduced_foldl (isInduced_filterOne action list.2 _) _ g

theorem isInduced_applyFilter (g : CallGraph) (f : ConnectionFilter) :
    IsInduced (g.applyFilter f) g :=
  isInduced_foldl (isInduced_filterList f.action) _ g

end CallGraph

namespace Query

theorem isInduced_survivors (q : Query) (base : CallGraph) :
    (q.survivors base).IsInduced base :=
  (CallGraph.isInduced_foldl CallGraph.isInduced_applyFilter _ _).trans
    (CallGraph.isInduced_removeNodes base _)

/-- Whatever a query asks for, its view is an induced sub-graph of what the filters leave. -/
theorem isInduced_view (q : Query) (base : CallGraph) :
    (q.view base).graph.IsInduced (q.survivors base) := by
  have hprune := CallGraph.isInduced_removeNodes (q.survivors base)
  rw [view]
  split
  · exact hprune _
  · exact (CallGraph.isInduced_removeNodes _ _).trans (hprune _)

end Query

end CallAtlas
