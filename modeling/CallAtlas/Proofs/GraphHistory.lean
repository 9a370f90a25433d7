import CallAtlas.Proofs.FirstPredecessor
import CallAtlas.Proofs.RelationGraph
import Mathlib.Data.List.Induction
import Mathlib.Data.Set.Card

/-!
# Graphs and their histories

A graph is made from the empty one by a history: nodes are added, edges are added between nodes that
exist, and nodes are removed. Slots and edge numbers that a removal gives up are used again, so
nothing can be read off the numbers alone. What can be read is collected here: the index by name
finds exactly the nodes, the listings of edges agree with each other, and a removal takes away the
edges at one node and nothing else.

The edges themselves are described from the history, without a look at any table: an edge lasts if
neither of its ends is removed after it was added. Every statement about a history is an induction
on its last change, which `ofHistory?_induction` does once.

## Main definitions

* `GraphChange`, `CallGraph.change?`, `CallGraph.after?`, `CallGraph.ofHistory?` — changes and
  histories
* `GraphChange.lasting` — the edges that a history leaves, in the order in which it adds them
* `CallGraph.IsConsistent` — look-ups, counts and listings agree
* `CallGraph.TakesIn`, `CallGraph.Loses` — all that a new node and a removal change

## Main results

* `CallGraph.map_ends_edges` — the edges of a graph are those that last
* `CallGraph.edgesById_removeNode` — the edges that a removal leaves, with their numbers
* `CallGraph.predecessors_eq`, `CallGraph.firstPredecessor_eq` — callers are read off the edges
* `CallGraph.isConsistent_ofHistory?` — every history leads to a consistent graph
-/

namespace CallAtlas

/-- A change of a graph. -/
inductive GraphChange where
  | addNode (n : GraphNode)
  | addEdge (source target : Nat)
  | removeNode (i : Nat)
deriving DecidableEq, Repr

namespace GraphChange

/-- The ends of the edges that last, in the order in which they are added: an edge lasts if no later
change removes one of its ends. -/
def lasting : List GraphChange → List (Nat × Nat)
  | [] => []
  | .addEdge source target :: later =>
    if .removeNode source ∈ later ∨ .removeNode target ∈ later then lasting later
    else (source, target) :: lasting later
  | _ :: later => lasting later

theorem lasting_concat_addNode (cs : List GraphChange) (n : GraphNode) :
    lasting (cs ++ [.addNode n]) = lasting cs := by
  induction cs with
  | nil => rfl
  | cons c cs ih => cases c <;> simp [lasting, ih]

theorem lasting_concat_addEdge (cs : List GraphChange) (source target : Nat) :
    lasting (cs ++ [.addEdge source target]) = lasting cs ++ [(source, target)] := by
  induction cs with
  | nil => rfl
  | cons c cs ih =>
    cases c with
    | addNode n => exact ih
    | removeNode i => exact ih
    | addEdge a b =>
      simp only [List.cons_append, lasting, List.mem_append, List.mem_singleton, reduceCtorEq,
        or_false, ih]
      split <;> rfl

theorem lasting_concat_removeNode (cs : List GraphChange) (i : Nat) :
    lasting (cs ++ [.removeNode i]) = (lasting cs).filter fun p => p.1 ≠ i && p.2 ≠ i := by
  induction cs with
  | nil => rfl
  | cons c cs ih =>
    cases c with
    | addNode n => exact ih
    | removeNode j => exact ih
    | addEdge a b =>
      simp only [List.cons_append, lasting, List.mem_append, List.mem_singleton,
        removeNode.injEq, ih]
      by_cases hcs : .removeNode a ∈ cs ∨ .removeNode b ∈ cs
      · rw [if_pos hcs, if_pos (hcs.imp Or.inl Or.inl)]
      · rw [if_neg hcs, List.filter_cons]
        by_cases hai : a = i <;> by_cases hbi : b = i <;> simp_all

end GraphChange

/-- The two ends of an edge. -/
def GraphEdge.ends (e : GraphEdge) : Nat × Nat :=
  (e.source, e.target)

namespace CallGraph

open GraphChange (lasting)

variable {g h : CallGraph} {cs : List GraphChange} {c : GraphChange} {i j : Nat}

/-! ## Histories -/

/-- The graph after a change. There is none if an edge is added to or from a node that does not
exist. -/
def change? (g : CallGraph) : GraphChange → Option CallGraph
  | .addNode n => some (g.addNode n).1
  | .addEdge source target => g.addEdge? source target
  | .removeNode i => some (g.removeNode i)

/-- The graph after several changes. -/
def after? (g : CallGraph) (cs : List GraphChange) : Option CallGraph :=
  cs.foldlM change? g

/-- The graph that a history makes from the empty one. -/
def ofHistory? (cs : List GraphChange) : Option CallGraph :=
  (∅ : CallGraph).after? cs

/-- Whether a change is possible: the ends of a new edge must exist. -/
def Admits (g : CallGraph) : GraphChange → Prop
  | .addEdge source target => g.contains source ∧ g.contains target
  | _ => True

theorem isSome_change?_iff : (g.change? c).isSome ↔ g.Admits c := by
  cases c with
  | addNode n => exact iff_of_true rfl trivial
  | removeNode i => exact iff_of_true rfl trivial
  | addEdge source target =>
    rw [change?, addEdge?, Admits]
    split
    case isTrue hends =>
      exact iff_of_true rfl hends
    case isFalse hends =>
      exact iff_of_false Bool.false_ne_true hends

theorem after?_append (g : CallGraph) (cs ds : List GraphChange) :
    g.after? (cs ++ ds) = (g.after? cs).bind fun h => h.after? ds :=
  List.foldlM_append

theorem after?_singleton (g : CallGraph) (c : GraphChange) : g.after? [c] = g.change? c := by
  rw [after?, List.foldlM_cons]
  simp only [List.foldlM_nil, bind_pure]

theorem ofHistory?_concat (cs : List GraphChange) (c : GraphChange) :
    ofHistory? (cs ++ [c]) = (ofHistory? cs).bind fun g => g.change? c := by
  rw [ofHistory?, after?_append]
  simp only [after?_singleton]
  rfl

/-- What holds of the empty graph and passes from a graph to its changes holds of every graph with a
history. -/
theorem ofHistory?_induction {P : List GraphChange → CallGraph → Prop} (hempty : P [] ∅)
    (hstep : ∀ {cs g c h}, ofHistory? cs = some g → P cs g → g.change? c = some h →
      P (cs ++ [c]) h)
    (hg : ofHistory? cs = some g) : P cs g := by
  induction cs using List.reverseRecOn generalizing g with
  | nil =>
    obtain rfl : ∅ = g := Option.some.inj hg
    exact hempty
  | append_singleton cs c ih =>
    rw [ofHistory?_concat, Option.bind_eq_some_iff] at hg
    obtain ⟨h, hh, hc⟩ := hg
    exact hstep hh (ih hh) hc

theorem toGraphTable_of_addEdge? {source target : Nat} (hh : g.addEdge? source target = some h) :
    h.toGraphTable = g.toGraphTable.addEdge source target := by
  rw [addEdge?] at hh
  split at hh
  · cases hh
    rfl
  · cases hh

/-- **The edges of a graph are the edges that last**, from the oldest to the newest. -/
theorem map_ends_edges (hg : ofHistory? cs = some g) : g.edges.map GraphEdge.ends = lasting cs := by
  refine ofHistory?_induction (P := fun cs g => g.edges.map GraphEdge.ends = lasting cs) rfl ?_ hg
  intro cs g c h _ hcs hc
  cases c with
  | addNode n =>
    cases hc
    rw [edges_addNode, GraphChange.lasting_concat_addNode, hcs]
  | addEdge source target =>
    obtain ⟨id, hid⟩ := g.toGraphTable.exists_edges_addEdge source target
    rw [toGraphTable_of_addEdge? hc, hid, GraphChange.lasting_concat_addEdge, List.map_append, hcs]
    rfl
  | removeNode i =>
    cases hc
    rw [edges_removeNode, GraphChange.lasting_concat_removeNode, ← hcs, List.filter_map]
    rfl

/-! ## Edges by number -/

theorem pairwise_mergeSort_id (es : List GraphEdge) :
    (es.mergeSort fun a b => a.id ≤ b.id).Pairwise fun a b => a.id ≤ b.id := by
  refine (List.pairwise_mergeSort (fun a b c hab hbc => ?_) (fun a b => ?_) es).imp
    of_decide_eq_true
  · exact decide_eq_true (Nat.le_trans (of_decide_eq_true hab) (of_decide_eq_true hbc))
  · rw [Bool.or_eq_true, decide_eq_true_eq, decide_eq_true_eq]
    exact Nat.le_total a.id b.id

/-- There is only one way to list edges by increasing number. -/
theorem mergeSort_id_eq_of_perm {es fs : List GraphEdge} (hperm : es.Perm fs)
    (hfs : fs.Pairwise fun a b => a.id < b.id) : es.mergeSort (fun a b => a.id ≤ b.id) = fs := by
  have hsort := (List.mergeSort_perm es fun a b => a.id ≤ b.id).trans hperm
  have hids : (fs.map GraphEdge.id).Nodup := List.pairwise_map.mpr (hfs.imp Nat.ne_of_lt)
  refine hsort.eq_of_pairwise (fun a b ha hb hab hba => ?_) (pairwise_mergeSort_id es)
    (hfs.imp Nat.le_of_lt)
  exact List.inj_on_of_nodup_map hids (hsort.mem_iff.mp ha) hb (Nat.le_antisymm hab hba)

theorem perm_edgesById (g : CallGraph) : g.edgesById.Perm g.edges :=
  List.mergeSort_perm _ _

theorem increasing_edgesById (g : CallGraph) : g.edgesById.Pairwise fun a b => a.id < b.id := by
  have hids : (g.edgesById.map GraphEdge.id).Nodup :=
    ((perm_edgesById g).map _).nodup_iff.mpr (List.nodup_append.mp g.coherent.nodup_ids).1
  exact ((pairwise_mergeSort_id g.edges).and (List.pairwise_map.mp hids)).imp
    fun hab => Nat.lt_of_le_of_ne hab.1 hab.2

/-- Taking some of the edges and sorting them is sorting the edges and taking some of them. -/
theorem mergeSort_filter_edges (g : CallGraph) (p : GraphEdge → Bool) :
    (g.edges.filter p).mergeSort (fun a b => a.id ≤ b.id) = g.edgesById.filter p :=
  mergeSort_id_eq_of_perm ((perm_edgesById g).filter p).symm
    ((increasing_edgesById g).sublist List.filter_sublist)

/-- A removal leaves the edges that do not touch the node, with their numbers. -/
theorem edgesById_removeNode (g : CallGraph) (i : Nat) :
    (g.removeNode i).edgesById = g.edgesById.filter fun e => e.source ≠ i && e.target ≠ i := by
  rw [edgesById, edges_removeNode, mergeSort_filter_edges]

/-! ## Reading the edges -/

theorem mem_edgePairs : (i, j) ∈ g.edgePairs ↔ g.Calls i j := by
  simp only [edgePairs, List.mem_map, (perm_edgesById g).mem_iff, Prod.mk.injEq, Calls]

theorem perm_edgePairs (g : CallGraph) : g.edgePairs.Perm (g.edges.map GraphEdge.ends) :=
  (perm_edgesById g).map _

theorem filter_edgePairs_target (g : CallGraph) (i : Nat) :
    (g.edgePairs.filter fun p => p.2 = i).map Prod.fst =
      (g.edgesById.filter fun e => e.target = i).map GraphEdge.source := by
  rw [edgePairs, List.filter_map, List.map_map]
  rfl

/-- The callers of a node, by their first appearance among the edges. -/
theorem predecessors_eq (g : CallGraph) (i : Nat) :
    g.predecessors i = ((g.edgePairs.filter fun p => p.2 = i).map Prod.fst).eraseDups := by
  rw [predecessors, GraphTable.incoming, mergeSort_filter_edges, filter_edgePairs_target]

/-- The first predecessor is the caller that appears first among the edges. -/
theorem firstPredecessor_eq (g : CallGraph) (i : Nat) :
    g.firstPredecessor i = ((g.edgePairs.filter fun p => p.2 = i).map Prod.fst).head? := by
  have hmem : ∀ {e}, e ∈ g.edgesById.filter (fun e => e.target = i) ↔
      e ∈ g.edges ∧ e.target = i := by
    intro e
    rw [List.mem_filter, (perm_edgesById g).mem_iff, decide_eq_true_eq]
  have hsorted := (increasing_edgesById g).sublist
    (List.filter_sublist (p := fun e => decide (e.target = i)))
  rw [filter_edgePairs_target]
  cases hin : g.edgesById.filter fun e => e.target = i with
  | nil =>
    refine firstPredecessor_eq_none_iff.mpr fun e he htarget => ?_
    have hnil := hmem.mpr ⟨he, htarget⟩
    rw [hin] at hnil
    exact absurd hnil List.not_mem_nil
  | cons a es =>
    rw [hin] at hmem hsorted
    obtain ⟨ha, htarget⟩ := hmem.mp List.mem_cons_self
    refine firstPredecessor_eq_some_iff.mpr ⟨a, ⟨ha, htarget, fun he ht => ?_⟩, rfl⟩
    rcases List.mem_cons.mp (hmem.mpr ⟨he, ht⟩) with rfl | hes
    · exact Nat.le_refl _
    · exact Nat.le_of_lt ((List.pairwise_cons.mp hsorted).1 _ hes)

theorem mem_predecessors : j ∈ g.predecessors i ↔ g.Calls j i := by
  rw [predecessors_eq, List.mem_eraseDups, ← mem_edgePairs]
  simp

theorem firstPredecessor_eq_head? (g : CallGraph) (i : Nat) :
    g.firstPredecessor i = (g.predecessors i).head? := by
  rw [firstPredecessor_eq, predecessors_eq]
  cases (g.edgePairs.filter fun p => p.2 = i).map Prod.fst with
  | nil => rfl
  | cons a as => rw [List.eraseDups_cons, List.head?_cons, List.head?_cons]

/-! ## Consistency -/

/-- Look-ups, counts and listings of a graph agree with each other. -/
structure IsConsistent (g : CallGraph) : Prop where
  /-- The index finds exactly the nodes. -/
  find?_iff : ∀ x i, g.find? x = some i ↔ ∃ n, g.node? i = some n ∧ n.name = x
  /-- No two nodes have one name. -/
  name_inj : ∀ {i j}, g.contains i → g.contains j → g.name i = g.name j → i = j
  /-- There are as many nodes as names. -/
  nodeCount_eq : g.nodeCount = {x | ∃ i, g.find? x = some i}.ncard
  /-- Edges have different numbers, and they are listed by increasing number. -/
  increasing : g.edgesById.Pairwise fun a b => a.id < b.id
  /-- Edges join existing nodes. -/
  ends_exist : ∀ p ∈ g.edgePairs, g.contains p.1 ∧ g.contains p.2
  /-- Every edge is listed and counted once. -/
  edgeCount_eq : g.edgeCount = g.edgePairs.length
  mem_successors_iff : ∀ i j, j ∈ g.successors i ↔ (i, j) ∈ g.edgePairs
  mem_predecessors_iff : ∀ i j, i ∈ g.predecessors j ↔ (i, j) ∈ g.edgePairs
  firstPredecessor_eq : ∀ i, g.firstPredecessor i = (g.predecessors i).head?

theorem name_inj (hi : g.contains i) (hj : g.contains j) (hij : g.name i = g.name j) : i = j := by
  have hfound := find?_name hi
  rw [hij, find?_name hj, Option.some.injEq] at hfound
  exact hfound.symm

theorem nodeCount_eq_ncard (g : CallGraph) :
    g.nodeCount = {x | ∃ i, g.find? x = some i}.ncard := by
  have hnodup : (g.nodes.map g.name).Nodup :=
    List.Nodup.map_on (fun i hi j hj => name_inj (mem_nodes.mp hi) (mem_nodes.mp hj))
      (List.nodup_range.filter _)
  have hnames : {x | ∃ i, g.find? x = some i} = ((g.nodes.map g.name).toFinset : Set String) := by
    ext x
    rw [Set.mem_ofPred_eq, List.coe_toFinset, Set.mem_ofPred_eq, List.mem_map]
    constructor
    · rintro ⟨i, hi⟩
      exact ⟨i, mem_nodes.mpr (contains_of_find? hi), name_of_find? hi⟩
    · rintro ⟨i, hi, rfl⟩
      exact ⟨i, find?_name (mem_nodes.mp hi)⟩
  rw [hnames, Set.ncard_coe_finset, List.toFinset_card_of_nodup hnodup, List.length_map, nodeCount]

theorem isConsistent (g : CallGraph) : g.IsConsistent where
  find?_iff _ _ := find?_eq_some_iff
  name_inj := name_inj
  nodeCount_eq := nodeCount_eq_ncard g
  increasing := increasing_edgesById g
  ends_exist p hp := by
    have hcalls : g.Calls p.1 p.2 := mem_edgePairs.mp hp
    exact ⟨hcalls.contains_source, hcalls.contains_target⟩
  edgeCount_eq := by rw [edgeCount, (perm_edgePairs g).length_eq, List.length_map]
  mem_successors_iff _ _ := by rw [mem_successors, mem_edgePairs]
  mem_predecessors_iff _ _ := by rw [mem_predecessors, mem_edgePairs]
  firstPredecessor_eq := firstPredecessor_eq_head? g

/-! ## Changes -/

/-- All that a new node `n` changes: its name leads to it, and the other nodes and all edges stay.
If its name is taken, nothing changes. -/
structure TakesIn (g : CallGraph) (n : GraphNode) (h : CallGraph) (i : Nat) : Prop where
  find?_eq : h.find? n.name = some i
  node?_eq : ∀ j, h.node? j = if j = i ∧ g.find? n.name = none then some n else g.node? j
  edgesById_eq : h.edgesById = g.edgesById

/-- All that the removal of `i` changes: the node is gone, and with it the edges at either of its
ends. A loop is one edge. -/
structure Loses (g : CallGraph) (i : Nat) (h : CallGraph) : Prop where
  node?_eq : ∀ j, h.node? j = if j = i then none else g.node? j
  find?_eq : ∀ x, h.find? x = (g.find? x).filter (· ≠ i)
  edgesById_eq : h.edgesById = g.edgesById.filter fun e => e.source ≠ i && e.target ≠ i
  edgeCount_add : h.edgeCount + (g.edgesById.countP fun e => e.source = i || e.target = i) =
    g.edgeCount
  eq_of_not_contains : ¬ g.contains i → h = g

theorem takesIn_addNode (g : CallGraph) (n : GraphNode) :
    g.TakesIn n (g.addNode n).1 (g.addNode n).2 where
  find?_eq := find?_addNode_self g n
  node?_eq j := by
    cases hn : g.find? n.name with
    | some i => simp [addNode_of_find?_eq_some hn]
    | none =>
      obtain ⟨htable, hslot⟩ := addNode_of_find?_eq_none hn
      simp [htable, hslot, GraphTable.node?_addNode g.coherent]
  edgesById_eq := by rw [edgesById, edges_addNode, edgesById]

theorem removeNode_of_not_contains (hi : ¬ g.contains i) : g.removeNode i = g := by
  rw [removeNode]
  split
  case h_1 => rfl
  case h_2 n hn =>
    exact absurd (contains_iff.mpr ⟨n, hn⟩) hi

theorem loses_removeNode (g : CallGraph) (i : Nat) : g.Loses i (g.removeNode i) where
  node?_eq := node?_removeNode g i
  find?_eq x := by
    rw [(isInduced_removeNode g i).find?_eq]
    cases hx : g.find? x with
    | none => rfl
    | some j =>
      have hj : (g.removeNode i).contains j = decide (j ≠ i) := by
        rw [Bool.eq_iff_iff, contains_removeNode, decide_eq_true_eq]
        exact and_iff_right (contains_of_find? hx)
      rw [Option.filter_some, Option.filter_some, hj]
  edgesById_eq := edgesById_removeNode g i
  edgeCount_add := by
    have hsplit := List.length_eq_countP_add_countP
      (fun e : GraphEdge => e.source ≠ i && e.target ≠ i) (l := g.edges)
    have htouch : g.edges.countP (fun e => e.source = i || e.target = i) =
        g.edges.countP fun e => ¬ (e.source ≠ i && e.target ≠ i) = true := by
      refine List.countP_congr fun e _ => ?_
      by_cases hs : e.source = i <;> by_cases ht : e.target = i <;> simp [hs, ht]
    rw [edgeCount, edges_removeNode, (perm_edgesById g).countP_eq, htouch,
      ← List.countP_eq_length_filter, edgeCount]
    exact hsplit.symm
  eq_of_not_contains := removeNode_of_not_contains

/-- **Every history leads to a consistent graph** whose edges are those that last, and it can go on
with any change except an edge at a node that does not exist. -/
theorem isConsistent_ofHistory? (hg : ofHistory? cs = some g) :
    g.IsConsistent ∧ g.edgePairs.Perm (lasting cs) ∧
      (∀ c, (ofHistory? (cs ++ [c])).isSome ↔ g.Admits c) ∧
      (∀ n, g.TakesIn n (g.addNode n).1 (g.addNode n).2) ∧ ∀ i, g.Loses i (g.removeNode i) := by
  refine ⟨g.isConsistent, ?_, fun c => ?_, takesIn_addNode g, loses_removeNode g⟩
  · rw [← map_ends_edges hg]
    exact perm_edgePairs g
  · rw [ofHistory?_concat, hg]
    exact isSome_change?_iff

/-- Parallel edges and a loop. The node `a` is removed with its edges, `c` takes its slot, and `a`
comes back in another one. -/
def comeback : List GraphChange :=
  [.addNode (.external "a"), .addNode (.external "b"), .addEdge 0 1, .addEdge 0 1, .addEdge 1 1,
    .addEdge 1 0, .removeNode 0, .removeNode 7, .addNode (.external "c"), .addEdge 0 1,
    .addNode (.external "a"), .addEdge 2 0]

theorem isConsistent_ofHistory?_comeback :
    ∃ g, ofHistory? comeback = some g ∧ lasting comeback = [(1, 1), (0, 1), (2, 0)] ∧
      g.IsConsistent ∧ g.edgePairs.Perm (lasting comeback) ∧
      (∀ c, (ofHistory? (comeback ++ [c])).isSome ↔ g.Admits c) ∧
      (∀ n, g.TakesIn n (g.addNode n).1 (g.addNode n).2) ∧ ∀ i, g.Loses i (g.removeNode i) := by
  have hsome : (ofHistory? comeback).isSome := by decide +kernel
  obtain ⟨g, hg⟩ := Option.isSome_iff_exists.mp hsome
  exact ⟨g, hg, by decide, isConsistent_ofHistory? hg⟩

end CallGraph

end CallAtlas
