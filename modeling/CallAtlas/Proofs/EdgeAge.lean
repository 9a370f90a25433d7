import CallAtlas.Proofs.GraphHistory

/-!
# Edges and their age

Edges are listed by number, and a number that a removal gives up goes to the next new edge. A list
by number is therefore not always a list by age: an edge that was added after a removal can stand
before edges that are older, and its source is then the first predecessor of its target.

As long as no edge was lost, every new edge gets a number above all others. Numbers then increase
with age, and removals do not change that. So the lists are lists by age in every history that adds
no edge after one was lost, and the graphs that are built from registries and then cut have such
histories.

## Main definitions

* `GraphChange.added`, `GraphChange.AddsBeforeLosing` — histories that lose edges only after the
  last edge was added
* `CallGraph.ListsByAge` — edges and callers are listed in the order in which they were added

## Main results

* `CallGraph.increasing_and_freeEdges` — numbers increase with age
* `CallGraph.exists_history_removeNodes_ofRelation` — the histories of cut graphs of registries
* `CallGraph.listsByAge_of_addsBeforeLosing` — lists by age
* `CallGraph.not_listsByAge_overtaking` — a newer edge that is listed before an older one
-/

namespace CallAtlas

namespace GraphChange

variable {cs : List GraphChange} {source target : Nat}

/-- The ends of an edge that is added. -/
def edge? : GraphChange → Option (Nat × Nat)
  | .addEdge source target => some (source, target)
  | _ => none

/-- The ends of all edges that a history adds, in its order. -/
def added (cs : List GraphChange) : List (Nat × Nat) :=
  cs.filterMap edge?

/-- Whenever an edge is added, no edge has been lost before. -/
def AddsBeforeLosing (cs : List GraphChange) : Prop :=
  ∀ before source target after, cs = before ++ .addEdge source target :: after →
    lasting before = added before

theorem AddsBeforeLosing.of_concat {c : GraphChange} (hcs : AddsBeforeLosing (cs ++ [c])) :
    AddsBeforeLosing cs := by
  rintro before source target after rfl
  exact hcs before source target (after ++ [c]) (by simp)

theorem AddsBeforeLosing.lasting_eq (hcs : AddsBeforeLosing (cs ++ [.addEdge source target])) :
    lasting cs = added cs :=
  hcs cs source target [] rfl

theorem lasting_sublist_added (cs : List GraphChange) : (lasting cs).Sublist (added cs) := by
  induction cs with
  | nil => exact .slnil
  | cons c cs ih =>
    cases c with
    | addNode n => exact ih
    | removeNode i => exact ih
    | addEdge a b =>
      have hadded : added (.addEdge a b :: cs) = (a, b) :: added cs := rfl
      rw [lasting, hadded]
      split
      · exact ih.cons _
      · exact ih.cons_cons _

/-- A removal after which every edge still lasts has taken none away. -/
theorem lasting_eq_of_concat_removeNode {i : Nat}
    (hall : lasting (cs ++ [.removeNode i]) = added (cs ++ [.removeNode i])) :
    lasting cs = added cs ∧ ∀ p ∈ lasting cs, p.1 ≠ i ∧ p.2 ≠ i := by
  have hadded : added (cs ++ [.removeNode i]) = added cs := by simp [added, edge?]
  rw [lasting_concat_removeNode, hadded] at hall
  have hkept := List.filter_sublist (l := lasting cs) (p := fun p => p.1 ≠ i && p.2 ≠ i)
  have hself := hkept.eq_of_length_le (by rw [hall]; exact (lasting_sublist_added cs).length_le)
  refine ⟨hself.symm.trans hall, fun p hp => ?_⟩
  have hp' := List.filter_eq_self.mp hself p hp
  simpa using hp'

theorem lasting_eq_added (hcs : ∀ i, .removeNode i ∉ cs) : lasting cs = added cs := by
  induction cs with
  | nil => rfl
  | cons c cs ih =>
    have hih := ih fun i hi => hcs i (List.mem_cons_of_mem c hi)
    cases c with
    | addNode n => exact hih
    | removeNode i => exact absurd List.mem_cons_self (hcs i)
    | addEdge a b =>
      have hlate : ¬ (.removeNode a ∈ cs ∨ .removeNode b ∈ cs) := by
        rintro (ha | hb)
        · exact hcs a (List.mem_cons_of_mem _ ha)
        · exact hcs b (List.mem_cons_of_mem _ hb)
      rw [lasting, if_neg hlate, hih]
      rfl

/-- A history that removes nodes only at its end. -/
theorem addsBeforeLosing_append (hcs : ∀ i, .removeNode i ∉ cs) (is : List Nat) :
    AddsBeforeLosing (cs ++ is.map .removeNode) := by
  intro before source target after hsplit
  refine lasting_eq_added fun i hi => ?_
  rcases List.append_eq_append_iff.mp hsplit with ⟨as, rfl, hrest⟩ | ⟨as, rfl, hrest⟩
  · -- The edge would be one of the removals.
    have hmem : .addEdge source target ∈ is.map GraphChange.removeNode := by
      rw [hrest]
      simp
    simp at hmem
  · exact hcs i (List.mem_append_left _ hi)

end GraphChange

namespace GraphTable

theorem freeEdges_addNode (t : GraphTable) (n : GraphNode) :
    (t.addNode n).freeEdges = t.freeEdges := by
  rw [addNode]
  split <;> rfl

/-- If no number is free, a new edge gets a number that was never used. -/
theorem addEdge_of_freeEdges_eq_nil {t : GraphTable} (ht : t.freeEdges = []) (source target : Nat) :
    (t.addEdge source target).edges = t.edges ++ [⟨t.edgeBound, source, target⟩] ∧
      (t.addEdge source target).freeEdges = [] := by
  rw [addEdge, ht]
  exact ⟨rfl, rfl⟩

theorem freeEdges_removeNode {t : GraphTable} {i : Nat}
    (hi : ∀ e ∈ t.edges, e.source ≠ i ∧ e.target ≠ i) :
    (t.removeNode i).freeEdges = t.freeEdges := by
  have hin : t.incoming i = [] := List.filter_eq_nil_iff.mpr fun e he => by simp [(hi e he).2]
  have hout : t.outgoing i = [] := List.filter_eq_nil_iff.mpr fun e he => by simp [(hi e he).1]
  rw [removeNode]
  split
  · rfl
  · simp [hin, hout]

end GraphTable

namespace CallGraph

open GraphChange (lasting added AddsBeforeLosing addsBeforeLosing_append)

variable {g h k : CallGraph} {cs : List GraphChange} {i : Nat}

/-! ## Numbers and age -/

theorem freeEdges_addNode (g : CallGraph) (n : GraphNode) :
    (g.addNode n).1.freeEdges = g.freeEdges := by
  cases hn : g.find? n.name with
  | some i => rw [addNode_of_find?_eq_some hn]
  | none => rw [(addNode_of_find?_eq_none hn).1, GraphTable.freeEdges_addNode]

/-- A number above all numbers in use goes to the end. -/
theorem increasing_concat (hg : g.edges.Pairwise fun a b => a.id < b.id) (source target : Nat) :
    List.Pairwise (fun a b : GraphEdge => a.id < b.id)
      (g.edges ++ [⟨g.edgeBound, source, target⟩]) := by
  refine List.pairwise_append.mpr ⟨hg, List.pairwise_singleton _ _, fun a ha b hb => ?_⟩
  rw [List.mem_singleton] at hb
  subst hb
  exact g.coherent.id_lt (List.mem_append_left _ (List.mem_map_of_mem ha))

/-- The invariant of a history that adds no edge after one was lost: numbers increase with age, and
no number is free before the first loss. -/
theorem increasing_and_freeEdges (hg : ofHistory? cs = some g) (hcs : AddsBeforeLosing cs) :
    (g.edges.Pairwise fun a b => a.id < b.id) ∧ (lasting cs = added cs → g.freeEdges = []) := by
  refine ofHistory?_induction (P := fun cs g => AddsBeforeLosing cs →
    (g.edges.Pairwise fun a b => a.id < b.id) ∧ (lasting cs = added cs → g.freeEdges = []))
    (fun _ => ⟨List.Pairwise.nil, fun _ => rfl⟩) ?_ hg hcs
  intro cs g c h hg ih hc hcs
  obtain ⟨hinc, hfree⟩ := ih hcs.of_concat
  cases c with
  | addNode n =>
    cases hc
    rw [edges_addNode, freeEdges_addNode, GraphChange.lasting_concat_addNode]
    refine ⟨hinc, fun hall => hfree ?_⟩
    rw [hall]
    simp [added, GraphChange.edge?]
  | addEdge source target =>
    obtain ⟨hedges, hnil⟩ :=
      GraphTable.addEdge_of_freeEdges_eq_nil (hfree hcs.lasting_eq) source target
    rw [toGraphTable_of_addEdge? hc, hedges, hnil]
    exact ⟨increasing_concat hinc source target, fun _ => rfl⟩
  | removeNode i =>
    cases hc
    rw [edges_removeNode, toGraphTable_removeNode]
    refine ⟨hinc.sublist List.filter_sublist, fun hall => ?_⟩
    obtain ⟨hkept, huntouched⟩ := GraphChange.lasting_eq_of_concat_removeNode hall
    rw [GraphTable.freeEdges_removeNode, hfree hkept]
    intro e he
    rw [← map_ends_edges hg] at huntouched
    exact huntouched e.ends (List.mem_map_of_mem he)

/-! ## Lists by age -/

/-- Edges and callers are listed in the order in which a history adds them. -/
structure ListsByAge (g : CallGraph) (cs : List GraphChange) : Prop where
  edgePairs_eq : g.edgePairs = lasting cs
  /-- The callers of a node, by the oldest edge that each of them has to it. -/
  predecessors_eq : ∀ i, g.predecessors i =
    (((lasting cs).filter fun p => p.2 = i).map Prod.fst).eraseDups
  /-- The source of the oldest edge into a node. -/
  firstPredecessor_eq : ∀ i, g.firstPredecessor i =
    (((lasting cs).filter fun p => p.2 = i).map Prod.fst).head?

theorem listsByAge_of_edgePairs_eq (hg : g.edgePairs = lasting cs) : g.ListsByAge cs where
  edgePairs_eq := hg
  predecessors_eq i := by rw [predecessors_eq, hg]
  firstPredecessor_eq i := by rw [firstPredecessor_eq, hg]

theorem edgePairs_of_increasing (hg : ofHistory? cs = some g)
    (hinc : g.edges.Pairwise fun a b => a.id < b.id) : g.edgePairs = lasting cs := by
  have hid : g.edgesById = g.edges := mergeSort_id_eq_of_perm (.refl _) hinc
  rw [edgePairs, hid, ← map_ends_edges hg]
  rfl

/-! ## Graphs of registries -/

/-- Some additions lead from `g` to `h`. -/
def Grown (g h : CallGraph) : Prop :=
  ∃ cs, (∀ i, .removeNode i ∉ cs) ∧ g.after? cs = some h

theorem Grown.refl (g : CallGraph) : g.Grown g :=
  ⟨[], fun _ => List.not_mem_nil, rfl⟩

theorem Grown.trans (hgh : g.Grown h) (hhk : h.Grown k) : g.Grown k := by
  obtain ⟨cs, hcs, hh⟩ := hgh
  obtain ⟨ds, hds, hk⟩ := hhk
  refine ⟨cs ++ ds, fun i hi => ?_, by rw [after?_append, hh]; exact hk⟩
  exact (List.mem_append.mp hi).elim (hcs i) (hds i)

theorem Grown.foldl {α : Type} {step : CallGraph → α → CallGraph}
    (hstep : ∀ (g : CallGraph) (a : α), g.Grown (step g a)) (as : List α) (g : CallGraph) :
    g.Grown (as.foldl step g) := by
  induction as generalizing g with
  | nil => exact .refl g
  | cons a as ih => exact (hstep g a).trans (ih (step g a))

theorem grown_addNode (g : CallGraph) (n : GraphNode) : g.Grown (g.addNode n).1 :=
  ⟨[.addNode n], by simp, after?_singleton g _⟩

theorem grown_linkTo (source : Nat) (g : CallGraph) (x : String) : g.Grown (linkTo source g x) := by
  refine (grown_addNode g (.external x)).trans ?_
  change Grown _ (((g.addNode (.external x)).1.addEdge? source (g.addNode (.external x)).2).getD _)
  cases hh : (g.addNode (.external x)).1.addEdge? source (g.addNode (.external x)).2 with
  | none => exact .refl _
  | some h => exact ⟨[.addEdge source _], by simp, (after?_singleton _ _).trans hh⟩

theorem grown_linkAll (targets : Callable → NameSet) (g : CallGraph) (c : Callable) :
    g.Grown (linkAll targets g c) := by
  rw [linkAll]
  split
  · exact .refl g
  · exact Grown.foldl (grown_linkTo _) _ g

theorem grown_ofRelation (targets : Callable → NameSet) (r : Registry) :
    (∅ : CallGraph).Grown (ofRelation targets r) :=
  (Grown.foldl (fun g c => grown_addNode g (.ofCallable c)) _ _).trans
    (Grown.foldl (grown_linkAll targets) _ _)

theorem after?_map_removeNode (g : CallGraph) (is : List Nat) :
    g.after? (is.map .removeNode) = some (g.removeNodes is) := by
  induction is generalizing g with
  | nil => rfl
  | cons i is ih => exact ih (g.removeNode i)

/-- A graph of a registry that was cut by removals has a history that adds before it loses. -/
theorem exists_history_removeNodes_ofRelation (targets : Callable → NameSet) (r : Registry)
    (is : List Nat) :
    ∃ cs, AddsBeforeLosing cs ∧ ofHistory? cs = some ((ofRelation targets r).removeNodes is) := by
  obtain ⟨cs, hcs, hg⟩ := grown_ofRelation targets r
  refine ⟨cs ++ is.map .removeNode, addsBeforeLosing_append hcs is, ?_⟩
  rw [ofHistory?, after?_append, hg]
  exact after?_map_removeNode _ is

/-- **Lists by age.** The edges of a graph are those that last. They and the callers are listed in
the order of their age if the history adds no edge after one was lost, and every cut graph of a
registry has such a history. -/
theorem listsByAge_of_addsBeforeLosing (hg : ofHistory? cs = some g) :
    g.edgePairs.Perm (lasting cs) ∧ (AddsBeforeLosing cs → g.ListsByAge cs) ∧
      ∀ targets r is, ∃ ds, AddsBeforeLosing ds ∧
        ofHistory? ds = some ((ofRelation targets r).removeNodes is) := by
  refine ⟨?_, fun hcs => ?_, exists_history_removeNodes_ofRelation⟩
  · rw [← map_ends_edges hg]
    exact perm_edgePairs _
  · have hincreasing := (increasing_and_freeEdges hg hcs).1
    exact listsByAge_of_edgePairs_eq (edgePairs_of_increasing hg hincreasing)

/-- Two callers of one node, the older of them removed in the end. -/
def parting : List GraphChange :=
  [.addNode (.external "a"), .addNode (.external "b"), .addNode (.external "c"), .addEdge 0 1,
    .addEdge 2 1, .addEdge 1 2, .addEdge 2 1] ++ [0].map .removeNode

theorem listsByAge_of_addsBeforeLosing_parting :
    ∃ g, ofHistory? parting = some g ∧ AddsBeforeLosing parting ∧
      lasting parting = [(2, 1), (1, 2), (2, 1)] ∧ g.ListsByAge parting := by
  have hsome : (ofHistory? parting).isSome := by decide +kernel
  obtain ⟨g, hg⟩ := Option.isSome_iff_exists.mp hsome
  have hparting : AddsBeforeLosing parting := addsBeforeLosing_append (by simp) [0]
  exact ⟨g, hg, hparting, by decide, (listsByAge_of_addsBeforeLosing hg).2.1 hparting⟩

/-- The edge from `3` gets the number of the edge that went with `0`, and so it is listed before the
older edge from `2`. -/
def overtaking : List GraphChange :=
  [.addNode (.external "a"), .addNode (.external "b"), .addNode (.external "c"),
    .addNode (.external "d"), .addEdge 0 1, .addEdge 2 1, .removeNode 0, .addEdge 3 1]

theorem not_listsByAge_overtaking :
    ∃ g, ofHistory? overtaking = some g ∧ lasting overtaking = [(2, 1), (3, 1)] ∧
      g.edgePairs = [(3, 1), (2, 1)] ∧ g.predecessors 1 = [3, 2] ∧
      g.firstPredecessor 1 = some 3 ∧ ¬ g.ListsByAge overtaking := by
  have hany : (ofHistory? overtaking).any fun g => g.edges = [⟨1, 2, 1⟩, ⟨0, 3, 1⟩] := by
    decide +kernel
  obtain ⟨g, hg, hdecide⟩ := (Option.any_eq_true _ _).mp hany
  have hsorted : g.edgesById = [⟨0, 3, 1⟩, ⟨1, 2, 1⟩] := by
    refine mergeSort_id_eq_of_perm ?_ (by simp)
    rw [of_decide_eq_true hdecide]
    exact .swap _ _ _
  have hpairs : g.edgePairs = [(3, 1), (2, 1)] := by
    rw [edgePairs, hsorted]
    rfl
  have hfirst : g.firstPredecessor 1 = some 3 := by
    rw [firstPredecessor_eq, hpairs]
    rfl
  refine ⟨g, hg, by decide, hpairs, ?_, hfirst, fun hage => ?_⟩
  · rw [predecessors_eq, hpairs]
    decide
  · rw [hage.firstPredecessor_eq] at hfirst
    exact absurd hfirst (by decide)

end CallGraph

end CallAtlas
