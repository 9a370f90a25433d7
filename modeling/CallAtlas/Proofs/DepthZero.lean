import CallAtlas.Proofs.Islands

/-!
# The nodes at depth zero

The roots of a view are drawn at depth zero, and a drawing lists its nodes by depth. A node that is
no root is called by some node of the view, so its depth is not zero, with two exceptions.

* By the walk over first predecessors, a node whose first incoming edge is its own loop has depth
  zero: the walk stops where it started.
* By distance, a node that no root reaches has depth zero. A view only has such a node if it was cut
  by the walk over first predecessors and is then drawn by distance.

A view that is drawn in the mode of its query has exceptions of the first kind only.

## Main definitions

* `Query.PassesForRoot` — the two exceptions

## Main results

* `Depths.idxOf_displayOrder_lt` — what lies less deep is drawn earlier
* `CallGraph.walkDepth_eq_zero_iff`, `CallGraph.get_depths_shortestPath_eq_zero_iff` — depth zero,
  in each mode
* `Query.reaches_view`, `Query.exists_firstPredecessor_view` — how the nodes of a view hang together
* `Query.exists_view_depth_eq_zero_iff` — depth zero in a view
* `Query.depth_zero_beside_roots` — the exceptions occur
-/

namespace CallAtlas

/-! ## The order of a drawing -/

namespace Depths

variable {d : Depths} {g : CallGraph} {i j k : Nat}

theorem precedes_iff : d.precedes g i j ↔
    d.get i < d.get j ∨ d.get i = d.get j ∧ ¬ g.name j < g.name i := by
  rw [precedes, Bool.or_eq_true, Bool.and_eq_true, decide_eq_true_eq, beq_iff_eq,
    Bool.not_eq_true', decide_eq_false_iff_not]

theorem precedes_trans (hij : d.precedes g i j) (hjk : d.precedes g j k) : d.precedes g i k := by
  rw [precedes_iff] at hij hjk ⊢
  rcases hij with hij | ⟨hij, hname⟩
  · left
    omega
  · rcases hjk with hjk | ⟨hjk, hname'⟩
    · left
      omega
    · refine Or.inr ⟨hij.trans hjk, String.not_lt.mpr ?_⟩
      exact String.le_trans (String.not_lt.mp hname) (String.not_lt.mp hname')

theorem precedes_total (d : Depths) (g : CallGraph) (i j : Nat) :
    d.precedes g i j ∨ d.precedes g j i := by
  rw [precedes_iff, precedes_iff]
  rcases Nat.lt_trichotomy (d.get i) (d.get j) with hlt | heq | hgt
  · exact Or.inl (Or.inl hlt)
  · rcases String.le_total (g.name i) (g.name j) with hle | hle
    · exact Or.inl (Or.inr ⟨heq, String.not_lt.mpr hle⟩)
    · exact Or.inr (Or.inr ⟨heq.symm, String.not_lt.mpr hle⟩)
  · exact Or.inr (Or.inl hgt)

theorem pairwise_displayOrder (d : Depths) (g : CallGraph) :
    (d.displayOrder g).Pairwise fun i j => d.precedes g i j := by
  refine List.pairwise_mergeSort (fun i j k hij hjk => ?_) (fun i j => ?_) g.nodes
  · exact precedes_trans hij hjk
  · exact (Bool.or_eq_true _ _).mpr (precedes_total d g i j)

theorem mem_displayOrder : i ∈ d.displayOrder g ↔ g.contains i := by
  rw [displayOrder, List.mem_mergeSort, CallGraph.mem_nodes]

/-- What lies less deep is drawn earlier. -/
theorem idxOf_displayOrder_lt (hi : g.contains i) (hj : g.contains j) (hlt : d.get i < d.get j) :
    (d.displayOrder g).idxOf i < (d.displayOrder g).idxOf j := by
  have hi' := List.idxOf_lt_length_of_mem (mem_displayOrder (d := d).mpr hi)
  have hj' := List.idxOf_lt_length_of_mem (mem_displayOrder (d := d).mpr hj)
  by_contra hnot
  -- Then `j` stands before `i`, and the order is by depth first.
  have hne : (d.displayOrder g).idxOf i ≠ (d.displayOrder g).idxOf j := by
    rw [ne_eq, List.idxOf_inj (mem_displayOrder.mpr hi)]
    rintro rfl
    omega
  have hji : d.precedes g j i := by
    have hrel := List.pairwise_iff_getElem.mp (d.pairwise_displayOrder g) _ _ hj' hi' (by omega)
    rwa [List.getElem_idxOf, List.getElem_idxOf] at hrel
  rcases precedes_iff.mp hji with h | ⟨h, -⟩ <;> omega

end Depths

/-! ## Depth zero in a graph -/

namespace CallGraph

variable {g : CallGraph} {roots : List Nat} {i : Nat}

theorem walkDepth_eq_zero_iff (hi : g.contains i) :
    g.walkDepth roots i = 0 ↔
      i ∈ roots ∨ g.firstPredecessor i = none ∨ g.firstPredecessor i = some i := by
  obtain ⟨fuel, hfuel⟩ : ∃ fuel, g.slots.size = fuel + 1 :=
    Nat.exists_eq_succ_of_ne_zero (Nat.ne_zero_of_lt (lt_size_of_contains hi))
  rw [walkDepth, hfuel]
  by_cases hroot : i ∈ roots
  · simp [walkBack_of_mem_roots hroot, hroot]
  cases hp : g.firstPredecessor i with
  | none => simp [walkBack_of_firstPredecessor_none hp]
  | some p =>
    by_cases hpi : p = i
    · subst hpi
      simp [walkBack_of_firstPredecessor_mem hp (List.mem_singleton_self p)]
    · rw [walkBack_succ hroot hp (by simpa using hpi)]
      simp [hroot, hpi]

theorem get_depths_shortestPath_eq_zero_iff (hroots : ∀ r ∈ roots, g.contains r)
    (hi : g.contains i) :
    (g.depths roots .shortestPath).get i = 0 ↔ i ∈ roots ∨ ¬ ∃ r ∈ roots, g.Reaches r i := by
  by_cases hreach : ∃ r ∈ roots, g.Reaches r i
  · obtain ⟨k, hk⟩ := exists_isDistance_iff.mpr hreach
    rw [get_depths_shortestPath hroots hi hk, or_iff_left (not_not_intro hreach)]
    constructor
    · rintro rfl
      exact hk.reachesIn
    · intro hroot
      exact hk.unique (isDistance_zero hroot)
  · have hfilter : roots.filter g.contains = roots := List.filter_eq_self.mpr hroots
    rw [depths_shortestPath, Depths.get_map (mem_nodes.mpr hi),
      lookup_distances_of_not_reaches (hfilter.symm ▸ hreach), if_pos hi]
    exact iff_of_true rfl (Or.inr hreach)

end CallGraph

/-! ## The nodes of a view -/

namespace Query

variable {q : Query} {base : CallGraph} {n : Nat}

/-- There are two kinds of queries: those that keep every shortest path to a node that they keep,
and those that cut by the walk back. -/
theorem maxDepth_eq_none_or_depthMode (q : Query) :
    (q.maxDepth = none ∨ q.depthMode = .shortestPath) ∨
      q.maxDepth.isSome ∧ q.depthMode = .firstPredecessor := by
  cases q.maxDepth with
  | none => exact Or.inl (Or.inl rfl)
  | some d =>
    cases q.depthMode with
    | firstPredecessor => exact Or.inr ⟨rfl, rfl⟩
    | shortestPath => exact Or.inl (Or.inr rfl)

theorem contains_root_view : ∀ r ∈ (q.view base).roots, (q.view base).graph.contains r := by
  cases hd : q.maxDepth with
  | none =>
    have hroots : ∀ r ∈ (q.view base).roots, (q.uncut.view base).graph.contains r :=
      contains_root_view_uncut
    rwa [uncut_eq_self hd] at hroots
  | some d =>
    rw [graph_view_of_maxDepth base hd]
    exact CallGraph.contains_root_pruneDeeper contains_root_view_uncut

/-- Unless the walk over first predecessors cuts it, a view has no islands. -/
theorem reaches_view (hcut : q.maxDepth = none ∨ q.depthMode = .shortestPath)
    (hn : (q.view base).graph.contains n) :
    ∃ r ∈ (q.view base).roots, (q.view base).graph.Reaches r n := by
  cases hd : q.maxDepth with
  | none =>
    rw [← uncut_eq_self hd] at hn ⊢
    rw [roots_view_uncut]
    exact reaches_view_uncut hn
  | some d =>
    have hmode : q.depthMode = .shortestPath := hcut.resolve_left (by simp [hd])
    rw [graph_view_of_maxDepth base hd, hmode] at hn ⊢
    exact CallGraph.reaches_pruneDeeper_shortestPath contains_root_view_uncut reaches_view_uncut hn

/-- Every node of a view is a root of it or is called in it. -/
theorem exists_firstPredecessor_view (hn : (q.view base).graph.contains n)
    (hroot : n ∉ (q.view base).roots) : ∃ p, (q.view base).graph.firstPredecessor n = some p := by
  rcases q.maxDepth_eq_none_or_depthMode with hcut | ⟨hdepth, hmode⟩
  · exact CallGraph.exists_firstPredecessor_of_reaches (reaches_view hcut hn) hroot
  · obtain ⟨d, hd⟩ := Option.isSome_iff_exists.mp hdepth
    rw [graph_view_of_maxDepth base hd, hmode] at hn ⊢
    exact CallGraph.exists_firstPredecessor_pruneDeeper reaches_view_uncut hn hroot

/-- Why a node of a view `v` of `q` can have depth zero in a mode although it is no root. -/
inductive PassesForRoot (q : Query) (v : View) : DepthMode → Nat → Prop
  /-- The first edge into the node is its own loop, and the walk back stops at once. -/
  | loop {n : Nat} (hloop : v.graph.firstPredecessor n = some n) :
      PassesForRoot q v .firstPredecessor n
  /-- The view was cut by the walk back, and no root reaches the node any more. -/
  | island {n : Nat} (hdepth : q.maxDepth.isSome) (hmode : q.depthMode = .firstPredecessor)
      (hisland : ¬ ∃ r ∈ v.roots, v.graph.Reaches r n) : PassesForRoot q v .shortestPath n

theorem get_depths_view_eq_zero_iff (mode : DepthMode) (hn : (q.view base).graph.contains n) :
    ((q.view base).graph.depths (q.view base).roots mode).get n = 0 ↔
      n ∈ (q.view base).roots ∨ q.PassesForRoot (q.view base) mode n := by
  cases mode with
  | firstPredecessor =>
    rw [CallGraph.get_depths_firstPredecessor hn, CallGraph.walkDepth_eq_zero_iff hn]
    constructor
    · rintro (hroot | hnone | hloop)
      · exact Or.inl hroot
      · by_contra hout
        obtain ⟨p, hp⟩ := exists_firstPredecessor_view hn (not_or.mp hout).1
        rw [hnone] at hp
        cases hp
      · exact Or.inr (.loop hloop)
    · rintro (hroot | hpass)
      · exact Or.inl hroot
      · cases hpass with
        | loop hloop => exact Or.inr (Or.inr hloop)
  | shortestPath =>
    rw [CallGraph.get_depths_shortestPath_eq_zero_iff contains_root_view hn]
    refine or_congr_right ⟨fun hisland => ?_, fun hpass => ?_⟩
    · rcases q.maxDepth_eq_none_or_depthMode with hcut | ⟨hdepth, hmode⟩
      · exact absurd (reaches_view hcut hn) hisland
      · exact .island hdepth hmode hisland
    · cases hpass with
      | island _ _ hisland => exact hisland

/-- **Depth zero marks the roots**, and the nodes that pass for one: every other node of a view
lies deeper, and is drawn after all roots. -/
theorem exists_view_depth_eq_zero_iff (hroots : ∀ r ∈ q.roots, (base.find? r).isSome) :
    ∃ v, q.run base = .ok v ∧ ∀ mode,
      (∀ n, v.graph.contains n →
        ((Drawing.ofView v mode).depths.get n = 0 ↔ n ∈ v.roots ∨ q.PassesForRoot v mode n)) ∧
      ∀ r ∈ v.roots, ∀ n, v.graph.contains n → n ∉ v.roots → ¬ q.PassesForRoot v mode n →
        (Drawing.ofView v mode).displayOrder.idxOf r <
          (Drawing.ofView v mode).displayOrder.idxOf n := by
  refine ⟨q.view base, run_eq_ok hroots, fun mode =>
    ⟨fun n hn => ?_, fun r hr n hn hroot hpass => ?_⟩⟩
  · exact get_depths_view_eq_zero_iff mode hn
  · have hzero := get_depths_view_eq_zero_iff mode (contains_root_view r hr)
    have hpos := get_depths_view_eq_zero_iff mode hn
    refine Depths.idxOf_displayOrder_lt (contains_root_view r hr) hn ?_
    change ((q.view base).graph.depths (q.view base).roots mode).get r <
      ((q.view base).graph.depths (q.view base).roots mode).get n
    rw [hzero.mpr (Or.inl hr)]
    exact Nat.pos_of_ne_zero fun h => (hpos.mp h).elim hroot hpass

theorem exists_view_depth_eq_zero_iff_selfCalling :
    let q : Query := { roots := ["r"], maxDepth := some 1 }
    let base := CallGraph.ofCalls Registry.selfCalling
    (∀ r ∈ q.roots, (base.find? r).isSome) ∧
      ∃ v, q.run base = .ok v ∧ ∀ mode,
        (∀ n, v.graph.contains n →
          ((Drawing.ofView v mode).depths.get n = 0 ↔ n ∈ v.roots ∨ q.PassesForRoot v mode n)) ∧
        ∀ r ∈ v.roots, ∀ n, v.graph.contains n → n ∉ v.roots → ¬ q.PassesForRoot v mode n →
          (Drawing.ofView v mode).displayOrder.idxOf r <
            (Drawing.ofView v mode).displayOrder.idxOf n :=
  ⟨by decide +kernel, exists_view_depth_eq_zero_iff (by decide +kernel)⟩

/-- The procedure `a`, in slot 0, calls itself before `x` calls it. It has depth zero and is drawn
before the root `r`, in slot 1: by the walk back because of its loop, and by distance once a cut at
depth zero has taken `x` away. -/
theorem depth_zero_beside_roots :
    (∃ v, Query.run { roots := ["r"] } (.ofCalls Registry.selfCalling) = .ok v ∧
      v.roots = [1] ∧ (Drawing.ofView v .firstPredecessor).depths.get 0 = 0 ∧
      (Drawing.ofView v .firstPredecessor).displayOrder = [0, 1, 2]) ∧
    ∃ v, Query.run { roots := ["r"], maxDepth := some 0 } (.ofCalls Registry.selfCalling) = .ok v ∧
      v.roots = [1] ∧ (Drawing.ofView v .shortestPath).depths.get 0 = 0 ∧
      (Drawing.ofView v .shortestPath).displayOrder = [0, 1] := by
  refine ⟨⟨_, run_eq_ok (by decide +kernel), by decide +kernel, by decide +kernel, ?_⟩,
    ⟨_, run_eq_ok (by decide +kernel), by decide +kernel, by decide +kernel, ?_⟩⟩
  -- The nodes are in this order before they are sorted.
  · exact (List.mergeSort_of_pairwise (by decide +kernel)).trans (by decide +kernel)
  · exact (List.mergeSort_of_pairwise (by decide +kernel)).trans (by decide +kernel)

end Query

end CallAtlas
