import CallAtlas.Drawing.Basic
import CallAtlas.Proofs.BreadthFirst
import CallAtlas.Proofs.FirstPredecessor
import CallAtlas.Proofs.ViewExactness

/-!
# Cutting a view at a depth

A limit on depth removes the nodes that lie too deep, and a drawing then measures depth again, in
what is left. The second measurement gives the same numbers as the first: the cut keeps everything
that the depth of a kept node depends on. For distances that is a shortest path, whose nodes are
nearer than its end; for the walk over first predecessors it is the whole walk, since a step back
never leads deeper.

## Main definitions

* `View.IsCutAt` — the contract of a limit on depth

## Main results

* `CallGraph.get_depths_firstPredecessor`, `CallGraph.get_depths_shortestPath` — what the depth of
  a node is, in each mode
* `CallGraph.get_depths_pruneDeeper` — cutting does not change depths
* `Query.exists_view_isCutAt` — the contract holds
-/

namespace CallAtlas

namespace Depths

/-- Depths that are listed node by node are read back. -/
theorem get_map {is : List Nat} {f : Nat → Nat} {i : Nat} (hi : i ∈ is) :
    (Depths.mk (is.map fun j => (j, f j))).get i = f i := by
  have hfind : is.find? (fun j => decide (j = i)) = some i := by
    cases hf : is.find? (fun j => decide (j = i)) with
    | none => exact absurd (List.find?_eq_none.mp hf i hi) (by simp)
    | some j =>
      have hji : j = i := by simpa using List.find?_some hf
      rw [hji]
  rw [get, List.find?_map]
  change ((is.find? fun j => decide (j = i)).map _ |>.map _).getD 0 = f i
  rw [hfind]
  rfl

end Depths

namespace CallGraph

variable {g h : CallGraph} {roots : List Nat} {i k d : Nat} {mode : DepthMode}

/-! ## The depth of a node -/

theorem get_depths_firstPredecessor (hi : g.contains i) :
    (g.depths roots .firstPredecessor).get i = g.walkDepth roots i :=
  Depths.get_map (mem_nodes.mpr hi)

/-- All roots are nodes of the graph, as they are in every view. -/
theorem get_depths_shortestPath (hroots : ∀ r ∈ roots, g.contains r) (hi : g.contains i)
    (hk : g.IsDistance roots i k) : (g.depths roots .shortestPath).get i = k := by
  have hfilter : roots.filter g.contains = roots := List.filter_eq_self.mpr hroots
  rw [depths_shortestPath, Depths.get_map (mem_nodes.mpr hi),
    lookup_distances_of_isDistance (hfilter.symm ▸ hk), Option.getD_some]

theorem get_depths_root (hroots : ∀ r ∈ roots, g.contains r) (hi : i ∈ roots) (mode : DepthMode) :
    (g.depths roots mode).get i = 0 := by
  cases mode with
  | firstPredecessor =>
    rw [get_depths_firstPredecessor (hroots i hi)]
    exact walkBack_of_mem_roots hi _
  | shortestPath => exact get_depths_shortestPath hroots (hroots i hi) (isDistance_zero hi)

/-! ## The cut -/

theorem isInduced_pruneDeeper (g : CallGraph) (roots : List Nat) (d : Nat) (mode : DepthMode) :
    IsInduced (g.pruneDeeper roots d mode) g :=
  isInduced_removeNodes g _

theorem contains_pruneDeeper :
    (g.pruneDeeper roots d mode).contains i ↔
      g.contains i ∧ (g.depths roots mode).get i ≤ d := by
  rw [pruneDeeper, contains_removeNodes_filter, decide_eq_true_eq, Nat.not_lt]

theorem contains_root_pruneDeeper (hroots : ∀ r ∈ roots, g.contains r) :
    ∀ r ∈ roots, (g.pruneDeeper roots d mode).contains r := by
  intro r hr
  rw [contains_pruneDeeper, get_depths_root hroots hr]
  exact ⟨hroots r hr, Nat.zero_le d⟩

/-- The cut keeps the first predecessor of every node it keeps, roots aside. -/
theorem contains_firstPredecessor_pruneDeeper {p : Nat}
    (hi : (g.pruneDeeper roots d .firstPredecessor).contains i) (hroot : i ∉ roots)
    (hp : g.firstPredecessor i = some p) :
    (g.pruneDeeper roots d .firstPredecessor).contains p := by
  obtain ⟨hgi, hdepth⟩ := contains_pruneDeeper.mp hi
  have hgp : g.contains p := (calls_of_firstPredecessor hp).contains_source
  rw [get_depths_firstPredecessor hgi] at hdepth
  rw [contains_pruneDeeper, get_depths_firstPredecessor hgp]
  exact ⟨hgp, Nat.le_trans (walkDepth_le_of_firstPredecessor hroot hp) hdepth⟩

theorem IsInduced.reachesIn (hg : IsInduced h g) (hk : h.ReachesIn roots k i) :
    g.ReachesIn roots k i := by
  induction k generalizing i with
  | zero => exact hk
  | succ k ih =>
    obtain ⟨j, hj, hc⟩ := hk
    exact ⟨j, ih hj, (hg.calls_iff.mp hc).1⟩

/-- The cut keeps a shortest path to every node it keeps. -/
theorem isDistance_pruneDeeper (hroots : ∀ r ∈ roots, g.contains r)
    (hk : g.IsDistance roots i k) (hkd : k ≤ d) :
    (g.pruneDeeper roots d .shortestPath).IsDistance roots i k := by
  have hg := isInduced_pruneDeeper g roots d .shortestPath
  refine ⟨?_, fun hm => hk.le (hg.reachesIn hm)⟩
  induction k generalizing i with
  | zero => exact hk.reachesIn
  | succ k ih =>
    obtain ⟨j, hj, hc⟩ := hk.pred
    have hkeep : ∀ {x m : Nat}, g.contains x → g.IsDistance roots x m → m ≤ d →
        (g.pruneDeeper roots d .shortestPath).contains x := by
      intro x m hx hm hmd
      rw [contains_pruneDeeper, get_depths_shortestPath hroots hx hm]
      exact ⟨hx, hmd⟩
    refine ⟨j, ih hj (by omega), hg.calls_iff.mpr ⟨hc, ?_, ?_⟩⟩
    · exact hkeep hc.contains_source hj (by omega)
    · exact hkeep hc.contains_target hk hkd

/-- **Cutting does not change depths**, in a graph whose nodes are all reached from the roots. -/
theorem get_depths_pruneDeeper (hroots : ∀ r ∈ roots, g.contains r)
    (hreach : ∀ {i}, g.contains i → ∃ r ∈ roots, g.Reaches r i)
    (hi : (g.pruneDeeper roots d mode).contains i) :
    ((g.pruneDeeper roots d mode).depths roots mode).get i = (g.depths roots mode).get i := by
  obtain ⟨hgi, hdepth⟩ := contains_pruneDeeper.mp hi
  cases mode with
  | firstPredecessor =>
    rw [get_depths_firstPredecessor hi, get_depths_firstPredecessor hgi]
    exact (isInduced_pruneDeeper g roots d _).walkDepth_eq contains_firstPredecessor_pruneDeeper hi
  | shortestPath =>
    obtain ⟨k, hk⟩ := exists_isDistance_iff.mpr (hreach hgi)
    rw [get_depths_shortestPath hroots hgi hk] at hdepth ⊢
    exact get_depths_shortestPath (contains_root_pruneDeeper hroots) hi
      (isDistance_pruneDeeper hroots hk hdepth)

end CallGraph

/-! ## Views -/

/-- `v` is the view `w` cut at the depth `d`. -/
structure View.IsCutAt (v w : View) (d : Nat) (mode : DepthMode) : Prop where
  roots_eq : v.roots = w.roots
  /-- The nodes are those of `w` that do not lie too deep. -/
  contains_iff : ∀ n, v.graph.contains n ↔
    w.graph.contains n ∧ (w.graph.depths w.roots mode).get n ≤ d
  /-- Nothing else changes. -/
  isInduced : v.graph.IsInduced w.graph
  /-- No root is cut off. -/
  contains_root : ∀ r ∈ w.roots, v.graph.contains r
  /-- The depths that a drawing of `v` measures are those in `w`. -/
  depth_eq : ∀ n, v.graph.contains n →
    (Drawing.ofView v mode).depths.get n = (w.graph.depths w.roots mode).get n
  /-- No node of a drawing of `v` lies deeper than the limit. -/
  depth_le : ∀ n ∈ (Drawing.ofView v mode).graph.nodes, (Drawing.ofView v mode).depths.get n ≤ d

namespace Query

variable {q : Query} {base : CallGraph} {d : Nat}

/-- With a limit on depth, the view without it is cut. -/
theorem graph_view_of_maxDepth (base : CallGraph) (hd : q.maxDepth = some d) :
    (q.view base).graph =
      (q.uncut.view base).graph.pruneDeeper (q.view base).roots d q.depthMode := by
  rw [graph_view_uncut, roots_view_eq_filterMap, view, hd]

theorem contains_root_view_uncut :
    ∀ r ∈ (q.view base).roots, (q.uncut.view base).graph.contains r := by
  intro r hr
  rw [graph_view_uncut, CallGraph.contains_pruneUnreachable]
  exact ⟨contains_survivors_of_mem_roots hr, r, hr, .refl⟩

theorem reaches_view_uncut {n : Nat} (hn : (q.uncut.view base).graph.contains n) :
    ∃ r ∈ (q.view base).roots, (q.uncut.view base).graph.Reaches r n := by
  rw [graph_view_uncut] at hn ⊢
  exact CallGraph.reaches_pruneUnreachable (fun _ => contains_survivors_of_mem_roots) hn

/-- **A limit on depth is exact, and depths are stable under it.** -/
theorem exists_view_isCutAt (hd : q.maxDepth = some d)
    (hroots : ∀ r ∈ q.roots, (base.find? r).isSome) :
    ∃ v, q.run base = .ok v ∧ v.IsCutAt (q.uncut.view base) d q.depthMode := by
  have hgraph := graph_view_of_maxDepth base hd
  have hdepth : ∀ n, (q.view base).graph.contains n →
      (Drawing.ofView (q.view base) q.depthMode).depths.get n =
        ((q.uncut.view base).graph.depths (q.uncut.view base).roots q.depthMode).get n := by
    intro n hn
    change ((q.view base).graph.depths (q.view base).roots q.depthMode).get n = _
    rw [roots_view_uncut]
    rw [hgraph] at hn ⊢
    exact CallGraph.get_depths_pruneDeeper contains_root_view_uncut reaches_view_uncut hn
  have hcontains : ∀ n, (q.view base).graph.contains n ↔ (q.uncut.view base).graph.contains n ∧
      ((q.uncut.view base).graph.depths (q.uncut.view base).roots q.depthMode).get n ≤ d := by
    intro n
    rw [hgraph, roots_view_uncut, CallGraph.contains_pruneDeeper]
  refine ⟨q.view base, run_eq_ok hroots, (roots_view_uncut q base).symm, hcontains, ?_, ?_, hdepth,
    fun n hn => ?_⟩
  · rw [hgraph]
    exact CallGraph.isInduced_pruneDeeper _ _ _ _
  · rw [hgraph, roots_view_uncut]
    exact CallGraph.contains_root_pruneDeeper contains_root_view_uncut
  · have hn' : (q.view base).graph.contains n := CallGraph.mem_nodes.mp hn
    rw [hdepth n hn']
    exact ((hcontains n).mp hn').2

theorem exists_view_isCutAt_selfCalling :
    let q : Query := { roots := ["r"], maxDepth := some 0 }
    let base := CallGraph.ofCalls Registry.selfCalling
    q.maxDepth = some 0 ∧ (∀ r ∈ q.roots, (base.find? r).isSome) ∧
      ∃ v, q.run base = .ok v ∧ v.IsCutAt (q.uncut.view base) 0 q.depthMode :=
  ⟨rfl, by decide +kernel, exists_view_isCutAt rfl (by decide +kernel)⟩

end Query

end CallAtlas
