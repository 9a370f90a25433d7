import CallAtlas.Proofs.DepthCutoff

/-!
# Islands in a view

Pruning leaves only nodes that the roots reach. A limit on depth then takes nodes out, and it may
take out every path to a node that it keeps. By distance this cannot happen. By the walk over first
predecessors it can: on a cycle the walk ends early, so a node far below the roots may count as
shallow while the nodes on the way to it do not.

That is the only way. Every node of a view is reached from a root inside the view, unless the view
is cut by the walk over first predecessors and the walk from the node goes round for ever without
meeting a root.

## Main definitions

* `CallGraph.nthPredecessor` — going back a number of steps over first predecessors
* `CallGraph.CirclesBack` — going back never ends and never meets a root

## Main results

* `Query.exists_view_reached_or_circlesBack` — what is reached in a view
* `Query.exists_view_island` — a view with an island
-/

namespace CallAtlas

namespace CallGraph

variable {g h : CallGraph} {roots : List Nat} {i m k : Nat}

/-- The node that `k` steps over first predecessors lead back to. -/
def nthPredecessor (g : CallGraph) : Nat → Nat → Option Nat
  | 0, i => some i
  | k + 1, i => (g.nthPredecessor k i).bind g.firstPredecessor

/-- However far one goes back from the node over first predecessors, there is a node, and it is no
root. As a graph is finite, the walk is caught in a cycle. -/
def CirclesBack (g : CallGraph) (roots : List Nat) (i : Nat) : Prop :=
  ∀ k, ∃ m, g.nthPredecessor k i = some m ∧ m ∉ roots

theorem reaches_of_nthPredecessor (hm : g.nthPredecessor k i = some m) : g.Reaches m i := by
  induction k generalizing m with
  | zero =>
    obtain rfl : i = m := Option.some.inj hm
    exact .refl
  | succ k ih =>
    obtain ⟨j, hj, hp⟩ := Option.bind_eq_some_iff.mp hm
    exact .head (calls_of_firstPredecessor hp) (ih hj)

/-- In a graph where every node is a root or has a predecessor, going back leads to a root or goes
on for ever. -/
theorem reaches_or_circlesBack
    (hstep : ∀ {j}, g.contains j → j ∉ roots → ∃ p, g.firstPredecessor j = some p)
    (hi : g.contains i) : (∃ r ∈ roots, g.Reaches r i) ∨ g.CirclesBack roots i := by
  by_cases hex : ∃ k, ∃ r ∈ roots, g.nthPredecessor k i = some r
  · obtain ⟨k, r, hr, hk⟩ := hex
    exact Or.inl ⟨r, hr, reaches_of_nthPredecessor hk⟩
  refine Or.inr fun k => ?_
  have hsome : ∃ m, g.nthPredecessor k i = some m ∧ g.contains m := by
    induction k with
    | zero => exact ⟨i, rfl, hi⟩
    | succ k ih =>
      obtain ⟨m, hm, hcontains⟩ := ih
      obtain ⟨p, hp⟩ := hstep hcontains fun hroot => hex ⟨k, m, hroot, hm⟩
      exact ⟨p, by rw [nthPredecessor, hm, Option.bind_some, hp],
        (calls_of_firstPredecessor hp).contains_source⟩
  obtain ⟨m, hm, -⟩ := hsome
  exact ⟨m, hm, fun hroot => hex ⟨k, m, hroot, hm⟩⟩

/-- A node that is reached from a root and is none has a first predecessor. -/
theorem exists_firstPredecessor_of_reaches (hreach : ∃ r ∈ roots, g.Reaches r i)
    (hi : i ∉ roots) : ∃ p, g.firstPredecessor i = some p := by
  obtain ⟨r, hr, hri⟩ := hreach
  rcases Relation.ReflTransGen.cases_tail hri with rfl | ⟨j, -, hc⟩
  · exact absurd hr hi
  · exact exists_firstPredecessor hc

/-- After a cut by distance, the roots still reach every node. -/
theorem reaches_pruneDeeper_shortestPath {d : Nat} (hroots : ∀ r ∈ roots, g.contains r)
    (hreach : ∀ {i}, g.contains i → ∃ r ∈ roots, g.Reaches r i)
    (hi : (g.pruneDeeper roots d .shortestPath).contains i) :
    ∃ r ∈ roots, (g.pruneDeeper roots d .shortestPath).Reaches r i := by
  obtain ⟨hgi, hdepth⟩ := contains_pruneDeeper.mp hi
  obtain ⟨k, hk⟩ := exists_isDistance_iff.mpr (hreach hgi)
  rw [get_depths_shortestPath hroots hgi hk] at hdepth
  exact exists_isDistance_iff.mp ⟨k, isDistance_pruneDeeper hroots hk hdepth⟩

/-- After a cut by the walk over first predecessors, every node is a root or has a first
predecessor. -/
theorem exists_firstPredecessor_pruneDeeper {d : Nat}
    (hreach : ∀ {i}, g.contains i → ∃ r ∈ roots, g.Reaches r i)
    (hi : (g.pruneDeeper roots d .firstPredecessor).contains i) (hroot : i ∉ roots) :
    ∃ p, (g.pruneDeeper roots d .firstPredecessor).firstPredecessor i = some p := by
  have hg := isInduced_pruneDeeper g roots d .firstPredecessor
  rw [hg.firstPredecessor_eq hi (contains_firstPredecessor_pruneDeeper hi hroot)]
  exact exists_firstPredecessor_of_reaches (hreach (hg.contains hi)) hroot

end CallGraph

namespace Query

/-- **Islands are cycles.** Every node of a view is reached from one of its roots inside the view,
unless the view is cut by the walk over first predecessors and this walk circles. -/
theorem exists_view_reached_or_circlesBack {q : Query} {base : CallGraph}
    (hroots : ∀ r ∈ q.roots, (base.find? r).isSome) :
    ∃ v, q.run base = .ok v ∧ ∀ n, v.graph.contains n →
      (∃ r ∈ v.roots, v.graph.Reaches r n) ∨
        (q.maxDepth.isSome ∧ q.depthMode = .firstPredecessor ∧
          v.graph.CirclesBack v.roots n) := by
  refine ⟨q.view base, run_eq_ok hroots, fun n hn => ?_⟩
  cases hd : q.maxDepth with
  | none =>
    rw [← uncut_eq_self hd] at hn
    have hreach := reaches_view_uncut hn
    rw [uncut_eq_self hd] at hreach
    exact Or.inl hreach
  | some d =>
    rw [graph_view_of_maxDepth base hd] at hn ⊢
    cases hmode : q.depthMode with
    | shortestPath =>
      rw [hmode] at hn
      exact Or.inl (CallGraph.reaches_pruneDeeper_shortestPath contains_root_view_uncut
        reaches_view_uncut hn)
    | firstPredecessor =>
      rw [hmode] at hn
      refine (CallGraph.reaches_or_circlesBack ?_ hn).imp_right fun hcircles => ⟨rfl, rfl, hcircles⟩
      exact CallGraph.exists_firstPredecessor_pruneDeeper reaches_view_uncut

theorem exists_view_reached_or_circlesBack_selfCalling :
    let q : Query := { roots := ["r"], maxDepth := some 0 }
    let base := CallGraph.ofCalls Registry.selfCalling
    (∀ r ∈ q.roots, (base.find? r).isSome) ∧
      ∃ v, q.run base = .ok v ∧ ∀ n, v.graph.contains n →
        (∃ r ∈ v.roots, v.graph.Reaches r n) ∨
          (q.maxDepth.isSome ∧ q.depthMode = .firstPredecessor ∧
            v.graph.CirclesBack v.roots n) :=
  ⟨by decide +kernel, exists_view_reached_or_circlesBack (by decide +kernel)⟩

/-- The procedure `a` calls itself before `x` calls it, so it counts as depth zero; `x`, the only
way from the root `r` to `a`, does not. Cut at depth zero, the view keeps `a` as an island. -/
theorem exists_view_island :
    ∃ v, Query.run { roots := ["r"], maxDepth := some 0 } (.ofCalls Registry.selfCalling) = .ok v ∧
      ∃ n, v.graph.contains n ∧ ¬ ∃ r ∈ v.roots, v.graph.Reaches r n := by
  refine ⟨_, run_eq_ok (by decide +kernel), 0, by decide +kernel, ?_⟩
  rw [← CallGraph.mem_reachable]
  decide +kernel

end Query

end CallAtlas
