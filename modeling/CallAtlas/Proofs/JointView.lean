import CallAtlas.Proofs.DepthZero

/-!
# Views of several roots

A query with several roots shows together what it would show for each of its roots alone. The
exclusions and filters do not look at the roots, so all these views are parts of one graph, and what
each of them shows there is said by the lengths of paths: `Query.contains_view_iff`. A path from
some root is a path from one root, and the rest follows.

An edge of the joint view starts at a node that one of the roots reaches, and the same root reaches
its end. With a limit on depth that end may lie too deep for the root, and the edge may then be in
none of the single views.

The view also depends on nothing but the set of the roots: what it removes is found by asking which
nodes are reached, and how deep they lie, and the nodes are removed by increasing number.

## Main definitions

* `Query.withRoots` — the same query for other roots

## Main results

* `CallGraph.reachesIn_iff_exists_root` — paths from several roots
* `Query.contains_view_iff` — the nodes of a view, by the lengths of paths
* `Query.contains_view_iff_exists_root`, `Query.mem_edges_view_iff_exists_root` — nodes and edges of
  a joint view
* `Query.graph_view_withRoots_congr` — order and repetition of the roots do not matter
* `Query.exists_view_isUnion` — the joint view
-/

namespace CallAtlas

namespace CallGraph

variable {g h : CallGraph} {roots roots' : List Nat} {i k d : Nat}

/-! ## Paths from several roots -/

theorem ReachesIn.mono (hsub : ∀ r ∈ roots, r ∈ roots') (hk : g.ReachesIn roots k i) :
    g.ReachesIn roots' k i := by
  induction k generalizing i with
  | zero => exact hsub i hk
  | succ k ih =>
    obtain ⟨j, hj, hc⟩ := hk
    exact ⟨j, ih hj, hc⟩

/-- A path from some root is a path from one root. -/
theorem reachesIn_iff_exists_root :
    g.ReachesIn roots k i ↔ ∃ r ∈ roots, g.ReachesIn [r] k i := by
  constructor
  · intro hk
    induction k generalizing i with
    | zero => exact ⟨i, hk, List.mem_singleton_self i⟩
    | succ k ih =>
      obtain ⟨j, hj, hc⟩ := hk
      obtain ⟨r, hr, hrj⟩ := ih hj
      exact ⟨r, hr, j, hrj, hc⟩
  · rintro ⟨r, hr, hk⟩
    exact hk.mono fun s hs => List.mem_singleton.mp hs ▸ hr

theorem ReachesIn.contains (hroots : ∀ r ∈ roots, g.contains r) (hk : g.ReachesIn roots k i) :
    g.contains i := by
  cases k with
  | zero => exact hroots i hk
  | succ k =>
    obtain ⟨j, -, hc⟩ := hk
    exact hc.contains_target

/-- Pruning keeps all paths from the roots. -/
theorem reachesIn_pruneUnreachable (hroots : ∀ r ∈ roots, g.contains r) :
    (g.pruneUnreachable roots).ReachesIn roots k i ↔ g.ReachesIn roots k i := by
  have hg := isInduced_pruneUnreachable g roots
  have hkeep : ∀ {j m}, g.ReachesIn roots m j → (g.pruneUnreachable roots).contains j := by
    intro j m hm
    exact contains_pruneUnreachable.mpr ⟨hm.contains hroots, exists_reachesIn_iff.mp ⟨m, hm⟩⟩
  refine ⟨hg.reachesIn, fun hk => ?_⟩
  induction k generalizing i with
  | zero => exact hk
  | succ k ih =>
    obtain ⟨j, hj, hc⟩ := id hk
    exact ⟨j, ih hj, hg.calls_iff.mpr ⟨hc, hkeep hj, hkeep hk⟩⟩

/-- A node is within a distance if a path of at most this length leads to it. -/
theorem get_depths_shortestPath_le_iff (hroots : ∀ r ∈ roots, g.contains r) (hi : g.contains i)
    (hreach : ∃ r ∈ roots, g.Reaches r i) :
    (g.depths roots .shortestPath).get i ≤ d ↔ ∃ k ≤ d, g.ReachesIn roots k i := by
  obtain ⟨m, hm⟩ := exists_isDistance_iff.mpr hreach
  rw [get_depths_shortestPath hroots hi hm]
  constructor
  · intro hle
    exact ⟨m, hle, hm.reachesIn⟩
  · rintro ⟨k, hle, hk⟩
    exact Nat.le_trans (hm.le hk) hle

/-! ## The set of the roots -/

theorem reachesIn_congr (hroots : ∀ r, r ∈ roots ↔ r ∈ roots') :
    g.ReachesIn roots k i ↔ g.ReachesIn roots' k i :=
  ⟨.mono fun r => (hroots r).mp, .mono fun r => (hroots r).mpr⟩

theorem IsDistance.congr (hk : g.IsDistance roots i k) (hroots : ∀ r, r ∈ roots ↔ r ∈ roots') :
    g.IsDistance roots' i k :=
  ⟨(reachesIn_congr hroots).mp hk.reachesIn, fun hm => hk.le ((reachesIn_congr hroots).mpr hm)⟩

theorem exists_reaches_congr (hroots : ∀ r, r ∈ roots ↔ r ∈ roots') :
    (∃ r ∈ roots, g.Reaches r i) ↔ ∃ r ∈ roots', g.Reaches r i :=
  exists_congr fun r => and_congr_left fun _ => hroots r

theorem walkBack_congr (hroots : ∀ r, r ∈ roots ↔ r ∈ roots') (fuel : Nat) (seen : List Nat)
    (i : Nat) : g.walkBack roots fuel seen i = g.walkBack roots' fuel seen i := by
  induction fuel generalizing seen i with
  | zero => rfl
  | succ fuel ih =>
    have hcontains : roots.contains i = roots'.contains i := by
      rw [Bool.eq_iff_iff, List.contains_iff_mem, List.contains_iff_mem, hroots i]
    rw [walkBack, walkBack, hcontains]
    cases g.firstPredecessor i with
    | none => rfl
    | some p => simp only [ih]

/-- The order of the roots decides the order of the labels only. -/
theorem lookup_distances_congr (hroots : ∀ r, r ∈ roots ↔ r ∈ roots') (i : Nat) :
    (g.distances roots).lookup i = (g.distances roots').lookup i := by
  have hfilter : ∀ r, r ∈ roots.filter g.contains ↔ r ∈ roots'.filter g.contains := by
    intro r
    rw [List.mem_filter, List.mem_filter, hroots r]
  by_cases hreach : ∃ r ∈ roots.filter g.contains, g.Reaches r i
  · obtain ⟨k, hk⟩ := exists_isDistance_iff.mpr hreach
    rw [lookup_distances_of_isDistance hk, lookup_distances_of_isDistance (hk.congr hfilter)]
  · rw [lookup_distances_of_not_reaches hreach,
      lookup_distances_of_not_reaches (mt (exists_reaches_congr hfilter).mpr hreach)]

/-- Depths depend on the set of the roots only. -/
theorem depths_congr (hroots : ∀ r, r ∈ roots ↔ r ∈ roots') (mode : DepthMode) :
    g.depths roots mode = g.depths roots' mode := by
  cases mode with
  | firstPredecessor =>
    simp only [depths, walkDepth, walkBack_congr hroots]
  | shortestPath => simp only [depths, Depths.ofLabels, lookup_distances_congr hroots]

theorem pruneUnreachable_congr (hroots : ∀ r, r ∈ roots ↔ r ∈ roots') :
    g.pruneUnreachable roots = g.pruneUnreachable roots' := by
  have hkeep : ∀ i, (g.reachable roots).contains i = (g.reachable roots').contains i := by
    intro i
    rw [Bool.eq_iff_iff, List.contains_iff_mem, List.contains_iff_mem, mem_reachable,
      mem_reachable]
    exact exists_reaches_congr hroots
  simp only [pruneUnreachable, hkeep]

theorem pruneDeeper_congr (hroots : ∀ r, r ∈ roots ↔ r ∈ roots') (d : Nat) (mode : DepthMode) :
    g.pruneDeeper roots d mode = g.pruneDeeper roots' d mode := by
  simp only [pruneDeeper, depths_congr hroots]

/-! ## Reading an induced sub-graph -/

theorem IsInduced.node?_eq_some_iff (hg : IsInduced h g) {a : GraphNode} :
    h.node? i = some a ↔ h.contains i ∧ g.node? i = some a := by
  constructor
  · intro ha
    have hi : h.contains i := contains_iff.mpr ⟨a, ha⟩
    exact ⟨hi, hg.node?_eq hi ▸ ha⟩
  · rintro ⟨hi, ha⟩
    rw [hg.node?_eq hi, ha]

theorem IsInduced.mem_edges_iff (hg : IsInduced h g) {e : GraphEdge} :
    e ∈ h.edges ↔ e ∈ g.edges ∧ h.contains e.source ∧ h.contains e.target := by
  rw [hg.edges_eq, List.mem_filter, Bool.and_eq_true]

end CallGraph

/-! ## Joint views -/

namespace Query

variable {q : Query} {base : CallGraph} {n : Nat}

/-- The same query for other roots. -/
def withRoots (q : Query) (roots : List String) : Query :=
  { q with roots := roots }

/-- The views of a query for different roots are parts of one graph. -/
theorem isInduced_view_withRoots (q : Query) (roots : List String) (base : CallGraph) :
    ((q.withRoots roots).view base).graph.IsInduced (q.survivors base) :=
  (q.withRoots roots).isInduced_view base

theorem contains_view_uncut_iff :
    (q.uncut.view base).graph.contains n ↔
      ∃ k, (q.survivors base).ReachesIn (q.view base).roots k n := by
  rw [graph_view_uncut, CallGraph.contains_pruneUnreachable, ← CallGraph.exists_reachesIn_iff,
    and_iff_right_iff_imp]
  rintro ⟨k, hk⟩
  exact hk.contains fun _ => contains_survivors_of_mem_roots

/-- Distances in a view without a limit are distances in what the filters leave. -/
theorem get_depths_view_uncut_le_iff (hn : (q.uncut.view base).graph.contains n) {d : Nat} :
    ((q.uncut.view base).graph.depths (q.view base).roots .shortestPath).get n ≤ d ↔
      ∃ k ≤ d, (q.survivors base).ReachesIn (q.view base).roots k n := by
  rw [CallGraph.get_depths_shortestPath_le_iff contains_root_view_uncut hn (reaches_view_uncut hn),
    graph_view_uncut]
  exact exists_congr fun k => and_congr_right fun _ =>
    CallGraph.reachesIn_pruneUnreachable fun _ => contains_survivors_of_mem_roots

/-- The nodes of a view are those to which a path leads from a root that is not too long. -/
theorem contains_view_iff (hcut : q.maxDepth = none ∨ q.depthMode = .shortestPath) :
    (q.view base).graph.contains n ↔ ∃ k, (∀ d, q.maxDepth = some d → k ≤ d) ∧
      (q.survivors base).ReachesIn (q.view base).roots k n := by
  cases hd : q.maxDepth with
  | none =>
    have hfree : (q.uncut.view base).graph.contains n ↔ _ := contains_view_uncut_iff
    rw [uncut_eq_self hd] at hfree
    simpa using hfree
  | some d =>
    have hmode : q.depthMode = .shortestPath := hcut.resolve_left (by simp [hd])
    rw [graph_view_of_maxDepth base hd, hmode, CallGraph.contains_pruneDeeper]
    simp only [Option.some.injEq, forall_eq']
    constructor
    · rintro ⟨hn, hle⟩
      exact (get_depths_view_uncut_le_iff hn).mp hle
    · rintro ⟨k, hle, hk⟩
      have hn := contains_view_uncut_iff.mpr ⟨k, hk⟩
      exact ⟨hn, (get_depths_view_uncut_le_iff hn).mpr ⟨k, hle, hk⟩⟩

theorem mem_roots_view_iff_find? {r : Nat} :
    r ∈ (q.view base).roots ↔ ∃ x ∈ q.roots, (q.survivors base).find? x = some r := by
  rw [roots_view_eq_filterMap, List.mem_filterMap]

theorem mem_roots_view_withRoots {roots : List String} {r : Nat} :
    r ∈ ((q.withRoots roots).view base).roots ↔
      ∃ x ∈ roots, (q.survivors base).find? x = some r :=
  mem_roots_view_iff_find?

theorem mem_roots_view_iff_exists_root {r : Nat} :
    r ∈ (q.view base).roots ↔ ∃ x ∈ q.roots, r ∈ ((q.withRoots [x]).view base).roots := by
  rw [mem_roots_view_iff_find?]
  simp only [mem_roots_view_withRoots, List.mem_singleton, exists_eq_left]

/-- A node is in a joint view exactly if it is in the view of one of the roots. -/
theorem contains_view_iff_exists_root (hcut : q.maxDepth = none ∨ q.depthMode = .shortestPath) :
    (q.view base).graph.contains n ↔
      ∃ x ∈ q.roots, ((q.withRoots [x]).view base).graph.contains n := by
  have hsingle : ∀ x, ((q.withRoots [x]).view base).graph.contains n ↔
      ∃ k, (∀ d, q.maxDepth = some d → k ≤ d) ∧
        (q.survivors base).ReachesIn ((q.withRoots [x]).view base).roots k n :=
    fun x => contains_view_iff hcut
  rw [contains_view_iff hcut]
  simp only [hsingle]
  constructor
  · rintro ⟨k, hle, hk⟩
    obtain ⟨r, hr, hrk⟩ := CallGraph.reachesIn_iff_exists_root.mp hk
    obtain ⟨x, hx, hxr⟩ := mem_roots_view_iff_exists_root.mp hr
    exact ⟨x, hx, k, hle, CallGraph.reachesIn_iff_exists_root.mpr ⟨r, hxr, hrk⟩⟩
  · rintro ⟨x, hx, k, hle, hk⟩
    exact ⟨k, hle, hk.mono fun r hr => mem_roots_view_iff_exists_root.mpr ⟨x, hx, hr⟩⟩

theorem node?_view_iff_exists_root (hcut : q.maxDepth = none ∨ q.depthMode = .shortestPath)
    {a : GraphNode} :
    (q.view base).graph.node? n = some a ↔
      ∃ x ∈ q.roots, ((q.withRoots [x]).view base).graph.node? n = some a := by
  simp only [(q.isInduced_view base).node?_eq_some_iff,
    (isInduced_view_withRoots q _ base).node?_eq_some_iff, contains_view_iff_exists_root hcut,
    ← and_assoc, exists_and_right]

/-- Without a limit on depth, a view holds everything that its nodes call. -/
theorem contains_view_of_calls (hd : q.maxDepth = none) {i j : Nat}
    (hi : (q.view base).graph.contains i) (hc : (q.survivors base).Calls i j) :
    (q.view base).graph.contains j := by
  rw [contains_view_iff (Or.inl hd)] at hi ⊢
  obtain ⟨k, -, hk⟩ := hi
  exact ⟨k + 1, by simp [hd], i, hk, hc⟩

/-- Without a limit on depth, an edge is in a joint view exactly if it is in the view of one of the
roots. -/
theorem mem_edges_view_iff_exists_root (hd : q.maxDepth = none) {e : GraphEdge} :
    e ∈ (q.view base).graph.edges ↔
      ∃ x ∈ q.roots, e ∈ ((q.withRoots [x]).view base).graph.edges := by
  simp only [(q.isInduced_view base).mem_edges_iff,
    (isInduced_view_withRoots q _ base).mem_edges_iff, contains_view_iff_exists_root (Or.inl hd)]
  constructor
  · -- The root that reaches the source of the edge also reaches its target.
    rintro ⟨he, ⟨x, hx, hsource⟩, -⟩
    have htarget := contains_view_of_calls (q := q.withRoots [x]) hd hsource ⟨e, he, rfl, rfl⟩
    exact ⟨x, hx, he, hsource, htarget⟩
  · rintro ⟨x, hx, he, hsource, htarget⟩
    exact ⟨he, ⟨x, hx, hsource⟩, x, hx, htarget⟩

/-- Order and repetition of the roots do not matter. -/
theorem graph_view_withRoots_congr {roots roots' : List String}
    (hroots : ∀ x, x ∈ roots ↔ x ∈ roots') :
    ((q.withRoots roots).view base).graph = ((q.withRoots roots').view base).graph := by
  have hmem : ∀ r, r ∈ ((q.withRoots roots).view base).roots ↔
      r ∈ ((q.withRoots roots').view base).roots := by
    intro r
    simp only [mem_roots_view_withRoots, hroots]
  have huncut : ((q.withRoots roots).uncut.view base).graph =
      ((q.withRoots roots').uncut.view base).graph := by
    rw [graph_view_uncut, graph_view_uncut]
    exact CallGraph.pruneUnreachable_congr hmem
  cases hd : q.maxDepth with
  | none =>
    have hself : ∀ names, (q.withRoots names).uncut = q.withRoots names :=
      fun names => uncut_eq_self hd
    rwa [hself, hself] at huncut
  | some d =>
    have hcut : ∀ names, ((q.withRoots names).view base).graph =
        ((q.withRoots names).uncut.view base).graph.pruneDeeper
          ((q.withRoots names).view base).roots d q.depthMode :=
      fun names => graph_view_of_maxDepth base hd
    rw [hcut, hcut, huncut]
    exact CallGraph.pruneDeeper_congr hmem d q.depthMode

/-- **A joint view is the union of the views of its roots.** With a limit on distance this holds of
the nodes, without a limit on depth also of the edges; and in every case only the set of the roots
matters. -/
theorem exists_view_isUnion (hroots : ∀ r ∈ q.roots, (base.find? r).isSome) :
    ∃ v, q.run base = .ok v ∧ ∃ single : String → View,
      (∀ x ∈ q.roots, (q.withRoots [x]).run base = .ok (single x)) ∧
      (q.maxDepth = none ∨ q.depthMode = .shortestPath → ∀ n a, v.graph.node? n = some a ↔
        ∃ x ∈ q.roots, (single x).graph.node? n = some a) ∧
      (q.maxDepth = none → ∀ e, e ∈ v.graph.edges ↔
        ∃ x ∈ q.roots, e ∈ (single x).graph.edges) ∧
      ∀ roots, (∀ x, x ∈ roots ↔ x ∈ q.roots) →
        ∃ w, (q.withRoots roots).run base = .ok w ∧ w.graph = v.graph := by
  refine ⟨q.view base, run_eq_ok hroots, fun x => (q.withRoots [x]).view base,
    fun x hx => ?_, fun hcut n a => ?_, fun hd e => mem_edges_view_iff_exists_root hd,
    fun roots hmem => ?_⟩
  · exact run_eq_ok fun r hr => hroots r (List.mem_singleton.mp hr ▸ hx)
  · exact node?_view_iff_exists_root hcut
  · refine ⟨_, run_eq_ok fun r hr => hroots r ((hmem r).mp hr), ?_⟩
    exact graph_view_withRoots_congr hmem

theorem exists_view_isUnion_selfCalling :
    let q : Query := { roots := ["x", "r", "x"], excludeNodes := ["a"] }
    let base := CallGraph.ofCalls Registry.selfCalling
    (∀ r ∈ q.roots, (base.find? r).isSome) ∧ q.maxDepth = none ∧
      ∃ v, q.run base = .ok v ∧ ∃ single : String → View,
        (∀ x ∈ q.roots, (q.withRoots [x]).run base = .ok (single x)) ∧
        (q.maxDepth = none ∨ q.depthMode = .shortestPath → ∀ n a, v.graph.node? n = some a ↔
          ∃ x ∈ q.roots, (single x).graph.node? n = some a) ∧
        (q.maxDepth = none → ∀ e, e ∈ v.graph.edges ↔
          ∃ x ∈ q.roots, e ∈ (single x).graph.edges) ∧
        ∀ roots, (∀ x, x ∈ roots ↔ x ∈ q.roots) →
          ∃ w, (q.withRoots roots).run base = .ok w ∧ w.graph = v.graph :=
  ⟨by decide +kernel, rfl, exists_view_isUnion (by decide +kernel)⟩

end Query

end CallAtlas
