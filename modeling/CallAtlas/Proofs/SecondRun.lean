import CallAtlas.Proofs.FilterEffect
import CallAtlas.Proofs.JointView

/-!
# Running a query on its own view

A query that is run again on the view it has made finds nothing to remove. Each step removes the
nodes that fail some test, so a graph that passes the test is left as it is, and a view passes all
tests at once: it holds nothing that is excluded, it respects the filters, the roots reach all of
it, and nothing in it lies too deep.

A view that was cut by the walk over first predecessors need not pass the third test, as it may have
islands; the other three hold of every view.

## Main definitions

* `Query.narrowedTo` — a query for those of its roots that a view still has

## Main results

* `CallGraph.exclude_eq_self`, `CallGraph.applyFilter_eq_self`,
  `CallGraph.pruneUnreachable_eq_self`, `CallGraph.pruneDeeper_eq_self` — when a step removes nothing
* `Query.survivors_view` — exclusion and filters leave a view as it is
* `Query.run_narrowedTo` — the second run
-/

namespace CallAtlas

namespace CallGraph

variable {g : CallGraph} {roots : List Nat} {i d : Nat} {mode : DepthMode}

/-! ## Steps that remove nothing -/

theorem removeNodes_filter_eq_self {p : Nat → Bool} (hp : ∀ i, g.contains i → ¬ p i) :
    g.removeNodes (g.nodes.filter p) = g := by
  have hnil : g.nodes.filter p = [] :=
    List.filter_eq_nil_iff.mpr fun i hi => hp i (mem_nodes.mp hi)
  rw [hnil]
  rfl

theorem exclude_eq_self {names files : List String}
    (hkeep : ∀ i, g.contains i → ¬ g.isExcluded names files i) : g.exclude names files = g :=
  removeNodes_filter_eq_self hkeep

theorem pruneUnreachable_eq_self (hreach : ∀ i, g.contains i → ∃ r ∈ roots, g.Reaches r i) :
    g.pruneUnreachable roots = g := by
  refine removeNodes_filter_eq_self fun i hi => ?_
  have hmem : i ∈ g.reachable roots := mem_reachable.mpr (hreach i hi)
  simpa using hmem

theorem pruneDeeper_eq_self (hdepth : ∀ i, g.contains i → (g.depths roots mode).get i ≤ d) :
    g.pruneDeeper roots d mode = g := by
  refine removeNodes_filter_eq_self fun i hi => ?_
  rw [decide_eq_true_eq, Nat.not_lt]
  exact hdepth i hi

theorem foldl_eq_self {α : Type} {step : CallGraph → α → CallGraph} {as : List α}
    (hstep : ∀ a ∈ as, step g a = g) : as.foldl step g = g := by
  induction as with
  | nil => rfl
  | cons a as ih =>
    rw [List.foldl_cons, hstep a List.mem_cons_self]
    exact ih fun b hb => hstep b (List.mem_cons_of_mem a hb)

theorem filterList_eq_self {action : FilterAction} {list : String × List String}
    (hkeep : ∀ j, ¬ g.Condemned action list j) : filterList action g list = g := by
  rw [filterList]
  split
  case h_1 => rfl
  case h_2 caller hcaller =>
    refine foldl_eq_self fun j hj => if_neg fun hgo => ?_
    simp only [Bool.and_eq_true, decide_eq_true_eq, ConnectionFilter.condemns_iff] at hgo
    exact hkeep j ⟨caller, hcaller, hj, hgo.1.1, hgo.2⟩

/-- A filter that is respected removes nothing. -/
theorem applyFilter_eq_self {f : ConnectionFilter} (hf : g.Respects f) : g.applyFilter f = g :=
  foldl_eq_self fun list hlist => filterList_eq_self (respects_iff.mp hf list hlist)

end CallGraph

namespace Query

variable {q : Query} {base : CallGraph} {v : View} {n : Nat}

theorem eq_view_of_run (hv : q.run base = .ok v) : v = q.view base := by
  rw [run] at hv
  split at hv
  · cases hv
  · exact (Except.ok.inj hv).symm

/-! ## What holds of a view -/

/-- Nothing in a view is excluded. -/
theorem not_isExcluded_view (hn : (q.view base).graph.contains n) :
    ¬ (q.view base).graph.isExcluded q.excludeNodes q.excludeFiles n := by
  have hsurv := (q.isInduced_view base).contains hn
  have hstart := (CallGraph.isInduced_foldl CallGraph.isInduced_applyFilter _ _).contains hsurv
  have hbase := ((q.isInduced_view base).trans (q.isInduced_survivors base)).node?_eq hn
  rw [CallGraph.isExcluded, hbase]
  exact (CallGraph.contains_exclude.mp hstart).2

/-- Exclusion and filters leave a view as it is. -/
theorem survivors_view (q : Query) (base : CallGraph) :
    q.survivors (q.view base).graph = (q.view base).graph := by
  rw [survivors, CallGraph.exclude_eq_self fun n => not_isExcluded_view]
  exact CallGraph.foldl_eq_self fun f hf =>
    CallGraph.applyFilter_eq_self (respects_view (mem_orderedFilters.mp hf))

/-- Nothing in a view lies too deep. -/
theorem get_depths_view_le {d : Nat} (hd : q.maxDepth = some d)
    (hn : (q.view base).graph.contains n) :
    ((q.view base).graph.depths (q.view base).roots q.depthMode).get n ≤ d := by
  rw [graph_view_of_maxDepth base hd] at hn ⊢
  rw [CallGraph.get_depths_pruneDeeper contains_root_view_uncut reaches_view_uncut hn]
  exact (CallGraph.contains_pruneDeeper.mp hn).2

/-! ## The second run -/

/-- The query for those of its roots that are roots of a view. -/
def narrowedTo (q : Query) (v : View) : Query :=
  q.withRoots (q.roots.filter (v.roots.map v.graph.name).contains)

/-- A root that is not removed before pruning stays in the view. -/
theorem find?_view_of_mem_roots {x : String} (hx : x ∈ q.roots) :
    (q.view base).graph.find? x = (q.survivors base).find? x := by
  rw [(q.isInduced_view base).find?_eq]
  cases hfind : (q.survivors base).find? x with
  | none => rfl
  | some r =>
    have hr : r ∈ (q.view base).roots := mem_roots_view_iff_find?.mpr ⟨x, hx, hfind⟩
    exact Option.filter_some_pos (contains_root_view r hr)

theorem mem_names_of_find?_view {x : String} (hx : x ∈ q.roots) {r : Nat}
    (hfind : (q.view base).graph.find? x = some r) :
    x ∈ (q.view base).roots.map (q.view base).graph.name := by
  refine List.mem_map.mpr ⟨r, ?_, CallGraph.name_of_find? hfind⟩
  exact mem_roots_view_iff_find?.mpr ⟨x, hx, find?_view_of_mem_roots hx ▸ hfind⟩

/-- The narrowed query has the roots of the view, in the same order. -/
theorem filterMap_roots_narrowedTo (q : Query) (base : CallGraph) :
    (q.narrowedTo (q.view base)).roots.filterMap (q.view base).graph.find? =
      (q.view base).roots := by
  rw [roots_view_eq_filterMap q base, narrowedTo, withRoots, List.filterMap_filter]
  refine List.filterMap_congr fun x hx => ?_
  rw [← find?_view_of_mem_roots hx]
  split
  case isTrue => rfl
  case isFalse hname =>
    rw [List.contains_iff_mem] at hname
    cases hfind : (q.view base).graph.find? x with
    | none => rfl
    | some r => exact absurd (mem_names_of_find?_view hx hfind) hname

theorem isSome_find?_of_mem_roots_narrowedTo {x : String}
    (hx : x ∈ (q.narrowedTo (q.view base)).roots) : ((q.view base).graph.find? x).isSome := by
  have hname := (List.mem_filter.mp hx).2
  rw [List.contains_iff_mem] at hname
  obtain ⟨r, hr, rfl⟩ := List.mem_map.mp hname
  rw [CallGraph.find?_name (contains_root_view r hr)]
  rfl

theorem survivors_narrowedTo (q : Query) (base : CallGraph) :
    (q.narrowedTo (q.view base)).survivors (q.view base).graph = (q.view base).graph :=
  survivors_view q base

theorem roots_view_narrowedTo (q : Query) (base : CallGraph) :
    ((q.narrowedTo (q.view base)).view (q.view base).graph).roots = (q.view base).roots := by
  rw [roots_view_eq_filterMap, survivors_narrowedTo]
  exact filterMap_roots_narrowedTo q base

theorem graph_view_narrowedTo (hcut : q.maxDepth = none ∨ q.depthMode = .shortestPath) :
    ((q.narrowedTo (q.view base)).view (q.view base).graph).graph = (q.view base).graph := by
  have huncut : ((q.narrowedTo (q.view base)).uncut.view (q.view base).graph).graph =
      (q.view base).graph := by
    rw [graph_view_uncut, survivors_narrowedTo, roots_view_narrowedTo]
    exact CallGraph.pruneUnreachable_eq_self fun n => reaches_view hcut
  cases hd : q.maxDepth with
  | none =>
    have hself : (q.narrowedTo (q.view base)).uncut = q.narrowedTo (q.view base) :=
      uncut_eq_self hd
    rwa [hself] at huncut
  | some d =>
    have hd' : (q.narrowedTo (q.view base)).maxDepth = some d := hd
    rw [graph_view_of_maxDepth _ hd', huncut, roots_view_narrowedTo]
    exact CallGraph.pruneDeeper_eq_self fun n => get_depths_view_le hd

/-- **A second run changes nothing**: a query that is run on its own view, for the roots that are
left, gives the same view again. -/
theorem run_narrowedTo (hv : q.run base = .ok v)
    (hcut : q.maxDepth = none ∨ q.depthMode = .shortestPath) :
    (q.narrowedTo v).run v.graph = .ok v := by
  obtain rfl := eq_view_of_run hv
  rw [run_eq_ok fun x => isSome_find?_of_mem_roots_narrowedTo]
  exact congrArg Except.ok
    (congrArg₂ View.mk (graph_view_narrowedTo hcut) (roots_view_narrowedTo q base))

/-- The root `x` is excluded, and `a` calls itself; the second run asks for `r` and `a` only. -/
theorem run_narrowedTo_selfCalling :
    let q : Query :=
      { roots := ["r", "x", "a"], excludeNodes := ["x"], maxDepth := some 1,
        depthMode := .shortestPath }
    ∃ v, q.run (.ofCalls Registry.selfCalling) = .ok v ∧ v.roots = [1, 0] ∧
      (q.narrowedTo v).run v.graph = .ok v :=
  ⟨_, run_eq_ok (by decide +kernel), by decide +kernel,
    run_narrowedTo (run_eq_ok (by decide +kernel)) (Or.inr rfl)⟩

end Query

end CallAtlas
