import CallAtlas.CallGraph.OfRegistry
import CallAtlas.Proofs.Reachability

/-!
# A view shows what its roots reach

Without a limit on depth, the nodes of a view are those to which a path leads from a root inside
what exclusion and the filters leave, and the view is the sub-graph of the *whole* graph induced on
them. Removing nodes in several steps therefore never costs an edge between two nodes that both
stay, and it never makes a node appear that is only reached through a removed one.

## Main definitions

* `View.ShowsReachable` — the contract of a view without a limit on depth

## Main results

* `Query.run_eq_ok` — a query whose roots exist is answered
* `Query.roots_view` — the roots of a view, in the order of the query
* `Query.exists_view_showsReachable` — the contract holds
-/

namespace CallAtlas

namespace Query

variable {q : Query} {base : CallGraph}

/-- The query without its limit on depth. -/
def uncut (q : Query) : Query :=
  { q with maxDepth := none }

theorem uncut_eq_self (hd : q.maxDepth = none) : q.uncut = q := by
  rw [uncut, ← hd]

theorem run_eq_ok (hroots : ∀ r ∈ q.roots, (base.find? r).isSome) :
    q.run base = .ok (q.view base) := by
  have hfind : q.roots.find? (fun root => (base.find? root).isNone) = none := by
    rw [List.find?_eq_none]
    intro r hr
    simpa using Option.isSome_iff_ne_none.mp (hroots r hr)
  rw [run, hfind]

theorem roots_view_eq_filterMap (q : Query) (base : CallGraph) :
    (q.view base).roots = q.roots.filterMap (q.survivors base).find? := by
  rw [view]
  split <;> rfl

/-- The roots of a view, numbered as in the whole graph. -/
theorem roots_view (q : Query) (base : CallGraph) :
    (q.view base).roots = (q.roots.filterMap base.find?).filter (q.survivors base).contains := by
  rw [roots_view_eq_filterMap, List.filter_filterMap]
  exact congrFun (congrArg List.filterMap (funext (q.isInduced_survivors base).find?_eq)) _

theorem mem_roots_view {r : Nat} :
    r ∈ (q.view base).roots ↔
      (∃ name ∈ q.roots, base.find? name = some r) ∧ (q.survivors base).contains r := by
  rw [roots_view, List.mem_filter, List.mem_filterMap]

/-- Without a limit on depth, nothing is removed after pruning. -/
theorem graph_view_uncut (q : Query) (base : CallGraph) :
    (q.uncut.view base).graph = (q.survivors base).pruneUnreachable (q.view base).roots := by
  rw [roots_view_eq_filterMap]
  rfl

theorem roots_view_uncut (q : Query) (base : CallGraph) :
    (q.uncut.view base).roots = (q.view base).roots := by
  rw [roots_view, roots_view]
  rfl

theorem contains_survivors_of_mem_roots {r : Nat} (hr : r ∈ (q.view base).roots) :
    (q.survivors base).contains r :=
  (mem_roots_view.mp hr).2

end Query

/-- `v` shows what the roots of `q` reach in `base` inside the set of nodes `S`. -/
structure View.ShowsReachable (v : View) (q : Query) (base : CallGraph) (S : Nat → Bool) :
    Prop where
  /-- The nodes are the ends of paths from a root that stay in `S`, the root included. -/
  contains_iff : ∀ n, v.graph.contains n ↔
    ∃ name ∈ q.roots, ∃ r, base.find? name = some r ∧ base.PathIn (fun i => S i) r n
  /-- Nodes keep their numbers and records, and the edges are those between two nodes that stay,
  with their numbers and in their order. -/
  isInduced : v.graph.IsInduced base
  /-- The roots are those in `S`, in the order of the query. -/
  roots_eq : v.roots = (q.roots.filterMap base.find?).filter S

namespace Query

/-- **A view without a limit on depth is the part of the graph that the roots reach** inside what
exclusion and the filters leave. -/
theorem exists_view_showsReachable {q : Query} {base : CallGraph} (hdepth : q.maxDepth = none)
    (hroots : ∀ r ∈ q.roots, (base.find? r).isSome) :
    ∃ v, q.run base = .ok v ∧ v.ShowsReachable q base (q.survivors base).contains := by
  have hgraph := graph_view_uncut q base
  rw [uncut_eq_self hdepth] at hgraph
  have hsurv := q.isInduced_survivors base
  refine ⟨q.view base, run_eq_ok hroots, ⟨fun n => ?_, ?_, roots_view q base⟩⟩
  · rw [hgraph, CallGraph.contains_pruneUnreachable]
    constructor
    · rintro ⟨-, r, hr, hrn⟩
      obtain ⟨⟨name, hname, hfind⟩, hlive⟩ := mem_roots_view.mp hr
      exact ⟨name, hname, r, hfind, hsurv.pathIn_iff.mpr ⟨hlive, hrn⟩⟩
    · rintro ⟨name, hname, r, hfind, hpath⟩
      obtain ⟨hlive, hrn⟩ := hsurv.pathIn_iff.mp hpath
      exact ⟨hrn.contains hlive, r, mem_roots_view.mpr ⟨⟨name, hname, hfind⟩, hlive⟩, hrn⟩
  · exact (q.isInduced_view base).trans hsurv

end Query

/-- A procedure with the given name that calls the given names. -/
def Callable.caller (name : String) (calls : List String) : Callable where
  name := name
  kind := .subroutine
  sourceFile := "src.f90"
  firstLine := 1
  lineCount := 1
  calls := .ofList calls

/-- The procedure `a` calls itself, and `r` gets to it over `x`. The loop at `a` is its first
incoming edge. -/
def Registry.selfCalling : Registry :=
  ((∅ : Registry).insert (.caller "a" ["a"]) |>.insert (.caller "r" ["x"])).insert
    (.caller "x" ["a"])

theorem Query.exists_view_showsReachable_selfCalling :
    let q : Query := { roots := ["r", "a"], excludeNodes := ["x"] }
    let base := CallGraph.ofCalls Registry.selfCalling
    q.maxDepth = none ∧ (∀ r ∈ q.roots, (base.find? r).isSome) ∧
      ∃ v, q.run base = .ok v ∧ v.ShowsReachable q base (q.survivors base).contains :=
  ⟨rfl, by decide +kernel, Query.exists_view_showsReachable rfl (by decide +kernel)⟩

end CallAtlas
