import CallAtlas.CallGraph.Depth
import CallAtlas.Filter.Basic

/-!
# Views of a call graph

A query cuts a view out of a graph: nodes are excluded by name or by file, connection filters are
applied, what the roots no longer reach is dropped, and so is what lies too deep. Every step works
on what the steps before it left.

## Main definitions

* `Query`, `View`: what is asked for and what comes out.
* `CallGraph.exclude`, `CallGraph.applyFilter`, `CallGraph.pruneDeeper`: the steps.
* `Query.survivors`: the graph after exclusion and filters.
* `Query.run`: the view.
-/

namespace CallAtlas

/-- What a view is to show. -/
structure Query where
  roots : List String := []
  excludeNodes : List String := []
  excludeFiles : List String := []
  filters : List ConnectionFilter := []
  /-- Nodes deeper than this are dropped. -/
  maxDepth : Option Nat := none
  depthMode : DepthMode := .firstPredecessor

/-- A part of a graph, and the roots that are still in it. -/
structure View where
  graph : CallGraph
  roots : List Nat

namespace CallGraph

/-- Whether a node is excluded by its name or by the file that defines it. -/
def isExcluded (g : CallGraph) (names files : List String) (i : Nat) : Bool :=
  (g.node? i).any fun n => names.contains n.name || n.sourceFile.any files.contains

/-- Removes nodes by name or by defining file. -/
def exclude (g : CallGraph) (names files : List String) : CallGraph :=
  g.removeNodes (g.nodes.filter (g.isExcluded names files))

/-- Removes a node that a caller's list condemns; the caller itself always stays. -/
def filterOne (action : FilterAction) (listed : List String) (caller : Nat) (g : CallGraph)
    (i : Nat) : CallGraph :=
  if i ≠ caller && g.contains i && ConnectionFilter.condemns action listed (g.name i) then
    g.removeNode i
  else g

/-- Removes the nodes that a named caller calls and its list condemns. -/
def filterList (action : FilterAction) (g : CallGraph) (list : String × List String) : CallGraph :=
  match g.find? list.1 with
  | none => g
  | some caller => (g.successors caller).foldl (filterOne action list.2 caller) g

/-- Applies the lists of a filter, by increasing name of the caller. -/
def applyFilter (g : CallGraph) (f : ConnectionFilter) : CallGraph :=
  f.lists.entries.foldl (filterList f.action) g

/-- Removes the nodes that lie deeper than `maxDepth`. -/
def pruneDeeper (g : CallGraph) (roots : List Nat) (maxDepth : Nat) (mode : DepthMode) :
    CallGraph :=
  let depths := g.depths roots mode
  g.removeNodes (g.nodes.filter fun i => maxDepth < depths.get i)

end CallGraph

namespace Query

/-- The filters in the order in which they apply: first those that keep, then those that
exclude. -/
def orderedFilters (q : Query) : List ConnectionFilter :=
  (q.filters.filter fun f => f.action = .keep) ++ q.filters.filter fun f => f.action = .exclude

/-- What exclusion and the filters leave of a graph. -/
def survivors (q : Query) (base : CallGraph) : CallGraph :=
  q.orderedFilters.foldl CallGraph.applyFilter (base.exclude q.excludeNodes q.excludeFiles)

/-- The view that a query shows of a graph all of whose roots exist. -/
def view (q : Query) (base : CallGraph) : View :=
  let graph := q.survivors base
  let roots := q.roots.filterMap graph.find?
  let graph := graph.pruneUnreachable roots
  match q.maxDepth with
  | none => ⟨graph, roots⟩
  | some maxDepth => ⟨graph.pruneDeeper roots maxDepth q.depthMode, roots⟩

/-- Runs a query; the first root that the graph does not have is an error. -/
def run (q : Query) (base : CallGraph) : Except Error View :=
  match q.roots.find? fun root => (base.find? root).isNone with
  | some root => .error (.unknownRoot root)
  | none => .ok (q.view base)

end Query

end CallAtlas
