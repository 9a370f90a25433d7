import CallAtlas.CallGraph.Basic
import CallAtlas.Registry.Interfaces

/-!
# The graphs of a registry

Every record becomes a node, in registry order; then the references of each record, in the same
order, become edges. A name that is referred to and has no record becomes an external node when it
is first met.

## Main definitions

* `CallGraph.ofCalls`: who calls whom.
* `CallGraph.ofModules`: which module uses which.
-/

namespace CallAtlas

/-- The node of a record. -/
def GraphNode.ofCallable (c : Callable) : GraphNode where
  name := c.name
  kind := c.kind
  sourceFile := some c.sourceFile
  firstLine := some c.firstLine
  lineCount := some c.lineCount

/-- The node of a name that has no record. -/
def GraphNode.external (name : String) : GraphNode where
  name := name
  kind := .external

/-- Whether a node stands for a name that is defined nowhere. -/
def GraphNode.isExternal (n : GraphNode) : Bool :=
  n.kind = .external

namespace CallGraph

/-- Adds an edge to the node of a name, which is added if need be. -/
def linkTo (source : Nat) (g : CallGraph) (target : String) : CallGraph :=
  let (g, i) := g.addNode (.external target)
  (g.addEdge? source i).getD g

/-- Adds the edges of one record. -/
def linkAll (targets : Callable → NameSet) (g : CallGraph) (c : Callable) : CallGraph :=
  match g.find? c.name with
  | none => g
  | some i => (targets c).toList.foldl (linkTo i) g

/-- The nodes of a registry, without edges. -/
def nodesOf (r : Registry) : CallGraph :=
  r.entries.foldl (fun g c => (g.addNode (.ofCallable c)).1) ∅

/-- The graph of a relation between records and names. -/
def ofRelation (targets : Callable → NameSet) (r : Registry) : CallGraph :=
  r.entries.foldl (linkAll targets) (nodesOf r)

/-- The graph of calls. -/
def ofCalls (r : Registry) : CallGraph :=
  ofRelation Callable.calls r

/-- The graph of module uses. -/
def ofModules (r : Registry) : CallGraph :=
  ofRelation Callable.usesModules r

end CallGraph

end CallAtlas
