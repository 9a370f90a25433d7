import CallAtlas.CallGraph.Table

/-!
# Call graphs

A call graph has named nodes and directed edges, several between the same two nodes and loops
included. Nodes are referred to by the numbers of their slots, and an index leads from their names
to these numbers.

## Main definitions

* `CallGraph`: a coherent table with an index.
* `CallGraph.addNode`, `CallGraph.addEdge?`, `CallGraph.removeNode`: the ways to change a graph.
* `CallGraph.successors`, `CallGraph.predecessors`, `CallGraph.firstPredecessor`: neighbours.
* `CallGraph.edgePairs`: the edges by number.
-/

namespace CallAtlas

/-- A directed graph with named nodes. -/
structure CallGraph extends GraphTable where
  /-- The slots of the nodes by name. -/
  byName : NameMap Nat
  coherent : toGraphTable.Coherent
  indexed : toGraphTable.IsIndex byName

namespace CallGraph

instance : EmptyCollection CallGraph := ⟨⟨{}, ∅, GraphTable.coherent_empty, GraphTable.isIndex_empty⟩⟩

instance : Inhabited CallGraph := ⟨∅⟩

/-! ### Nodes -/

/-- The number of the node with a name. -/
def find? (g : CallGraph) (name : String) : Option Nat :=
  g.byName.find? name

/-- Whether a number belongs to a node. -/
def contains (g : CallGraph) (i : Nat) : Bool :=
  (g.node? i).isSome

/-- The name of a node, empty for a number without a node. -/
def name (g : CallGraph) (i : Nat) : String :=
  ((g.node? i).map GraphNode.name).getD ""

/-- The numbers of the nodes, in increasing order. -/
def nodes (g : CallGraph) : List Nat :=
  (List.range g.slots.size).filter g.contains

/-- The number of nodes. -/
def nodeCount (g : CallGraph) : Nat :=
  g.nodes.length

/-! ### Edges -/

/-- The number of edges. -/
def edgeCount (g : CallGraph) : Nat :=
  g.edges.length

/-- The edges by increasing number. -/
def edgesById (g : CallGraph) : List GraphEdge :=
  g.edges.mergeSort fun a b => a.id ≤ b.id

/-- Caller and callee of every edge, by the number of the edge. -/
def edgePairs (g : CallGraph) : List (Nat × Nat) :=
  g.edgesById.map fun e => (e.source, e.target)

/-- The nodes that a node calls, in increasing order and without repetition. -/
def successors (g : CallGraph) (i : Nat) : List Nat :=
  ((g.outgoing i).map GraphEdge.target).mergeSort.eraseDups

/-- The nodes that call a node, by the number of their first edge to it. -/
def predecessors (g : CallGraph) (i : Nat) : List Nat :=
  (((g.incoming i).mergeSort fun a b => a.id ≤ b.id).map GraphEdge.source).eraseDups

/-- The edge with the smaller number, the first one if there is no second. -/
def earlier (best : Option GraphEdge) (e : GraphEdge) : Option GraphEdge :=
  match best with
  | none => some e
  | some b => if e.id < b.id then some e else some b

/-- The source of the edge into a node that has the smallest number. -/
def firstPredecessor (g : CallGraph) (i : Nat) : Option Nat :=
  ((g.incoming i).foldl earlier none).map GraphEdge.source

/-- The names of the nodes that a named node calls, sorted. -/
def successorNames (g : CallGraph) (name : String) : List String :=
  match g.find? name with
  | none => []
  | some i => ((g.successors i).map g.name).mergeSort fun a b => !decide (b < a)

/-! ### Changes -/

/-- Adds a node, or finds the one with the same name; also gives its number. -/
def addNode (g : CallGraph) (n : GraphNode) : CallGraph × Nat :=
  match h : g.find? n.name with
  | some i => (g, i)
  | none =>
    ({ toGraphTable := g.toGraphTable.addNode n
       byName := g.byName.insert n.name g.nextSlot
       coherent := g.coherent.addNode n
       indexed := g.indexed.addNode g.coherent h }, g.nextSlot)

/-- Adds an edge, if both of its ends exist. -/
def addEdge? (g : CallGraph) (source target : Nat) : Option CallGraph :=
  if h : (g.node? source).isSome ∧ (g.node? target).isSome then
    some
      { toGraphTable := g.toGraphTable.addEdge source target
        byName := g.byName
        coherent := g.coherent.addEdge h.1 h.2
        indexed := g.indexed.addEdge source target }
  else none

/-- Removes a node, its name and every edge that touches it. -/
def removeNode (g : CallGraph) (i : Nat) : CallGraph :=
  match h : g.node? i with
  | none => g
  | some n =>
    { toGraphTable := g.toGraphTable.removeNode i
      byName := g.byName.erase n.name
      coherent := g.coherent.removeNode i
      indexed := g.indexed.removeNode h }

/-- Removes nodes one after the other. -/
def removeNodes (g : CallGraph) (is : List Nat) : CallGraph :=
  is.foldl removeNode g

end CallGraph

end CallAtlas
