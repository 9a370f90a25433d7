import CallAtlas.CallGraph.Reach
import CallAtlas.Error

/-!
# Depths

The depth of a node tells how far down it is drawn. It is either its distance from the nearest
root, or the length of the walk that goes back from caller to caller, always over the edge with
the smallest number, until a root is met, or a node that nobody calls, or a node that was already
on the walk.

Distances are found by a search in breadth. Nodes get their labels in the order in which they are
met, and wait in a queue until their successors are labelled in turn. Nodes that the search does not
meet are labelled in a last pass.

## Main definitions

* `DepthMode`: which of the two.
* `CallGraph.walkBack`: the length of the walk.
* `Labelling`, `Labelling.step`, `Labelling.run`: a search in breadth and its turns.
* `CallGraph.distances`: the labels of all nodes.
* `Depths`, `CallGraph.depths`: the depths of all nodes.
* `Depths.displayOrder`: the nodes by depth and name.
-/

namespace CallAtlas

/-- How depth is measured. -/
inductive DepthMode where
  /-- By the walk over first predecessors. -/
  | firstPredecessor
  /-- By the distance from the nearest root. -/
  | shortestPath
deriving DecidableEq, Repr

instance : Inhabited DepthMode := ⟨.firstPredecessor⟩

/-- The mode with the given name. -/
def DepthMode.parse (s : String) : Except Error DepthMode :=
  if s = "first-predecessor" then .ok .firstPredecessor
  else if s = "shortest-path" then .ok .shortestPath
  else .error (.unknownDepthMode s)

namespace CallGraph

/-- The length of the walk from `i` over first predecessors, having come over the nodes in `seen`.
Every step goes to a new node, so `fuel` need not exceed the number of nodes. -/
def walkBack (g : CallGraph) (roots : List Nat) : Nat → List Nat → Nat → Nat
  | 0, _, _ => 0
  | fuel + 1, seen, i =>
    if roots.contains i then 0
    else match g.firstPredecessor i with
      | none => 0
      | some p => if seen.contains p then 0 else walkBack g roots fuel (p :: seen) p + 1

/-- Depth by the walk over first predecessors. -/
def walkDepth (g : CallGraph) (roots : List Nat) (i : Nat) : Nat :=
  g.walkBack roots g.slots.size [i] i

end CallGraph

/-! ### Distances -/

/-- A search in breadth that is under way. -/
structure Labelling where
  /-- The nodes that are labelled, with their depths. -/
  labels : List (Nat × Nat)
  /-- The nodes whose successors are still to be labelled, the next one first. -/
  queue : List Nat

namespace Labelling

/-- Labels a node and puts it at the end of the queue, unless it has a label. -/
def label (depth : Nat) (s : Labelling) (i : Nat) : Labelling :=
  if (s.labels.lookup i).isSome then s else ⟨(i, depth) :: s.labels, s.queue ++ [i]⟩

/-- Labels roots with zero. -/
def start (roots : List Nat) : Labelling :=
  roots.foldl (label 0) ⟨[], []⟩

/-- Takes the first node of the queue and labels its successors. -/
def step (next : Nat → List Nat) : Labelling → Labelling
  | ⟨labels, []⟩ => ⟨labels, []⟩
  | ⟨labels, i :: queue⟩ =>
    let depth := (labels.lookup i).getD 0
    (next i).foldl (label (depth + 1)) ⟨labels, queue⟩

/-- Takes a number of turns. -/
def run (next : Nat → List Nat) : Nat → Labelling → Labelling
  | 0, s => s
  | n + 1, s => run next n (step next s)

/-- Labels the nodes that have no label with zero. -/
def fillIn (labels : List (Nat × Nat)) (nodes : List Nat) : List (Nat × Nat) :=
  nodes.foldl (fun labels i => if (labels.lookup i).isSome then labels else (i, 0) :: labels) labels

end Labelling

/-- The distances from the nearest root that exists, zero for nodes that none of them reaches. A
node is in the queue only once, so there are no more turns than nodes. -/
def CallGraph.distances (g : CallGraph) (roots : List Nat) : List (Nat × Nat) :=
  let found := (Labelling.start (roots.filter g.contains)).run g.successors g.nodeCount
  Labelling.fillIn found.labels g.nodes

/-! ### Depths of all nodes -/

/-- The depths of the nodes of a graph, by increasing number of the node. -/
structure Depths where
  entries : List (Nat × Nat)

namespace Depths

/-- The depth of a node, zero for a number without a node. -/
def get (d : Depths) (i : Nat) : Nat :=
  ((d.entries.find? fun e => e.1 = i).map Prod.snd).getD 0

/-- Lists labels by increasing number of the node. -/
def ofLabels (g : CallGraph) (labels : List (Nat × Nat)) : Depths :=
  ⟨(List.range g.slots.size).filterMap fun i => (labels.lookup i).map fun depth => (i, depth)⟩

/-- The greatest depth. -/
def max (d : Depths) : Nat :=
  (d.entries.map Prod.snd).foldl Nat.max 0

/-- Orders nodes by depth, and nodes of one depth by name. -/
def precedes (d : Depths) (g : CallGraph) (i j : Nat) : Bool :=
  d.get i < d.get j || (d.get i == d.get j && !decide (g.name j < g.name i))

/-- The nodes in the order in which they are drawn. -/
def displayOrder (d : Depths) (g : CallGraph) : List Nat :=
  g.nodes.mergeSort (d.precedes g)

end Depths

/-- The depths of all nodes, measured from the given roots. -/
def CallGraph.depths (g : CallGraph) (roots : List Nat) : DepthMode → Depths
  | .firstPredecessor => ⟨g.nodes.map fun i => (i, g.walkDepth roots i)⟩
  | .shortestPath => .ofLabels g (g.distances roots)

end CallAtlas
