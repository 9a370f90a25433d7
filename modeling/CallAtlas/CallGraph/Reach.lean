import CallAtlas.CallGraph.Basic

/-!
# Reachable nodes

A search from some roots keeps the nodes it has visited, and a stack of nodes that it has still to
look at. Each turn takes the top of the stack. A node that was visited before is dropped; a new one
is visited, and those of its successors that are not visited yet are put on the stack.

## Main definitions

* `Traversal`, `Traversal.step`, `Traversal.run`: a search and its turns.
* `CallGraph.reachable`: all nodes that a search visits.
* `CallGraph.pruneUnreachable`: the graph without the nodes that no root reaches.
-/

namespace CallAtlas

/-- A search in depth that is under way. -/
structure Traversal where
  visited : List Nat
  /-- The nodes still to look at, the top of the stack first. -/
  stack : List Nat

namespace Traversal

/-- Takes the top of the stack and visits it, unless that has been done. -/
def step (next : Nat → List Nat) : Traversal → Traversal
  | ⟨visited, []⟩ => ⟨visited, []⟩
  | ⟨visited, i :: stack⟩ =>
    if visited.contains i then ⟨visited, stack⟩
    else
      let visited := i :: visited
      ⟨visited, ((next i).filter fun j => !visited.contains j).reverse ++ stack⟩

/-- Takes a number of turns. -/
def run (next : Nat → List Nat) : Nat → Traversal → Traversal
  | 0, s => s
  | n + 1, s => run next n (step next s)

/-- Nothing is visited yet, and the last root is on top of the stack. -/
def start (roots : List Nat) : Traversal :=
  ⟨[], roots.reverse⟩

end Traversal

namespace CallGraph

/-- The turns that a search takes at most: a node is put on the stack as a root, or as the successor
of a node that is visited, and no node is visited twice. -/
def maxTurns (g : CallGraph) (roots : List Nat) : Nat :=
  roots.length + (g.nodes.flatMap g.successors).length

/-- Everything that can be reached from the roots, the roots included. The roots need not exist. -/
def reachable (g : CallGraph) (roots : List Nat) : List Nat :=
  ((Traversal.start roots).run g.successors (g.maxTurns roots)).visited

/-- Removes the nodes that no root reaches. -/
def pruneUnreachable (g : CallGraph) (roots : List Nat) : CallGraph :=
  let keep := g.reachable roots
  g.removeNodes (g.nodes.filter fun i => !keep.contains i)

end CallGraph

end CallAtlas
