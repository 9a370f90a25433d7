import CallAtlas.Source.Document

/-!
# Numbered syntax trees

A syntax tree as a table of nodes, numbered from zero in pre-order: a node comes before its
children, and the nodes below a child come before the next child. The table holds the links to
parents and children as numbers.

In pre-order the nodes below `r` follow it without a gap, and they end where the first node comes
whose parent is numbered before `r`. Searching a subtree is therefore reading on from its root.

## Main definitions

* `Source.Entry`, `Source.Tree`: the table.
* `Source.Tree.ofDocument`: the table of a document.
* `Source.Tree.ancestors`: the parents of a node, up to the root.
* `Source.Tree.subtree`, `Source.Tree.descendants`: a node with everything below it.

## Main results

* `Source.Tree.parent_lt`: a parent is numbered before its children.
-/

namespace CallAtlas.Source

/-- A row of the table: a node and the numbers of its parent and its children. -/
structure Entry where
  kind : Kind
  text : Option String
  span : Option Span
  parent : Option Nat
  children : List Nat
deriving DecidableEq, Repr

/-! ### Numbering a document -/

mutual

/-- The number of nodes, the node itself included. -/
def Node.size : Node → Nat
  | .mk _ _ _ children => sizeAll children + 1

/-- The number of nodes in a list of trees. -/
def sizeAll : List Node → Nat
  | [] => 0
  | n :: ns => n.size + sizeAll ns

end

/-- The numbers of the roots in a list of trees numbered from `number` on. -/
def rootNumbers (number : Nat) : List Node → List Nat
  | [] => []
  | n :: ns => number :: rootNumbers (number + n.size) ns

mutual

/-- The rows of a tree numbered from `number` on. -/
def Node.rows (parent : Option Nat) (number : Nat) : Node → List Entry
  | .mk kind text span children =>
    ⟨kind, text, span, parent, rootNumbers (number + 1) children⟩ ::
      rowsAll number (number + 1) children

/-- The rows of a list of trees below `parent`, numbered from `number` on. -/
def rowsAll (parent number : Nat) : List Node → List Entry
  | [] => []
  | n :: ns => n.rows (some parent) number ++ rowsAll parent (number + n.size) ns

end

mutual

theorem Node.length_rows (parent : Option Nat) (number : Nat) :
    ∀ n : Node, (n.rows parent number).length = n.size
  | .mk _ _ _ children => by simp [Node.rows, Node.size, length_rowsAll _ _ children]

theorem length_rowsAll (parent number : Nat) :
    ∀ ns : List Node, (rowsAll parent number ns).length = sizeAll ns
  | [] => rfl
  | n :: ns => by
    simp [rowsAll, sizeAll, Node.length_rows _ _ n, length_rowsAll _ _ ns]

end

mutual

theorem Node.parent_lt_of_rows {parent : Option Nat} {number : Nat}
    (hparent : ∀ p, parent = some p → p < number) :
    ∀ (n : Node) (k : Nat) (e : Entry) (p : Nat),
      (n.rows parent number)[k]? = some e → e.parent = some p → p < number + k
  | .mk kind text span children, k, e, p, hk, he => by
    rw [Node.rows] at hk
    cases k with
    | zero =>
      simp only [List.getElem?_cons_zero, Option.some.injEq] at hk
      subst hk
      exact hparent p he
    | succ k =>
      rw [List.getElem?_cons_succ] at hk
      have := parent_lt_of_rowsAll (Nat.lt_succ_self number) children k e p hk he
      omega

theorem parent_lt_of_rowsAll {parent number : Nat} (hparent : parent < number) :
    ∀ (ns : List Node) (k : Nat) (e : Entry) (p : Nat),
      (rowsAll parent number ns)[k]? = some e → e.parent = some p → p < number + k
  | [], k, e, p, hk, _ => by simp [rowsAll] at hk
  | n :: ns, k, e, p, hk, he => by
    rw [rowsAll, List.getElem?_append, Node.length_rows] at hk
    split at hk
    case isTrue => exact Node.parent_lt_of_rows (fun q hq => by cases hq; exact hparent) n k e p hk he
    case isFalse hlt =>
      have := parent_lt_of_rowsAll (Nat.lt_of_lt_of_le hparent (Nat.le_add_right _ _)) ns _ e p
        hk he
      omega

end

/-! ### The table -/

/-- A numbered syntax tree. -/
structure Tree where
  /-- The name of the source file. -/
  file : String
  nodes : Array Entry
  parent_lt : ∀ (i : Nat) (e : Entry) (p : Nat), nodes[i]? = some e → e.parent = some p → p < i

namespace Tree

/-- The table of a document. -/
def ofDocument (d : Document) : Tree where
  file := d.file
  nodes := (d.root.rows none 0).toArray
  parent_lt i e p hi he := by
    have h := @Node.parent_lt_of_rows none 0 (fun _ hq => by cases hq) d.root i e p
      (by simpa using hi) he
    omega

/-- The numbered tree of the document that a text holds. -/
def parse? (s : String) : Option Tree :=
  (Document.parse? s).map ofDocument

/-- The number of nodes. -/
def size (t : Tree) : Nat :=
  t.nodes.size

/-- The kind of a node. -/
def kind (t : Tree) (i : Nat) : Kind :=
  (t.nodes[i]?.map Entry.kind).getD .other

/-- The text of a node, empty if it has none. -/
def text (t : Tree) (i : Nat) : String :=
  (t.nodes[i]?.bind Entry.text).getD ""

/-- The lines of a node. -/
def span (t : Tree) (i : Nat) : Option Span :=
  t.nodes[i]?.bind Entry.span

/-- The parent of a node. -/
def parent (t : Tree) (i : Nat) : Option Nat :=
  t.nodes[i]?.bind Entry.parent

/-- The children of a node, in order. -/
def children (t : Tree) (i : Nat) : List Nat :=
  (t.nodes[i]?.map Entry.children).getD []

theorem lt_of_parent {t : Tree} {i p : Nat} (h : t.parent i = some p) : p < i := by
  obtain ⟨e, he, hp⟩ := Option.bind_eq_some_iff.1 h
  exact t.parent_lt i e p he hp

/-! ### Upwards -/

/-- The parents of a node, the immediate one first and the root last. -/
def ancestors (t : Tree) (i : Nat) : List Nat :=
  match _h : t.parent i with
  | none => []
  | some p => p :: t.ancestors p
termination_by i
decreasing_by exact lt_of_parent _h

/-- The nearest ancestor of a kind. -/
def nearestAncestor (t : Tree) (i : Nat) (k : Kind) : Option Nat :=
  (t.ancestors i).find? fun a => t.kind a = k

/-- Whether some ancestor is of a kind. -/
def hasAncestor (t : Tree) (i : Nat) (k : Kind) : Bool :=
  (t.ancestors i).any fun a => t.kind a = k

/-! ### Downwards -/

/-- A node and everything below it, in pre-order. -/
def subtree (t : Tree) (r : Nat) : List Nat :=
  r :: (List.range' (r + 1) (t.size - (r + 1))).takeWhile fun i => (t.parent i).any (r ≤ ·)

/-- The nodes of a subtree that are of one of the given kinds, in pre-order. -/
def descendants (t : Tree) (r : Nat) (kinds : List Kind) : List Nat :=
  (t.subtree r).filter fun i => kinds.contains (t.kind i)

end Tree

end CallAtlas.Source
