import CallAtlas.Proofs.PreorderImage
import Mathlib.Data.List.Sort
import Mathlib.Logic.Function.Iterate
import Mathlib.Order.Bounds.Defs

/-!
# Searching a subtree with a stack

The nodes below a node can be searched in a loop, with a stack of the nodes that are still to be
visited. Each turn takes the top node, keeps it if it is of one of the kinds that are searched, and
puts its children on top of the stack, the first child uppermost. The loop follows the links to
children only. What it finds is described here by the links to parents, and by numbers.

The bridge is `Tree.subtree_eq_cons`: a subtree is its root and then the subtrees of the children,
one after the other. So a turn of the loop visits the next node of the subtree and leaves a stack
whose subtrees, one after the other, are the rest of it. The loop ends after as many turns as the
subtree has nodes.

## Main definitions

* `Source.Search`, `Source.Search.step` — the loop
* `Source.Search.HasVisited` — what holds after `k` turns
* `Source.Tree.FindsBelow`, `Source.Tree.FindsAbove` — the contracts of searches downwards and
  upwards

## Main results

* `Source.Tree.subtree_eq_range'` — a subtree is an interval of numbers
* `Source.Search.HasVisited.step` — a turn of the loop
* `Source.Search.iterate_step` — the loop finds the descendants
* `Source.Tree.findsBelow_ofDocument` — the contracts hold
-/

namespace CallAtlas.Source

namespace Tree

variable {t : Tree} {d : Document} {parent : Option Nat} {i p r : Nat} {n : Node} {ns : List Node}

/-! ## Subtrees as lists -/

theorem mem_subtree_self (t : Tree) (r : Nat) : r ∈ t.subtree r :=
  List.mem_cons_self

theorem pairwise_subtree (t : Tree) (r : Nat) : (t.subtree r).Pairwise (· < ·) := by
  have hrange : (r :: List.range' (r + 1) (t.size - (r + 1))).Pairwise (· < ·) := by
    rw [← List.range'_succ]
    exact List.pairwise_lt_range'
  exact hrange.sublist ((List.takeWhile_sublist _).cons_cons r)

/-- The subtree of a node is an interval of numbers. -/
theorem subtree_eq_range' (h : n.StandsAt (ofDocument d).nodes.toList parent i) :
    (ofDocument d).subtree i = List.range' i n.size := by
  have hsize : i < (ofDocument d).size := by
    have hle : i + n.size ≤ (ofDocument d).size := h.add_size_le
    have hpos : 0 < n.size := n.size_pos
    omega
  refine (pairwise_subtree _ i).eq_of_mem_iff List.pairwise_lt_range' fun j => ?_
  rw [mem_subtree_iff (isPreorder_ofDocument d) hsize, under_iff_of_standsAt j h,
    List.mem_range'_1]

/-- The subtrees of neighbours follow each other without a gap. -/
theorem flatMap_subtree_rootNumbers (h : StandAllAt (ofDocument d).nodes.toList p i ns) :
    (rootNumbers i ns).flatMap (ofDocument d).subtree = List.range' i (sizeAll ns) := by
  induction ns generalizing i with
  | nil => rfl
  | cons n ns ih =>
    rw [rootNumbers, List.flatMap_cons, subtree_eq_range' h.head, ih h.tail, sizeAll,
      List.range'_append_1]

/-- **A subtree is its root and then the subtrees of the children**, one after the other. -/
theorem subtree_eq_cons (hi : i < (ofDocument d).size) :
    (ofDocument d).subtree i = i :: ((ofDocument d).children i).flatMap (ofDocument d).subtree := by
  rw [size_ofDocument_eq] at hi
  obtain ⟨⟨kind, text, span, ns⟩, parent, -, h⟩ := exists_standsAt_rows hi
  have hchildren : (ofDocument d).children i = rootNumbers (i + 1) ns := by
    rw [children_ofDocument, h.getElem?]
    rfl
  rw [hchildren, flatMap_subtree_rootNumbers h.children, subtree_eq_range' h, Node.size,
    List.range'_succ]

end Tree

/-! ## The loop -/

/-- A search that is under way. -/
structure Search where
  /-- The nodes that are still to be visited, the next one first. -/
  stack : List Nat
  found : List Nat

namespace Search

open CallAtlas.Source.Tree (ofDocument)

variable {t : Tree} {d : Document} {kinds : List Kind} {r k : Nat} {s : Search}

/-- Visits the next node. -/
def step (t : Tree) (kinds : List Kind) : Search → Search
  | ⟨[], found⟩ => ⟨[], found⟩
  | ⟨i :: stack, found⟩ =>
    ⟨t.children i ++ stack, if kinds.contains (t.kind i) then found ++ [i] else found⟩

/-- Nothing is visited yet. -/
def start (r : Nat) : Search :=
  ⟨[r], []⟩

/-- The state of a search from `r` when the first `k` nodes of the subtree have been visited: their
matches are found, and the subtrees on the stack make up the rest. -/
structure HasVisited (t : Tree) (kinds : List Kind) (r k : Nat) (s : Search) : Prop where
  found_eq : s.found = ((t.subtree r).take k).filter fun i => kinds.contains (t.kind i)
  flatMap_stack : s.stack.flatMap t.subtree = (t.subtree r).drop k

theorem hasVisited_start (t : Tree) (kinds : List Kind) (r : Nat) :
    HasVisited t kinds r 0 (start r) :=
  ⟨rfl, List.append_nil _⟩

/-- The stack is empty when the whole subtree has been visited, and not before. -/
theorem HasVisited.stack_eq_nil_iff (h : HasVisited t kinds r k s) :
    s.stack = [] ↔ (t.subtree r).length ≤ k := by
  rw [← List.drop_eq_nil_iff, ← h.flatMap_stack]
  constructor
  · intro hnil
    rw [hnil, List.flatMap_nil]
  · intro hnil
    refine List.eq_nil_iff_forall_not_mem.mpr fun i hi => ?_
    have hself := Tree.mem_subtree_self t i
    rw [List.flatMap_eq_nil_iff.mp hnil i hi] at hself
    exact List.not_mem_nil hself

/-- A turn of the loop visits the next node of the subtree. -/
theorem HasVisited.step (hr : r < (ofDocument d).size)
    (h : HasVisited (ofDocument d) kinds r k s) :
    HasVisited (ofDocument d) kinds r (k + 1) (step (ofDocument d) kinds s) := by
  obtain ⟨stack, found⟩ := s
  obtain ⟨hfound, hstack⟩ := h
  cases stack with
  | nil =>
    -- The search is over, and nothing changes any more.
    have hle : ((ofDocument d).subtree r).length ≤ k := List.drop_eq_nil_iff.mp hstack.symm
    refine ⟨?_, ?_⟩
    · rw [List.take_of_length_le (Nat.le_succ_of_le hle)]
      rwa [List.take_of_length_le hle] at hfound
    · exact (List.drop_eq_nil_iff.mpr (Nat.le_succ_of_le hle)).symm
  | cons i stack =>
    have hmem : i ∈ (ofDocument d).subtree r := by
      refine List.mem_of_mem_drop (i := k) ?_
      rw [← hstack]
      exact List.mem_flatMap.mpr ⟨i, List.mem_cons_self, Tree.mem_subtree_self _ i⟩
    have hi : i < (ofDocument d).size :=
      ((Tree.mem_subtree_iff (Tree.isPreorder_ofDocument d) hr).mp hmem).lt_size hr
    have hnext : ((ofDocument d).subtree r).drop k =
        i :: ((ofDocument d).children i ++ stack).flatMap (ofDocument d).subtree := by
      rw [← hstack, List.flatMap_cons, Tree.subtree_eq_cons hi, List.cons_append,
        List.flatMap_append]
    refine ⟨?_, ?_⟩
    · have hget : ((ofDocument d).subtree r)[k]? = some i := by
        rw [← List.head?_drop, hnext, List.head?_cons]
      rw [List.take_add_one, hget, Option.toList_some, List.filter_append, ← hfound]
      show (if _ then found ++ [i] else found) = _
      rw [List.filter_singleton]
      cases kinds.contains ((ofDocument d).kind i) with
      | true => rfl
      | false => exact (List.append_nil found).symm
    · show (_ ++ stack).flatMap _ = _
      rw [← List.tail_drop, hnext, List.tail_cons]

theorem hasVisited_iterate (hr : r < (ofDocument d).size) (kinds : List Kind) (k : Nat) :
    HasVisited (ofDocument d) kinds r k
      ((Search.step (ofDocument d) kinds)^[k] (start r)) := by
  induction k with
  | zero => exact hasVisited_start _ kinds r
  | succ k ih =>
    rw [Function.iterate_succ_apply']
    exact ih.step hr

/-- **The loop finds the descendants** in as many turns as the subtree has nodes. -/
theorem iterate_step (hr : r < (ofDocument d).size) (kinds : List Kind)
    (hk : ((ofDocument d).subtree r).length ≤ k) :
    (Search.step (ofDocument d) kinds)^[k] (start r) =
      ⟨[], (ofDocument d).descendants r kinds⟩ := by
  have h := hasVisited_iterate hr kinds k
  have hstack := h.stack_eq_nil_iff.mpr hk
  have hfound := h.found_eq
  rw [List.take_of_length_le hk] at hfound
  generalize (Search.step (ofDocument d) kinds)^[k] (start r) = s at hstack hfound
  obtain ⟨stack, found⟩ := s
  exact congrArg₂ Search.mk hstack hfound

end Search

/-! ## The contracts -/

namespace Tree

variable {d : Document} {i r : Nat}

/-- What a search from `r` for nodes of the given kinds finds. -/
structure FindsBelow (t : Tree) (r : Nat) (kinds : List Kind) (found : List Nat) : Prop where
  /-- The loop runs for as many turns as the subtree has nodes. -/
  stack_eq_nil_iff : ∀ k, ((Search.step t kinds)^[k] (.start r)).stack = [] ↔
    (t.subtree r).length ≤ k
  /-- When it has ended, it has found what the search finds. -/
  found_iterate : ∀ k, (t.subtree r).length ≤ k →
    ((Search.step t kinds)^[k] (.start r)).found = found
  /-- What is found is a part of an interval. -/
  eq_filter_range' : found =
    (List.range' r (t.subtree r).length).filter fun i => kinds.contains (t.kind i)
  increasing : found.Pairwise (· < ·)
  /-- It is found upwards from where it is. -/
  mem_iff : ∀ i, i ∈ found ↔ t.kind i ∈ kinds ∧ (i = r ∨ r ∈ t.ancestors i)

/-- What a search upwards from `i` for a node of kind `k` finds. -/
structure FindsAbove (t : Tree) (i : Nat) (k : Kind) (found : Option Nat) : Prop where
  /-- The nearest node of the kind is the one with the greatest number. -/
  eq_some_iff : ∀ a, found = some a ↔ IsGreatest {a | a ∈ t.ancestors i ∧ t.kind a = k} a
  isSome_iff : found.isSome ↔ t.hasAncestor i k

theorem findsBelow_descendants (hr : r < (ofDocument d).size) (kinds : List Kind) :
    (ofDocument d).FindsBelow r kinds ((ofDocument d).descendants r kinds) where
  stack_eq_nil_iff k := (Search.hasVisited_iterate hr kinds k).stack_eq_nil_iff
  found_iterate k hk := by rw [Search.iterate_step hr kinds hk]
  eq_filter_range' := by
    rw [size_ofDocument_eq] at hr
    obtain ⟨n, parent, -, h⟩ := exists_standsAt_rows hr
    rw [descendants, subtree_eq_range' h, List.length_range']
  increasing := (pairwise_subtree _ r).filter _
  mem_iff i := by
    rw [mem_descendants_iff (isPreorder_ofDocument d) hr, and_comm]
    rfl

theorem findsAbove_nearestAncestor (t : Tree) (i : Nat) (k : Kind) :
    t.FindsAbove i k (t.nearestAncestor i k) where
  eq_some_iff a := by
    rw [nearestAncestor_eq_some_iff]
    constructor
    · rintro ⟨ha, hk, hall⟩
      exact ⟨⟨ha, hk⟩, fun b hb => (hall b hb.1 hb.2).le⟩
    · rintro ⟨⟨ha, hk⟩, hall⟩
      refine ⟨ha, hk, fun b hb hbk => ?_⟩
      -- Of two nodes on the way up, the one with the smaller number is around the other.
      rcases Under.total (mem_ancestors_iff.mp hb).1 (mem_ancestors_iff.mp ha).1 with hu | hu
      · exact hu
      · exact Or.inl (Nat.le_antisymm hu.le (hall ⟨hb, hbk⟩))
  isSome_iff := by
    rw [nearestAncestor, List.isSome_find?]
    rfl

/-- **Searching a subtree gives its nodes of the kinds in question, by their numbers**, and the way
down along the children agrees with the way up along the parents. -/
theorem findsBelow_ofDocument (d : Document) :
    (∀ r < (ofDocument d).size, ∀ kinds,
      (ofDocument d).FindsBelow r kinds ((ofDocument d).descendants r kinds)) ∧
    ∀ i < (ofDocument d).size, ∀ k,
      (ofDocument d).FindsAbove i k ((ofDocument d).nearestAncestor i k) :=
  ⟨fun _ hr kinds => findsBelow_descendants hr kinds,
    fun i _ k => findsAbove_nearestAncestor (ofDocument d) i k⟩

/-- Two names in a subprogram, with a third one between them in a subprogram inside, and a fourth
one outside. -/
def nestedScopes : Document where
  file := "scopes.f90"
  root := .mk .program none none [
    .mk .subroutineSubprogram none none [
      .mk .name (some "before") none [],
      .mk .subroutineSubprogram none none [.mk .name (some "inside") none []],
      .mk .name (some "after") none []],
    .mk .name (some "outside") none []]

theorem findsBelow_ofDocument_nestedScopes :
    (ofDocument nestedScopes).FindsBelow 1 [.name] [2, 4, 5] ∧
      (ofDocument nestedScopes).FindsAbove 4 .subroutineSubprogram (some 3) := by
  obtain ⟨hbelow, habove⟩ := findsBelow_ofDocument nestedScopes
  have hdown : (ofDocument nestedScopes).descendants 1 [.name] = [2, 4, 5] := by decide +kernel
  have hup : (ofDocument nestedScopes).nearestAncestor 4 .subroutineSubprogram = some 3 := by
    decide +kernel
  exact ⟨hdown ▸ hbelow 1 (by decide +kernel) [.name],
    hup ▸ habove 4 (by decide +kernel) .subroutineSubprogram⟩

end Tree

end CallAtlas.Source
