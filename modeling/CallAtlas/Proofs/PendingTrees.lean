import CallAtlas.Proofs.PreorderImage
import Mathlib.Data.List.Sort
import Mathlib.Logic.Function.Iterate

/-!
# Filling a table from a stack

The table of a document can be filled in a loop, with a stack of the trees that are still to be
entered. Each turn takes the top tree, adds a row for its root, puts the number of the row on the
list of children of its parent, and puts the children of the root on top of the stack.

In between, two things are incomplete. The rows that are still to come are the rows of the pending
trees, one tree after the other. And the rows that are there do not list all their children yet:
when `k` rows have been entered, those with numbers below `k` are listed. The loop ends when both
are complete, which is after as many turns as there are nodes.

## Main definitions

* `Source.Filling`, `Source.Filling.step` — the loop
* `Source.Filling.HasEntered` — what holds after `k` turns
* `Source.Tree.IsImageOf` — the contract of the table of a document

## Main results

* `Source.Filling.HasEntered.step` — a turn of the loop
* `Source.Filling.iterate_step` — the loop fills the table of a document
* `Source.Tree.isImageOf_ofDocument` — the contract holds
-/

namespace CallAtlas.Source

/-- A table that is being filled. -/
structure Filling where
  rows : List Entry
  /-- The trees that are still to be entered, the next one first, each with its parent's number. -/
  pending : List (Node × Option Nat)

namespace Filling

variable {s : Filling} {table : List Entry} {e : Entry} {k : Nat}

/-- Puts `child` at the end of the list of children of the parent, if there is one. -/
def link (child : Nat) (parent : Option Nat) (rows : List Entry) : List Entry :=
  match parent with
  | none => rows
  | some p => rows.modify p fun e => { e with children := e.children ++ [child] }

/-- Enters the next pending tree. -/
def step : Filling → Filling
  | ⟨rows, []⟩ => ⟨rows, []⟩
  | ⟨rows, (.mk kind text span children, parent) :: rest⟩ =>
    ⟨link rows.length parent rows ++ [⟨kind, text, span, parent, []⟩],
      children.map (fun n => (n, some rows.length)) ++ rest⟩

/-- Nothing is entered yet. -/
def start (root : Node) : Filling :=
  ⟨[], [(root, none)]⟩

/-! ## Rows to come -/

/-- The rows of pending trees, numbered from `number` on. -/
def pendingRows (number : Nat) : List (Node × Option Nat) → List Entry
  | [] => []
  | (n, parent) :: rest => n.rows parent number ++ pendingRows (number + n.size) rest

theorem pendingRows_append (number p : Nat) (ns : List Node) (rest : List (Node × Option Nat)) :
    pendingRows number (ns.map (fun n => (n, some p)) ++ rest) =
      rowsAll p number ns ++ pendingRows (number + sizeAll ns) rest := by
  induction ns generalizing number with
  | nil => rfl
  | cons n ns ih =>
    rw [List.map_cons, List.cons_append, pendingRows, ih, rowsAll, sizeAll, List.append_assoc,
      Nat.add_assoc]

theorem eq_nil_of_pendingRows {number : Nat} {pending : List (Node × Option Nat)}
    (h : pendingRows number pending = []) : pending = [] := by
  cases pending with
  | nil => rfl
  | cons top rest =>
    obtain ⟨⟨kind, text, span, children⟩, parent⟩ := top
    rw [pendingRows, Node.rows] at h
    cases h

/-! ## Rows so far -/

/-- A row when those with numbers below `k` have been entered. -/
def cut (k : Nat) (e : Entry) : Entry :=
  { e with children := e.children.filter (· < k) }

/-- The table when its first `k` rows have been entered. -/
def upTo (k : Nat) (table : List Entry) : List Entry :=
  (table.take k).map (cut k)

theorem length_upTo (hk : k ≤ table.length) : (upTo k table).length = k := by
  rw [upTo, List.length_map, List.length_take, Nat.min_eq_left hk]

theorem getElem?_link (child : Nat) (parent : Option Nat) (rows : List Entry) (i : Nat) :
    (link child parent rows)[i]? = rows[i]?.map fun e =>
      if parent = some i then { e with children := e.children ++ [child] } else e := by
  cases parent with
  | none => simp [link]
  | some p =>
    simp only [link, List.getElem?_modify, Option.some.injEq]
    rfl

/-- The next number joins an increasing list at its end, if it is in the list at all. -/
theorem filter_lt_succ {xs : List Nat} (h : xs.Pairwise (· < ·)) :
    xs.filter (· < k + 1) = xs.filter (· < k) ++ if k ∈ xs then [k] else [] := by
  have hright : (xs.filter (· < k) ++ if k ∈ xs then [k] else []).Pairwise (· < ·) := by
    rw [List.pairwise_append]
    refine ⟨h.filter _, ?_, fun x hx y hy => ?_⟩
    · split <;> simp
    · have hy' : y = k := by
        split at hy
        · exact List.mem_singleton.mp hy
        · cases hy
      rw [hy']
      simpa using (List.mem_filter.mp hx).2
  refine (h.filter _).eq_of_mem_iff hright fun x => ?_
  rw [List.mem_append, List.mem_filter, List.mem_filter]
  by_cases hk : k ∈ xs
  · rw [if_pos hk, List.mem_singleton]
    simp only [decide_eq_true_eq]
    constructor
    · rintro ⟨hx, hlt⟩
      rcases Nat.lt_succ_iff_lt_or_eq.mp hlt with hlt | rfl
      · exact Or.inl ⟨hx, hlt⟩
      · exact Or.inr rfl
    · rintro (⟨hx, hlt⟩ | rfl)
      · exact ⟨hx, Nat.lt_succ_of_lt hlt⟩
      · exact ⟨hk, Nat.lt_succ_self x⟩
  · rw [if_neg hk]
    simp only [decide_eq_true_eq, List.not_mem_nil, or_false]
    refine and_congr_right fun hx => ?_
    have hne : x ≠ k := fun e => hk (e ▸ hx)
    omega

/-- The row `k` is new in the list of children of its parent, and changes no other row. -/
theorem cut_succ (htable : Linked table) (hk : table[k]? = some e) {i : Nat} {f : Entry}
    (hi : table[i]? = some f) :
    cut (k + 1) f =
      if e.parent = some i then { cut k f with children := (cut k f).children ++ [k] }
      else cut k f := by
  have hmem : k ∈ f.children ↔ e.parent = some i := by
    rw [htable.mem_children_iff hi, hk]
    simp
  rw [cut, filter_lt_succ (htable.increasing hi)]
  simp only [hmem]
  split
  · rfl
  · rw [List.append_nil]
    rfl

/-- Entering the row `k`. -/
theorem upTo_succ (htable : Linked table) (hk : table[k]? = some e) :
    upTo (k + 1) table = link k e.parent (upTo k table) ++ [{ e with children := [] }] := by
  have hlast : cut (k + 1) e = { e with children := [] } := by
    -- Its own children come later.
    have hnone : e.children.filter (· < k + 1) = [] := by
      rw [List.filter_eq_nil_iff]
      intro c hc
      obtain ⟨f, hf, hparent⟩ := (htable.mem_children_iff hk c).mp hc
      have hlt : k + 1 ≤ c := htable.parent_lt hf hparent
      simpa using hlt
    rw [cut, hnone]
  have hinit : (table.take k).map (cut (k + 1)) = link k e.parent (upTo k table) := by
    refine List.ext_getElem? fun i => ?_
    rw [getElem?_link, upTo, List.getElem?_map, List.getElem?_map, Option.map_map,
      List.getElem?_take]
    split
    · cases hi : table[i]? with
      | none => rfl
      | some f => exact congrArg some (cut_succ htable hk hi)
    · rfl
  rw [upTo, List.take_add_one, hk, Option.toList_some, List.map_append, hinit, List.map_singleton,
    hlast]

/-- A full table. -/
theorem upTo_length (htable : Linked table) : upTo table.length table = table := by
  have hcut : ∀ e ∈ table, cut table.length e = e := by
    intro e he
    obtain ⟨i, hi⟩ := List.mem_iff_getElem?.mp he
    have hall : e.children.filter (· < table.length) = e.children := by
      rw [List.filter_eq_self]
      intro c hc
      obtain ⟨f, hf, -⟩ := (htable.mem_children_iff hi c).mp hc
      simpa using (List.getElem?_eq_some_iff.mp hf).1
    rw [cut, hall]
  rw [upTo, List.take_length, List.map_congr_left hcut, List.map_id']

/-! ## The loop -/

/-- The state of the loop when the first `k` rows of the table have been entered. -/
structure HasEntered (table : List Entry) (k : Nat) (s : Filling) : Prop where
  rows_eq : s.rows = upTo k table
  pendingRows_eq : pendingRows k s.pending = table.drop k

/-- A turn of the loop enters one more row. -/
theorem HasEntered.step (htable : Linked table) (hk : k < table.length)
    (h : HasEntered table k s) : HasEntered table (k + 1) s.step := by
  obtain ⟨rows, pending⟩ := s
  obtain ⟨hrows, hpending⟩ := h
  cases pending with
  | nil =>
    have hle := List.drop_eq_nil_iff.mp hpending.symm
    omega
  | cons top rest =>
    obtain ⟨⟨kind, text, span, children⟩, parent⟩ := top
    simp only [pendingRows, Node.rows, List.cons_append, Node.size] at hrows hpending
    have hlength : rows.length = k := by rw [hrows, length_upTo (Nat.le_of_lt hk)]
    have hrow : table[k]? = some ⟨kind, text, span, parent, rootNumbers (k + 1) children⟩ := by
      rw [← List.head?_drop, ← hpending, List.head?_cons]
    refine ⟨?_, ?_⟩
    · show link rows.length parent rows ++ _ = _
      rw [upTo_succ htable hrow, hlength, hrows]
    · show pendingRows (k + 1) (children.map (fun n => (n, some rows.length)) ++ rest) = _
      rw [pendingRows_append, hlength, ← List.tail_drop, ← hpending, List.tail_cons,
        Nat.add_right_comm, Nat.add_assoc]

theorem hasEntered_iterate (htable : Linked table) (h : HasEntered table 0 s)
    (hk : k ≤ table.length) : HasEntered table k (Filling.step^[k] s) := by
  induction k with
  | zero => exact h
  | succ k ih =>
    rw [Function.iterate_succ_apply']
    exact (ih (Nat.le_of_succ_le hk)).step htable hk

/-- **The loop fills the table** in as many turns as there are nodes, and then nothing is pending. -/
theorem iterate_step (root : Node) :
    Filling.step^[root.size] (start root) = ⟨root.rows none 0, []⟩ := by
  have htable := linked_rows root
  have hstart : HasEntered (root.rows none 0) 0 (start root) :=
    ⟨rfl, List.append_nil _⟩
  obtain ⟨hrows, hpending⟩ := hasEntered_iterate htable hstart (Nat.le_refl _)
  rw [List.drop_length] at hpending
  rw [upTo_length htable] at hrows
  rw [root.length_rows] at hrows hpending
  have hnil := eq_nil_of_pendingRows hpending
  generalize Filling.step^[root.size] (start root) = s at hrows hnil
  obtain ⟨rows, pending⟩ := s
  exact congrArg₂ Filling.mk hrows hnil

end Filling

/-! ## The table of a document -/

namespace Tree

/-- The table `t` is a faithful image of the document `d`. -/
structure IsImageOf (t : Tree) (d : Document) : Prop where
  file_eq : t.file = d.file
  /-- A loop with a stack of pending trees ends with this table. -/
  iterate_step : Filling.step^[t.size] (.start d.root) = ⟨t.nodes.toList, []⟩
  size_eq : t.size = d.root.size
  /-- Read from the root, the table gives back the document. -/
  read?_root : t.read? t.size 0 = some d.root
  /-- The nodes are numbered in pre-order. -/
  read?_eq : ∀ i, t.read? t.size i = d.root.preorder[i]?
  /-- The nodes below a node are those that follow it, as many as there are in its tree. -/
  under_iff : ∀ {i : Nat} {n : Node}, t.read? t.size i = some n →
    ∀ j, t.Under i j ↔ i ≤ j ∧ j < i + n.size
  /-- A node is listed once by its parent, and by no other node. -/
  count_children : ∀ p c, (t.children p).count c = if t.parent c = some p then 1 else 0
  parent_lt : ∀ {c p : Nat}, t.parent c = some p → p < c
  /-- Only the root has no parent. -/
  parent_eq_none_iff : ∀ i < t.size, t.parent i = none ↔ i = 0
  /-- The way up leads downwards in numbers. -/
  pairwise_ancestors : ∀ i, (i :: t.ancestors i).Pairwise (· > ·)
  /-- It ends at the root. -/
  getLast?_ancestors : ∀ i, 0 < i → i < t.size → (t.ancestors i).getLast? = some 0

/-- **The table of a document is a faithful image of it**, numbered in pre-order. -/
theorem isImageOf_ofDocument (d : Document) : (ofDocument d).IsImageOf d := by
  have ht := isPreorder_ofDocument d
  have hread : ∀ i, (ofDocument d).read? (ofDocument d).size i = d.root.preorder[i]? :=
    read?_ofDocument (Nat.le_refl _)
  refine
    { file_eq := rfl
      iterate_step := by
        rw [size_ofDocument_eq]
        exact Filling.iterate_step d.root
      size_eq := size_ofDocument_eq d
      read?_root := by rw [hread, d.root.getElem?_zero_preorder]
      read?_eq := hread
      under_iff := fun {i n} hi j => under_ofDocument_iff ((hread i).symm.trans hi)
      count_children := fun p c => count_children_ofDocument
      parent_lt := lt_of_parent
      parent_eq_none_iff := fun i hi => ⟨fun hnone => ?_, ?_⟩
      pairwise_ancestors := pairwise_ancestors (ofDocument d)
      getLast?_ancestors := fun i => getLast?_ancestors ht }
  · by_contra hne
    obtain ⟨p, hp⟩ := ht.exists_parent (Nat.pos_of_ne_zero hne) hi
    rw [hnone] at hp
    cases hp
  · rintro rfl
    exact parent_zero

end Tree

end CallAtlas.Source
