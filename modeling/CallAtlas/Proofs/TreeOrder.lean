import CallAtlas.Source.Tree
import Mathlib.Data.List.TakeWhile

/-!
# Subtrees of a numbered syntax tree

A subtree is read off the table by going on from its root for as long as parents are not numbered
before the root. In a table that comes from a document this finds the nodes below the root and no
others. The reason is the interval property `Tree.IsPreorder`: between a parent and its child there
are only nodes below that parent.

## Main definitions

* `Source.Tree.Under` — a node lies in the subtree of another
* `Source.Tree.IsPreorder` — the numbers are in pre-order

## Main results

* `Source.Tree.Under.trans`, `Source.Tree.Under.total` — the nodes that a node lies under
* `Source.Tree.isPreorder_ofDocument` — tables of documents are numbered in pre-order
* `Source.Tree.mem_subtree_iff`, `Source.Tree.mem_descendants_iff` — what a search finds
* `Source.Tree.subtree_zero` — a search from the root finds every node
-/

namespace CallAtlas.Source

/-! ## Rows -/

mutual

/-- Below the root of a tree, parents are in the tree. -/
theorem Node.parent_of_mem_rows {parent : Option Nat} {number : Nat} :
    ∀ (n : Node) (e : Entry), e ∈ n.rows parent number →
      e.parent = parent ∨ ∃ q, e.parent = some q ∧ number ≤ q
  | .mk kind text span children, e, he => by
    rw [Node.rows, List.mem_cons] at he
    rcases he with rfl | he
    · exact Or.inl rfl
    · rcases parent_of_mem_rowsAll children e he with hp | ⟨q, hq, hle⟩
      · exact Or.inr ⟨number, hp, Nat.le_refl number⟩
      · exact Or.inr ⟨q, hq, Nat.le_of_succ_le hle⟩

/-- In a list of trees below `parent`, parents are `parent` or in the list. -/
theorem parent_of_mem_rowsAll {parent number : Nat} :
    ∀ (ns : List Node) (e : Entry), e ∈ rowsAll parent number ns →
      e.parent = some parent ∨ ∃ q, e.parent = some q ∧ number ≤ q
  | [], e, he => by simp [rowsAll] at he
  | n :: ns, e, he => by
    rw [rowsAll, List.mem_append] at he
    rcases he with he | he
    · exact Node.parent_of_mem_rows n e he
    · rcases parent_of_mem_rowsAll ns e he with hp | ⟨q, hq, hle⟩
      · exact Or.inl hp
      · exact Or.inr ⟨q, hq, Nat.le_of_add_right_le hle⟩

end

/-- The interval property of rows numbered from `number` on: between a row and its parent, both of
them in the list, parents are not numbered before that parent. -/
def PreorderFrom (number : Nat) (rows : List Entry) : Prop :=
  ∀ ⦃k : Nat⦄ ⦃e : Entry⦄ ⦃p : Nat⦄, rows[k]? = some e → e.parent = some p → number ≤ p →
    ∀ ⦃j : Nat⦄ ⦃e' : Entry⦄, p < number + j → j ≤ k → rows[j]? = some e' →
      ∃ q, e'.parent = some q ∧ p ≤ q

mutual

theorem Node.preorderFrom_rows {parent : Option Nat} {number : Nat}
    (hparent : ∀ p, parent = some p → p < number) :
    ∀ n : Node, PreorderFrom number (n.rows parent number)
  | .mk kind text span children => by
    intro k e p hk hp hle j e' hpj hjk hj
    rw [Node.rows] at hk hj
    cases k with
    | zero =>
      obtain rfl : _ = e := Option.some.inj hk
      exact absurd (hparent p hp) (Nat.not_lt.mpr hle)
    | succ k =>
      rw [List.getElem?_cons_succ] at hk
      cases j with
      | zero => omega
      | succ j =>
        rw [List.getElem?_cons_succ] at hj
        -- Either the parent is the root of the tree, or it is one of the rows below the root.
        rcases Nat.eq_or_lt_of_le hle with rfl | hlt
        · rcases parent_of_mem_rowsAll children e' (List.mem_of_getElem? hj) with hq | ⟨q, hq, hle'⟩
          · exact ⟨number, hq, Nat.le_refl number⟩
          · exact ⟨q, hq, Nat.le_of_succ_le hle'⟩
        · exact preorderFrom_rowsAll (Nat.lt_succ_self number) children hk hp hlt (by omega)
            (Nat.le_of_succ_le_succ hjk) hj

theorem preorderFrom_rowsAll {parent number : Nat} (hparent : parent < number) :
    ∀ ns : List Node, PreorderFrom number (rowsAll parent number ns)
  | [] => by
    intro k e p hk
    simp [rowsAll] at hk
  | n :: ns => by
    intro k e p hk hp hle j e' hpj hjk hj
    have hlength : (n.rows (some parent) number).length = n.size := n.length_rows _ _
    rw [rowsAll] at hk hj
    rcases Nat.lt_or_ge k n.size with hkn | hkn
    · -- The row is in the first tree, and so is everything before it.
      rw [List.getElem?_append_left (by omega)] at hk hj
      have hfirst : ∀ p, some parent = some p → p < number := by
        rintro p ⟨⟩
        exact hparent
      exact Node.preorderFrom_rows hfirst n hk hp hle hpj hjk hj
    · rw [List.getElem?_append_right (by omega), hlength] at hk
      have hrest : parent < number + n.size := Nat.lt_add_right _ hparent
      have hlow : number + n.size ≤ p := by
        rcases parent_of_mem_rowsAll ns e (List.mem_of_getElem? hk) with hq | ⟨q, hq, hle'⟩
        · rw [hp, Option.some.injEq] at hq
          omega
        · rw [hp, Option.some.injEq] at hq
          omega
      rw [List.getElem?_append_right (by omega), hlength] at hj
      exact preorderFrom_rowsAll hrest ns hk hp hlow (by omega) (by omega) hj

end

namespace Tree

variable {t : Tree} {r i j p : Nat}

/-! ## Ancestors -/

theorem ancestors_of_parent (hp : t.parent i = some p) :
    t.ancestors i = p :: t.ancestors p := by
  rw [ancestors]
  split
  case h_1 hnone =>
    rw [hp] at hnone
    cases hnone
  case h_2 q hq =>
    rw [hp, Option.some.injEq] at hq
    rw [hq]

theorem ancestors_of_parent_none (hp : t.parent i = none) : t.ancestors i = [] := by
  rw [ancestors]
  split
  case h_1 => rfl
  case h_2 q hq =>
    rw [hp] at hq
    cases hq

/-- `i` is `r` or lies below it. -/
def Under (t : Tree) (r i : Nat) : Prop :=
  i = r ∨ r ∈ t.ancestors i

theorem under_of_parent (hp : t.parent i = some p) (hu : t.Under r p) : t.Under r i := by
  refine Or.inr ?_
  rw [ancestors_of_parent hp, List.mem_cons]
  exact hu.imp_left Eq.symm

theorem Under.eq_or_parent (hu : t.Under r i) :
    i = r ∨ ∃ p, t.parent i = some p ∧ t.Under r p := by
  refine hu.imp_right fun hr => ?_
  cases hp : t.parent i with
  | none =>
    rw [ancestors_of_parent_none hp] at hr
    exact absurd hr List.not_mem_nil
  | some p =>
    rw [ancestors_of_parent hp, List.mem_cons] at hr
    exact ⟨p, rfl, hr.imp_left Eq.symm⟩

theorem Under.le (hu : t.Under r i) : r ≤ i := by
  induction i using Nat.strongRecOn with
  | ind i ih =>
    rcases hu.eq_or_parent with rfl | ⟨p, hp, hup⟩
    · exact Nat.le_refl i
    · have hlt : p < i := lt_of_parent hp
      exact Nat.le_trans (ih p hlt hup) (Nat.le_of_lt hlt)

/-- The ancestors of a node are the other nodes that it lies under. -/
theorem mem_ancestors_iff : r ∈ t.ancestors i ↔ t.Under r i ∧ r ≠ i := by
  constructor
  · intro hr
    refine ⟨Or.inr hr, ?_⟩
    cases hp : t.parent i with
    | none =>
      rw [ancestors_of_parent_none hp] at hr
      exact absurd hr List.not_mem_nil
    | some p =>
      rw [ancestors_of_parent hp, List.mem_cons] at hr
      have hup : t.Under r p := hr.imp_left Eq.symm
      exact Nat.ne_of_lt (Nat.lt_of_le_of_lt hup.le (lt_of_parent hp))
  · rintro ⟨rfl | hr, hne⟩
    · exact absurd rfl hne
    · exact hr

theorem lt_of_mem_ancestors (hr : r ∈ t.ancestors i) : r < i := by
  obtain ⟨hu, hne⟩ := mem_ancestors_iff.mp hr
  exact Nat.lt_of_le_of_ne hu.le hne

theorem Under.trans (hrj : t.Under r j) (hji : t.Under j i) : t.Under r i := by
  induction i using Nat.strongRecOn with
  | ind i ih =>
    rcases hji.eq_or_parent with rfl | ⟨p, hp, hjp⟩
    · exact hrj
    · exact under_of_parent hp (ih p (lt_of_parent hp) hjp)

theorem mem_ancestors_of_under (hr : r ∈ t.ancestors j) (hu : t.Under j i) : r ∈ t.ancestors i :=
  mem_ancestors_iff.mpr ⟨(mem_ancestors_iff.mp hr).1.trans hu,
    Nat.ne_of_lt (Nat.lt_of_lt_of_le (lt_of_mem_ancestors hr) hu.le)⟩

theorem Under.mem_ancestors (hu : t.Under r j) (hj : j ∈ t.ancestors i) : r ∈ t.ancestors i :=
  mem_ancestors_iff.mpr ⟨hu.trans (mem_ancestors_iff.mp hj).1,
    Nat.ne_of_lt (Nat.lt_of_le_of_lt hu.le (lt_of_mem_ancestors hj))⟩

/-- The nodes that a node lies under are in line. -/
theorem Under.total (hr : t.Under r i) (hj : t.Under j i) : t.Under r j ∨ t.Under j r := by
  induction i using Nat.strongRecOn with
  | ind i ih =>
    rcases hr.eq_or_parent with rfl | ⟨p, hp, hrp⟩
    · exact Or.inr hj
    · rcases hj.eq_or_parent with rfl | ⟨q, hq, hjq⟩
      · exact Or.inl hr
      · obtain rfl : p = q := Option.some.inj (hp.symm.trans hq)
        exact ih p (lt_of_parent hp) hrp hjq

theorem hasAncestor_iff {k : Kind} : t.hasAncestor i k ↔ ∃ a ∈ t.ancestors i, t.kind a = k := by
  simp only [hasAncestor, List.any_eq_true, decide_eq_true_eq]

theorem lt_size_of_parent (hp : t.parent i = some p) : i < t.size := by
  obtain ⟨e, he, -⟩ := Option.bind_eq_some_iff.mp hp
  exact (Array.getElem?_eq_some_iff.mp he).1

theorem parent_lt_size (hp : t.parent i = some p) : p < t.size :=
  Nat.lt_trans (lt_of_parent hp) (lt_size_of_parent hp)

theorem Under.lt_size (hu : t.Under r i) (hr : r < t.size) : i < t.size := by
  rcases hu.eq_or_parent with rfl | ⟨p, hp, -⟩
  · exact hr
  · exact lt_size_of_parent hp

/-! ## Pre-order -/

/-- The numbers of the nodes are in pre-order. -/
structure IsPreorder (t : Tree) : Prop where
  /-- There is a root. -/
  size_pos : 0 < t.size
  /-- All other nodes have a parent. -/
  exists_parent : ∀ {i : Nat}, 0 < i → i < t.size → ∃ p, t.parent i = some p
  /-- Between a node and its parent, parents are not numbered before that parent. -/
  interval : ∀ {i p j : Nat}, t.parent i = some p → p < j → j ≤ i →
    ∃ q, t.parent j = some q ∧ p ≤ q

theorem parent_ofDocument (d : Document) (i : Nat) :
    (ofDocument d).parent i = ((d.root.rows none 0)[i]?).bind Entry.parent := by
  rw [parent, ofDocument, List.getElem?_toArray]

theorem size_ofDocument (d : Document) : (ofDocument d).size = (d.root.rows none 0).length :=
  List.size_toArray

theorem isPreorder_ofDocument (d : Document) : (ofDocument d).IsPreorder where
  size_pos := by
    rw [size_ofDocument]
    cases d.root with
    | mk kind text span children => exact Nat.zero_lt_succ _
  exists_parent {i} hpos hi := by
    rw [size_ofDocument] at hi
    rw [parent_ofDocument]
    obtain ⟨k, rfl⟩ := Nat.exists_eq_succ_of_ne_zero (Nat.ne_of_gt hpos)
    cases hroot : d.root with
    | mk kind text span children =>
      rw [hroot, Node.rows, List.length_cons] at hi
      have hk : k < (rowsAll 0 1 children).length := Nat.lt_of_succ_lt_succ hi
      rw [Node.rows, List.getElem?_cons_succ, List.getElem?_eq_getElem hk, Option.bind_some]
      rcases parent_of_mem_rowsAll children _ (List.getElem_mem hk) with hp | ⟨q, hq, -⟩
      · exact ⟨0, hp⟩
      · exact ⟨q, hq⟩
  interval {i p j} hp hpj hji := by
    rw [parent_ofDocument] at hp
    obtain ⟨e, he, hep⟩ := Option.bind_eq_some_iff.mp hp
    obtain ⟨hi, -⟩ := List.getElem?_eq_some_iff.mp he
    have hj : j < (d.root.rows none 0).length := Nat.lt_of_le_of_lt hji hi
    have hroot : ∀ p, (none : Option Nat) = some p → p < 0 := by
      intro p hnone
      cases hnone
    rw [parent_ofDocument, List.getElem?_eq_getElem hj, Option.bind_some]
    exact Node.preorderFrom_rows hroot d.root he hep (Nat.zero_le p) (by omega) hji
      (List.getElem?_eq_getElem hj)

theorem isPreorder_of_mem_map {docs : List Document} :
    ∀ t ∈ docs.map ofDocument, t.IsPreorder := by
  intro t ht
  obtain ⟨doc, -, rfl⟩ := List.mem_map.mp ht
  exact isPreorder_ofDocument doc

/-- The nodes below `r` are those up to which no parent is numbered before `r`. -/
theorem IsPreorder.under_iff (ht : t.IsPreorder) (hri : r < i) :
    t.Under r i ↔ ∀ j, r < j → j ≤ i → ∃ q, t.parent j = some q ∧ r ≤ q := by
  induction i using Nat.strongRecOn with
  | ind i ih =>
    constructor
    · intro hu j hrj hji
      rcases hu.eq_or_parent with rfl | ⟨p, hp, hup⟩
      · exact absurd hri (Nat.lt_irrefl i)
      · -- Up to the parent of `i` the claim is known, and after it the interval property applies.
        rcases Nat.lt_or_ge p j with hpj | hjp
        · obtain ⟨q, hq, hpq⟩ := ht.interval hp hpj hji
          exact ⟨q, hq, Nat.le_trans hup.le hpq⟩
        · have hrp : r < p := Nat.lt_of_lt_of_le hrj hjp
          exact (ih p (lt_of_parent hp) hrp).mp hup j hrj hjp
    · intro hall
      obtain ⟨q, hq, hrq⟩ := hall i hri (Nat.le_refl i)
      have hlt : q < i := lt_of_parent hq
      refine under_of_parent hq ?_
      rcases Nat.eq_or_lt_of_le hrq with rfl | hrq
      · exact Or.inl rfl
      · exact (ih q hlt hrq).mpr fun j hrj hjq => hall j hrj (by omega)

/-! ## Searching -/

theorem mem_takeWhile_range' {P : Nat → Bool} {n a : Nat} :
    i ∈ (List.range' a n).takeWhile P ↔
      a ≤ i ∧ i < a + n ∧ ∀ j, a ≤ j → j ≤ i → P j := by
  induction n generalizing a with
  | zero =>
    rw [List.range'_zero, List.takeWhile_nil]
    refine iff_of_false List.not_mem_nil ?_
    rintro ⟨hle, hlt, -⟩
    omega
  | succ n ih =>
    rw [List.range'_succ]
    by_cases ha : P a
    · rw [List.takeWhile_cons_of_pos ha, List.mem_cons, ih]
      constructor
      · rintro (rfl | ⟨hle, hlt, hall⟩)
        · refine ⟨Nat.le_refl i, by omega, fun j hij hji => ?_⟩
          rwa [Nat.le_antisymm hji hij]
        · refine ⟨by omega, by omega, fun j haj hji => ?_⟩
          rcases Nat.eq_or_lt_of_le haj with rfl | haj
          · exact ha
          · exact hall j haj hji
      · rintro ⟨hle, hlt, hall⟩
        rcases Nat.eq_or_lt_of_le hle with rfl | hle
        · exact Or.inl rfl
        · exact Or.inr ⟨hle, by omega, fun j haj => hall j (Nat.le_of_succ_le haj)⟩
    · rw [List.takeWhile_cons_of_neg ha]
      refine iff_of_false List.not_mem_nil ?_
      rintro ⟨hle, -, hall⟩
      exact ha (hall a (Nat.le_refl a) hle)

/-- **A subtree is read off from its root on.** -/
theorem mem_subtree_iff (ht : t.IsPreorder) (hr : r < t.size) :
    i ∈ t.subtree r ↔ t.Under r i := by
  rw [subtree, List.mem_cons, mem_takeWhile_range']
  simp only [Option.any_eq_true, decide_eq_true_eq]
  constructor
  · rintro (rfl | ⟨hle, -, hall⟩)
    · exact Or.inl rfl
    · exact (ht.under_iff hle).mpr hall
  · intro hu
    have hi : i < t.size := hu.lt_size hr
    rcases Nat.eq_or_lt_of_le hu.le with rfl | hlt
    · exact Or.inl rfl
    · exact Or.inr ⟨hlt, by omega, (ht.under_iff hlt).mp hu⟩

theorem mem_descendants_iff {kinds : List Kind} (ht : t.IsPreorder) (hr : r < t.size) :
    i ∈ t.descendants r kinds ↔ t.Under r i ∧ t.kind i ∈ kinds := by
  rw [descendants, List.mem_filter, mem_subtree_iff ht hr, List.contains_iff_mem]

/-- The subtree of the root is the whole tree. -/
theorem subtree_zero (ht : t.IsPreorder) : t.subtree 0 = List.range t.size := by
  obtain ⟨n, hn⟩ := Nat.exists_eq_succ_of_ne_zero (Nat.ne_of_gt ht.size_pos)
  have hall : ∀ i ∈ List.range' 1 n, (t.parent i).any (0 ≤ ·) := by
    intro i hi
    rw [List.mem_range'_1] at hi
    obtain ⟨p, hp⟩ := ht.exists_parent (i := i) (by omega) (by omega)
    rw [hp]
    rfl
  rw [subtree, hn, List.range_eq_range', List.range'_succ]
  exact congrArg (List.cons 0) (List.takeWhile_eq_self_iff.mpr hall)

end Tree

end CallAtlas.Source
