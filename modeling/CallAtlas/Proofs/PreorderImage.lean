import CallAtlas.Proofs.TreeOrder
import Mathlib.Data.List.Nodup

/-!
# The table of a document holds the document

A document is a nested tree, and its table is flat: a row knows its parent and its children by their
numbers only. Here the tree is read back from the table, along the numbers of the children.

All of it rests on one relation. A tree *stands* at a number in a list of rows if its own rows,
numbered from there on, are what comes next in the list. If a tree stands at `i`, then its children
stand at the numbers that row `i` gives for them; so induction on the tree applies, and it needs no
more about the list.

## Main definitions

* `Source.Node.preorder` — the nodes of a tree, each with everything below it, in pre-order
* `Source.Node.StandsAt`, `Source.StandAllAt` — trees in a list of rows
* `Source.Linked` — the links to parents and children agree
* `Source.Tree.read?` — the tree below a number of a table

## Main results

* `Source.Tree.exists_standsAt` — the trees of a document stand at their pre-order numbers
* `Source.linked_rows` — the links agree
* `Source.Tree.read?_ofDocument` — reading gives back what was written
* `Source.Tree.under_ofDocument_iff` — what is below a node is an interval of numbers
* `Source.Tree.nearestAncestor_eq_some_iff` — the nearest ancestor of a kind
-/

namespace CallAtlas.Source

variable {rows : List Entry} {parent : Option Nat} {i j c p depth : Nat} {n m : Node}
  {ns : List Node}

/-! ## Pre-order -/

mutual

/-- A node and all nodes below it, in pre-order. -/
def Node.preorder : Node → List Node
  | .mk kind text span children => .mk kind text span children :: preorderAll children

/-- The nodes of a list of trees, in pre-order. -/
def preorderAll : List Node → List Node
  | [] => []
  | n :: ns => n.preorder ++ preorderAll ns

end

mutual

theorem Node.length_preorder : ∀ n : Node, n.preorder.length = n.size
  | .mk kind text span children => by
    rw [Node.preorder, Node.size, List.length_cons, length_preorderAll children]

theorem length_preorderAll : ∀ ns : List Node, (preorderAll ns).length = sizeAll ns
  | [] => rfl
  | n :: ns => by
    rw [preorderAll, sizeAll, List.length_append, n.length_preorder, length_preorderAll ns]

end

theorem Node.size_pos : 0 < n.size := by
  cases n with
  | mk kind text span children => exact Nat.succ_pos _

theorem Node.getElem?_zero_preorder (n : Node) : n.preorder[0]? = some n := by
  cases n with
  | mk kind text span children => rfl

/-! ## Trees in a list of rows -/

/-- The rows of the tree `n`, numbered from `i` on, stand in the list from place `i` on. -/
def Node.StandsAt (rows : List Entry) (parent : Option Nat) (i : Nat) (n : Node) : Prop :=
  n.rows parent i <+: rows.drop i

/-- The rows of the trees `ns` below `parent`, numbered from `i` on, stand in the list from place
`i` on. -/
def StandAllAt (rows : List Entry) (parent i : Nat) (ns : List Node) : Prop :=
  rowsAll parent i ns <+: rows.drop i

theorem Node.StandsAt.getElem? {kind : Kind} {text : Option String} {span : Option Span}
    (h : (Node.mk kind text span ns).StandsAt rows parent i) :
    rows[i]? = some ⟨kind, text, span, parent, rootNumbers (i + 1) ns⟩ := by
  obtain ⟨after, h⟩ := h
  rw [← List.head?_drop, ← h, Node.rows]
  rfl

theorem Node.StandsAt.children {kind : Kind} {text : Option String} {span : Option Span}
    (h : (Node.mk kind text span ns).StandsAt rows parent i) : StandAllAt rows i (i + 1) ns := by
  obtain ⟨after, h⟩ := h
  refine ⟨after, ?_⟩
  rw [← List.tail_drop, ← h, Node.rows]
  rfl

theorem StandAllAt.head (h : StandAllAt rows p i (n :: ns)) : n.StandsAt rows (some p) i := by
  rw [StandAllAt, rowsAll] at h
  exact (List.prefix_append _ _).trans h

theorem StandAllAt.tail (h : StandAllAt rows p i (n :: ns)) :
    StandAllAt rows p (i + n.size) ns := by
  obtain ⟨after, h⟩ := h
  refine ⟨after, ?_⟩
  rw [rowsAll, List.append_assoc] at h
  rw [← List.drop_drop, ← h, ← n.length_rows (some p) i, List.drop_left]

/-- A tree that stands in a list fits into it. -/
theorem Node.StandsAt.add_size_le (h : n.StandsAt rows parent i) : i + n.size ≤ rows.length := by
  have hle := h.length_le
  rw [n.length_rows, List.length_drop] at hle
  have hpos : 0 < n.size := n.size_pos
  omega

mutual

/-- If a tree stands in a list, the trees inside it stand there at their pre-order numbers. -/
theorem Node.StandsAt.of_preorder : ∀ {n : Node} {parent : Option Nat} {i j : Nat} {m : Node},
    n.StandsAt rows parent i → n.preorder[j]? = some m → ∃ q, m.StandsAt rows q (i + j)
  | .mk kind text span children, parent, i, 0, m, h, hm => by
    obtain rfl : Node.mk kind text span children = m := Option.some.inj hm
    exact ⟨parent, h⟩
  | .mk kind text span children, parent, i, j + 1, m, h, hm => by
    obtain ⟨q, hq⟩ := h.children.of_preorderAll hm
    rw [Nat.add_right_comm, Nat.add_assoc] at hq
    exact ⟨q, hq⟩

theorem StandAllAt.of_preorderAll : ∀ {ns : List Node} {p i j : Nat} {m : Node},
    StandAllAt rows p i ns → (preorderAll ns)[j]? = some m → ∃ q, m.StandsAt rows q (i + j)
  | [], p, i, j, m, h, hm => by simp [preorderAll] at hm
  | n :: ns, p, i, j, m, h, hm => by
    rw [preorderAll, List.getElem?_append, n.length_preorder] at hm
    split at hm
    · exact h.head.of_preorder hm
    · obtain ⟨q, hq⟩ := h.tail.of_preorderAll hm
      have hplace : i + n.size + (j - n.size) = i + j := by omega
      exact ⟨q, hplace ▸ hq⟩

end

/-! ## Links -/

theorem le_of_mem_rootNumbers (hc : c ∈ rootNumbers i ns) : i ≤ c := by
  induction ns generalizing i with
  | nil => cases hc
  | cons n ns ih =>
    rw [rootNumbers, List.mem_cons] at hc
    rcases hc with rfl | hc
    · exact Nat.le_refl c
    · exact Nat.le_of_add_right_le (ih hc)

theorem pairwise_rootNumbers (i : Nat) (ns : List Node) :
    (rootNumbers i ns).Pairwise (· < ·) := by
  induction ns generalizing i with
  | nil => exact List.Pairwise.nil
  | cons n ns ih =>
    refine List.Pairwise.cons (fun c hc => ?_) (ih _)
    have hle := le_of_mem_rootNumbers hc
    have hpos : 0 < n.size := n.size_pos
    omega

/-- The roots of trees that stand below `p` have `p` as their parent. -/
theorem StandAllAt.parent_of_mem (h : StandAllAt rows p i ns) (hc : c ∈ rootNumbers i ns) :
    ∃ e, rows[c]? = some e ∧ e.parent = some p := by
  induction ns generalizing i with
  | nil => cases hc
  | cons n ns ih =>
    rw [rootNumbers, List.mem_cons] at hc
    rcases hc with rfl | hc
    · cases n with
      | mk kind text span children => exact ⟨_, h.head.getElem?, rfl⟩
    · exact ih h.tail hc

mutual

/-- The parent of a row in a tree lists it as a child, the root apart. -/
theorem Node.listed_of_rows {parent : Option Nat} {number : Nat} :
    ∀ (n : Node) (j : Nat) (e : Entry), (n.rows parent number)[j]? = some e →
      j = 0 ∧ e.parent = parent ∨
        ∃ (k : Nat) (f : Entry), (n.rows parent number)[k]? = some f ∧
          e.parent = some (number + k) ∧ number + j ∈ f.children
  | .mk kind text span children, 0, e, he => by
    rw [Node.rows, List.getElem?_cons_zero] at he
    obtain rfl := Option.some.inj he
    exact Or.inl ⟨rfl, rfl⟩
  | .mk kind text span children, j + 1, e, he => by
    rw [Node.rows, List.getElem?_cons_succ] at he
    have hnumber : number + 1 + j = number + (j + 1) := by omega
    refine Or.inr ?_
    rcases listed_of_rowsAll children j e he with ⟨hparent, hmem⟩ | ⟨k, f, hf, hparent, hmem⟩
    · exact ⟨0, _, rfl, hparent, hnumber ▸ hmem⟩
    · refine ⟨k + 1, f, hf, ?_, hnumber ▸ hmem⟩
      rw [hparent, Nat.add_right_comm, Nat.add_assoc]

/-- The parent of a row in a list of trees lists it as a child, the roots apart. -/
theorem listed_of_rowsAll {parent number : Nat} :
    ∀ (ns : List Node) (j : Nat) (e : Entry), (rowsAll parent number ns)[j]? = some e →
      e.parent = some parent ∧ number + j ∈ rootNumbers number ns ∨
        ∃ (k : Nat) (f : Entry), (rowsAll parent number ns)[k]? = some f ∧
          e.parent = some (number + k) ∧ number + j ∈ f.children
  | [], j, e, he => by simp [rowsAll] at he
  | n :: ns, j, e, he => by
    have hlength : (n.rows (some parent) number).length = n.size := n.length_rows _ _
    rw [rowsAll] at he ⊢
    rw [rootNumbers]
    rcases Nat.lt_or_ge j n.size with hj | hj
    · rw [List.getElem?_append_left (by omega)] at he
      rcases Node.listed_of_rows n j e he with ⟨rfl, hparent⟩ | ⟨k, f, hf, hparent, hmem⟩
      · exact Or.inl ⟨hparent, List.mem_cons_self⟩
      · have hk : k < n.size := hlength ▸ (List.getElem?_eq_some_iff.mp hf).1
        refine Or.inr ⟨k, f, ?_, hparent, hmem⟩
        rw [List.getElem?_append_left (by omega), hf]
    · rw [List.getElem?_append_right (by omega), hlength] at he
      have hnumber : number + n.size + (j - n.size) = number + j := by omega
      rcases listed_of_rowsAll ns (j - n.size) e he with
        ⟨hparent, hmem⟩ | ⟨k, f, hf, hparent, hmem⟩
      · exact Or.inl ⟨hparent, List.mem_cons_of_mem _ (hnumber ▸ hmem)⟩
      · refine Or.inr ⟨n.size + k, f, ?_, ?_, hnumber ▸ hmem⟩
        · rw [List.getElem?_append_right (by omega), hlength, Nat.add_sub_cancel_left, hf]
        · rw [hparent, Nat.add_assoc]

end

/-- The links of the rows agree: the children of a row are, in increasing order, the numbers of the
rows that have it as their parent, and they come after it. -/
structure Linked (rows : List Entry) : Prop where
  parent_lt : ∀ {c p : Nat} {e : Entry}, rows[c]? = some e → e.parent = some p → p < c
  increasing : ∀ {i : Nat} {e : Entry}, rows[i]? = some e → e.children.Pairwise (· < ·)
  mem_children_iff : ∀ {i : Nat} {e : Entry}, rows[i]? = some e →
    ∀ c, c ∈ e.children ↔ ∃ f, rows[c]? = some f ∧ f.parent = some i

theorem standsAt_rows (n : Node) : n.StandsAt (n.rows none 0) none 0 :=
  List.prefix_refl _

theorem exists_standsAt_rows (hi : i < n.size) :
    ∃ m q, n.preorder[i]? = some m ∧ m.StandsAt (n.rows none 0) q i := by
  have hlt : i < n.preorder.length := by rwa [n.length_preorder]
  obtain ⟨q, hq⟩ := (standsAt_rows n).of_preorder (List.getElem?_eq_getElem hlt)
  rw [Nat.zero_add] at hq
  exact ⟨_, q, List.getElem?_eq_getElem hlt, hq⟩

theorem linked_rows (n : Node) : Linked (n.rows none 0) := by
  have hstands : ∀ {i : Nat} {e : Entry}, (n.rows none 0)[i]? = some e →
      ∃ ns, e.children = rootNumbers (i + 1) ns ∧ StandAllAt (n.rows none 0) i (i + 1) ns := by
    intro i e he
    have hi : i < n.size := n.length_rows none 0 ▸ (List.getElem?_eq_some_iff.mp he).1
    obtain ⟨⟨kind, text, span, ns⟩, q, -, hm⟩ := exists_standsAt_rows hi
    obtain rfl := Option.some.inj (hm.getElem?.symm.trans he)
    exact ⟨ns, rfl, hm.children⟩
  refine ⟨fun {c p e} he hp => ?_, fun {i e} he => ?_, fun {i e} he c => ⟨fun hc => ?_, ?_⟩⟩
  · have hlt := Node.parent_lt_of_rows (by simp) n c e p he hp
    rwa [Nat.zero_add] at hlt
  · obtain ⟨ns, hns, -⟩ := hstands he
    exact hns ▸ pairwise_rootNumbers (i + 1) ns
  · obtain ⟨ns, hns, hall⟩ := hstands he
    exact hall.parent_of_mem (hns ▸ hc)
  · rintro ⟨f, hf, hparent⟩
    rcases n.listed_of_rows c f hf with ⟨-, hnone⟩ | ⟨k, f', hf', hparent', hmem⟩
    · rw [hparent] at hnone
      cases hnone
    · rw [Nat.zero_add] at hparent' hmem
      obtain rfl : i = k := Option.some.inj (hparent.symm.trans hparent')
      obtain rfl : e = f' := Option.some.inj (he.symm.trans hf')
      exact hmem

namespace Tree

variable {t : Tree} {d : Document}

/-! ## Reading back -/

/-- The tree below the node `i`, read along the numbers of the children, if it is at most `depth`
levels deep. -/
def read? (t : Tree) : Nat → Nat → Option Node
  | 0, _ => none
  | depth + 1, i => do
    let e ← t.nodes[i]?
    let children ← e.children.mapM (t.read? depth)
    return .mk e.kind e.text e.span children

mutual

/-- A tree that stands in a table is read back. -/
theorem read?_of_standsAt : ∀ {n : Node} {parent : Option Nat} {i depth : Nat},
    n.StandsAt t.nodes.toList parent i → n.size ≤ depth → t.read? depth i = some n
  | .mk kind text span children, parent, i, depth, h, hdepth => by
    rw [Node.size] at hdepth
    obtain ⟨depth, rfl⟩ := Nat.exists_eq_add_one_of_ne_zero (Nat.ne_zero_of_lt hdepth)
    have hrow := h.getElem?
    rw [Array.getElem?_toList] at hrow
    rw [read?, hrow]
    show ((rootNumbers (i + 1) children).mapM (t.read? depth)).bind _ = _
    rw [mapM_read?_of_standAllAt h.children (Nat.le_of_succ_le_succ hdepth)]
    rfl

theorem mapM_read?_of_standAllAt : ∀ {ns : List Node} {p i depth : Nat},
    StandAllAt t.nodes.toList p i ns → sizeAll ns ≤ depth →
      (rootNumbers i ns).mapM (t.read? depth) = some ns
  | [], p, i, depth, h, hdepth => rfl
  | n :: ns, p, i, depth, h, hdepth => by
    rw [sizeAll] at hdepth
    have hhead : t.read? depth i = some n := read?_of_standsAt h.head (by omega)
    have htail : (rootNumbers (i + n.size) ns).mapM (t.read? depth) = some ns :=
      mapM_read?_of_standAllAt h.tail (by omega)
    rw [rootNumbers, List.mapM_cons, hhead, htail]
    rfl

end

theorem toList_nodes_ofDocument (d : Document) : (ofDocument d).nodes.toList = d.root.rows none 0 :=
  rfl

theorem size_ofDocument_eq (d : Document) : (ofDocument d).size = d.root.size := by
  rw [size_ofDocument, d.root.length_rows]

/-- The trees inside a document stand in its table at their pre-order numbers. -/
theorem exists_standsAt (hi : d.root.preorder[i]? = some n) :
    ∃ q, n.StandsAt (ofDocument d).nodes.toList q i := by
  have hlt : i < d.root.size := d.root.length_preorder ▸ (List.getElem?_eq_some_iff.mp hi).1
  obtain ⟨m, q, hm, hstands⟩ := exists_standsAt_rows hlt
  obtain rfl : n = m := Option.some.inj (hi.symm.trans hm)
  exact ⟨q, hstands⟩

/-- **Reading the table gives back the document.** -/
theorem read?_ofDocument (hdepth : (ofDocument d).size ≤ depth) (i : Nat) :
    (ofDocument d).read? depth i = d.root.preorder[i]? := by
  cases hi : d.root.preorder[i]? with
  | some n =>
    obtain ⟨q, hq⟩ := exists_standsAt hi
    have hle := hq.add_size_le
    rw [toList_nodes_ofDocument, d.root.length_rows, ← size_ofDocument_eq] at hle
    exact read?_of_standsAt hq (by omega)
  | none =>
    rw [List.getElem?_eq_none_iff, d.root.length_preorder, ← size_ofDocument_eq] at hi
    cases depth with
    | zero => rfl
    | succ depth =>
      rw [read?, Array.getElem?_eq_none hi]
      rfl

/-! ## Parents and children -/

theorem children_ofDocument (d : Document) (i : Nat) :
    (ofDocument d).children i = ((d.root.rows none 0)[i]?.map Entry.children).getD [] := by
  rw [children, ofDocument, List.getElem?_toArray]

theorem mem_children_ofDocument_iff :
    c ∈ (ofDocument d).children p ↔ (ofDocument d).parent c = some p := by
  have hlinked := linked_rows d.root
  rw [children_ofDocument, parent_ofDocument, Option.bind_eq_some_iff]
  cases hp : (d.root.rows none 0)[p]? with
  | some e => exact hlinked.mem_children_iff hp c
  | none =>
    refine iff_of_false List.not_mem_nil ?_
    rintro ⟨f, hf, hparent⟩
    have hlt : p < c := hlinked.parent_lt hf hparent
    have hc := (List.getElem?_eq_some_iff.mp hf).1
    have hge := List.getElem?_eq_none_iff.mp hp
    omega

theorem nodup_children_ofDocument : ((ofDocument d).children p).Nodup := by
  rw [children_ofDocument]
  cases hp : (d.root.rows none 0)[p]? with
  | some e => exact ((linked_rows d.root).increasing hp).imp fun h => Nat.ne_of_lt h
  | none => exact List.nodup_nil

theorem count_children_ofDocument :
    ((ofDocument d).children p).count c = if (ofDocument d).parent c = some p then 1 else 0 := by
  split
  case isTrue hc =>
    exact List.count_eq_one_of_mem nodup_children_ofDocument (mem_children_ofDocument_iff.mpr hc)
  case isFalse hc =>
    exact List.count_eq_zero.mpr fun hmem => hc (mem_children_ofDocument_iff.mp hmem)

/-! ## Subtrees as intervals -/

/-- What lies under a node is the node itself and what lies under its children. -/
theorem under_iff_children : (ofDocument d).Under i j ↔
    j = i ∨ ∃ c ∈ (ofDocument d).children i, (ofDocument d).Under c j := by
  simp only [mem_children_ofDocument_iff]
  constructor
  · intro hu
    induction j using Nat.strongRecOn with
    | ind j ih =>
      rcases hu.eq_or_parent with rfl | ⟨q, hq, huq⟩
      · exact Or.inl rfl
      · refine Or.inr ?_
        rcases ih q (lt_of_parent hq) huq with rfl | ⟨c, hc, huc⟩
        · exact ⟨j, hq, Or.inl rfl⟩
        · exact ⟨c, hc, under_of_parent hq huc⟩
  · rintro (rfl | ⟨c, hc, huc⟩)
    · exact Or.inl rfl
    · exact (under_of_parent hc (Or.inl rfl)).trans huc

mutual

/-- What lies under a node occupies as many numbers as its tree has nodes. -/
theorem under_iff_of_standsAt : ∀ {n : Node} {parent : Option Nat} {i : Nat} (j : Nat),
    n.StandsAt (ofDocument d).nodes.toList parent i →
      ((ofDocument d).Under i j ↔ i ≤ j ∧ j < i + n.size)
  | .mk kind text span children, parent, i, j, h => by
    have hchildren : (ofDocument d).children i = rootNumbers (i + 1) children := by
      rw [children_ofDocument, ← toList_nodes_ofDocument, h.getElem?]
      rfl
    rw [under_iff_children, hchildren, exists_under_iff_of_standAllAt j h.children, Node.size]
    omega

theorem exists_under_iff_of_standAllAt : ∀ {ns : List Node} {p i : Nat} (j : Nat),
    StandAllAt (ofDocument d).nodes.toList p i ns →
      ((∃ c ∈ rootNumbers i ns, (ofDocument d).Under c j) ↔ i ≤ j ∧ j < i + sizeAll ns)
  | [], p, i, j, h => by
    simp [rootNumbers, sizeAll]
  | n :: ns, p, i, j, h => by
    simp only [rootNumbers, List.mem_cons, exists_eq_or_imp]
    rw [under_iff_of_standsAt j h.head, exists_under_iff_of_standAllAt j h.tail, sizeAll]
    omega

end

/-- **The nodes below a node are the next ones**, as many as there are in its tree. -/
theorem under_ofDocument_iff (hi : d.root.preorder[i]? = some n) :
    (ofDocument d).Under i j ↔ i ≤ j ∧ j < i + n.size := by
  obtain ⟨q, hq⟩ := exists_standsAt hi
  exact under_iff_of_standsAt j hq

/-! ## The way up -/

theorem parent_zero : t.parent 0 = none := by
  cases hp : t.parent 0 with
  | none => rfl
  | some p => exact absurd (lt_of_parent hp) (Nat.not_lt_zero p)

/-- The ancestors of a node are numbered downwards. -/
theorem pairwise_ancestors (t : Tree) (i : Nat) : (i :: t.ancestors i).Pairwise (· > ·) := by
  induction i using Nat.strongRecOn with
  | ind i ih =>
    refine List.Pairwise.cons (fun a ha => lt_of_mem_ancestors ha) ?_
    cases hp : t.parent i with
    | none =>
      rw [ancestors_of_parent_none hp]
      exact List.Pairwise.nil
    | some p =>
      rw [ancestors_of_parent hp]
      exact ih p (lt_of_parent hp)

/-- The way up from any other node ends at the root. -/
theorem getLast?_ancestors (ht : t.IsPreorder) (hpos : 0 < i) (hi : i < t.size) :
    (t.ancestors i).getLast? = some 0 := by
  induction i using Nat.strongRecOn with
  | ind i ih =>
    obtain ⟨p, hp⟩ := ht.exists_parent hpos hi
    rw [ancestors_of_parent hp]
    rcases Nat.eq_zero_or_pos p with rfl | hp0
    · rw [ancestors_of_parent_none parent_zero]
      rfl
    · have hlast := ih p (lt_of_parent hp) hp0 (parent_lt_size hp)
      rw [List.getLast?_cons, hlast]
      rfl

/-! ## The nearest ancestor -/

variable {r : Nat} {k : Kind}

theorem nearestAncestor_eq_none_iff :
    t.nearestAncestor i k = none ↔ ∀ a ∈ t.ancestors i, t.kind a ≠ k := by
  simp only [nearestAncestor, List.find?_eq_none, decide_eq_true_eq, ne_eq]

/-- Ancestors are searched from below, so all others of the kind are around the one found. -/
theorem under_of_nearestAncestor (h : t.nearestAncestor i k = some r) :
    r ∈ t.ancestors i ∧ t.kind r = k ∧ ∀ a ∈ t.ancestors i, t.kind a = k → t.Under a r := by
  have hr : r ∈ t.ancestors i := List.mem_of_find?_eq_some h
  obtain ⟨hk, below, above, hsplit, hbelow⟩ := List.find?_eq_some_iff_append.mp h
  refine ⟨hr, of_decide_eq_true hk, fun a ha hak => ?_⟩
  have hle : a ≤ r := by
    have hsorted : (t.ancestors i).Pairwise (· > ·) := (pairwise_ancestors t i).of_cons
    rw [hsplit] at ha hsorted
    rcases List.mem_append.mp ha with ha | ha
    · have hne := hbelow a ha
      simp [hak] at hne
    · rcases List.mem_cons.mp ha with rfl | ha
      · exact Nat.le_refl a
      · exact Nat.le_of_lt (List.rel_of_pairwise_cons (List.pairwise_append.mp hsorted).2.1 ha)
  rcases Under.total (mem_ancestors_iff.mp ha).1 (mem_ancestors_iff.mp hr).1 with hu | hu
  · exact hu
  · exact Or.inl (Nat.le_antisymm hu.le hle)

theorem nearestAncestor_eq_some_iff :
    t.nearestAncestor i k = some r ↔
      r ∈ t.ancestors i ∧ t.kind r = k ∧ ∀ a ∈ t.ancestors i, t.kind a = k → t.Under a r := by
  refine ⟨under_of_nearestAncestor, ?_⟩
  rintro ⟨hr, hk, hall⟩
  cases h : t.nearestAncestor i k with
  | none => exact absurd hk (nearestAncestor_eq_none_iff.mp h r hr)
  | some r' =>
    obtain ⟨hr', hk', hall'⟩ := under_of_nearestAncestor h
    exact congrArg some (Nat.le_antisymm (hall r' hr' hk').le (hall' r hr hk).le)

end Tree

end CallAtlas.Source
