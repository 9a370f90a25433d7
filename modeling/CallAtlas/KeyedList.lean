/-!
# Lists with keys

Two ways to put an element into a list whose elements have keys. An element takes the place of the
one with its key in both of them. If there is none, it goes to the end of the list, or, in a list
that is sorted by its keys, to where its key belongs.

## Main definitions

* `upsertBy`: puts an element in its place or at the end.
* `placeBy`: puts an element in its place in increasing order.

## Main results

* `map_upsertBy`, `nodup_map_upsertBy`, `find?_upsertBy`: the keys after the first, and what is
  found under them.
* `mem_map_placeBy`, `pairwise_map_placeBy`, `find?_placeBy`: the same for the second.
-/

namespace CallAtlas

/-! ### In order of arrival -/

section Upsert

variable {α κ : Type} [DecidableEq κ] {key : α → κ} {a : α} {xs : List α}

/-- Replaces the first element with the key of `a`, or appends `a`. -/
def upsertBy (key : α → κ) (a : α) : List α → List α
  | [] => [a]
  | x :: xs => if key x = key a then a :: xs else x :: upsertBy key a xs

theorem upsertBy_cons_of_eq {x : α} (h : key x = key a) : upsertBy key a (x :: xs) = a :: xs :=
  if_pos h

theorem upsertBy_cons_of_ne {x : α} (h : key x ≠ key a) :
    upsertBy key a (x :: xs) = x :: upsertBy key a xs :=
  if_neg h

/-- A key keeps its place, and a new key goes to the end. -/
theorem map_upsertBy (key : α → κ) (a : α) (xs : List α) :
    (upsertBy key a xs).map key =
      if key a ∈ xs.map key then xs.map key else xs.map key ++ [key a] := by
  induction xs with
  | nil => simp [upsertBy]
  | cons x xs ih =>
    by_cases hx : key x = key a
    · simp [upsertBy_cons_of_eq hx, hx]
    · by_cases ha : key a ∈ xs.map key
      · simp [upsertBy_cons_of_ne hx, ih, ha]
      · simp [upsertBy_cons_of_ne hx, ih, ha, Ne.symm hx]

theorem mem_map_upsertBy {k : κ} :
    k ∈ (upsertBy key a xs).map key ↔ k = key a ∨ k ∈ xs.map key := by
  rw [map_upsertBy]
  by_cases ha : key a ∈ xs.map key
  · rw [if_pos ha]
    exact ⟨Or.inr, fun hk => hk.elim (fun e => e ▸ ha) id⟩
  · rw [if_neg ha, List.mem_append, List.mem_singleton, or_comm]

theorem nodup_map_upsertBy (hxs : (xs.map key).Nodup) : ((upsertBy key a xs).map key).Nodup := by
  rw [map_upsertBy]
  by_cases ha : key a ∈ xs.map key
  · rwa [if_pos ha]
  · rw [if_neg ha]
    refine List.nodup_append.mpr ⟨hxs, List.pairwise_singleton _ _, ?_⟩
    rintro k hk k' hk' rfl
    exact ha (List.mem_singleton.mp hk' ▸ hk)

/-- The element is found under its key, and nothing changes under the others. -/
theorem find?_upsertBy (key : α → κ) (a : α) (xs : List α) (k : κ) :
    (upsertBy key a xs).find? (fun x => key x = k) =
      if k = key a then some a else xs.find? fun x => key x = k := by
  induction xs with
  | nil => by_cases hk : k = key a <;> simp [upsertBy, hk, eq_comm]
  | cons x xs ih =>
    by_cases hx : key x = key a
    · rw [upsertBy_cons_of_eq hx]
      by_cases hk : k = key a
      · simp [hk]
      · simp [hx, hk, Ne.symm hk]
    · rw [upsertBy_cons_of_ne hx, List.find?_cons, List.find?_cons, ih]
      by_cases hk : k = key a
      · simp [hk, hx]
      · simp [hk]

end Upsert

/-! ### In increasing order -/

section Place

variable {α : Type} {xs : List α}

/-- Puts `a` where its key belongs in a sorted list, replacing an element with the same key. -/
def placeBy (key : α → String) (a : α) : List α → List α
  | [] => [a]
  | x :: xs =>
    if key a < key x then a :: x :: xs
    else if key a = key x then a :: xs else x :: placeBy key a xs

theorem lt_of_not_lt_of_ne {x y : String} (h : ¬ x < y) (hne : x ≠ y) : y < x := by
  apply Classical.byContradiction
  intro h'
  exact hne (String.le_antisymm (String.not_lt.1 h') (String.not_lt.1 h))

/-- An element goes before another one, replaces it, or goes behind it. -/
theorem placeBy_cons_cases (key : α → String) (a x : α) (xs : List α) :
    (key a < key x ∧ placeBy key a (x :: xs) = a :: x :: xs) ∨
      (key a = key x ∧ placeBy key a (x :: xs) = a :: xs) ∨
      (key x < key a ∧ placeBy key a (x :: xs) = x :: placeBy key a xs) := by
  by_cases hlt : key a < key x
  · exact Or.inl ⟨hlt, if_pos hlt⟩
  by_cases heq : key a = key x
  · exact Or.inr (Or.inl ⟨heq, (if_neg hlt).trans (if_pos heq)⟩)
  · exact Or.inr (Or.inr
      ⟨lt_of_not_lt_of_ne hlt heq, (if_neg hlt).trans (if_neg heq)⟩)

theorem mem_map_placeBy (key : α → String) (a : α) {k : String} :
    k ∈ (placeBy key a xs).map key ↔ k = key a ∨ k ∈ xs.map key := by
  induction xs with
  | nil => simp [placeBy]
  | cons x xs ih =>
    obtain ⟨-, h⟩ | ⟨heq, h⟩ | ⟨-, h⟩ := placeBy_cons_cases key a x xs
    · rw [h, List.map_cons, List.mem_cons]
    · rw [h, List.map_cons, List.map_cons, List.mem_cons, List.mem_cons, heq, or_self_left]
    · rw [h, List.map_cons, List.map_cons, List.mem_cons, List.mem_cons, ih, or_left_comm]

/-- A sorted list stays sorted. -/
theorem pairwise_map_placeBy (key : α → String) (a : α) (h : (xs.map key).Pairwise (· < ·)) :
    ((placeBy key a xs).map key).Pairwise (· < ·) := by
  induction xs with
  | nil => exact List.pairwise_singleton _ _
  | cons x xs ih =>
    obtain ⟨hx, hxs⟩ := List.pairwise_cons.mp h
    obtain ⟨hlt, hplace⟩ | ⟨heq, hplace⟩ | ⟨hlt, hplace⟩ := placeBy_cons_cases key a x xs
    · rw [hplace]
      refine List.pairwise_cons.mpr ⟨fun k hk => ?_, h⟩
      rcases List.mem_cons.mp hk with rfl | hk
      · exact hlt
      · exact String.lt_trans hlt (hx k hk)
    · rw [hplace]
      exact List.pairwise_cons.mpr ⟨fun k hk => heq ▸ hx k hk, hxs⟩
    · rw [hplace]
      refine List.pairwise_cons.mpr ⟨fun k hk => ?_, ih hxs⟩
      rcases (mem_map_placeBy key a).mp hk with rfl | hk
      · exact hlt
      · exact hx k hk

theorem find?_placeBy (key : α → String) (a : α) (xs : List α) (k : String) :
    (placeBy key a xs).find? (fun x => key x = k) =
      if k = key a then some a else xs.find? fun x => key x = k := by
  induction xs with
  | nil => by_cases hk : k = key a <;> simp [placeBy, hk, eq_comm]
  | cons x xs ih =>
    obtain ⟨-, h⟩ | ⟨heq, h⟩ | ⟨hlt, h⟩ := placeBy_cons_cases key a x xs
    · rw [h]
      by_cases hk : k = key a
      · simp [hk]
      · rw [if_neg hk, List.find?_cons_of_neg (by simpa using Ne.symm hk)]
    · rw [h]
      by_cases hk : k = key a
      · simp [hk]
      · simp [hk, Ne.symm hk, ← heq]
    · rw [h, List.find?_cons, List.find?_cons, ih]
      by_cases hk : k = key a
      · simp [hk, String.ne_of_lt hlt]
      · simp [hk]

end Place

end CallAtlas
