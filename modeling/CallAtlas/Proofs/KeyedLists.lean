import CallAtlas.KeyedList
import Mathlib.Data.List.Induction
import Mathlib.Data.List.Nodup

/-!
# Unions of lists with keys

A registry lists records by name, and parameters are listed by key. Both take in a new element in
the same way, `upsertBy`: it replaces the first element with its key and stays in that place, or it
goes to the end.

Putting in the elements of a list one after the other is a kind of union, `upsertAllBy`. Its law is
`upsertAllBy_upsertBy`: to put in a list into which `a` has been put is to put in the list and then
`a`. Where `a` has replaced an element in the middle of the list, it has to be moved to the end past
elements with other keys, and it can be since its place is already taken. From the law it follows
that the union is associative and that the same list can be put in twice.

## Main definitions

* `upsertAllBy` — putting in several elements

## Main results

* `map_upsertAllBy` — keys stand in the order in which they come first
* `upsertAllBy_eq_append` — what is replaced and what is added
* `upsertAllBy_upsertBy` — the law
* `upsertAllBy_assoc`, `upsertAllBy_self` — what follows from it
-/

namespace CallAtlas

theorem eraseDups_concat {κ : Type} [BEq κ] [LawfulBEq κ] (ks : List κ) (k : κ) :
    (ks ++ [k]).eraseDups = if k ∈ ks then ks.eraseDups else ks.eraseDups ++ [k] := by
  rw [List.eraseDups_append]
  by_cases hk : k ∈ ks
  · simp [List.removeAll, hk]
  · simp [List.removeAll, hk, List.eraseDups_cons]

theorem nodup_eraseDups {κ : Type} [BEq κ] [LawfulBEq κ] (ks : List κ) : ks.eraseDups.Nodup := by
  induction ks using List.reverseRecOn with
  | nil => exact List.nodup_nil
  | append_singleton ks k ih =>
    rw [eraseDups_concat]
    by_cases hk : k ∈ ks
    · rwa [if_pos hk]
    · rw [if_neg hk]
      refine List.nodup_append.mpr ⟨ih, List.nodup_singleton k, ?_⟩
      rintro a ha b hb rfl
      exact hk (List.mem_singleton.mp hb ▸ List.mem_eraseDups.mp ha)

section

variable {α β κ : Type} [DecidableEq κ] {key : α → κ} {a b : α} {xs ys as : List α}

/-! ## One element -/

/-- An element that is there already can be put in without an effect. -/
theorem upsertBy_eq_self (hxs : (xs.map key).Nodup) (ha : a ∈ xs) : upsertBy key a xs = xs := by
  induction xs with
  | nil => cases ha
  | cons x xs ih =>
    obtain ⟨hx, hxs'⟩ := List.nodup_cons.mp hxs
    rcases List.mem_cons.mp ha with rfl | ha
    · exact upsertBy_cons_of_eq rfl
    · have hne : key x ≠ key a := fun h => hx (h ▸ List.mem_map_of_mem ha)
      rw [upsertBy_cons_of_ne hne, ih hxs' ha]

/-- A change of elements that keeps their keys can be made before or after one is put in. -/
theorem upsertBy_map (key : β → κ) (f : α → β) (a : α) (xs : List α) :
    upsertBy key (f a) (xs.map f) = (upsertBy (key ∘ f) a xs).map f := by
  induction xs with
  | nil => rfl
  | cons x xs ih =>
    by_cases hx : key (f x) = key (f a)
    · simp [upsertBy, hx]
    · simp [upsertBy, hx, ih]

/-- An element replaces the one with its key and moves nothing, or goes to the end. -/
theorem upsertBy_eq_append (hxs : (xs.map key).Nodup) (a : α) :
    upsertBy key a xs = xs.map (fun x => if key x = key a then a else x) ++
      if key a ∈ xs.map key then [] else [a] := by
  induction xs with
  | nil => rfl
  | cons x xs ih =>
    obtain ⟨hx, hxs'⟩ := List.nodup_cons.mp hxs
    by_cases hxa : key x = key a
    · have hrest : xs.map (fun x => if key x = key a then a else x) = xs := by
        refine (List.map_congr_left fun y hy => if_neg fun hya => hx ?_).trans (List.map_id' xs)
        exact List.mem_map.mpr ⟨y, hy, hya.trans hxa.symm⟩
      simp [upsertBy_cons_of_eq hxa, hxa, hrest]
    · simp [upsertBy_cons_of_ne hxa, hxa, Ne.symm hxa, ih hxs']

/-- Of two elements with one key only the second counts. -/
theorem upsertBy_upsertBy_of_eq (hba : key b = key a) (xs : List α) :
    upsertBy key a (upsertBy key b xs) = upsertBy key a xs := by
  induction xs with
  | nil => simp [upsertBy, hba]
  | cons x xs ih =>
    by_cases hx : key x = key a
    · simp [upsertBy, hba, hx]
    · have hb : key x ≠ key b := hba ▸ hx
      simp [upsertBy, hb, hx, ih]

/-- An element whose place is taken can be put in before another one or after it. -/
theorem upsertBy_comm (hba : key b ≠ key a) (ha : key a ∈ xs.map key) :
    upsertBy key a (upsertBy key b xs) = upsertBy key b (upsertBy key a xs) := by
  induction xs with
  | nil => cases ha
  | cons x xs ih =>
    by_cases hxa : key x = key a
    · simp [upsertBy, hxa, hba.symm]
    · have ha' : key a ∈ xs.map key := (List.mem_cons.mp ha).resolve_left (Ne.symm hxa)
      by_cases hxb : key x = key b
      · simp [upsertBy, hxb, hba]
      · simp [upsertBy, hxb, hxa, ih ha']

/-! ## Several elements -/

/-- Puts elements in one after the other. -/
def upsertAllBy (key : α → κ) (xs as : List α) : List α :=
  as.foldl (fun xs a => upsertBy key a xs) xs

theorem upsertAllBy_cons (xs : List α) (a : α) (as : List α) :
    upsertAllBy key xs (a :: as) = upsertAllBy key (upsertBy key a xs) as :=
  rfl

theorem upsertAllBy_concat (xs as : List α) (a : α) :
    upsertAllBy key xs (as ++ [a]) = upsertBy key a (upsertAllBy key xs as) :=
  List.foldl_append

theorem nodup_map_upsertAllBy (hxs : (xs.map key).Nodup) (as : List α) :
    ((upsertAllBy key xs as).map key).Nodup := by
  induction as generalizing xs with
  | nil => exact hxs
  | cons a as ih => exact ih (nodup_map_upsertBy hxs)

/-- **Keys stand in the order in which they come first.** -/
theorem map_upsertAllBy [BEq κ] [LawfulBEq κ] (key : α → κ) (xs as : List α) :
    (upsertAllBy key xs as).map key =
      xs.map key ++ (as.map key).eraseDups.filter (· ∉ xs.map key) := by
  induction as using List.reverseRecOn with
  | nil => simp [upsertAllBy]
  | append_singleton as a ih =>
    rw [upsertAllBy_concat, map_upsertBy, ih, List.map_append, List.map_singleton,
      eraseDups_concat]
    generalize xs.map key = ks, as.map key = ls, key a = k
    by_cases hks : k ∈ ks <;> by_cases hls : k ∈ ls <;> simp [hks, hls]

/-- **Elements with distinct keys replace those with their keys and move nothing**; the others go to
the end, in their order. -/
theorem upsertAllBy_eq_append (hxs : (xs.map key).Nodup) (has : (as.map key).Nodup) :
    upsertAllBy key xs as = xs.map (fun x => (as.find? fun a => key a = key x).getD x) ++
      as.filter fun a => key a ∉ xs.map key := by
  induction as generalizing xs with
  | nil => simp [upsertAllBy]
  | cons a as ih =>
    obtain ⟨ha, has'⟩ := List.nodup_cons.mp has
    have hnone : as.find? (fun b => key b = key a) = none := by
      refine List.find?_eq_none.mpr fun b hb hba => ha ?_
      exact List.mem_map.mpr ⟨b, hb, of_decide_eq_true hba⟩
    rw [upsertAllBy_cons, ih (nodup_map_upsertBy hxs) has', map_upsertBy, upsertBy_eq_append hxs]
    by_cases hmem : key a ∈ xs.map key
    · rw [if_pos hmem, if_pos hmem, List.append_nil, List.map_map,
        List.filter_cons_of_neg (by simpa using hmem)]
      congr 1
      refine List.map_congr_left fun x _ => ?_
      by_cases hxa : key x = key a
      · simp [hxa, hnone]
      · simp [hxa, Ne.symm hxa]
    · have hne : ∀ b ∈ as, key b ≠ key a := fun b hb hba => ha (hba ▸ List.mem_map_of_mem hb)
      have hxa : ∀ x ∈ xs, key x ≠ key a := fun x hx hxa => hmem (hxa ▸ List.mem_map_of_mem hx)
      have hsame : xs.map (fun x => if key x = key a then a else x) = xs :=
        (List.map_congr_left fun x hx => if_neg (hxa x hx)).trans (List.map_id' xs)
      have hold : xs.map (fun x => (as.find? fun b => key b = key x).getD x) =
          xs.map fun x => ((a :: as).find? fun b => key b = key x).getD x := by
        refine List.map_congr_left fun x hx => ?_
        rw [List.find?_cons_of_neg (by simpa using (hxa x hx).symm)]
      have hnew : as.filter (fun b => key b ∉ xs.map key ++ [key a]) =
          as.filter fun b => key b ∉ xs.map key := by
        refine List.filter_congr fun b hb => ?_
        simp [hne b hb]
      rw [if_neg hmem, if_neg hmem, hsame, List.map_append, hold, hnew, List.map_singleton, hnone,
        Option.getD_none, List.filter_cons_of_pos (by simpa using hmem), List.append_assoc,
        List.singleton_append]

/-- An element whose place is taken can be put in before all others with other keys. -/
theorem upsertBy_upsertAllBy (ha : key a ∈ xs.map key) (has : key a ∉ as.map key) :
    upsertBy key a (upsertAllBy key xs as) = upsertAllBy key (upsertBy key a xs) as := by
  induction as generalizing xs with
  | nil => rfl
  | cons b as ih =>
    obtain ⟨hb, has'⟩ := not_or.mp (List.mem_cons.not.mp has)
    calc upsertBy key a (upsertAllBy key (upsertBy key b xs) as)
      _ = upsertAllBy key (upsertBy key a (upsertBy key b xs)) as :=
        ih (mem_map_upsertBy.mpr (Or.inr ha)) has'
      _ = upsertAllBy key (upsertBy key b (upsertBy key a xs)) as := by
        rw [upsertBy_comm (Ne.symm hb) ha]

/-- **To put in a list into which an element has been put is to put in the list and then the
element.** -/
theorem upsertAllBy_upsertBy (hys : (ys.map key).Nodup) (xs : List α) (a : α) :
    upsertAllBy key xs (upsertBy key a ys) = upsertBy key a (upsertAllBy key xs ys) := by
  induction ys generalizing xs with
  | nil => rfl
  | cons y ys ih =>
    obtain ⟨hy, hys'⟩ := List.nodup_cons.mp hys
    by_cases hya : key y = key a
    · -- The element has replaced `y`, and no other element of the list has its key.
      have hplace : key a ∈ (upsertBy key y xs).map key := mem_map_upsertBy.mpr (Or.inl hya.symm)
      rw [upsertBy_cons_of_eq hya, upsertAllBy_cons, upsertAllBy_cons,
        upsertBy_upsertAllBy hplace (hya ▸ hy), upsertBy_upsertBy_of_eq hya]
    · rw [upsertBy_cons_of_ne hya, upsertAllBy_cons, ih hys', upsertAllBy_cons]

/-- The union is associative. -/
theorem upsertAllBy_assoc (hys : (ys.map key).Nodup) (xs as : List α) :
    upsertAllBy key (upsertAllBy key xs ys) as = upsertAllBy key xs (upsertAllBy key ys as) := by
  induction as using List.reverseRecOn with
  | nil => rfl
  | append_singleton as a ih =>
    rw [upsertAllBy_concat, upsertAllBy_concat, upsertAllBy_upsertBy (nodup_map_upsertAllBy hys as),
      ih]

/-- To put in the outcome of putting elements into an empty list is to put in the elements. -/
theorem upsertAllBy_nil (xs as : List α) :
    upsertAllBy key xs (upsertAllBy key [] as) = upsertAllBy key xs as :=
  (upsertAllBy_assoc (by simp) xs as).symm

/-- Elements that are there already can be put in without an effect. -/
theorem upsertAllBy_eq_self (hxs : (xs.map key).Nodup) (has : ∀ a ∈ as, a ∈ xs) :
    upsertAllBy key xs as = xs := by
  induction as with
  | nil => rfl
  | cons a as ih =>
    rw [upsertAllBy_cons, upsertBy_eq_self hxs (has a List.mem_cons_self)]
    exact ih fun b hb => has b (List.mem_cons_of_mem a hb)

/-- To put in the same elements twice is to put them in once. -/
theorem upsertAllBy_self (xs as : List α) :
    upsertAllBy key (upsertAllBy key xs as) as = upsertAllBy key xs as := by
  -- Only the last element of each key counts, so the keys can be taken to be distinct.
  have hnodup : ((upsertAllBy key [] as).map key).Nodup :=
    nodup_map_upsertAllBy (by simp) as
  rw [← upsertAllBy_nil xs as, ← upsertAllBy_nil (upsertAllBy key xs _) as,
    upsertAllBy_assoc hnodup, upsertAllBy_eq_self hnodup fun a ha => ha]

end

end CallAtlas
