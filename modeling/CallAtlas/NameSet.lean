import CallAtlas.KeyedList

/-!
# Sets of names

A set of names is its increasing list of members, so two sets with the same members are equal and
the members come in the order of their code points.

## Main definitions

* `NameSet`: a set of names.
* `NameSet.insert`, `NameSet.ofList`, `NameSet.union`, `NameSet.filter`, `NameSet.contains`.

## Main results

* `NameSet.mem_insert`, `NameSet.mem_ofList`, `NameSet.mem_union`, `NameSet.mem_filter`: what the
  members are.
* `NameSet.ext`: a set is determined by its members.
-/

namespace CallAtlas

/-- A finite set of names. -/
structure NameSet where
  /-- The members, in increasing order. -/
  toList : List String
  increasing : toList.Pairwise (· < ·)
deriving DecidableEq

namespace NameSet

instance : Membership String NameSet := ⟨fun s x => x ∈ s.toList⟩

theorem increasing_nil : ([] : List String).Pairwise (· < ·) := List.Pairwise.nil

instance : EmptyCollection NameSet := ⟨⟨[], increasing_nil⟩⟩

instance : Inhabited NameSet := ⟨∅⟩

/-- Whether the name is a member. -/
def contains (s : NameSet) (x : String) : Bool :=
  s.toList.contains x

theorem increasing_placeBy {x : String} {xs : List String} (h : xs.Pairwise (· < ·)) :
    (placeBy id x xs).Pairwise (· < ·) := by
  simpa using pairwise_map_placeBy id x (by simpa using h)

/-- Adds a name. -/
def insert (s : NameSet) (x : String) : NameSet :=
  ⟨placeBy id x s.toList, increasing_placeBy s.increasing⟩

/-- Adds every name of a list. -/
def insertAll (s : NameSet) (xs : List String) : NameSet :=
  xs.foldl insert s

/-- The set of the names in a list. -/
def ofList (xs : List String) : NameSet :=
  insertAll ∅ xs

/-- The names in either set. -/
def union (s t : NameSet) : NameSet :=
  s.insertAll t.toList

/-- The members that satisfy a condition. -/
def filter (p : String → Bool) (s : NameSet) : NameSet :=
  ⟨s.toList.filter p, s.increasing.filter p⟩

/-- Whether there are no members. -/
def isEmpty (s : NameSet) : Bool :=
  s.toList.isEmpty

/-! ### Membership -/

@[simp] theorem mem_toList {s : NameSet} {x : String} : x ∈ s.toList ↔ x ∈ s := Iff.rfl

@[simp] theorem not_mem_empty (x : String) : x ∉ (∅ : NameSet) := List.not_mem_nil

@[simp] theorem contains_iff {s : NameSet} {x : String} : s.contains x = true ↔ x ∈ s := by
  simp [contains]

@[simp] theorem mem_insert {s : NameSet} {x y : String} : y ∈ s.insert x ↔ y = x ∨ y ∈ s := by
  have hplace : y ∈ (placeBy id x s.toList).map id ↔ y = x ∨ y ∈ s.toList.map id :=
    mem_map_placeBy id x
  rwa [List.map_id, List.map_id] at hplace

@[simp] theorem mem_insertAll {s : NameSet} {xs : List String} {y : String} :
    y ∈ s.insertAll xs ↔ y ∈ xs ∨ y ∈ s := by
  induction xs generalizing s with
  | nil => simp [insertAll]
  | cons x xs ih =>
    have h : s.insertAll (x :: xs) = (s.insert x).insertAll xs := rfl
    rw [h, ih, mem_insert, List.mem_cons]
    grind

@[simp] theorem mem_ofList {xs : List String} {y : String} : y ∈ ofList xs ↔ y ∈ xs := by
  simp [ofList]

@[simp] theorem mem_union {s t : NameSet} {y : String} : y ∈ s.union t ↔ y ∈ s ∨ y ∈ t := by
  simp [union, or_comm]

@[simp] theorem mem_filter {p : String → Bool} {s : NameSet} {y : String} :
    y ∈ s.filter p ↔ y ∈ s ∧ p y = true :=
  List.mem_filter

/-- A set is determined by its members. -/
@[ext] theorem ext {s t : NameSet} (h : ∀ x, x ∈ s ↔ x ∈ t) : s = t := by
  have hperm : s.toList.Perm t.toList :=
    (List.perm_ext_iff_of_nodup (s.increasing.imp String.ne_of_lt)
      (t.increasing.imp String.ne_of_lt)).mpr h
  have hlist : s.toList = t.toList :=
    hperm.eq_of_pairwise (fun _ _ _ _ hxy hyx => absurd hyx (String.lt_asymm hxy)) s.increasing
      t.increasing
  cases s
  cases t
  cases hlist
  rfl

end NameSet

end CallAtlas
