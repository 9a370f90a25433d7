import CallAtlas.KeyedList

/-!
# Maps from names

A map is the list of its entries by increasing name, so that its text forms come out sorted.

## Main definitions

* `NameMap`: a finite map from names.
* `NameMap.find?`, `NameMap.insert`, `NameMap.erase`, `NameMap.ofList`.

## Main results

* `NameMap.find?_insert`, `NameMap.find?_erase`: reading after writing.
* `NameMap.ext`: a map is determined by what is read from it.
-/

namespace CallAtlas

/-- A finite map from names to values. -/
structure NameMap (α : Type) where
  /-- The entries, by increasing name. -/
  entries : List (String × α)
  increasing : (entries.map Prod.fst).Pairwise (· < ·)

namespace NameMap

variable {α : Type}

theorem increasing_keys_nil : (([] : List (String × α)).map Prod.fst).Pairwise (· < ·) :=
  List.Pairwise.nil

instance : EmptyCollection (NameMap α) := ⟨⟨[], increasing_keys_nil⟩⟩

instance : Inhabited (NameMap α) := ⟨∅⟩

/-- The value under a name. -/
def find? (m : NameMap α) (x : String) : Option α :=
  (m.entries.find? fun e => e.1 = x).map Prod.snd

/-- Sets the value under a name. -/
def insert (m : NameMap α) (x : String) (a : α) : NameMap α :=
  ⟨placeBy Prod.fst (x, a) m.entries, pairwise_map_placeBy _ _ m.increasing⟩

theorem pairwise_erase {x : String} {es : List (String × α)}
    (h : (es.map Prod.fst).Pairwise (· < ·)) :
    ((es.filter fun e => e.1 ≠ x).map Prod.fst).Pairwise (· < ·) :=
  h.sublist (List.filter_sublist.map Prod.fst)

/-- Takes the entry of a name out. -/
def erase (m : NameMap α) (x : String) : NameMap α :=
  ⟨m.entries.filter fun e => e.1 ≠ x, pairwise_erase m.increasing⟩

/-- The map with the given entries; a later entry replaces an earlier one of the same name. -/
def ofList (es : List (String × α)) : NameMap α :=
  es.foldl (fun m e => m.insert e.1 e.2) ∅

/-- Whether there are no entries. -/
def isEmpty (m : NameMap α) : Bool :=
  m.entries.isEmpty

@[simp] theorem find?_empty (x : String) : (∅ : NameMap α).find? x = none := rfl

@[simp] theorem find?_insert (m : NameMap α) (x y : String) (a : α) :
    (m.insert x a).find? y = if y = x then some a else m.find? y := by
  rw [insert, find?, find?, find?_placeBy]
  by_cases hyx : y = x
  · simp [hyx]
  · simp [hyx]

@[simp] theorem find?_erase (m : NameMap α) (x y : String) :
    (m.erase x).find? y = if y = x then none else m.find? y := by
  rw [erase, find?, find?, List.find?_filter]
  by_cases hyx : y = x
  · rw [if_pos hyx, List.find?_eq_none.2 fun e _ => by simp [hyx]]
    rfl
  · rw [if_neg hyx]
    congr 2
    funext e
    by_cases he : e.1 = y <;> simp [he, hyx]

/-! ### Entries -/

variable {m m' : NameMap α}

theorem pairwise_entries (m : NameMap α) : m.entries.Pairwise fun e f => e.1 < f.1 :=
  List.pairwise_map.mp m.increasing

theorem find?_eq_some_iff {x : String} {a : α} : m.find? x = some a ↔ (x, a) ∈ m.entries := by
  rw [find?, Option.map_eq_some_iff]
  constructor
  · rintro ⟨e, he, rfl⟩
    have hkey : e.1 = x := by simpa using List.find?_some he
    exact hkey ▸ List.mem_of_find?_eq_some he
  · intro h
    obtain ⟨before, after, hentries⟩ := List.append_of_mem h
    have hbefore : ∀ e ∈ before, ¬ e.1 = x := by
      intro e he hkey
      have hpairwise := m.pairwise_entries
      rw [hentries, List.pairwise_append] at hpairwise
      exact String.ne_of_lt (hpairwise.2.2 e he (x, a) List.mem_cons_self) hkey
    refine ⟨(x, a), ?_, rfl⟩
    rw [hentries, List.find?_append, List.find?_eq_none.mpr (by simpa using hbefore)]
    simp

/-- A map is determined by the values under its names. -/
@[ext] theorem ext (h : ∀ x, m.find? x = m'.find? x) : m = m' := by
  have hperm : m.entries.Perm m'.entries := by
    refine (List.perm_ext_iff_of_nodup ?_ ?_).mpr fun e => ?_
    · exact m.pairwise_entries.imp fun he hef => String.ne_of_lt he (congrArg Prod.fst hef)
    · exact m'.pairwise_entries.imp fun he hef => String.ne_of_lt he (congrArg Prod.fst hef)
    · rw [← find?_eq_some_iff, ← find?_eq_some_iff, h]
  have hentries : m.entries = m'.entries :=
    hperm.eq_of_pairwise (fun e f _ _ hef hfe => absurd hfe (String.lt_asymm hef))
      m.pairwise_entries m'.pairwise_entries
  cases m
  cases m'
  cases hentries
  rfl

end NameMap

end CallAtlas
