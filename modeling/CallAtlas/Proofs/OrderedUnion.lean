import CallAtlas.Proofs.DefaultsFirst

/-!
# Merged parameters are an ordered union

A merge sets the overrides one after the other, each by a search through the list. Where a parameter
stands and what value it has come from different entries: the place is that of the first entry with
its key, in the base or else among the overrides, and the value is that of the last one. Together
the two determine the list, so that the merge is *the* ordered union of base and overrides.

## Main definitions

* `Parameters.keys`, `Parameters.lastValue?` — parameters as a dictionary
* `Parameters.IsUnionOf` — the contract of a merge

## Main results

* `Parameters.eq_of_keys_of_lastValue?` — keys in order and their values determine a list
* `Parameters.mergedWith_assoc`, `Parameters.mergedWith_self` — the laws of merging
* `Parameters.isUnionOf_mergedWith` — the contract holds of the merge and of nothing else
-/

namespace CallAtlas.Parameters

open Parameter (last? valueAt?)

variable {a b : Parameters} {es fs us : List Parameter} {key : Parameter.Key}

/-! ## Parameters as a dictionary -/

/-- The keys, in the order of the entries. -/
def keys (ps : Parameters) : List Parameter.Key :=
  ps.entries.map Parameter.key

/-- The value in the last entry with a key. -/
def lastValue? (ps : Parameters) (key : Parameter.Key) : Option Parameter.Value :=
  last? ps.entries (valueAt? key)

theorem last?_valueAt?_of_notMem (hkey : key ∉ es.map Parameter.key) :
    last? es (valueAt? key) = none := by
  refine Parameter.last?_eq_none_iff.mpr fun p hp => if_neg fun h => hkey ?_
  exact h ▸ List.mem_map_of_mem hp

theorem eq_of_map_key_of_last? (hkeys : es.map Parameter.key = fs.map Parameter.key)
    (hnodup : (es.map Parameter.key).Nodup)
    (hlast : ∀ key, last? es (valueAt? key) = last? fs (valueAt? key)) : es = fs := by
  induction es generalizing fs with
  | nil => exact (List.map_eq_nil_iff.mp hkeys.symm).symm
  | cons e es ih =>
    obtain ⟨f, fs, rfl, hkey, hrest⟩ := List.map_eq_cons_iff.mp hkeys.symm
    obtain ⟨he, hes⟩ := List.nodup_cons.mp hnodup
    have hf : e.key ∉ fs.map Parameter.key := hrest ▸ he
    have hvalue : e.value = f.value := by
      have h := hlast e.key
      rw [Parameter.last?_cons, Parameter.last?_cons, last?_valueAt?_of_notMem he,
        last?_valueAt?_of_notMem hf, Option.none_or, Option.none_or, valueAt?, valueAt?,
        if_pos rfl, if_pos hkey] at h
      exact Option.some.inj h
    have htail : es = fs := by
      refine ih hrest.symm hes fun key => ?_
      by_cases hk : e.key = key
      · rw [← hk, last?_valueAt?_of_notMem he, last?_valueAt?_of_notMem hf]
      · have h := hlast key
        have hfk : f.key ≠ key := hkey ▸ hk
        rwa [Parameter.last?_cons, Parameter.last?_cons, valueAt?, valueAt?, if_neg hk, if_neg hfk,
          Option.or_none, Option.or_none] at h
    cases e
    cases f
    cases hkey
    cases hvalue
    rw [htail]

theorem eq_of_entries_eq (h : a.entries = b.entries) : a = b := by
  cases a
  cases b
  exact congrArg mk h

/-- Distinct keys in their order, together with their values, determine a list of parameters. -/
theorem eq_of_keys_of_lastValue? (hkeys : a.keys = b.keys) (hnodup : a.keys.Nodup)
    (hlast : ∀ key, a.lastValue? key = b.lastValue? key) : a = b :=
  eq_of_entries_eq (eq_of_map_key_of_last? hkeys hnodup hlast)

/-! ## Merging -/

theorem entries_mergedWith_eq_upsertAllBy (a b : Parameters) :
    (a.mergedWith b).entries = upsertAllBy Parameter.key a.entries b.entries := by
  simp only [entries_mergedWith, setEntry_eq_upsertBy, upsertAllBy]

theorem keys_mergedWith (a b : Parameters) :
    (a.mergedWith b).keys = a.keys ++ b.keys.eraseDups.filter (· ∉ a.keys) := by
  rw [keys, entries_mergedWith_eq_upsertAllBy, map_upsertAllBy]
  rfl

theorem nodup_keys_mergedWith (ha : a.keys.Nodup) (b : Parameters) :
    (a.mergedWith b).keys.Nodup := by
  rw [keys, entries_mergedWith_eq_upsertAllBy]
  exact nodup_map_upsertAllBy ha b.entries

/-- The values of a key can be set any number of times, since it is found by its key alone. -/
theorem last?_foldl_setEntry_valueAt? (hes : (es.map Parameter.key).Nodup) :
    last? (us.foldl (fun es p => setEntry p es) es) (valueAt? key) =
      (last? us (valueAt? key)).or (last? es (valueAt? key)) := by
  induction us generalizing es with
  | nil => rfl
  | cons p us ih =>
    rw [List.foldl_cons, ih (nodup_setEntry hes),
      last?_setEntry hes fun _ => Parameter.movable_valueAt? key p.key, Parameter.last?_cons,
      Option.or_assoc]

theorem lastValue?_mergedWith (ha : a.keys.Nodup) (b : Parameters) (key : Parameter.Key) :
    (a.mergedWith b).lastValue? key = (b.lastValue? key).or (a.lastValue? key) := by
  rw [lastValue?, entries_mergedWith]
  exact last?_foldl_setEntry_valueAt? ha

theorem mergedWith_assoc (hb : b.keys.Nodup) (a c : Parameters) :
    (a.mergedWith b).mergedWith c = a.mergedWith (b.mergedWith c) := by
  apply eq_of_entries_eq
  simp only [entries_mergedWith_eq_upsertAllBy]
  exact upsertAllBy_assoc hb a.entries c.entries

theorem mergedWith_self (a b : Parameters) : (a.mergedWith b).mergedWith b = a.mergedWith b := by
  apply eq_of_entries_eq
  simp only [entries_mergedWith_eq_upsertAllBy]
  exact upsertAllBy_self a.entries b.entries

/-! ## The union -/

/-- `m` is the union of `a` and `b` as ordered dictionaries, in which `b` wins. -/
structure IsUnionOf (m a b : Parameters) : Prop where
  nodup_keys : m.keys.Nodup
  /-- The keys of `a` stand first, then the others of `b` in the order in which they come first. -/
  keys_eq : m.keys = a.keys ++ b.keys.eraseDups.filter (· ∉ a.keys)
  /-- A key has its last value in `b`, or else its value in `a`. -/
  lastValue?_eq : ∀ key, m.lastValue? key = (b.lastValue? key).or (a.lastValue? key)

/-- **Merging is an ordered union.** Over a base without repeated keys, the merge is the one list
that is the union of base and overrides. Merging is associative, if the keys of the list in the
middle are not repeated either, and to merge the same overrides again changes nothing. -/
theorem isUnionOf_mergedWith (ha : a.keys.Nodup) (b : Parameters) :
    (∀ m : Parameters, m.IsUnionOf a b ↔ m = a.mergedWith b) ∧
      (b.keys.Nodup →
        ∀ c, (a.mergedWith b).mergedWith c = a.mergedWith (b.mergedWith c)) ∧
      (a.mergedWith b).mergedWith b = a.mergedWith b := by
  refine ⟨fun m => ⟨fun hm => ?_, ?_⟩, fun hb c => mergedWith_assoc hb a c, mergedWith_self a b⟩
  · refine eq_of_keys_of_lastValue? ?_ hm.nodup_keys fun key => ?_
    · rw [hm.keys_eq, keys_mergedWith]
    · rw [hm.lastValue?_eq, lastValue?_mergedWith ha]
  · rintro rfl
    exact ⟨nodup_keys_mergedWith ha b, keys_mergedWith a b, lastValue?_mergedWith ha b⟩

/-- Overrides that set a default and a new key twice. -/
def wavering : Parameters where
  entries := [
    ⟨["edge", "color"], .text "gray"⟩,
    ⟨["node", "fontsize"], .integer 9⟩,
    ⟨["edge", "color"], .text "black"⟩,
    ⟨["node", "fontsize"], .integer 11⟩]

theorem isUnionOf_mergedWith_wavering :
    defaults.keys.Nodup ∧ ¬ wavering.keys.Nodup ∧
      (defaults.mergedWith wavering).IsUnionOf defaults wavering ∧
      (defaults.mergedWith wavering).keys = defaults.keys ++ [["edge", "color"]] ∧
      (defaults.mergedWith wavering).lastValue? ["node", "fontsize"] = some (.integer 11) ∧
      Drawing.restyled.keys.Nodup ∧
      (defaults.mergedWith Drawing.restyled).mergedWith wavering =
        defaults.mergedWith (Drawing.restyled.mergedWith wavering) := by
  have hdefaults : defaults.keys.Nodup := by decide
  have hrestyled : Drawing.restyled.keys.Nodup := by decide
  have hunion : (defaults.mergedWith wavering).IsUnionOf defaults wavering :=
    ((isUnionOf_mergedWith hdefaults wavering).1 _).mpr rfl
  refine ⟨hdefaults, by decide, hunion, hunion.keys_eq, ?_, hrestyled, ?_⟩
  · rw [hunion.lastValue?_eq]
    rfl
  · exact (isUnionOf_mergedWith hdefaults Drawing.restyled).2.1 hrestyled wavering

end CallAtlas.Parameters
