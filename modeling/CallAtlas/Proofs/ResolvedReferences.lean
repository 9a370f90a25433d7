import CallAtlas.Proofs.DefinitionOrder

/-!
# References in a finished registry

A finished registry has been through two passes. Resolution tells the ambiguous references of each
record apart: those to functions join the calls, and what is not called at all is an access to an
array. Aggregation then gives every interface the calls of its members, and so replaces one side of
what resolution has told apart.

It does no harm, because the two passes are about different records: the record of an interface
statement has no ambiguous references. That is a fact about how records are made, so it is carried
from the definitions of the corpus through both passes.

A record is resolved exactly if resolving it changes nothing, and no pass changes which names are
functions. A finished registry is therefore a fixed point of resolution.

## Main definitions

* `Callable.IsResolved` — what resolution establishes for one record
* `Registry.TellsApart` — the contract of a record in a finished registry

## Main results

* `Callable.resolve_eq_self_iff` — resolved records are the fixed points
* `Registry.entries_finalize`, `Registry.functionNames_finalize` — the two passes
* `Registry.isResolved_of_finalize` — both passes leave every record resolved
* `Analysis.tellsApart_ofTrees` — the contract holds
-/

namespace CallAtlas

open Source (Document Tree)

/-! ## One record -/

namespace Callable

variable {c : Callable} {functions : NameSet} {x : String}

/-- The ambiguous references of `c` are told apart, given the names of all functions. -/
structure IsResolved (c : Callable) (functions : NameSet) : Prop where
  /-- Accesses to arrays are the ambiguous references that are no calls. -/
  mem_arrayAccesses : ∀ x, x ∈ c.arrayAccesses ↔ x ∈ c.ambiguous ∧ x ∉ c.calls
  /-- Ambiguous references to functions are calls. -/
  mem_calls : ∀ x ∈ c.ambiguous, x ∈ functions → x ∈ c.calls

theorem mem_arrayAccesses_resolve :
    x ∈ (c.resolve functions).arrayAccesses ↔
      x ∈ c.ambiguous ∧ x ∉ (c.resolve functions).calls := by
  show x ∈ resolvedArrays c.ambiguous (c.resolve functions).calls ↔ _
  rw [resolvedArrays, NameSet.mem_filter, Bool.not_eq_true', ← Bool.not_eq_true,
    NameSet.contains_iff]

theorem isResolved_resolve (c : Callable) (functions : NameSet) :
    (c.resolve functions).IsResolved functions where
  mem_arrayAccesses _ := mem_arrayAccesses_resolve
  mem_calls _ hx hf := Registry.mem_calls_resolve.mpr (Or.inr ⟨hx, hf⟩)

/-- A record is resolved exactly if resolving it changes nothing. -/
theorem resolve_eq_self_iff : c.resolve functions = c ↔ c.IsResolved functions := by
  constructor
  · intro h
    rw [← h]
    exact isResolved_resolve c functions
  · intro hc
    have hcalls : (c.resolve functions).calls = c.calls := by
      ext x
      rw [Registry.mem_calls_resolve, or_iff_left_iff_imp]
      exact fun hx => hc.mem_calls x hx.1 hx.2
    have harrays : (c.resolve functions).arrayAccesses = c.arrayAccesses := by
      ext x
      rw [mem_arrayAccesses_resolve, hcalls, hc.mem_arrayAccesses]
    calc c.resolve functions
      _ = { c with
            calls := (c.resolve functions).calls
            arrayAccesses := (c.resolve functions).arrayAccesses } := rfl
      _ = c := by rw [hcalls, harrays]

/-- A record without ambiguous references stays resolved when its calls are replaced. -/
theorem isResolved_absorb (hc : c.IsResolved functions) (hambiguous : c.ambiguous = ∅)
    (members : List Callable) : (c.absorb members).IsResolved functions := by
  have hnone : ∀ x, x ∉ (c.absorb members).ambiguous := by
    intro x hx
    have hx' : x ∈ c.ambiguous := hx
    rw [hambiguous] at hx'
    exact NameSet.not_mem_empty x hx'
  have harrays : ∀ x, x ∉ (c.absorb members).arrayAccesses := by
    intro x hx
    exact hnone x ((hc.mem_arrayAccesses x).mp hx).1
  exact ⟨fun x => iff_of_false (harrays x) fun hx => hnone x hx.1,
    fun x hx => absurd hx (hnone x)⟩

end Callable

/-! ## The two passes -/

namespace Registry

variable {r s : Registry} {c : Callable} {f : Callable → Callable} {functions : NameSet}

/-- A pass that changes no record changes nothing. -/
theorem mapEntries_eq_self {hf : ∀ c, (f c).name = c.name} (h : ∀ c ∈ r.entries, f c = c) :
    r.mapEntries f hf = r := by
  have hentries : r.entries.map f = r.entries :=
    (List.map_congr_left h).trans (List.map_id' r.entries)
  cases r with
  | mk entries diagnostics nodup =>
    simp only [mapEntries] at hentries ⊢
    congr 1

theorem functionNames_mapEntries {hf : ∀ c, (f c).name = c.name}
    (hkind : ∀ c, (f c).kind = c.kind) :
    (r.mapEntries f hf).functionNames = r.functionNames := by
  ext x
  simp only [mem_functionNames, find?_mapEntries, Option.map_eq_some_iff]
  constructor
  · rintro ⟨_, ⟨c, hc, rfl⟩, hfun⟩
    exact ⟨c, hc, (hkind c).symm.trans hfun⟩
  · rintro ⟨c, hc, hfun⟩
    exact ⟨f c, ⟨c, hc, rfl⟩, (hkind c).trans hfun⟩

theorem name_aggregated (r : Registry) (c : Callable) : (r.aggregated c).name = c.name := by
  rw [aggregated]
  split <;> rfl

theorem kind_aggregated (r : Registry) (c : Callable) : (r.aggregated c).kind = c.kind := by
  rw [aggregated]
  split <;> rfl

theorem eq_mapEntries_of_aggregate (h : r.aggregate = .ok s) :
    s = r.mapEntries r.aggregated (name_aggregated r) := by
  rw [aggregate] at h
  obtain ⟨-, -, h⟩ := exists_of_bind_eq_ok h
  exact (Except.ok.inj h).symm

theorem aggregate_resolve_of_finalize (h : r.finalize = (s, none)) :
    r.resolve.aggregate = .ok s := by
  rw [finalize] at h
  cases hagg : r.resolve.aggregate with
  | error e =>
    rw [hagg] at h
    cases h
  | ok s' =>
    rw [hagg] at h
    exact congrArg Except.ok (congrArg Prod.fst h)

/-- The records of a finished registry. -/
theorem entries_finalize (h : r.finalize = (s, none)) :
    s.entries =
      r.entries.map fun c => r.resolve.aggregated (c.resolve r.functionNames) := by
  rw [eq_mapEntries_of_aggregate (aggregate_resolve_of_finalize h)]
  exact List.map_map

/-- Neither pass changes which names are functions. -/
theorem functionNames_finalize (h : r.finalize = (s, none)) :
    s.functionNames = r.functionNames := by
  calc s.functionNames
    _ = r.resolve.functionNames := by
      rw [eq_mapEntries_of_aggregate (aggregate_resolve_of_finalize h)]
      exact functionNames_mapEntries (kind_aggregated r.resolve)
    _ = r.functionNames := functionNames_mapEntries fun _ => rfl

theorem isResolved_aggregated (hc : c.IsResolved functions)
    (hambiguous : c.kind = .interface → c.ambiguous = ∅) :
    (r.aggregated c).IsResolved functions := by
  rw [aggregated]
  split
  case isTrue hkind =>
    exact Callable.isResolved_absorb hc (hambiguous hkind) _
  case isFalse => exact hc

/-- Both passes leave every record resolved, if interfaces have no ambiguous references. -/
theorem isResolved_of_finalize (h : r.finalize = (s, none))
    (hambiguous : ∀ c ∈ r.entries, c.kind = .interface → c.ambiguous = ∅) :
    ∀ c ∈ s.entries, c.IsResolved s.functionNames := by
  intro c hc
  rw [entries_finalize h] at hc
  obtain ⟨b, hb, rfl⟩ := List.mem_map.mp hc
  rw [functionNames_finalize h]
  exact isResolved_aggregated (Callable.isResolved_resolve b r.functionNames) (hambiguous b hb)

theorem resolve_eq_self (h : ∀ c ∈ r.entries, c.IsResolved r.functionNames) : r.resolve = r :=
  mapEntries_eq_self fun c hc => Callable.resolve_eq_self_iff.mpr (h c hc)

/-- The name has a record, and it is that of a function. -/
def IsFunction (r : Registry) (x : String) : Prop :=
  ∃ f, r.find? x = some f ∧ f.kind = .function

/-- In `r`, the calls of the record `c` and its accesses to arrays are told apart. -/
structure TellsApart (r : Registry) (c : Callable) : Prop where
  /-- Nothing is both. -/
  disjoint : ∀ x ∈ c.calls, x ∉ c.arrayAccesses
  /-- Accesses to arrays are the ambiguous references that are no calls. -/
  mem_arrayAccesses : ∀ x, x ∈ c.arrayAccesses ↔ x ∈ c.ambiguous ∧ x ∉ c.calls
  /-- Ambiguous references to functions are calls. -/
  mem_calls : ∀ x ∈ c.ambiguous, r.IsFunction x → x ∈ c.calls
  /-- No function counts as an array. -/
  not_isFunction : ∀ x ∈ c.arrayAccesses, ¬ r.IsFunction x

theorem tellsApart_of_isResolved (hc : c.IsResolved r.functionNames) : r.TellsApart c where
  disjoint x hx harray := ((hc.mem_arrayAccesses x).mp harray).2 hx
  mem_arrayAccesses := hc.mem_arrayAccesses
  mem_calls x hx hf := hc.mem_calls x hx (mem_functionNames.mpr hf)
  not_isFunction x hx hf := by
    obtain ⟨hambiguous, hcalls⟩ := (hc.mem_arrayAccesses x).mp hx
    exact hcalls (hc.mem_calls x hambiguous (mem_functionNames.mpr hf))

end Registry

/-! ## The analysis of a corpus -/

namespace Analysis

variable {trees : List Tree} {a : Analysis}

/-- **In a finished analysis calls and accesses to arrays are told apart**, in every record, and
resolving it once more changes nothing. -/
theorem tellsApart_ofTrees (h : ofTrees trees = .ok a) :
    (∀ c ∈ a.callables.entries, a.callables.TellsApart c) ∧
      a.callables.resolve = a.callables := by
  obtain ⟨r, hr, hs, -⟩ := exists_of_ofTrees_eq_ok h
  have hambiguous : ∀ c ∈ r.entries, c.kind = .interface → c.ambiguous = ∅ := by
    intro c hc
    obtain ⟨t, -, d, hdef⟩ := Registry.exists_ofDefinition_of_mem_build hr hc
    exact Callable.ambiguous_of_ofDefinition hdef
  have hresolved := Registry.isResolved_of_finalize hs hambiguous
  exact ⟨fun c hc => Registry.tellsApart_of_isResolved (hresolved c hc),
    Registry.resolve_eq_self hresolved⟩

/-- Here `run` refers to the function `norm`, which another file defines, and to the array `grid`,
and `generic` is an interface. -/
theorem tellsApart_ofTrees_driver :
    let trees := [Document.driverFile, Document.libraryFile].map Tree.ofDocument
    ∃ a, ofTrees trees = .ok a ∧
      (∀ c ∈ a.callables.entries, a.callables.TellsApart c) ∧
      a.callables.resolve = a.callables := by
  intro trees
  have hok : (ofTrees trees).toOption.isSome := by decide +kernel
  cases ha : ofTrees trees with
  | error e =>
    rw [ha] at hok
    cases hok
  | ok a => exact ⟨a, rfl, tellsApart_ofTrees ha⟩

end Analysis

end CallAtlas
