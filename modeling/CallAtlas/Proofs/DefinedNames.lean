import CallAtlas.Proofs.InterfaceUnions

/-!
# The names that a corpus defines

The keys of a registry come from a search for definitions through whole files. The names *inside*
its records come from other searches: the procedures nested in a definition are looked for under its
scope, and the members of an interface are read from its lists. The two agree: nothing in a finished
analysis names a procedure that has no record.

A nested procedure is a definition of the corpus, so the large search meets it too; a later
definition may replace the record of a name, but never takes the name away. An interface takes over
the nested procedures of its members, which are nested procedures of other records. And a
member without a record stops the analysis.

## Main definitions

* `Registry.Defines` — some file of a corpus defines a name
* `Registry.NestsIn` — the nested procedures of all records satisfy a predicate
* `Analysis.HasNoDanglingName` — the contract of an analysis

## Main results

* `Registry.contains_build_iff`, `Analysis.contains_callables_iff` — the keys of a registry are the
  names that the corpus defines
* `Registry.nestsIn_build`, `Registry.nestsIn_resolve`, `Registry.nestsIn_aggregate` — where the
  nested procedures of records come from, pass by pass
* `Analysis.hasNoDanglingName_ofTrees` — the contract holds
-/

namespace CallAtlas

open Source (Document Kind Tree)
open Registry (callableKinds)

/-! ## Definitions -/

/-- Some file defines the name `x` by a statement of one of the given kinds. -/
def Registry.Defines (kinds : List Kind) (trees : List Tree) (x : String) : Prop :=
  ∃ t ∈ trees, ∃ d, t.kind d ∈ kinds ∧ Definition.nameOf t d = .ok x

namespace Definition

variable {t : Tree} {d scope : Nat} {k : Kind} {c : Callable} {x : String}

/-- Only nodes of the table have names. -/
theorem lt_size_of_nameOf (h : nameOf t d = .ok x) : d < t.size := by
  by_contra hge
  have hchildren : t.children d = [] := by
    rw [Tree.children, Array.getElem?_eq_none (Nat.le_of_not_lt hge)]
    rfl
  rw [nameOf, hchildren] at h
  cases h

theorem exists_of_mem_namesOf_nested {s : NameSet} (hk : k ∈ Registry.procedureKinds)
    (hs : namesOf t (nestedDefinitions t d scope k) = .ok s) (hx : x ∈ s) :
    ∃ d', t.kind d' ∈ Registry.procedureKinds ∧ nameOf t d' = .ok x := by
  obtain ⟨d', hd', hname⟩ := (mem_namesOf hs).mp hx
  rw [nestedDefinitions, List.mem_filter, Tree.descendants, List.mem_filter] at hd'
  have hkind : t.kind d' = k := by simpa using hd'.1.2
  exact ⟨d', hkind ▸ hk, hname⟩

/-- The nested procedures of a record are definitions in its file. -/
theorem exists_of_mem_nested (h : Callable.ofDefinition t d = .ok c)
    (hx : x ∈ c.subroutines ∨ x ∈ c.functions) :
    ∃ d', t.kind d' ∈ Registry.procedureKinds ∧ nameOf t d' = .ok x := by
  obtain ⟨name, -, ⟨-, rfl⟩ | ⟨kind, scope, -, -, hclassified⟩⟩ := Callable.ofDefinition_cases h
  · exact absurd hx (not_or.mpr ⟨NameSet.not_mem_empty x, NameSet.not_mem_empty x⟩)
  · obtain ⟨-, -, -, hsubroutines, hfunctions, -⟩ := classified_eq_ok hclassified
    rcases hx with hx | hx
    · exact exists_of_mem_namesOf_nested (by decide) hsubroutines hx
    · exact exists_of_mem_namesOf_nested (by decide) hfunctions hx

end Definition

/-! ## Keys -/

namespace Registry

variable {r s : Registry} {c : Callable} {x : String} {kinds : List Kind} {trees : List Tree}
  {P : String → Prop}

theorem contains_iff : r.contains x ↔ ∃ c, r.find? x = some c := by
  simp only [contains, List.any_eq_true, decide_eq_true_eq, find?_eq_some_iff]

theorem contains_iff_mem_names : r.contains x ↔ x ∈ r.names := by
  simp only [contains, List.any_eq_true, decide_eq_true_eq, names, List.mem_map]

theorem defines_of_find? (hr : build kinds trees = .ok r) (hx : r.find? x = some c) :
    Defines kinds trees x := by
  obtain ⟨hc, rfl⟩ := find?_eq_some_iff.mp hx
  obtain ⟨t, ht, d, hkind, hdef⟩ := exists_definition_of_mem_build hr hc
  obtain ⟨name, hname, ⟨-, rfl⟩ | ⟨kind, scope, -, -, hclassified⟩⟩ :=
    Callable.ofDefinition_cases hdef
  · exact ⟨t, ht, d, hkind, hname⟩
  · obtain ⟨rfl, -⟩ := Definition.classified_eq_ok hclassified
    exact ⟨t, ht, d, hkind, hname⟩

theorem exists_lastDefinition_of_defines (hx : Defines kinds trees x) :
    ∃ t d, lastDefinition kinds trees x = some (t, d) := by
  obtain ⟨t, ht, d, hkind, hname⟩ := hx
  have hin : (definitionIn kinds x t).isSome := by
    rw [definitionIn, List.find?_isSome]
    refine ⟨d, by simpa using Definition.lt_size_of_nameOf hname, ?_⟩
    simp [hkind, hname, Except.toOption]
  have hsome : (lastDefinition kinds trees x).isSome := by
    rw [lastDefinition, List.findSome?_isSome_iff]
    exact ⟨t, List.mem_reverse.mpr ht, by rwa [Option.isSome_map]⟩
  obtain ⟨⟨t', d'⟩, hlast⟩ := Option.isSome_iff_exists.mp hsome
  exact ⟨t', d', hlast⟩

/-- **The keys of the registry of a corpus are the names that the corpus defines.** -/
theorem contains_build_iff (htrees : ∀ t ∈ trees, t.IsPreorder) (hr : build kinds trees = .ok r) :
    r.contains x ↔ Defines kinds trees x := by
  rw [contains_iff]
  constructor
  · rintro ⟨c, hc⟩
    exact defines_of_find? hr hc
  · intro hx
    obtain ⟨t, d, hlast⟩ := exists_lastDefinition_of_defines hx
    obtain ⟨c, hc, -⟩ := exists_find?_of_lastDefinition htrees hr hlast
    exact ⟨c, hc⟩

theorem Defines.mono {kinds' : List Kind} (hkinds : ∀ k ∈ kinds, k ∈ kinds')
    (hx : Defines kinds trees x) : Defines kinds' trees x := by
  obtain ⟨t, ht, d, hkind, hname⟩ := hx
  exact ⟨t, ht, d, hkinds _ hkind, hname⟩

theorem contains_mapEntries {f : Callable → Callable} {hf : ∀ c, (f c).name = c.name} :
    (r.mapEntries f hf).contains x ↔ r.contains x := by
  simp only [contains_iff, find?_mapEntries, Option.map_eq_some_iff]
  constructor
  · rintro ⟨_, c, hc, -⟩
    exact ⟨c, hc⟩
  · rintro ⟨c, hc⟩
    exact ⟨f c, c, hc, rfl⟩

/-- Finishing a registry keeps its keys. -/
theorem contains_finalize (h : r.finalize = (s, none)) : s.contains x ↔ r.contains x := by
  rw [eq_mapEntries_of_aggregate (aggregate_resolve_of_finalize h), contains_mapEntries]
  exact contains_mapEntries

/-! ## Nested procedures -/

/-- The nested procedures of every record satisfy `P`. -/
def NestsIn (r : Registry) (P : String → Prop) : Prop :=
  ∀ c ∈ r.entries, ∀ x, x ∈ c.subroutines ∨ x ∈ c.functions → P x

theorem nestsIn_build (hr : build kinds trees = .ok r) :
    r.NestsIn (Defines procedureKinds trees) := by
  intro c hc x hx
  obtain ⟨t, ht, d, hdef⟩ := exists_ofDefinition_of_mem_build hr hc
  exact ⟨t, ht, Definition.exists_of_mem_nested hdef hx⟩

theorem nestsIn_resolve (h : r.NestsIn P) : r.resolve.NestsIn P := by
  intro c hc x hx
  obtain ⟨b, hb, rfl⟩ := List.mem_map.mp hc
  exact h b hb x hx

/-- An interface takes over nested procedures of other records. -/
theorem nestsIn_aggregate (h : r.NestsIn P) (hs : r.aggregate = .ok s) : s.NestsIn P := by
  intro c hc x hx
  obtain ⟨b, hb, rfl, -⟩ := exists_of_mem_aggregate hs hc
  by_cases hkind : b.kind = .interface
  · rw [mem_aggregated (Callable.mem_inherited.mpr (by simp)) hkind,
      mem_aggregated (Callable.mem_inherited.mpr (by simp)) hkind] at hx
    rcases hx with ⟨p, -, m, hm, hx⟩ | ⟨p, -, m, hm, hx⟩
    · exact h m (find?_eq_some_iff.mp hm).1 x (Or.inl hx)
    · exact h m (find?_eq_some_iff.mp hm).1 x (Or.inr hx)
  · rw [aggregated_of_ne hkind] at hx
    exact h b hb x hx

theorem nestsIn_finalize (h : r.NestsIn P) (hs : r.finalize = (s, none)) : s.NestsIn P :=
  nestsIn_aggregate (nestsIn_resolve h) (aggregate_resolve_of_finalize hs)

end Registry

/-! ## The analysis of a corpus -/

namespace Analysis

variable {a : Analysis} {docs : List Document} {x : String}

/-- The keys of a finished analysis are the names that the corpus defines. -/
theorem contains_callables_iff (h : ofTrees (docs.map Tree.ofDocument) = .ok a) :
    a.callables.contains x ↔
      Registry.Defines callableKinds (docs.map Tree.ofDocument) x := by
  obtain ⟨r, hr, hs, -⟩ := stages_of_ofTrees_eq_ok h
  rw [Registry.contains_finalize hs, Registry.contains_build_iff Tree.isPreorder_of_mem_map hr]

/-- Every procedure that a record names as nested in it or as its member has a record. -/
structure HasNoDanglingName (a : Analysis) : Prop where
  callables : a.callables.NestsIn fun x => a.callables.contains x
  modules : a.modules.NestsIn fun x => a.callables.contains x
  members : ∀ c ∈ a.callables.entries, c.kind = .interface →
    ∀ p ∈ c.procedures, a.callables.contains p

/-- **A finished analysis has no dangling names.** -/
theorem hasNoDanglingName_ofTrees (h : ofTrees (docs.map Tree.ofDocument) = .ok a) :
    a.HasNoDanglingName := by
  obtain ⟨r, hr, hs, hmodules, -⟩ := stages_of_ofTrees_eq_ok h
  have hkey : ∀ x, Registry.Defines Registry.procedureKinds (docs.map Tree.ofDocument) x →
      a.callables.contains x := by
    intro x hx
    exact (contains_callables_iff h).mpr (hx.mono (by decide))
  refine ⟨fun c hc x hx => hkey x ?_, fun c hc x hx => hkey x ?_, fun c hc hkind p hp => ?_⟩
  · exact Registry.nestsIn_finalize (Registry.nestsIn_build hr) hs c hc x hx
  · exact Registry.nestsIn_build hmodules c hc x hx
  · rw [Registry.contains_iff]
    exact Registry.knowsMembers_of_aggregate (Registry.aggregate_resolve_of_finalize hs) c hc hkind
      p hp

/-- To know something of an analysis, run it. -/
theorem exists_ofTrees_of_any (trees : List Tree) {p : Analysis → Bool}
    (h : (ofTrees trees).toOption.any p) : ∃ a, ofTrees trees = .ok a ∧ p a := by
  cases ha : ofTrees trees with
  | error e =>
    rw [ha] at h
    cases h
  | ok a =>
    rw [ha] at h
    exact ⟨a, rfl, h⟩

/-- The subroutine `run` contains `inner`, and the interface `generic` lists `solve`. -/
theorem hasNoDanglingName_ofTrees_driver :
    let trees := [Document.driverFile, Document.libraryFile].map Tree.ofDocument
    ∃ a c, ofTrees trees = .ok a ∧ a.HasNoDanglingName ∧ a.callables.find? "run" = some c ∧
      "inner" ∈ c.subroutines ∧ a.callables.contains "inner" := by
  intro trees
  obtain ⟨a, ha, hrun⟩ := exists_ofTrees_of_any trees (p := fun a =>
    (a.callables.find? "run").any fun c => c.subroutines.contains "inner") (by decide +kernel)
  obtain ⟨c, hc, hinner⟩ := (Option.any_eq_true _ _).mp hrun
  have hnested : "inner" ∈ c.subroutines := NameSet.contains_iff.mp hinner
  have hclosed : a.HasNoDanglingName := hasNoDanglingName_ofTrees ha
  exact ⟨a, c, ha, hclosed, hc, hnested,
    hclosed.callables c (Registry.find?_eq_some_iff.mp hc).1 "inner" (Or.inl hnested)⟩

end Analysis

end CallAtlas
