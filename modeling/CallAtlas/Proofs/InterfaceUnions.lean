import CallAtlas.Proofs.ResolvedReferences

/-!
# Interfaces as unions of their members

An interface stands for the procedures it lists: what it calls, what it uses and what it contains
should be what they call, use and contain. Aggregation brings this about in one pass, in which every
interface reads the records of its members as resolution has left them.

For an interface that lists procedures this is enough, since aggregation does not touch their
records; and an interface may even list itself. An interface that lists *another* interface reads
it too early: it takes over what the other held before aggregation, not what it holds afterwards.

## Main definitions

* `Registry.IsUnionOfMembers` — the equation of an interface
* `Registry.ListsNoOtherInterface` — the condition under which one pass is enough

## Main results

* `Registry.aggregate_eq_ok_iff` — when aggregation succeeds, and with what
* `Registry.aggregate_eq_self_iff` — the equations hold exactly at the fixed points of aggregation
* `Registry.isUnionOfMembers_finalize` — which equations hold in a finished registry
* `Registry.not_isUnionOfMembers_nested` — one that does not hold
-/

namespace CallAtlas

open Source (Document Tree)

namespace Registry

variable {r s : Registry} {c : Callable} {x : String}

/-! ## The equation of an interface -/

/-- What the interface `c` takes over is the union over the records of its procedures in `r`. -/
def IsUnionOfMembers (r : Registry) (c : Callable) : Prop :=
  ∀ field ∈ Callable.inherited, ∀ x, x ∈ field c ↔
    ∃ p ∈ c.procedures, ∃ m, r.find? p = some m ∧ x ∈ field m

/-- The interface `c` lists no interface but perhaps itself. -/
def ListsNoOtherInterface (r : Registry) (c : Callable) : Prop :=
  ∀ p ∈ c.procedures, ∀ m, r.find? p = some m → m.kind = .interface → p = c.name

theorem procedures_aggregated (r : Registry) (c : Callable) :
    (r.aggregated c).procedures = c.procedures := by
  rw [aggregated]
  split <;> rfl

/-- An interface satisfies its equation exactly if aggregation leaves it alone. -/
theorem aggregated_eq_self_iff (hc : c.kind = .interface) :
    r.aggregated c = c ↔ r.IsUnionOfMembers c := by
  constructor
  · intro h field hfield x
    have hmem := mem_aggregated (r := r) (x := x) hfield hc
    rwa [h] at hmem
  · intro h
    have hfield : ∀ field ∈ Callable.inherited, field (r.aggregated c) = field c := by
      intro field hfield
      ext x
      rw [mem_aggregated hfield hc, h field hfield]
    simp only [Callable.inherited, List.forall_mem_cons] at hfield
    obtain ⟨hcalls, husesModules, hsubroutines, hfunctions, -⟩ := hfield
    calc r.aggregated c
      _ = { c with
            calls := (r.aggregated c).calls
            usesModules := (r.aggregated c).usesModules
            subroutines := (r.aggregated c).subroutines
            functions := (r.aggregated c).functions } := by
        rw [aggregated, if_pos hc]
        rfl
      _ = c := by rw [hcalls, husesModules, hsubroutines, hfunctions]

/-! ## Aggregation -/

/-- Every procedure that an interface lists has a record. -/
def KnowsMembers (r : Registry) : Prop :=
  ∀ c ∈ r.entries, c.kind = .interface → ∀ p ∈ c.procedures, ∃ m, r.find? p = some m

theorem exists_members_eq_ok_iff :
    (∃ ms, r.members c = .ok ms) ↔ ∀ p ∈ c.procedures, ∃ m, r.find? p = some m := by
  rw [members, exists_mapM_eq_ok_iff]
  refine forall₂_congr fun p _ => ?_
  cases r.find? p with
  | none => simp
  | some m => simp

/-- **Aggregation succeeds exactly if all members are known**, and then changes the records of the
interfaces. -/
theorem aggregate_eq_ok_iff :
    r.aggregate = .ok s ↔
      r.KnowsMembers ∧ s = r.mapEntries r.aggregated (name_aggregated r) := by
  have hknown : r.KnowsMembers ↔ ∃ ms, r.interfaces.mapM r.members = .ok ms := by
    rw [exists_mapM_eq_ok_iff, KnowsMembers]
    simp only [interfaces, List.mem_filter, decide_eq_true_eq, exists_members_eq_ok_iff, and_imp]
  constructor
  · intro h
    refine ⟨hknown.mpr ?_, eq_mapEntries_of_aggregate h⟩
    obtain ⟨ms, hms, -⟩ := exists_of_bind_eq_ok h
    exact ⟨ms, hms⟩
  · rintro ⟨hmembers, rfl⟩
    obtain ⟨ms, hms⟩ := hknown.mp hmembers
    rw [aggregate, hms]
    rfl

/-- A registry is a fixed point of aggregation exactly if its interfaces satisfy their equations. -/
theorem aggregate_eq_self_iff (hmembers : r.KnowsMembers) :
    r.aggregate = .ok r ↔ ∀ c ∈ r.entries, c.kind = .interface → r.IsUnionOfMembers c := by
  rw [aggregate_eq_ok_iff, and_iff_right hmembers]
  constructor
  · intro h c hc hkind
    have hmap : r.entries.map id = r.entries.map r.aggregated :=
      (List.map_id r.entries).trans (congrArg entries h)
    exact (aggregated_eq_self_iff hkind).mp (List.map_inj_left.mp hmap c hc).symm
  · intro h
    refine (mapEntries_eq_self fun c hc => ?_).symm
    by_cases hkind : c.kind = .interface
    · exact (aggregated_eq_self_iff hkind).mpr (h c hc hkind)
    · exact aggregated_of_ne hkind

/-! ## Finished registries -/

/-- A record of an aggregated registry comes from one of the same kind, with the same members. -/
theorem exists_of_mem_aggregate (h : r.aggregate = .ok s) (hc : c ∈ s.entries) :
    ∃ b ∈ r.entries, c = r.aggregated b ∧ b.kind = c.kind ∧ b.procedures = c.procedures := by
  rw [eq_mapEntries_of_aggregate h] at hc
  obtain ⟨b, hb, rfl⟩ := List.mem_map.mp hc
  exact ⟨b, hb, rfl, (kind_aggregated r b).symm, (procedures_aggregated r b).symm⟩

theorem find?_aggregate (h : r.aggregate = .ok s) (x : String) :
    s.find? x = (r.find? x).map r.aggregated := by
  rw [eq_mapEntries_of_aggregate h]
  exact find?_mapEntries r r.aggregated (name_aggregated r) x

theorem knowsMembers_of_aggregate (h : r.aggregate = .ok s) : s.KnowsMembers := by
  intro c hc hkind p hp
  obtain ⟨b, hb, -, hbkind, hprocedures⟩ := exists_of_mem_aggregate h hc
  obtain ⟨m, hm⟩ :=
    (aggregate_eq_ok_iff.mp h).1 b hb (hbkind.trans hkind) p (hprocedures ▸ hp)
  exact ⟨r.aggregated m, by rw [find?_aggregate h, hm]; rfl⟩

/-- After aggregation, interfaces are the unions of their members as these were before. -/
theorem isUnionOfMembers_before (h : r.aggregate = .ok s) (hc : c ∈ s.entries)
    (hkind : c.kind = .interface) : r.IsUnionOfMembers c := by
  obtain ⟨b, -, rfl, hbkind, hprocedures⟩ := exists_of_mem_aggregate h hc
  intro field hfield x
  rw [mem_aggregated hfield (hbkind.trans hkind), hprocedures]

/-- After aggregation, an interface that lists no other is the union of its members. -/
theorem isUnionOfMembers_after (h : r.aggregate = .ok s) (hc : c ∈ s.entries)
    (hkind : c.kind = .interface) (hlists : s.ListsNoOtherInterface c) :
    s.IsUnionOfMembers c := by
  have hself : s.find? c.name = some c := find?_eq_some_iff.mpr ⟨hc, rfl⟩
  -- A member keeps its record, unless it is the interface itself.
  have hmember : ∀ p ∈ c.procedures, ∀ m, r.find? p = some m →
      s.find? p = some m ∨ s.find? p = some c := by
    intro p hp m hm
    have hfind : s.find? p = some (r.aggregated m) := by
      rw [find?_aggregate h, hm]
      rfl
    by_cases hm' : m.kind = .interface
    · have hpc : p = c.name := hlists p hp _ hfind ((kind_aggregated r m).trans hm')
      exact Or.inr (hpc ▸ hself)
    · exact Or.inl (aggregated_of_ne hm' ▸ hfind)
  intro field hfield x
  have hbefore := isUnionOfMembers_before h hc hkind field hfield x
  constructor
  · intro hx
    obtain ⟨p, hp, m, hm, hxm⟩ := hbefore.mp hx
    rcases hmember p hp m hm with hfind | hfind
    · exact ⟨p, hp, m, hfind, hxm⟩
    · exact ⟨p, hp, c, hfind, hx⟩
  · rintro ⟨p, hp, m, hm, hxm⟩
    obtain ⟨b, hb, -⟩ := Option.map_eq_some_iff.mp ((find?_aggregate h p).symm.trans hm)
    rcases hmember p hp b hb with hfind | hfind
    · obtain rfl : m = b := Option.some.inj (hm.symm.trans hfind)
      exact hbefore.mpr ⟨p, hp, m, hb, hxm⟩
    · obtain rfl : m = c := Option.some.inj (hm.symm.trans hfind)
      exact hxm

/-- **Interfaces of a finished registry are unions**: of the records of their members as resolution
left them, and of the finished ones for interfaces that list no other interface. Aggregating once
more changes nothing exactly if the second holds for all. -/
theorem isUnionOfMembers_finalize (h : r.finalize = (s, none)) :
    (∀ c ∈ s.entries, c.kind = .interface → r.resolve.IsUnionOfMembers c) ∧
    (∀ c ∈ s.entries, c.kind = .interface → s.ListsNoOtherInterface c → s.IsUnionOfMembers c) ∧
    (s.aggregate = .ok s ↔ ∀ c ∈ s.entries, c.kind = .interface → s.IsUnionOfMembers c) := by
  have hagg := aggregate_resolve_of_finalize h
  exact ⟨fun c hc hkind => isUnionOfMembers_before hagg hc hkind,
    fun c hc hkind hlists => isUnionOfMembers_after hagg hc hkind hlists,
    aggregate_eq_self_iff (knowsMembers_of_aggregate hagg)⟩

/-- To know something of a finished registry, run the analysis. -/
theorem exists_finalize_of_any (trees : List Tree) {p : Registry → Bool}
    (h : (build callableKinds trees).toOption.any fun r => r.finalize.2.isNone && p r.finalize.1) :
    ∃ r s, build callableKinds trees = .ok r ∧ r.finalize = (s, none) ∧ p s := by
  cases hr : build callableKinds trees with
  | error e =>
    rw [hr] at h
    cases h
  | ok r =>
    rw [hr] at h
    obtain ⟨hnone, hp⟩ := Bool.and_eq_true_iff.mp h
    exact ⟨r, r.finalize.1, rfl, Prod.ext rfl (Option.isNone_iff_eq_none.mp hnone), hp⟩

/-- The interface `generic` lists the subroutine `solve`, and is the union of it. -/
theorem isUnionOfMembers_finalize_driver :
    let trees := [Document.driverFile, Document.libraryFile].map Tree.ofDocument
    ∃ r s c, build callableKinds trees = .ok r ∧ r.finalize = (s, none) ∧
      s.find? "generic" = some c ∧ r.resolve.IsUnionOfMembers c ∧ s.IsUnionOfMembers c ∧
      (s.aggregate = .ok s ↔ ∀ c ∈ s.entries, c.kind = .interface → s.IsUnionOfMembers c) := by
  intro trees
  obtain ⟨r, s, hr, hs, hp⟩ := exists_finalize_of_any trees (p := fun s =>
    (s.find? "generic").any (fun c => c.kind = .interface ∧ c.procedures = ["solve"]) &&
      (s.find? "solve").any fun m => m.kind = .subroutine) (by decide +kernel)
  simp only [Bool.and_eq_true, Option.any_eq_true, decide_eq_true_eq] at hp
  obtain ⟨⟨c, hc, hkind, hprocedures⟩, m, hm, hmkind⟩ := hp
  have hmem : c ∈ s.entries := (find?_eq_some_iff.mp hc).1
  have hlists : s.ListsNoOtherInterface c := by
    intro p hp m' hm' hkind'
    obtain rfl : p = "solve" := by simpa [hprocedures] using hp
    obtain rfl : m = m' := Option.some.inj (hm.symm.trans hm')
    rw [hmkind] at hkind'
    cases hkind'
  obtain ⟨hbefore, hafter, hfixed⟩ := isUnionOfMembers_finalize hs
  exact ⟨r, s, c, hr, hs, hc, hbefore c hmem hkind, hafter c hmem hkind hlists, hfixed⟩

end Registry

/-- A file in which the interface `outer` lists the interface `inner`. -/
def Source.Document.nestedFile : Document where
  file := "nested.f90"
  root := .group .program [
    .group .subroutineSubprogram [.named .subroutineStmt "solve", .named .callStmt "old"],
    .group .interfaceBlock [.named .interfaceStmt "inner", .named .procedureNameList "solve"],
    .group .interfaceBlock [.named .interfaceStmt "outer", .named .procedureNameList "inner"]]

/-- **Interfaces that list interfaces fall behind**: when `outer` takes over what `inner` calls,
`inner` calls nothing yet, and aggregating once more changes `outer`. -/
theorem Registry.not_isUnionOfMembers_nested :
    ∃ r s c, build callableKinds [.ofDocument .nestedFile] = .ok r ∧ r.finalize = (s, none) ∧
      s.find? "outer" = some c ∧ ¬ s.IsUnionOfMembers c ∧ s.aggregate ≠ .ok s := by
  obtain ⟨r, s, hr, hs, hp⟩ := exists_finalize_of_any [.ofDocument .nestedFile]
    (p := fun s => (s.find? "outer").any (fun c =>
        c.kind = .interface ∧ c.procedures = ["inner"] ∧ ¬ c.calls.contains "old") &&
      (s.find? "inner").any fun m => m.calls.contains "old") (by decide +kernel)
  simp only [Bool.and_eq_true, Option.any_eq_true, decide_eq_true_eq,
    NameSet.contains_iff] at hp
  obtain ⟨⟨c, hc, hkind, hprocedures, hcalls⟩, m, hm, hmcalls⟩ := hp
  have hnot : ¬ s.IsUnionOfMembers c := by
    intro hunion
    have hmem := hunion Callable.calls List.mem_cons_self "old"
    exact hcalls (hmem.mpr ⟨"inner", by simp [hprocedures], m, hm, hmcalls⟩)
  have hmembers := knowsMembers_of_aggregate (aggregate_resolve_of_finalize hs)
  exact ⟨r, s, c, hr, hs, hc, hnot, fun h =>
    hnot ((aggregate_eq_self_iff hmembers).mp h c (find?_eq_some_iff.mp hc).1 hkind)⟩

end CallAtlas
