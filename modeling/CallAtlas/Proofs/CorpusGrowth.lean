import CallAtlas.Proofs.DefinedNames

/-!
# Adding files to a corpus

Files that define only new names leave the records of the old names where they are. What changes is
what the old records say of their ambiguous references: a name that now turns out to be a function
moves from the accesses to arrays to the calls. Interfaces follow their members, whose records are
old ones as well.

Each pass of the analysis is monotone in this sense: it takes registries that are related by
`Registry.GrowsTo` to registries that are.

## Main definitions

* `Callable.GrowsTo` — a record with more calls and fewer accesses to arrays
* `Registry.GrowsTo` — all records of a registry grow

## Main results

* `Registry.find?_of_build_append` — new names leave the records of old names alone
* `Registry.growsTo_resolve`, `Registry.GrowsTo.aggregate` — the two passes are monotone
* `Analysis.growsTo_ofTrees_append` — adding files only adds calls
-/

namespace CallAtlas

open Source (Document Tree)
open Registry (Defines callableKinds)

/-! ## One record -/

/-- `c'` is `c` with perhaps more calls and fewer accesses to arrays, and is otherwise the same. -/
structure Callable.GrowsTo (c c' : Callable) : Prop where
  eq_with : c' = { c with calls := c'.calls, arrayAccesses := c'.arrayAccesses }
  calls_subset : ∀ x ∈ c.calls, x ∈ c'.calls
  arrayAccesses_subset : ∀ x ∈ c'.arrayAccesses, x ∈ c.arrayAccesses

namespace Callable

variable {c c' : Callable} {functions functions' : NameSet}

theorem GrowsTo.exists_eq (h : c.GrowsTo c') :
    ∃ calls arrayAccesses, c' = { c with calls, arrayAccesses } :=
  ⟨c'.calls, c'.arrayAccesses, h.eq_with⟩

/-- Of what an interface takes over, growing changes the calls alone. -/
theorem GrowsTo.field_eq (h : c.GrowsTo c') {field : Callable → NameSet}
    (hfield : field ∈ inherited.tail) : field c' = field c := by
  obtain ⟨calls, arrayAccesses, rfl⟩ := h.exists_eq
  simp only [inherited, List.tail_cons, List.mem_cons, List.not_mem_nil, or_false] at hfield
  rcases hfield with rfl | rfl | rfl <;> rfl

theorem GrowsTo.absorb (h : c.GrowsTo c') {members members' : List Callable}
    (hcalls : ∀ x ∈ (c.absorb members).calls, x ∈ (c'.absorb members').calls)
    (hfields : ∀ field ∈ inherited.tail,
      field (c'.absorb members') = field (c.absorb members)) :
    (c.absorb members).GrowsTo (c'.absorb members') := by
  simp only [inherited, List.tail_cons, List.forall_mem_cons] at hfields
  obtain ⟨husesModules, hsubroutines, hfunctions, -⟩ := hfields
  obtain ⟨calls, arrayAccesses, rfl⟩ := h.exists_eq
  refine ⟨?_, hcalls, h.arrayAccesses_subset⟩
  simp only [Callable.absorb] at husesModules hsubroutines hfunctions ⊢
  rw [husesModules, hsubroutines, hfunctions]

/-- Where more names are functions, more references are calls. -/
theorem growsTo_resolve (hfunctions : ∀ x ∈ functions, x ∈ functions') (c : Callable) :
    (c.resolve functions).GrowsTo (c.resolve functions') := by
  have hcalls : ∀ x ∈ (c.resolve functions).calls, x ∈ (c.resolve functions').calls := by
    intro x hx
    rw [Registry.mem_calls_resolve] at hx ⊢
    exact hx.imp_right fun hx' => ⟨hx'.1, hfunctions x hx'.2⟩
  refine ⟨rfl, hcalls, fun x hx => ?_⟩
  obtain ⟨hambiguous, hnot⟩ := mem_arrayAccesses_resolve.mp hx
  exact mem_arrayAccesses_resolve.mpr ⟨hambiguous, fun hx' => hnot (hcalls x hx')⟩

end Callable

/-! ## Registries -/

namespace Registry

variable {r r' s s' : Registry} {c c' : Callable} {x : String} {ts us : List Tree}

/-- Every record of `r` has grown to one of `s`. -/
def GrowsTo (r s : Registry) : Prop :=
  ∀ ⦃x c⦄, r.find? x = some c → ∃ c', s.find? x = some c' ∧ c.GrowsTo c'

theorem find?_congr (h : r.entries = s.entries) (x : String) : r.find? x = s.find? x := by
  rw [find?, find?, h]

/-- Files that define new names only leave the records of old names alone. -/
theorem find?_of_build_append (hr : build callableKinds ts = .ok r)
    (hs : build callableKinds (ts ++ us) = .ok s)
    (hnew : ∀ x, Defines callableKinds ts x → ¬ Defines callableKinds us x)
    (hx : r.find? x = some c) : s.find? x = some c := by
  obtain ⟨a, b, ha, hb, hentries⟩ := exists_merge_of_build_append hs
  obtain rfl : r = a := Except.ok.inj (hr.symm.trans ha)
  have hnone : b.find? x = none := by
    rw [Option.eq_none_iff_forall_ne_some]
    intro m hm
    exact hnew x (defines_of_find? hr hx) (defines_of_find? hb hm)
  rw [← find?_congr hentries, find?_merge, hnone, hx]
  rfl

/-- Resolution is monotone: new records can only add functions. -/
theorem growsTo_resolve (h : ∀ ⦃x c⦄, r.find? x = some c → s.find? x = some c) :
    r.resolve.GrowsTo s.resolve := by
  have hfunctions : ∀ x ∈ r.functionNames, x ∈ s.functionNames := by
    intro x hx
    obtain ⟨c, hc, hkind⟩ := mem_functionNames.mp hx
    exact mem_functionNames.mpr ⟨c, h hc, hkind⟩
  intro x c hc
  obtain ⟨b, hb, rfl⟩ := Option.map_eq_some_iff.mp ((find?_mapEntries r _ _ x).symm.trans hc)
  exact ⟨_, find?_resolve_of_find? (h hb), Callable.growsTo_resolve hfunctions b⟩

/-- An interface grows with its members, all of which were known before. -/
theorem GrowsTo.aggregated (h : r.GrowsTo s) (hc : c.GrowsTo c')
    (hknown : c.kind = .interface → ∀ p ∈ c.procedures, ∃ m, r.find? p = some m) :
    (r.aggregated c).GrowsTo (s.aggregated c') := by
  have hkind' : c'.kind = c.kind := by
    obtain ⟨_, _, rfl⟩ := hc.exists_eq
    rfl
  have hprocedures : c'.procedures = c.procedures := by
    obtain ⟨_, _, rfl⟩ := hc.exists_eq
    rfl
  by_cases hkind : c.kind = .interface
  · have hcalls : ∀ x ∈ (r.aggregated c).calls, x ∈ (s.aggregated c').calls := by
      intro x hx
      rw [mem_calls_aggregated (hkind'.trans hkind), hprocedures]
      obtain ⟨p, hp, m, hm, hxm⟩ := (mem_calls_aggregated hkind).mp hx
      obtain ⟨m', hm', hgrows⟩ := h hm
      exact ⟨p, hp, m', hm', hgrows.calls_subset x hxm⟩
    have hfields : ∀ field ∈ Callable.inherited.tail,
        field (s.aggregated c') = field (r.aggregated c) := by
      intro field hfield
      have hinherited : field ∈ Callable.inherited := List.mem_of_mem_tail hfield
      ext x
      rw [mem_aggregated hinherited hkind, mem_aggregated hinherited (hkind'.trans hkind),
        hprocedures]
      refine exists_congr fun p => and_congr_right fun hp => ?_
      obtain ⟨m, hm⟩ := hknown hkind p hp
      obtain ⟨m', hm', hgrows⟩ := h hm
      simp only [hm, hm', Option.some.injEq, exists_eq_left', hgrows.field_eq hfield]
    simp only [Registry.aggregated, hkind', hkind, if_true] at hcalls hfields ⊢
    exact hc.absorb hcalls hfields
  · rwa [aggregated_of_ne hkind, aggregated_of_ne (hkind' ▸ hkind)]

/-- Aggregation is monotone. -/
theorem GrowsTo.aggregate (h : r.GrowsTo s) (hr : r.aggregate = .ok r')
    (hs : s.aggregate = .ok s') : r'.GrowsTo s' := by
  intro x c hx
  rw [find?_aggregate hr] at hx
  obtain ⟨b, hb, rfl⟩ := Option.map_eq_some_iff.mp hx
  obtain ⟨b', hb', hgrows⟩ := h hb
  have hknown := (aggregate_eq_ok_iff.mp hr).1 b (find?_eq_some_iff.mp hb).1
  refine ⟨s.aggregated b', ?_, h.aggregated hgrows hknown⟩
  rw [find?_aggregate hs, hb']
  rfl

theorem GrowsTo.hasEdge_ofCalls (h : r.GrowsTo s) {u v : String}
    (hedge : (CallGraph.ofCalls r).HasEdge u v) : (CallGraph.ofCalls s).HasEdge u v := by
  rw [CallGraph.ofCalls, CallGraph.hasEdge_ofRelation] at hedge ⊢
  obtain ⟨c, hc, hv⟩ := hedge
  obtain ⟨c', hc', hgrows⟩ := h hc
  exact ⟨c', hc', hgrows.calls_subset v hv⟩

end Registry

/-! ## The analysis of a corpus -/

namespace Analysis

variable {ts us : List Tree} {a b : Analysis}

/-- **Files that define new names only add calls**: every record stays, perhaps with more calls in
place of accesses to arrays, and every edge of the call graph stays. -/
theorem growsTo_ofTrees_append (ha : ofTrees ts = .ok a) (hb : ofTrees (ts ++ us) = .ok b)
    (hnew : ∀ x, Defines callableKinds ts x → ¬ Defines callableKinds us x) :
    (∀ c ∈ a.callables.entries, ∃ c' ∈ b.callables.entries, c.GrowsTo c') ∧
      ∀ u v, a.callGraph.HasEdge u v → b.callGraph.HasEdge u v := by
  obtain ⟨r, hr, hfinr, hgrapha⟩ := exists_of_ofTrees_eq_ok ha
  obtain ⟨s, hs, hfins, hgraphb⟩ := exists_of_ofTrees_eq_ok hb
  have hresolved : r.resolve.GrowsTo s.resolve :=
    Registry.growsTo_resolve fun _ _ => Registry.find?_of_build_append hr hs hnew
  have hgrows : a.callables.GrowsTo b.callables :=
    hresolved.aggregate (Registry.aggregate_resolve_of_finalize hfinr)
      (Registry.aggregate_resolve_of_finalize hfins)
  refine ⟨fun c hc => ?_, fun u v hedge => ?_⟩
  · obtain ⟨c', hc', hgrows'⟩ := hgrows (Registry.find?_eq_some_iff.mpr ⟨hc, rfl⟩)
    exact ⟨c', (Registry.find?_eq_some_iff.mp hc').1, hgrows'⟩
  · rw [hgrapha] at hedge
    rw [hgraphb]
    exact hgrows.hasEdge_ofCalls hedge

end Analysis

/-- A file that defines the function `norm`. -/
def Source.Document.normFile : Document where
  file := "norm.f90"
  root := .group .program [.group .functionSubprogram [.named .functionStmt "norm"]]

/-- Once its file is added, the reference of `run` to `norm` is a call. -/
theorem Analysis.growsTo_ofTrees_append_norm :
    let ts := [Document.driverFile].map Tree.ofDocument
    let us := [Document.normFile].map Tree.ofDocument
    ∃ a b, ofTrees ts = .ok a ∧ ofTrees (ts ++ us) = .ok b ∧
      (∀ x, Defines callableKinds ts x → ¬ Defines callableKinds us x) ∧
      (∀ c ∈ a.callables.entries, ∃ c' ∈ b.callables.entries, c.GrowsTo c') ∧
      (∀ u v, a.callGraph.HasEdge u v → b.callGraph.HasEdge u v) ∧
      ¬ a.callGraph.HasEdge "run" "norm" ∧ b.callGraph.HasEdge "run" "norm" := by
  intro ts us
  obtain ⟨a, ha, hbefore⟩ := exists_ofTrees_of_any ts (p := fun a => !a.callables.contains "norm" &&
    (a.callables.find? "run").any fun c => !c.calls.contains "norm") (by decide +kernel)
  obtain ⟨b, hb, hafter⟩ := exists_ofTrees_of_any (ts ++ us) (p := fun b =>
    (b.callables.find? "run").any fun c => c.calls.contains "norm") (by decide +kernel)
  obtain ⟨n, hn, hnames⟩ := exists_ofTrees_of_any us (p := fun n => n.callables.names = ["norm"])
    (by decide +kernel)
  obtain ⟨-, -, -, hgrapha⟩ := exists_of_ofTrees_eq_ok ha
  obtain ⟨-, -, -, hgraphb⟩ := exists_of_ofTrees_eq_ok hb
  obtain ⟨hnorm, hbefore⟩ := Bool.and_eq_true_iff.mp hbefore
  have hnew : ∀ x, Defines callableKinds ts x → ¬ Defines callableKinds us x := by
    intro x hx hx'
    rw [← contains_callables_iff hn, Registry.contains_iff_mem_names,
      of_decide_eq_true hnames, List.mem_singleton] at hx'
    rw [← contains_callables_iff ha, hx'] at hx
    simp [hx] at hnorm
  obtain ⟨hrecords, hedges⟩ := growsTo_ofTrees_append ha hb hnew
  refine ⟨a, b, ha, hb, hnew, hrecords, hedges, ?_, ?_⟩
  · rw [hgrapha, CallGraph.ofCalls, CallGraph.hasEdge_ofRelation]
    rintro ⟨c, hc, hx⟩
    simp [hc, NameSet.contains_iff.mpr hx] at hbefore
  · rw [hgraphb, CallGraph.ofCalls, CallGraph.hasEdge_ofRelation]
    obtain ⟨c, hc, hx⟩ := (Option.any_eq_true _ _).mp hafter
    exact ⟨c, hc, NameSet.contains_iff.mp hx⟩

end CallAtlas
