import CallAtlas.Analysis
import CallAtlas.Proofs.RelationGraph

/-!
# The edges of the call graph of a corpus

An edge of the call graph is made in many steps: nodes are collected from a scope, records of one
name replace each other, references are told apart by what is a function anywhere in the corpus,
interfaces take over the calls of their members, and the result becomes a graph. The theorem of
this file says what comes out in terms of the syntax trees alone.

## Main definitions

* `Registry.DefinedAs` — the last definition of a name is of a certain kind
* `Analysis.ShowsCalls` — the contract of a call graph

## Main results

* `Analysis.showsCalls_ofTrees` — the contract holds
-/

namespace CallAtlas

open Source (Document Kind Tree)

/-! ## Kinds of definitions -/

/-- The last definition of `x` is a statement of one of the given kinds. -/
def Registry.DefinedAs (trees : List Tree) (kinds : List Kind) (x : String) : Prop :=
  ∃ t d, Registry.lastDefinition Registry.callableKinds trees x = some (t, d) ∧ t.kind d ∈ kinds

/-- The statements that define procedures. -/
def Registry.procedureKinds : List Kind :=
  [.subroutineStmt, .functionStmt]

namespace Callable.IsRecordOf

variable {c : Callable} {t : Tree} {d : Nat}

/-- Each of the four sorts of definitions has one kind of statement. -/
theorem kind_eq_iff (hc : c.IsRecordOf t d) {k : Kind} {kind : CallableKind}
    (hk : CallableKind.classify k = some kind) : c.kind = kind ↔ t.kind d = k := by
  rw [hc.kind_eq]
  cases k <;> cases hk <;> cases t.kind d <;> decide

theorem kind_procedure_iff (hc : c.IsRecordOf t d) :
    c.kind = .subroutine ∨ c.kind = .function ↔ t.kind d ∈ Registry.procedureKinds := by
  rw [hc.kind_eq_iff (k := .subroutineStmt) rfl, hc.kind_eq_iff (k := .functionStmt) rfl,
    Registry.procedureKinds, List.mem_cons, List.mem_singleton]

end Callable.IsRecordOf

/-! ## Finished registries -/

namespace Registry

variable {r s : Registry} {trees : List Tree} {t : Tree} {d : Nat} {u v : String}

theorem exists_find?_of_lastDefinition {kinds : List Kind} (htrees : ∀ t ∈ trees, t.IsPreorder)
    (hr : build kinds trees = .ok r) (hu : lastDefinition kinds trees u = some (t, d)) :
    ∃ c, r.find? u = some c ∧ c.IsRecordOf t d := by
  have hrel := rel_find?_build htrees hr u
  rw [hu] at hrel
  generalize r.find? u = found at hrel ⊢
  cases hrel with
  | some hc => exact ⟨_, rfl, hc⟩

theorem exists_lastDefinition_of_find? {kinds : List Kind} (htrees : ∀ t ∈ trees, t.IsPreorder)
    (hr : build kinds trees = .ok r) {c : Callable} (hu : r.find? u = some c) :
    ∃ t d, lastDefinition kinds trees u = some (t, d) ∧ c.IsRecordOf t d := by
  have hrel := rel_find?_build htrees hr u
  rw [hu] at hrel
  generalize lastDefinition kinds trees u = place at hrel ⊢
  cases hrel with
  | some hc => exact ⟨_, _, rfl, hc⟩

theorem mem_functionNames_iff (htrees : ∀ t ∈ trees, t.IsPreorder)
    (hr : build callableKinds trees = .ok r) :
    v ∈ r.functionNames ↔ DefinedAs trees [.functionStmt] v := by
  rw [mem_functionNames]
  constructor
  · rintro ⟨c, hfind, hkind⟩
    obtain ⟨t, d, hlast, hc⟩ := exists_lastDefinition_of_find? htrees hr hfind
    exact ⟨t, d, hlast, List.mem_singleton.mpr ((hc.kind_eq_iff rfl).mp hkind)⟩
  · rintro ⟨t, d, hlast, hkind⟩
    obtain ⟨c, hfind, hc⟩ := exists_find?_of_lastDefinition htrees hr hlast
    exact ⟨c, hfind, (hc.kind_eq_iff rfl).mpr (List.mem_singleton.mp hkind)⟩

theorem hasEdge_ofCalls_iff (hs : r.finalize = (s, none)) :
    (CallGraph.ofCalls s).HasEdge u v ↔
      ∃ c, r.resolve.find? u = some c ∧ v ∈ (r.resolve.aggregated c).calls := by
  rw [CallGraph.ofCalls, CallGraph.hasEdge_ofRelation, find?_finalize hs]
  simp only [Option.map_eq_some_iff]
  constructor
  · rintro ⟨_, ⟨c, hc, rfl⟩, hv⟩
    exact ⟨c, hc, hv⟩
  · rintro ⟨c, hc, hv⟩
    exact ⟨_, ⟨c, hc, rfl⟩, hv⟩

/-- A record that is no interface has the edges of its resolved calls. -/
theorem hasEdge_ofCalls_of_ne_interface (hs : r.finalize = (s, none)) {c : Callable}
    (hu : r.find? u = some c) (hc : c.kind ≠ .interface) :
    (CallGraph.ofCalls s).HasEdge u v ↔ v ∈ (c.resolve r.functionNames).calls := by
  have hne : (c.resolve r.functionNames).kind ≠ .interface := hc
  rw [hasEdge_ofCalls_iff hs, find?_resolve_of_find? hu]
  simp only [Option.some.injEq, exists_eq_left', aggregated_of_ne hne]

/-- An interface whose members are all procedures has the edges of its members. -/
theorem hasEdge_ofCalls_of_interface (hs : r.finalize = (s, none)) {c : Callable}
    (hu : r.find? u = some c) (hc : c.kind = .interface)
    (hmembers : ∀ p ∈ c.procedures, ∃ m, r.find? p = some m ∧ m.kind ≠ .interface) :
    (CallGraph.ofCalls s).HasEdge u v ↔
      ∃ p ∈ c.procedures, (CallGraph.ofCalls s).HasEdge p v := by
  have hkind : (c.resolve r.functionNames).kind = .interface := hc
  rw [hasEdge_ofCalls_iff hs, find?_resolve_of_find? hu]
  simp only [Option.some.injEq, exists_eq_left', mem_calls_aggregated hkind]
  refine exists_congr fun p => and_congr_right fun hp => ?_
  obtain ⟨m, hm, hmkind⟩ := hmembers p hp
  rw [hasEdge_ofCalls_of_ne_interface hs hm hmkind, find?_resolve_of_find? hm]
  simp only [Option.some.injEq, exists_eq_left']

end Registry

/-! ## The call graph -/

open Registry (DefinedAs lastDefinition callableKinds procedureKinds)

/-- The call graph says of the definitions in `trees` who calls whom. -/
structure Analysis.ShowsCalls (a : Analysis) (trees : List Tree) : Prop where
  /-- A procedure calls the names of its call statements, and those of its other references that
  are functions somewhere in the corpus. -/
  procedure : ∀ {u : String} {t : Tree} {d : Nat},
    lastDefinition callableKinds trees u = some (t, d) → t.kind d ∈ procedureKinds →
      ∀ v, a.callGraph.HasEdge u v ↔ Definition.Refers t d .callStmt v ∨
        Definition.Refers t d .partRef v ∧ DefinedAs trees [.functionStmt] v
  /-- An interface calls what its members call. -/
  interface : ∀ {u : String} {t : Tree} {d : Nat},
    lastDefinition callableKinds trees u = some (t, d) → t.kind d = .interfaceStmt →
      (∀ p, Definition.Lists t d p → DefinedAs trees procedureKinds p) →
        ∀ v, a.callGraph.HasEdge u v ↔ ∃ p, Definition.Lists t d p ∧ a.callGraph.HasEdge p v

namespace Analysis

variable {trees : List Tree} {a : Analysis}

/-- What an analysis is made of. -/
theorem stages_of_ofTrees_eq_ok (h : ofTrees trees = .ok a) :
    ∃ r, Registry.build callableKinds trees = .ok r ∧ r.finalize = (a.callables, none) ∧
      Registry.build Registry.moduleKinds trees = .ok a.modules ∧
      a.callGraph = .ofCalls a.callables := by
  rw [ofTrees] at h
  obtain ⟨r, hr, h⟩ := exists_of_bind_eq_ok h
  cases hs : r.finalize with
  | mk s fault =>
    rw [hs] at h
    cases fault with
    | some e => cases h
    | none =>
      obtain ⟨modules, hmodules, h⟩ := exists_of_bind_eq_ok h
      obtain rfl := Except.ok.inj h
      exact ⟨r, hr, hs, hmodules, rfl⟩

theorem exists_of_ofTrees_eq_ok (h : ofTrees trees = .ok a) :
    ∃ r, Registry.build callableKinds trees = .ok r ∧ r.finalize = (a.callables, none) ∧
      a.callGraph = .ofCalls a.callables := by
  obtain ⟨r, hr, hs, -, hgraph⟩ := stages_of_ofTrees_eq_ok h
  exact ⟨r, hr, hs, hgraph⟩

/-- **The edges of the call graph of a corpus are its calls.** -/
theorem showsCalls_ofTrees {docs : List Document}
    (h : ofTrees (docs.map Tree.ofDocument) = .ok a) :
    a.ShowsCalls (docs.map Tree.ofDocument) := by
  have htrees : ∀ t ∈ docs.map Tree.ofDocument, t.IsPreorder := by
    intro t ht
    obtain ⟨doc, -, rfl⟩ := List.mem_map.mp ht
    exact Tree.isPreorder_ofDocument doc
  obtain ⟨r, hr, hs, hgraph⟩ := exists_of_ofTrees_eq_ok h
  have hprocedure : ∀ {c : Callable}, c.kind = .subroutine ∨ c.kind = .function →
      c.kind ≠ .interface := by
    rintro c (hc | hc) <;> rw [hc] <;> decide
  refine ⟨fun {u t d} hu hkind v => ?_, fun {u t d} hu hkind hmembers v => ?_⟩
  · obtain ⟨c, hfind, hc⟩ := Registry.exists_find?_of_lastDefinition htrees hr hu
    have hck := hc.kind_procedure_iff.mpr hkind
    rw [hgraph, Registry.hasEdge_ofCalls_of_ne_interface hs hfind (hprocedure hck),
      Registry.mem_calls_resolve, hc.mem_calls hck, hc.mem_ambiguous hck,
      Registry.mem_functionNames_iff htrees hr]
  · obtain ⟨c, hfind, hc⟩ := Registry.exists_find?_of_lastDefinition htrees hr hu
    have hck : c.kind = .interface := (hc.kind_eq_iff rfl).mpr hkind
    have hknown : ∀ p ∈ c.procedures, ∃ m, r.find? p = some m ∧ m.kind ≠ .interface := by
      intro p hp
      obtain ⟨t', d', hlast, hkind'⟩ := hmembers p ((hc.mem_procedures hck).mp hp)
      obtain ⟨m, hm, hrec⟩ := Registry.exists_find?_of_lastDefinition htrees hr hlast
      exact ⟨m, hm, hprocedure (hrec.kind_procedure_iff.mpr hkind')⟩
    rw [hgraph, Registry.hasEdge_ofCalls_of_interface hs hfind hck hknown]
    exact exists_congr fun p => and_congr_left fun _ => hc.mem_procedures hck

end Analysis

/-- A node whose first child is a name. -/
def Source.Node.named (kind : Kind) (name : String) : Source.Node :=
  .mk kind none (some ⟨1, 1⟩) [.mk .name (some name) none []]

/-- A node that only holds others. -/
def Source.Node.group (kind : Kind) (children : List Source.Node) : Source.Node :=
  .mk kind none none children

/-- A file in which `run` has an internal procedure and refers to the function `norm` and the array
`grid`. The interface `generic` lists `solve`. -/
def Source.Document.driverFile : Document where
  file := "driver.f90"
  root := .group .program [
    .group .subroutineSubprogram [
      .named .subroutineStmt "run", .named .callStmt "solve", .named .partRef "norm",
      .named .partRef "grid",
      .group .internalSubprogramPart [
        .group .subroutineSubprogram [.named .subroutineStmt "inner", .named .callStmt "deep"]]],
    .group .subroutineSubprogram [.named .subroutineStmt "solve", .named .callStmt "old"],
    .group .interfaceBlock [.named .interfaceStmt "generic", .named .procedureNameList "solve"]]

/-- A file that defines `norm` and defines `solve` once more. -/
def Source.Document.libraryFile : Document where
  file := "library.f90"
  root := .group .program [
    .group .functionSubprogram [.named .functionStmt "norm"],
    .group .subroutineSubprogram [.named .subroutineStmt "solve", .named .partRef "norm"]]

theorem Analysis.showsCalls_ofTrees_driver :
    let trees := [Document.driverFile, Document.libraryFile].map Tree.ofDocument
    ∃ a, ofTrees trees = .ok a ∧ a.ShowsCalls trees ∧
      ∀ v, a.callGraph.HasEdge "generic" v ↔ a.callGraph.HasEdge "solve" v := by
  intro trees
  have hok : (ofTrees trees).toOption.isSome := by decide +kernel
  have hmembers : ∀ p, Definition.Lists (.ofDocument .driverFile) 22 p ↔ p = "solve" := by
    intro p
    have hscope : (Tree.ofDocument .driverFile).parent 22 = some 21 := by decide +kernel
    have hlist : Definition.interfaceMembers (.ofDocument .driverFile) 21 = ["solve"] := by
      decide +kernel
    rw [← Definition.mem_interfaceMembers (Tree.isPreorder_ofDocument _) hscope, hlist,
      List.mem_singleton]
  have hsolve : DefinedAs trees procedureKinds "solve" :=
    ⟨.ofDocument .libraryFile, 5, rfl, by decide +kernel⟩
  cases ha : ofTrees trees with
  | error e =>
    rw [ha] at hok
    cases hok
  | ok a =>
    have hshows : a.ShowsCalls trees := showsCalls_ofTrees ha
    refine ⟨a, rfl, hshows, fun v => ?_⟩
    rw [hshows.interface (d := 22) rfl (by decide +kernel) fun p hp => ?_]
    · simp only [hmembers, exists_eq_left]
    · rw [(hmembers p).mp hp]
      exact hsolve

end CallAtlas
