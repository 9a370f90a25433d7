import CallAtlas.Callable.Definition
import CallAtlas.Proofs.TreeOrder
import Mathlib.Data.List.Forall2

/-!
# What the record of a definition holds

The record of a procedure holds the names of the references that are local to it, and the record of
an interface holds the names of its members. Here this is said in terms of the tree: what lies
under the scope of the definition, and outside internal procedures.

## Main definitions

* `Definition.IsLocalTo` — a node belongs to a definition
* `Definition.Refers` — a definition refers to a name
* `Definition.Lists` — an interface lists a member
* `Callable.IsRecordOf` — the contract of a record

## Main results

* `Definition.mem_namesOf`, `Definition.mem_localNodes`, `Definition.mem_interfaceMembers`
* `Callable.ofDefinition_cases` — the ways in which a record is made
* `Callable.isRecordOf_of_ofDefinition` — the contract holds
-/

namespace CallAtlas

open Source (Kind Tree)

/-! ## Computations that can fail -/

section

variable {ε α β : Type}

theorem exists_of_bind_eq_ok {x : Except ε α} {f : α → Except ε β} {b : β}
    (h : x >>= f = .ok b) : ∃ a, x = .ok a ∧ f a = .ok b := by
  cases x with
  | error e => cases h
  | ok a => exact ⟨a, rfl, h⟩

theorem bind_pure_eq_error_iff {x : Except ε α} {f : α → β} {e : ε} :
    (x >>= fun a => pure (f a)) = .error e ↔ x = .error e := by
  cases x with
  | error e' =>
    constructor
    · exact fun h => congrArg _ (Except.error.inj h)
    · exact fun h => congrArg _ (Except.error.inj h)
  | ok a => exact ⟨nofun, nofun⟩

theorem exists_of_map_eq_ok {x : Except ε α} {f : α → β} {b : β} (h : x.map f = .ok b) :
    ∃ a, x = .ok a ∧ f a = b := by
  cases x with
  | error e => cases h
  | ok a => exact ⟨a, rfl, Except.ok.inj h⟩

theorem exists_mapM_eq_ok_iff {f : α → Except ε β} {xs : List α} :
    (∃ ys, xs.mapM f = .ok ys) ↔ ∀ x ∈ xs, ∃ y, f x = .ok y := by
  induction xs with
  | nil => simp [pure, Except.pure]
  | cons x xs ih =>
    rw [List.forall_mem_cons, ← ih, List.mapM_cons]
    constructor
    · rintro ⟨ys, h⟩
      obtain ⟨y, hy, h⟩ := exists_of_bind_eq_ok h
      obtain ⟨ys', hys, -⟩ := exists_of_bind_eq_ok h
      exact ⟨⟨y, hy⟩, ys', hys⟩
    · rintro ⟨⟨y, hy⟩, ys, hys⟩
      exact ⟨y :: ys, by rw [hy, hys]; rfl⟩

theorem forall₂_of_mapM_eq_ok {f : α → Except ε β} {xs : List α} {ys : List β}
    (h : xs.mapM f = .ok ys) : List.Forall₂ (fun x y => f x = .ok y) xs ys := by
  induction xs generalizing ys with
  | nil =>
    obtain rfl : [] = ys := Except.ok.inj h
    exact .nil
  | cons x xs ih =>
    rw [List.mapM_cons] at h
    obtain ⟨y, hy, h⟩ := exists_of_bind_eq_ok h
    obtain ⟨ys', hys, h⟩ := exists_of_bind_eq_ok h
    obtain rfl : y :: ys' = ys := Except.ok.inj h
    exact .cons hy (ih hys)

theorem mem_iff_of_mapM_eq_ok {f : α → Except ε β} {xs : List α} {ys : List β}
    (h : xs.mapM f = .ok ys) {y : β} : y ∈ ys ↔ ∃ x ∈ xs, f x = .ok y := by
  have hall := forall₂_of_mapM_eq_ok h
  clear h
  induction hall with
  | nil => simp
  | cons hxy _ ih =>
    simp only [List.mem_cons, ih, exists_eq_or_imp, hxy, Except.ok.injEq]
    exact or_congr_left eq_comm

/-- A program that keeps a state goes on with the state that its first part leaves. -/
theorem run_bind_of_ok {σ : Type} {x : ExceptT ε (StateM σ) α} {f : α → ExceptT ε (StateM σ) β}
    {s s' : σ} {a : α} (h : x.run.run s = (.ok a, s')) :
    (x >>= f).run.run s = (f a).run.run s' := by
  simp only [ExceptT.run_bind, StateT.run_bind, h]
  rfl

/-- A program that keeps a state stops where its first part fails. -/
theorem run_bind_of_error {σ : Type} {x : ExceptT ε (StateM σ) α}
    {f : α → ExceptT ε (StateM σ) β} {s s' : σ} {e : ε} (h : x.run.run s = (.error e, s')) :
    (x >>= f).run.run s = (.error e, s') := by
  simp only [ExceptT.run_bind, StateT.run_bind, h]
  rfl

end

namespace Definition

variable {t : Tree} {d i scope : Nat} {k : Kind} {x : String}

/-! ## References -/

theorem mem_namesOf {nodes : List Nat} {s : NameSet} (h : namesOf t nodes = .ok s) :
    x ∈ s ↔ ∃ i ∈ nodes, nameOf t i = .ok x := by
  obtain ⟨xs, hxs, rfl⟩ := exists_of_map_eq_ok h
  rw [NameSet.mem_ofList, mem_iff_of_mapM_eq_ok hxs]

/-- The node `i` belongs to the definition `d`. -/
structure IsLocalTo (t : Tree) (d i : Nat) : Prop where
  /-- It lies under the parent of the definition. -/
  under_scope : ∃ scope, t.parent d = some scope ∧ t.Under scope i
  /-- It lies outside of internal procedures, unless the definition is itself in one. -/
  visible : t.hasAncestor d .internalSubprogramPart ∨ ¬ t.hasAncestor i .internalSubprogramPart

/-- Some node of kind `k` that belongs to the definition `d` has the name `x`. -/
def Refers (t : Tree) (d : Nat) (k : Kind) (x : String) : Prop :=
  ∃ i, t.kind i = k ∧ IsLocalTo t d i ∧ nameOf t i = .ok x

theorem mem_localNodes (ht : t.IsPreorder) (hscope : t.parent d = some scope) (hk : t.kind d ≠ k) :
    i ∈ localNodes t d scope k ↔ t.kind i = k ∧ IsLocalTo t d i := by
  have hlt : scope < t.size := Tree.parent_lt_size hscope
  rw [localNodes, List.mem_filter, Tree.mem_descendants_iff ht hlt, List.mem_singleton, isLocal,
    Bool.and_eq_true, bne_iff_ne, Bool.or_eq_true, Bool.not_eq_true', ← Bool.not_eq_true]
  constructor
  · rintro ⟨⟨hu, hi⟩, -, hvis⟩
    exact ⟨hi, ⟨scope, hscope, hu⟩, hvis⟩
  · rintro ⟨hi, ⟨scope', hscope', hu⟩, hvis⟩
    obtain rfl : scope = scope' := Option.some.inj (hscope.symm.trans hscope')
    refine ⟨⟨hu, hi⟩, ?_, hvis⟩
    rintro rfl
    exact hk hi

theorem refers_iff (ht : t.IsPreorder) (hscope : t.parent d = some scope) (hk : t.kind d ≠ k)
    {s : NameSet} (hs : namesOf t (localNodes t d scope k) = .ok s) :
    x ∈ s ↔ Refers t d k x := by
  simp only [mem_namesOf hs, mem_localNodes ht hscope hk, Refers, and_assoc]

/-! ## Members -/

/-- The interface at `d` lists the procedure `p`: some list of procedure names under its scope has
a name child with that text. -/
def Lists (t : Tree) (d : Nat) (p : String) : Prop :=
  ∃ scope list c, t.parent d = some scope ∧ t.Under scope list ∧
    t.kind list = .procedureNameList ∧ c ∈ t.children list ∧ (t.kind c).isName ∧ t.text c = p

theorem mem_interfaceMembers (ht : t.IsPreorder) (hscope : t.parent d = some scope) :
    x ∈ interfaceMembers t scope ↔ Lists t d x := by
  have hlt : scope < t.size := Tree.parent_lt_size hscope
  rw [interfaceMembers, NameSet.mem_toList, NameSet.mem_ofList, List.mem_flatMap]
  simp only [Tree.mem_descendants_iff ht hlt, List.mem_singleton, List.mem_map, List.mem_filter]
  constructor
  · rintro ⟨list, ⟨hu, hkind⟩, c, ⟨hc, hname⟩, htext⟩
    exact ⟨scope, list, c, hscope, hu, hkind, hc, hname, htext⟩
  · rintro ⟨scope', list, c, hscope', hu, hkind, hc, hname, htext⟩
    obtain rfl : scope = scope' := Option.some.inj (hscope.symm.trans hscope')
    exact ⟨list, ⟨hu, hkind⟩, c, ⟨hc, hname⟩, htext⟩

/-! ## The record -/

/-- Adding the body leaves the head of a record alone and fills in the references. -/
theorem addBody_eq_ok {c c' : Callable} (h : addBody t d scope c = .ok c') :
    c'.name = c.name ∧ c'.kind = c.kind ∧ c'.sourceFile = c.sourceFile ∧
      c'.subroutines = c.subroutines ∧ c'.functions = c.functions ∧
      namesOf t (localNodes t d scope .callStmt) = .ok c'.calls ∧
      namesOf t (localNodes t d scope .partRef) = .ok c'.ambiguous := by
  rw [addBody] at h
  obtain ⟨usesModules, -, h⟩ := exists_of_bind_eq_ok h
  obtain ⟨calls, hcalls, h⟩ := exists_of_bind_eq_ok h
  obtain ⟨ambiguous, hambiguous, h⟩ := exists_of_bind_eq_ok h
  obtain ⟨declared, -, h⟩ := exists_of_bind_eq_ok h
  obtain ⟨allocated, -, h⟩ := exists_of_bind_eq_ok h
  obtain ⟨deallocated, -, h⟩ := exists_of_bind_eq_ok h
  obtain rfl := Except.ok.inj h
  exact ⟨rfl, rfl, rfl, rfl, rfl, hcalls, hambiguous⟩

theorem classified_eq_ok {kind : CallableKind} {name : String} {c : Callable}
    (h : classified t kind d scope name = .ok c) :
    c.name = name ∧ c.kind = kind ∧ c.sourceFile = t.file ∧
      namesOf t (nestedDefinitions t d scope .subroutineStmt) = .ok c.subroutines ∧
      namesOf t (nestedDefinitions t d scope .functionStmt) = .ok c.functions ∧
      (kind = .subroutine ∨ kind = .function →
        namesOf t (localNodes t d scope .callStmt) = .ok c.calls ∧
        namesOf t (localNodes t d scope .partRef) = .ok c.ambiguous) ∧
      (kind = .interface → c.procedures = interfaceMembers t scope ∧ c.ambiguous = ∅) := by
  rw [classified] at h
  cases hloc : location t d with
  | none =>
    rw [hloc] at h
    cases h
  | some lines =>
    rw [hloc] at h
    obtain ⟨subroutines, hsubroutines, h⟩ := exists_of_bind_eq_ok h
    obtain ⟨functions, hfunctions, h⟩ := exists_of_bind_eq_ok h
    cases kind with
    | subroutine | function =>
      obtain ⟨hname, hkind, hfile, rfl, rfl, hrefs⟩ := addBody_eq_ok h
      exact ⟨hname, hkind, hfile, hsubroutines, hfunctions, fun _ => hrefs, nofun⟩
    | interface =>
      obtain rfl := Except.ok.inj h
      exact ⟨rfl, rfl, rfl, hsubroutines, hfunctions, by simp, fun _ => ⟨rfl, rfl⟩⟩
    | module =>
      obtain ⟨usesModules, -, h⟩ := exists_of_bind_eq_ok h
      obtain rfl := Except.ok.inj h
      exact ⟨rfl, rfl, rfl, hsubroutines, hfunctions, by simp, nofun⟩
    | external | other =>
      obtain rfl := Except.ok.inj h
      exact ⟨rfl, rfl, rfl, hsubroutines, hfunctions, by simp, nofun⟩

end Definition

/-- `c` holds what the tree says of the definition `d`. -/
structure Callable.IsRecordOf (c : Callable) (t : Tree) (d : Nat) : Prop where
  nameOf_eq : Definition.nameOf t d = .ok c.name
  kind_eq : c.kind = (CallableKind.classify (t.kind d)).getD .other
  mem_calls : c.kind = .subroutine ∨ c.kind = .function →
    ∀ {x}, x ∈ c.calls ↔ Definition.Refers t d .callStmt x
  mem_ambiguous : c.kind = .subroutine ∨ c.kind = .function →
    ∀ {x}, x ∈ c.ambiguous ↔ Definition.Refers t d .partRef x
  mem_procedures : c.kind = .interface → ∀ {p}, p ∈ c.procedures ↔ Definition.Lists t d p

namespace Callable

variable {t : Tree} {d scope : Nat} {c : Callable} {kind : CallableKind}

theorem record_eq_ok_of_ofDefinition (h : ofDefinition t d = .ok c) :
    Definition.record t d = .ok c := by
  rw [ofDefinition] at h
  cases hr : Definition.record t d with
  | error e =>
    rw [hr] at h
    cases h
  | ok c' =>
    rw [hr] at h
    exact congrArg Except.ok (Except.ok.inj h)

theorem isRecordOf_of_classified (ht : t.IsPreorder) {name : String}
    (hname : Definition.nameOf t d = .ok name)
    (hkind : CallableKind.classify (t.kind d) = some kind) (hscope : t.parent d = some scope)
    (h : Definition.classified t kind d scope name = .ok c) : c.IsRecordOf t d := by
  obtain ⟨rfl, rfl, -, -, -, hrefs, hmembers⟩ := Definition.classified_eq_ok h
  -- The references are of kinds that define nothing, so the definition is not among them.
  have hne : ∀ {k : Kind}, CallableKind.classify k = none → t.kind d ≠ k := by
    rintro k hk rfl
    rw [hk] at hkind
    cases hkind
  refine ⟨hname, by rw [hkind]; rfl, fun hc x => ?_, fun hc x => ?_, fun hc p => ?_⟩
  · exact Definition.refers_iff ht hscope (hne rfl) (hrefs hc).1
  · exact Definition.refers_iff ht hscope (hne rfl) (hrefs hc).2
  · rw [(hmembers hc).1]
    exact Definition.mem_interfaceMembers ht hscope

/-- A record is made in one of two ways: a statement that defines nothing of the four sorts leaves
its name and place, and any other is read together with its scope. -/
theorem ofDefinition_cases (h : ofDefinition t d = .ok c) :
    ∃ name, Definition.nameOf t d = .ok name ∧
      (CallableKind.classify (t.kind d) = none ∧
          c = { name, kind := .other, sourceFile := t.file,
                firstLine := ((Definition.location t d).getD (0, 0)).1,
                lineCount := ((Definition.location t d).getD (0, 0)).2 } ∨
        ∃ kind scope, CallableKind.classify (t.kind d) = some kind ∧ t.parent d = some scope ∧
          Definition.classified t kind d scope name = .ok c) := by
  have hrecord := record_eq_ok_of_ofDefinition h
  rw [Definition.record] at hrecord
  obtain ⟨name, hname, hrecord⟩ := exists_of_bind_eq_ok hrecord
  refine ⟨name, hname, ?_⟩
  cases hkind : CallableKind.classify (t.kind d) with
  | none =>
    rw [hkind] at hrecord
    exact Or.inl ⟨rfl, (Except.ok.inj hrecord).symm⟩
  | some kind =>
    rw [hkind] at hrecord
    cases hscope : t.parent d with
    | none =>
      rw [hscope] at hrecord
      cases hrecord
    | some scope =>
      rw [hscope] at hrecord
      exact Or.inr ⟨kind, scope, rfl, rfl, hrecord⟩

/-- **The record of a definition holds what the tree says.** -/
theorem isRecordOf_of_ofDefinition (ht : t.IsPreorder) (h : ofDefinition t d = .ok c) :
    c.IsRecordOf t d := by
  obtain ⟨name, hname, ⟨hkind, rfl⟩ | ⟨kind, scope, hkind, hscope, hclassified⟩⟩ :=
    ofDefinition_cases h
  · exact ⟨hname, by rw [hkind]; rfl, by simp, by simp, nofun⟩
  · exact isRecordOf_of_classified ht hname hkind hscope hclassified

/-- The record of an interface statement has no ambiguous references. -/
theorem ambiguous_of_ofDefinition (h : ofDefinition t d = .ok c) (hc : c.kind = .interface) :
    c.ambiguous = ∅ := by
  obtain ⟨name, -, ⟨-, rfl⟩ | ⟨kind, scope, -, -, hclassified⟩⟩ := ofDefinition_cases h
  · rfl
  · obtain ⟨-, rfl, -, -, -, -, hinterface⟩ := Definition.classified_eq_ok hclassified
    exact (hinterface hc).2

end Callable

end CallAtlas
