import CallAtlas.Proofs.DefinitionRecord
import CallAtlas.Registry.Interfaces
import Mathlib.Data.List.Nodup

/-!
# What a registry knows of a name

Of several definitions of a name the last one counts: in a file the last by position, and in a
corpus the last file's. The registry of a corpus therefore answers a look-up with the record of the
*last definition*, which is found by reading the corpus backwards.

## Main definitions

* `Registry.definitionIn`, `Registry.lastDefinition` — the last definition of a name
* `Callable.inherited` — what an interface takes over from its members

## Main results

* `Registry.find?_eq_some_iff`, `Registry.find?_insert`, `Registry.find?_merge`,
  `Registry.find?_mapEntries` — look-ups after each change
* `Registry.rel_find?_build` — a look-up gives the record of the last definition
* `Registry.find?_finalize` — what resolution and aggregation make of a record
* `Registry.mem_aggregated` — an interface is the union of its members
-/

namespace CallAtlas

open Source (Kind Tree)

/-! ## The first match in two lists -/

section

variable {α β γ δ : Type} {R : α → β → Prop} {xs : List α} {ys : List β}

theorem rel_find? {P : α → Bool} {Q : β → Bool} (h : List.Forall₂ R xs ys)
    (hPQ : ∀ {a b}, R a b → P a = Q b) : Option.Rel R (xs.find? P) (ys.find? Q) := by
  induction h with
  | nil => exact .none
  | @cons a b _ _ hab _ ih =>
    rw [List.find?_cons, List.find?_cons, hPQ hab]
    cases Q b with
    | true => exact .some hab
    | false => exact ih

theorem rel_findSome? {S : γ → δ → Prop} {f : α → Option γ} {g : β → Option δ}
    (h : List.Forall₂ R xs ys) (hfg : ∀ {a b}, R a b → Option.Rel S (f a) (g b)) :
    Option.Rel S (xs.findSome? f) (ys.findSome? g) := by
  induction h with
  | nil => exact .none
  | @cons a b _ _ hab _ ih =>
    have hrel := hfg hab
    rw [List.findSome?_cons, List.findSome?_cons]
    generalize f a = fa, g b = gb at hrel ⊢
    cases hrel with
    | none => exact ih
    | some hcd => exact .some hcd

end

theorem NameSet.mem_unions {sets : List NameSet} {x : String} :
    x ∈ NameSet.unions sets ↔ ∃ s ∈ sets, x ∈ s := by
  have hfold : ∀ s : NameSet, x ∈ sets.foldl NameSet.union s ↔ x ∈ s ∨ ∃ u ∈ sets, x ∈ u := by
    induction sets with
    | nil => simp
    | cons u sets ih =>
      intro s
      simp only [List.foldl_cons, ih, mem_union, List.mem_cons, exists_eq_or_imp, or_assoc]
  rw [unions, hfold, or_iff_right (not_mem_empty x)]

/-- The sets that an interface takes over from its members. -/
def Callable.inherited : List (Callable → NameSet) :=
  [Callable.calls, Callable.usesModules, Callable.subroutines, Callable.functions]

theorem Callable.mem_inherited {field : Callable → NameSet} :
    field ∈ Callable.inherited ↔ field = Callable.calls ∨ field = Callable.usesModules ∨
      field = Callable.subroutines ∨ field = Callable.functions := by
  simp only [Callable.inherited, List.mem_cons, List.not_mem_nil, or_false]

namespace Registry

variable {r s : Registry} {c : Callable} {x : String} {kinds : List Kind} {trees : List Tree}

/-! ## Looking up -/

/-- Where names are distinct, the record of a name is the one that has it. -/
theorem find?_name_eq_some_iff {cs : List Callable} (hnodup : (cs.map Callable.name).Nodup) :
    cs.find? (fun b => b.name = x) = some c ↔ c ∈ cs ∧ c.name = x := by
  constructor
  · intro h
    exact ⟨List.mem_of_find?_eq_some h, by simpa using List.find?_some h⟩
  · rintro ⟨hmem, rfl⟩
    cases hfind : cs.find? fun b => b.name = c.name with
    | none =>
      have hne := List.find?_eq_none.mp hfind c hmem
      simp at hne
    | some b =>
      have hb : b ∈ cs := List.mem_of_find?_eq_some hfind
      have hname : b.name = c.name := by simpa using List.find?_some hfind
      rw [List.inj_on_of_nodup_map hnodup hb hmem hname]

theorem find?_eq_some_iff : r.find? x = some c ↔ c ∈ r.entries ∧ c.name = x :=
  find?_name_eq_some_iff r.nodup

theorem find?_empty (x : String) : (∅ : Registry).find? x = none :=
  rfl

theorem find?_reverse_entries (r : Registry) (x : String) :
    r.entries.reverse.find? (fun c => c.name = x) = r.find? x := by
  have hnodup : (r.entries.reverse.map Callable.name).Nodup := by
    rw [List.map_reverse, List.nodup_reverse]
    exact r.nodup
  refine Option.ext fun c => ?_
  rw [find?_name_eq_some_iff hnodup, List.mem_reverse, find?_eq_some_iff]

/-! ## Changes -/

theorem find?_upsert (c : Callable) (cs : List Callable) (x : String) :
    (upsert c cs).find? (fun b => b.name = x) =
      if c.name = x then some c else cs.find? fun b => b.name = x := by
  rw [upsert, find?_upsertBy]
  simp only [eq_comm]

theorem find?_insert (r : Registry) (c : Callable) (x : String) :
    (r.insert c).find? x = if c.name = x then some c else r.find? x :=
  find?_upsert c r.entries x

theorem find?_define (r : Registry) (c : Callable) (x : String) :
    (r.define c).find? x = if c.name = x then some c else r.find? x := by
  have hreport : ((if c.kind = .other then r.report [.unsupportedKind c.name c.sourceFile]
      else r).find? x) = r.find? x := by
    split <;> rfl
  rw [define, find?_insert, hreport]

theorem find?_mergeOne (r : Registry) (c : Callable) (x : String) :
    (r.mergeOne c).find? x = if c.name = x then some c else r.find? x := by
  rw [← find?_insert, mergeOne]
  split <;> rfl

/-- When every step adds one record, the last record of a name is found. -/
theorem find?_foldl {step : Registry → Callable → Registry}
    (hstep : ∀ r c, (step r c).find? x = if c.name = x then some c else r.find? x)
    (cs : List Callable) (r : Registry) :
    (cs.foldl step r).find? x = (cs.reverse.find? fun c => c.name = x).or (r.find? x) := by
  induction cs generalizing r with
  | nil => rfl
  | cons c cs ih =>
    rw [List.foldl_cons, ih, hstep, List.reverse_cons, List.find?_append, Option.or_assoc]
    congr 1
    by_cases hc : c.name = x
    · simp [hc]
    · simp [hc]

/-- The records of the merged registry win. -/
theorem find?_merge (r s : Registry) (x : String) :
    (r.merge s).find? x = (s.find? x).or (r.find? x) := by
  rw [merge, find?_foldl fun r c => find?_mergeOne r c x, find?_reverse_entries]
  rfl

theorem find?_foldl_merge (rs : List Registry) (r : Registry) (x : String) :
    (rs.foldl merge r).find? x = (rs.reverse.findSome? fun s => s.find? x).or (r.find? x) := by
  induction rs generalizing r with
  | nil => rfl
  | cons s rs ih =>
    rw [List.foldl_cons, ih, find?_merge, List.reverse_cons, List.findSome?_append,
      List.findSome?_singleton, Option.or_assoc]

theorem find?_mapEntries (r : Registry) (f : Callable → Callable) (hf : ∀ c, (f c).name = c.name)
    (x : String) : (r.mapEntries f hf).find? x = (r.find? x).map f := by
  have hcomp : (fun c => decide (c.name = x)) ∘ f = fun c => decide (c.name = x) := by
    funext c
    rw [Function.comp_apply, hf]
  rw [find?, mapEntries, List.find?_map, hcomp]
  rfl

/-! ## The last definition -/

/-- The last node of a tree that is a definition of the given kinds with the name `x`. -/
def definitionIn (kinds : List Kind) (x : String) (t : Tree) : Option Nat :=
  (List.range t.size).reverse.find? fun d =>
    kinds.contains (t.kind d) && (Definition.nameOf t d).toOption = some x

/-- The last definition of `x` in a corpus: its file and its node. -/
def lastDefinition (kinds : List Kind) (trees : List Tree) (x : String) : Option (Tree × Nat) :=
  trees.reverse.findSome? fun t => (definitionIn kinds x t).map fun d => (t, d)

theorem definitionIn_eq_find?_descendants {t : Tree} (ht : t.IsPreorder) (kinds : List Kind)
    (x : String) : definitionIn kinds x t =
      (t.descendants 0 kinds).reverse.find? fun d => (Definition.nameOf t d).toOption = some x := by
  rw [definitionIn, Tree.descendants, Tree.subtree_zero ht, ← List.filter_reverse,
    List.find?_filter]
  simp only [Bool.decide_and, Bool.decide_eq_true]

/-- A look-up in the registry of a file gives the record of the last definition in it. -/
theorem rel_find?_ofTree {t : Tree} (ht : t.IsPreorder) (h : ofTree kinds t = .ok r) (x : String) :
    Option.Rel (fun d c => c.IsRecordOf t d) (definitionIn kinds x t) (r.find? x) := by
  obtain ⟨cs, hcs, rfl⟩ := exists_of_map_eq_ok h
  have hrecords : List.Forall₂ (fun d c => c.IsRecordOf t d) (t.descendants 0 kinds) cs :=
    (forall₂_of_mapM_eq_ok hcs).imp fun _ _ => Callable.isRecordOf_of_ofDefinition ht
  rw [find?_foldl fun r c => find?_define r c x, find?_empty, Option.or_none,
    definitionIn_eq_find?_descendants ht]
  refine rel_find? (List.forall₂_reverse_iff.mpr hrecords) ?_
  intro d c hc
  rw [hc.nameOf_eq]
  simp [Except.toOption]

/-- **A look-up in the registry of a corpus gives the record of the last definition.** -/
theorem rel_find?_build (htrees : ∀ t ∈ trees, t.IsPreorder) (h : build kinds trees = .ok r)
    (x : String) :
    Option.Rel (fun p c => c.IsRecordOf p.1 p.2) (lastDefinition kinds trees x) (r.find? x) := by
  obtain ⟨rs, hrs, rfl⟩ := exists_of_map_eq_ok h
  have hfiles : List.Forall₂ (fun t s => t.IsPreorder ∧ ofTree kinds t = .ok s) trees rs :=
    (List.forall₂_and_left trees rs).mpr ⟨htrees, forall₂_of_mapM_eq_ok hrs⟩
  rw [find?_foldl_merge, find?_empty, Option.or_none]
  refine rel_findSome? (List.forall₂_reverse_iff.mpr hfiles) ?_
  rintro t s ⟨ht, hs⟩
  have hrel := rel_find?_ofTree ht hs x
  generalize definitionIn kinds x t = place, s.find? x = found at hrel ⊢
  cases hrel with
  | none => exact .none
  | some hc => exact .some hc

/-! ## Resolution and aggregation -/

theorem mem_functionNames : x ∈ r.functionNames ↔ ∃ c, r.find? x = some c ∧ c.kind = .function := by
  rw [functionNames, NameSet.mem_ofList, List.mem_map]
  simp only [List.mem_filter, decide_eq_true_eq, find?_eq_some_iff]
  constructor
  · rintro ⟨c, ⟨hmem, hkind⟩, hname⟩
    exact ⟨c, ⟨hmem, hname⟩, hkind⟩
  · rintro ⟨c, ⟨hmem, hname⟩, hkind⟩
    exact ⟨c, ⟨hmem, hkind⟩, hname⟩

theorem mem_calls_resolve {functions : NameSet} :
    x ∈ (c.resolve functions).calls ↔ x ∈ c.calls ∨ x ∈ c.ambiguous ∧ x ∈ functions := by
  rw [Callable.resolve, NameSet.mem_union, Callable.resolvedCalls, NameSet.mem_filter,
    NameSet.contains_iff]

theorem find?_resolve_of_find? (hx : r.find? x = some c) :
    r.resolve.find? x = some (c.resolve r.functionNames) := by
  have hmap := find?_mapEntries r (Callable.resolve r.functionNames) (fun _ => rfl) x
  rw [hx] at hmap
  exact hmap

/-- Finishing a registry resolves every record and then aggregates it. -/
theorem find?_finalize (h : r.finalize = (s, none)) (x : String) :
    s.find? x = (r.resolve.find? x).map r.resolve.aggregated := by
  rw [finalize] at h
  cases hagg : r.resolve.aggregate with
  | error e =>
    rw [hagg] at h
    cases h
  | ok s' =>
    rw [hagg] at h
    obtain rfl : s' = s := congrArg Prod.fst h
    rw [aggregate] at hagg
    obtain ⟨-, -, hagg⟩ := exists_of_bind_eq_ok hagg
    obtain rfl := Except.ok.inj hagg
    exact find?_mapEntries _ _ _ x

theorem aggregated_of_ne (hc : c.kind ≠ .interface) : r.aggregated c = c :=
  if_neg hc

/-- What an interface takes over is the union over its known members. -/
theorem mem_aggregated {field : Callable → NameSet} (hfield : field ∈ Callable.inherited)
    (hc : c.kind = .interface) :
    x ∈ field (r.aggregated c) ↔
      ∃ p ∈ c.procedures, ∃ m, r.find? p = some m ∧ x ∈ field m := by
  have hunions : field (r.aggregated c) = .unions ((r.knownMembers c).map field) := by
    rw [aggregated, if_pos hc]
    rcases Callable.mem_inherited.mp hfield with rfl | rfl | rfl | rfl <;> rfl
  simp only [hunions, NameSet.mem_unions, knownMembers, List.mem_map, List.mem_filterMap]
  constructor
  · rintro ⟨_, ⟨m, ⟨p, hp, hm⟩, rfl⟩, hx⟩
    exact ⟨p, hp, m, hm, hx⟩
  · rintro ⟨p, hp, m, hm, hx⟩
    exact ⟨field m, ⟨m, ⟨p, hp, hm⟩, rfl⟩, hx⟩

/-- An interface calls what its known members call. -/
theorem mem_calls_aggregated (hc : c.kind = .interface) :
    x ∈ (r.aggregated c).calls ↔ ∃ p ∈ c.procedures, ∃ m, r.find? p = some m ∧ x ∈ m.calls :=
  mem_aggregated (Callable.mem_inherited.mpr (Or.inl rfl)) hc

end Registry

end CallAtlas
