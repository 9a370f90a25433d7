import CallAtlas.Proofs.AtomicAggregation
import CallAtlas.Proofs.CorpusReports
import Mathlib.Data.List.Infix

/-!
# Registries and their histories

A registry is made from the empty one by a history: records are inserted, other registries with
histories of their own are merged, references are resolved, interfaces absorb their members. Some of
this can fail, and the history goes on from what the failure has left. The order of the names
decides the numbers in the graphs drawn from a registry, so it matters that no history ever moves a
name.

A registry holds records that know their names. Here it is compared with a table that holds records
under keys (`KeyedRecords`). The table is changed in place, through its keys, and nothing in it ties
a record to its key. Still every history takes the two through the same states. So a record always
stands under its own name, and what is known of registries holds of the table.

The comparison is made once for each operation. `RegistryOps.Agrees` carries it to histories, merged
histories included.

## Main definitions

* `RegistryChange`, `RegistryOps` — operations, and what carries them out
* `RegistryOps.ofHistory` — the outcome of a history
* `KeyedRecords` — records under keys, changed in place
* `KeyedRecords.KeepsOrder` — what a history can rely on

## Main results

* `RegistryOps.Agrees.change`, `RegistryOps.Agrees.after` — one comparison for all histories
* `Registry.names_change`, `Registry.diagnostics_change` — an operation only appends
* `KeyedRecords.agrees_keyed` — registries and tables agree
* `KeyedRecords.keepsOrder_ofHistory` — no history moves or renames a record
-/

namespace CallAtlas

/-! ## Histories -/

/-- An operation on a registry. A registry that is merged is given by its own history. -/
inductive RegistryChange where
  | insert (c : Callable)
  | merge (other : List RegistryChange)
  | resolve
  | aggregate
  | finalize

/-- The operations on registries of some make. Those that can fail tell the error beside the
registry that is left. -/
structure RegistryOps (σ : Type) where
  empty : σ
  insert : σ → Callable → σ
  merge : σ → σ → σ
  resolve : σ → σ
  aggregate : σ → σ × Option Error
  finalize : σ → σ × Option Error

namespace RegistryOps

variable {σ τ : Type} {ops : RegistryOps σ} {ops' : RegistryOps τ} {f : σ → τ}

mutual

/-- Carries out an operation. -/
def change (ops : RegistryOps σ) (s : σ) : RegistryChange → σ × Option Error
  | .insert c => (ops.insert s c, none)
  | .merge other => (ops.merge s (ops.after ops.empty other), none)
  | .resolve => (ops.resolve s, none)
  | .aggregate => ops.aggregate s
  | .finalize => ops.finalize s

/-- Carries out operations one after the other, whether they fail or not. -/
def after (ops : RegistryOps σ) (s : σ) : List RegistryChange → σ
  | [] => s
  | c :: cs => ops.after (ops.change s c).1 cs

end

/-- What a history makes of the empty registry. -/
def ofHistory (ops : RegistryOps σ) (cs : List RegistryChange) : σ :=
  ops.after ops.empty cs

/-- A list to which every operation only appends is a beginning of what any history makes of it. -/
theorem isPrefix_after {α : Type} {list : σ → List α}
    (hstep : ∀ s c, list s <+: list (ops.change s c).1) (s : σ) (cs : List RegistryChange) :
    list s <+: list (ops.after s cs) := by
  induction cs generalizing s with
  | nil => exact List.prefix_refl _
  | cons c cs ih => exact (hstep s c).trans (ih _)

/-- Both carry out every operation in the same way, up to `f`. -/
structure Agrees (ops : RegistryOps σ) (ops' : RegistryOps τ) (f : σ → τ) : Prop where
  empty : ops'.empty = f ops.empty
  insert : ∀ s c, ops'.insert (f s) c = f (ops.insert s c)
  merge : ∀ s t, ops'.merge (f s) (f t) = f (ops.merge s t)
  resolve : ∀ s, ops'.resolve (f s) = f (ops.resolve s)
  aggregate : ∀ s, ops'.aggregate (f s) = (ops.aggregate s).map f id
  finalize : ∀ s, ops'.finalize (f s) = (ops.finalize s).map f id

mutual

theorem Agrees.change (h : ops.Agrees ops' f) (s : σ) :
    ∀ c, ops'.change (f s) c = (ops.change s c).map f id
  | .insert c => congrArg (·, none) (h.insert s c)
  | .merge other => by
    have hother := h.after ops.empty other
    rw [← h.empty] at hother
    show (ops'.merge (f s) (ops'.after ops'.empty other), none) = _
    rw [hother, h.merge]
    rfl
  | .resolve => congrArg (·, none) (h.resolve s)
  | .aggregate => h.aggregate s
  | .finalize => h.finalize s

theorem Agrees.after (h : ops.Agrees ops' f) (s : σ) :
    ∀ cs, ops'.after (f s) cs = f (ops.after s cs)
  | [] => rfl
  | c :: cs => by
    show ops'.after (ops'.change (f s) c).1 cs = _
    rw [h.change s c]
    exact h.after (ops.change s c).1 cs

end

theorem Agrees.ofHistory (h : ops.Agrees ops' f) (cs : List RegistryChange) :
    ops'.ofHistory cs = f (ops.ofHistory cs) := by
  rw [RegistryOps.ofHistory, h.empty]
  exact h.after ops.empty cs

end RegistryOps

namespace Registry

variable {r s : Registry}

/-- The registry after aggregation. If that fails, the registry stays as it is. -/
def attemptAggregate (r : Registry) : Registry × Option Error :=
  match r.aggregate with
  | .ok s => (s, none)
  | .error e => (r, some e)

/-- The operations on registries. -/
def ops : RegistryOps Registry where
  empty := ∅
  insert := insert
  merge := merge
  resolve := resolve
  aggregate := attemptAggregate
  finalize := finalize

/-! ## What an operation appends -/

theorem names_resolve (r : Registry) : r.resolve.names = r.names :=
  List.map_map

theorem attemptAggregate_cases (r : Registry) :
    (∃ s, r.aggregate = .ok s ∧ r.attemptAggregate = (s, none)) ∨
      ∃ e, r.aggregate = .error e ∧ r.attemptAggregate = (r, some e) := by
  cases h : r.aggregate with
  | ok s => exact Or.inl ⟨s, rfl, by rw [attemptAggregate, h]⟩
  | error e => exact Or.inr ⟨e, rfl, by rw [attemptAggregate, h]⟩

theorem finalize_eq (r : Registry) : r.finalize = r.resolve.attemptAggregate :=
  rfl

/-- Aggregation keeps names and reports, whether it fails or not. -/
theorem names_attemptAggregate (r : Registry) : r.attemptAggregate.1.names = r.names := by
  rcases r.attemptAggregate_cases with ⟨s, hs, h⟩ | ⟨e, -, h⟩
  · rw [h, (aggregatesTo_of_aggregate hs).names_eq]
  · rw [h]

theorem diagnostics_attemptAggregate (r : Registry) :
    r.attemptAggregate.1.diagnostics = r.diagnostics := by
  rcases r.attemptAggregate_cases with ⟨s, hs, h⟩ | ⟨e, -, h⟩
  · rw [h, (aggregatesTo_of_aggregate hs).diagnostics_eq]
  · rw [h]

/-- An operation leaves the names that are there in their places. -/
theorem names_change (r : Registry) (c : RegistryChange) :
    r.names <+: (ops.change r c).1.names := by
  cases c with
  | insert c =>
    show r.names <+: (upsert c r.entries).map Callable.name
    rw [names_upsert]
    split
    · exact List.prefix_refl _
    · exact List.prefix_append _ _
  | merge other =>
    show r.names <+: (r.merge _).entries.map Callable.name
    rw [entries_merge, upsertAll_eq_upsertAllBy, map_upsertAllBy]
    exact List.prefix_append _ _
  | resolve =>
    show r.names <+: r.resolve.names
    rw [names_resolve]
  | aggregate =>
    show r.names <+: r.attemptAggregate.1.names
    rw [names_attemptAggregate]
  | finalize =>
    show r.names <+: r.finalize.1.names
    rw [finalize_eq, names_attemptAggregate, names_resolve]

/-- An operation leaves the reports that are there in their places. -/
theorem diagnostics_change (r : Registry) (c : RegistryChange) :
    r.diagnostics <+: (ops.change r c).1.diagnostics := by
  cases c with
  | insert c => exact List.prefix_refl _
  | merge other =>
    show r.diagnostics <+: (r.merge _).diagnostics
    rw [diagnostics_merge, List.append_assoc]
    exact List.prefix_append _ _
  | resolve => exact List.prefix_refl _
  | aggregate =>
    show r.diagnostics <+: r.attemptAggregate.1.diagnostics
    rw [diagnostics_attemptAggregate]
  | finalize =>
    show r.diagnostics <+: r.finalize.1.diagnostics
    rw [finalize_eq, diagnostics_attemptAggregate]
    exact List.prefix_refl _

end Registry

/-! ## Records under keys -/

/-- Records under keys, in order, with the reports about them. -/
structure KeyedRecords where
  entries : List (String × Callable)
  diagnostics : List Diagnostic

namespace KeyedRecords

/-- The keys, in order. -/
def keys (k : KeyedRecords) : List String :=
  k.entries.map Prod.fst

/-- The records, in order. -/
def records (k : KeyedRecords) : List Callable :=
  k.entries.map Prod.snd

/-- The record under a key. -/
def get? (k : KeyedRecords) (x : String) : Option Callable :=
  (k.entries.find? fun e => e.1 = x).map Prod.snd

/-- Puts a record under a key: where the key stands, or at the end. -/
def put (k : KeyedRecords) (e : String × Callable) : KeyedRecords :=
  { k with entries := upsertBy Prod.fst e k.entries }

/-- Appends reports. -/
def report (k : KeyedRecords) (ds : List Diagnostic) : KeyedRecords :=
  { k with diagnostics := k.diagnostics ++ ds }

/-- Puts in the record of another table under its key there, reporting a key that is taken. -/
def mergeOne (k : KeyedRecords) (e : String × Callable) : KeyedRecords :=
  match k.get? e.1 with
  | none => k.put e
  | some previous => (k.put e).report [.duplicateSymbol e.1 previous.sourceFile e.2.sourceFile]

/-- Takes over the reports and then the records of another table. -/
def merge (k l : KeyedRecords) : KeyedRecords :=
  l.entries.foldl mergeOne (k.report l.diagnostics)

/-- The names of all functions. -/
def functionNames (k : KeyedRecords) : NameSet :=
  .ofList ((k.records.filter fun c => c.kind = .function).map Callable.name)

/-- Resolves the references of every record, where it stands. -/
def resolve (k : KeyedRecords) : KeyedRecords :=
  { k with entries := k.entries.map fun e => (e.1, e.2.resolve k.functionNames) }

/-- The records of the procedures that an interface lists, looked up by key. -/
def members (k : KeyedRecords) (c : Callable) : Except Error (List Callable) :=
  c.procedures.mapM fun p => (k.get? p).elim (.error (.unknownProcedure c.name p)) .ok

/-- Reads the members of an interface from the table as it stands. -/
def readMembers (c : Callable) : ExceptT Error (StateM KeyedRecords) (String × List Callable) := do
  let k ← get
  return (c.name, ← k.members c)

/-- Lets the record under a key absorb members. -/
def absorbAt (k : KeyedRecords) (u : String × List Callable) : KeyedRecords :=
  (k.get? u.1).elim k fun c => k.put (u.1, c.absorb u.2)

/-- Aggregation in place: one pass reads, and one pass writes. -/
def aggregate : ExceptT Error (StateM KeyedRecords) Unit := do
  let k ← get
  let read ← (k.records.filter fun c => c.kind = .interface).mapM readMembers
  read.forM fun u => modify fun k => k.absorbAt u

/-- Resolution in place, and then aggregation. -/
def finalize : ExceptT Error (StateM KeyedRecords) Unit := do
  modify resolve
  aggregate

/-- The table that a program leaves, and its error. -/
def outcome (x : ExceptT Error (StateM KeyedRecords) Unit) (k : KeyedRecords) :
    KeyedRecords × Option Error :=
  match x.run.run k with
  | (.ok _, l) => (l, none)
  | (.error e, l) => (l, some e)

/-- The operations on tables. -/
def ops : RegistryOps KeyedRecords where
  empty := ⟨[], []⟩
  insert k c := k.put (c.name, c)
  merge := merge
  resolve := resolve
  aggregate := outcome aggregate
  finalize := outcome finalize

end KeyedRecords

/-! ## Registries as tables -/

/-- The records of a registry under their names. -/
def Registry.keyed (r : Registry) : KeyedRecords :=
  ⟨r.entries.map fun c => (c.name, c), r.diagnostics⟩

namespace KeyedRecords

open Registry (keyed)

variable {r s : Registry} {α β : Type}

theorem keys_keyed (r : Registry) : r.keyed.keys = r.names :=
  List.map_map

theorem records_keyed (r : Registry) : r.keyed.records = r.entries := by
  rw [records, keyed, List.map_map]
  exact List.map_id r.entries

theorem get?_keyed (r : Registry) (x : String) : r.keyed.get? x = r.find? x := by
  rw [get?, keyed, List.find?_map, Option.map_map]
  exact Option.map_id'

theorem put_keyed (r : Registry) (c : Callable) :
    r.keyed.put (c.name, c) = (r.insert c).keyed := by
  have hentries : upsertBy Prod.fst (c.name, c) (r.entries.map fun c => (c.name, c)) =
      (Registry.upsert c r.entries).map fun c => (c.name, c) := by
    rw [upsertBy_map Prod.fst fun c : Callable => (c.name, c), Registry.upsert]
    rfl
  exact congrArg (KeyedRecords.mk · r.diagnostics) hentries

theorem mergeOne_keyed (r : Registry) (c : Callable) :
    r.keyed.mergeOne (c.name, c) = (r.mergeOne c).keyed := by
  rw [mergeOne, get?_keyed, put_keyed, Registry.mergeOne]
  cases r.find? c.name <;> rfl

theorem merge_keyed (r s : Registry) : r.keyed.merge s.keyed = (r.merge s).keyed := by
  have hfold : ∀ (cs : List Callable) (r : Registry),
      (cs.map fun c => (c.name, c)).foldl mergeOne r.keyed =
        (cs.foldl Registry.mergeOne r).keyed := by
    intro cs
    induction cs with
    | nil => exact fun r => rfl
    | cons c cs ih =>
      intro r
      rw [List.map_cons, List.foldl_cons, mergeOne_keyed, ih]
      rfl
  exact hfold s.entries (r.report s.diagnostics)

theorem functionNames_keyed (r : Registry) : r.keyed.functionNames = r.functionNames := by
  rw [functionNames, records_keyed, Registry.functionNames]

theorem resolve_keyed (r : Registry) : r.keyed.resolve = r.resolve.keyed := by
  have hentries : (r.keyed.entries.map fun e => (e.1, e.2.resolve r.keyed.functionNames)) =
      r.resolve.keyed.entries := by
    show _ = (r.entries.map (Callable.resolve r.functionNames)).map fun c => (c.name, c)
    rw [functionNames_keyed, keyed, List.map_map, List.map_map]
    rfl
  exact congrArg (KeyedRecords.mk · r.diagnostics) hentries

theorem members_keyed (r : Registry) (c : Callable) : r.keyed.members c = r.members c := by
  rw [Registry.members_eq_mapM, members]
  simp only [get?_keyed]
  rfl

theorem absorbAt_keyed (r : Registry) (u : String × List Callable) :
    r.keyed.absorbAt u = (r.absorbAt u).keyed := by
  rw [absorbAt, get?_keyed, Registry.absorbAt]
  cases hfind : r.find? u.1 with
  | none => rfl
  | some c =>
    -- The record under the key has it as its name, and keeps it.
    have hname : (c.absorb u.2).name = u.1 := (Registry.find?_eq_some_iff.mp hfind).2
    have hput := put_keyed r (c.absorb u.2)
    rw [hname] at hput
    exact hput

/-! ## Programs in place -/

/-- A program on tables does what a program on registries does. -/
def Simulates (x : ExceptT Error (StateM KeyedRecords) α) (y : ExceptT Error (StateM Registry) α) :
    Prop :=
  ∀ r : Registry, x.run.run r.keyed = (y.run.run r).map id keyed

namespace Simulates

variable {x : ExceptT Error (StateM KeyedRecords) α} {y : ExceptT Error (StateM Registry) α}

theorem bind {f : α → ExceptT Error (StateM KeyedRecords) β}
    {g : α → ExceptT Error (StateM Registry) β} (hxy : Simulates x y)
    (hfg : ∀ a, Simulates (f a) (g a)) : Simulates (x >>= f) (y >>= g) := by
  intro r
  have hx := hxy r
  rcases hy : y.run.run r with ⟨e | a, s⟩
  · rw [hy] at hx
    rw [run_bind_of_error hx, run_bind_of_error hy]
    rfl
  · rw [hy] at hx
    rw [run_bind_of_ok hx, run_bind_of_ok hy]
    exact hfg a s

theorem get_bind {f : KeyedRecords → ExceptT Error (StateM KeyedRecords) β}
    {g : Registry → ExceptT Error (StateM Registry) β} (hfg : ∀ r, Simulates (f r.keyed) (g r)) :
    Simulates (get >>= f) (get >>= g) :=
  fun r => hfg r r

theorem pure (a : α) : Simulates (Pure.pure a) (Pure.pure a) :=
  fun _ => rfl

theorem liftM (e : Except Error α) : Simulates (MonadLift.monadLift e) (MonadLift.monadLift e) := by
  intro r
  cases e <;> rfl

theorem modify {f : KeyedRecords → KeyedRecords} {g : Registry → Registry}
    (hfg : ∀ r, f r.keyed = (g r).keyed) :
    Simulates (MonadState.modifyGet fun k => ((), f k)) (MonadState.modifyGet fun r => ((), g r)) :=
  fun r => congrArg (Except.ok (), ·) (hfg r)

theorem mapM {γ : Type} {f : γ → ExceptT Error (StateM KeyedRecords) α}
    {g : γ → ExceptT Error (StateM Registry) α} (hfg : ∀ c, Simulates (f c) (g c)) (cs : List γ) :
    Simulates (cs.mapM f) (cs.mapM g) := by
  induction cs with
  | nil => exact pure []
  | cons c cs ih =>
    rw [List.mapM_cons, List.mapM_cons]
    exact (hfg c).bind fun a => ih.bind fun as => pure (a :: as)

theorem forM {γ : Type} {f : γ → ExceptT Error (StateM KeyedRecords) PUnit}
    {g : γ → ExceptT Error (StateM Registry) PUnit} (hfg : ∀ c, Simulates (f c) (g c))
    (cs : List γ) : Simulates (cs.forM f) (cs.forM g) := by
  induction cs with
  | nil => exact pure ()
  | cons c cs ih => exact (hfg c).bind fun _ => ih

end Simulates

theorem simulates_readMembers (c : Callable) :
    Simulates (readMembers c) (Registry.readMembers c) := by
  refine Simulates.get_bind fun r => ?_
  rw [members_keyed]
  exact (Simulates.liftM (r.members c)).bind fun ms => Simulates.pure (c.name, ms)

theorem simulates_aggregate : Simulates aggregate Registry.aggregateInPlace := by
  refine Simulates.get_bind fun r => ?_
  rw [records_keyed]
  refine (Simulates.mapM simulates_readMembers r.interfaces).bind fun read => ?_
  exact Simulates.forM (fun u => Simulates.modify fun r => absorbAt_keyed r u) read

theorem outcome_aggregate (r : Registry) :
    outcome aggregate r.keyed = r.attemptAggregate.map keyed id := by
  rcases r.attemptAggregate_cases with ⟨s, hs, h⟩ | ⟨e, he, h⟩
  · rw [outcome, simulates_aggregate, Registry.run_aggregateInPlace_of_ok hs, h]
    rfl
  · rw [outcome, simulates_aggregate, Registry.run_aggregateInPlace_of_error he, h]
    rfl

theorem outcome_finalize (r : Registry) : outcome finalize r.keyed = r.finalize.map keyed id := by
  have hresolve : outcome finalize r.keyed = outcome aggregate r.keyed.resolve := rfl
  rw [hresolve, resolve_keyed, outcome_aggregate, Registry.finalize_eq]

/-- **Registries and tables agree** on every operation. -/
theorem agrees_keyed : Registry.ops.Agrees ops keyed where
  empty := rfl
  insert := put_keyed
  merge := merge_keyed
  resolve := resolve_keyed
  aggregate := outcome_aggregate
  finalize := outcome_finalize

/-! ## The contract -/

/-- `l` is the table `k` after records were put in under distinct keys: a record that is there is
replaced where it stands, and the others go to the end. -/
def TakesIn (k : KeyedRecords) (new : List (String × Callable)) (l : KeyedRecords) : Prop :=
  l.entries = k.entries.map (fun e => (new.find? fun e' => e'.1 = e.1).getD e) ++
    new.filter fun e => e.1 ∉ k.keys

/-- What every operation on the table `k` respects. -/
structure KeepsOrder (k : KeyedRecords) : Prop where
  /-- Every record stands under its own name. -/
  name_eq : ∀ e ∈ k.entries, e.2.name = e.1
  nodup_keys : k.keys.Nodup
  /-- Keys and reports are only appended, by an operation and by any history. -/
  keys_change : ∀ c, k.keys <+: (ops.change k c).1.keys
  keys_after : ∀ cs, k.keys <+: (ops.after k cs).keys
  diagnostics_change : ∀ c, k.diagnostics <+: (ops.change k c).1.diagnostics
  diagnostics_after : ∀ cs, k.diagnostics <+: (ops.after k cs).diagnostics
  /-- Insertion and merge replace in place. -/
  takesIn_insert : ∀ c, k.TakesIn [(c.name, c)] (ops.change k (.insert c)).1
  takesIn_merge : ∀ other, k.TakesIn (ops.ofHistory other).entries (ops.change k (.merge other)).1
  /-- Resolution changes two fields of the records, and nothing else. -/
  resolve_entries : List.Forall₂ (fun e e' => e'.1 = e.1 ∧ e'.2 =
      { e.2 with calls := e'.2.calls, arrayAccesses := e'.2.arrayAccesses })
    k.entries (ops.change k .resolve).1.entries
  resolve_diagnostics : (ops.change k .resolve).1.diagnostics = k.diagnostics
  /-- If finishing fails, it leaves what resolution leaves. -/
  finalize_error : ∀ e, (ops.change k .finalize).2 = some e →
    (ops.change k .finalize).1 = (ops.change k .resolve).1

theorem entries_mergeOne (k : KeyedRecords) (e : String × Callable) :
    (k.mergeOne e).entries = upsertBy Prod.fst e k.entries := by
  rw [mergeOne]
  cases k.get? e.1 <;> rfl

theorem entries_merge (k l : KeyedRecords) :
    (k.merge l).entries = upsertAllBy Prod.fst k.entries l.entries := by
  have hfold : ∀ (es : List (String × Callable)) (k : KeyedRecords),
      (es.foldl mergeOne k).entries = upsertAllBy Prod.fst k.entries es := by
    intro es
    induction es with
    | nil => exact fun k => rfl
    | cons e es ih =>
      intro k
      rw [List.foldl_cons, ih, entries_mergeOne, upsertAllBy_cons]
  exact hfold l.entries (k.report l.diagnostics)

theorem nodup_keys_keyed (r : Registry) : r.keyed.keys.Nodup := by
  rw [keys_keyed]
  exact r.nodup

theorem keepsOrder_keyed (r : Registry) : r.keyed.KeepsOrder where
  name_eq e he := by
    obtain ⟨c, -, rfl⟩ := List.mem_map.mp he
    rfl
  nodup_keys := nodup_keys_keyed r
  keys_change c := by
    rw [agrees_keyed.change, Prod.map_fst, keys_keyed, keys_keyed]
    exact r.names_change c
  keys_after cs := by
    rw [agrees_keyed.after, keys_keyed, keys_keyed]
    exact RegistryOps.isPrefix_after Registry.names_change r cs
  diagnostics_change c := by
    rw [agrees_keyed.change]
    exact r.diagnostics_change c
  diagnostics_after cs := by
    rw [agrees_keyed.after]
    exact RegistryOps.isPrefix_after Registry.diagnostics_change r cs
  takesIn_insert c := by
    have hnew : ([(c.name, c)].map Prod.fst).Nodup := List.nodup_singleton _
    exact upsertAllBy_eq_append (nodup_keys_keyed r) hnew
  takesIn_merge other := by
    show (r.keyed.merge (ops.ofHistory other)).entries = _
    rw [entries_merge]
    refine upsertAllBy_eq_append (nodup_keys_keyed r) ?_
    rw [agrees_keyed.ofHistory]
    exact nodup_keys_keyed _
  resolve_entries :=
    List.forall₂_map_right_iff.mpr (List.forall₂_same.mpr fun _ _ => ⟨rfl, rfl⟩)
  resolve_diagnostics := rfl
  finalize_error e he := by
    rw [agrees_keyed.change, Prod.map_snd] at he
    rw [agrees_keyed.change, agrees_keyed.change, Prod.map_fst, Prod.map_fst]
    show r.finalize.1.keyed = r.resolve.keyed
    replace he : r.finalize.2 = some e := he
    rw [Registry.finalize_eq] at he ⊢
    rcases r.resolve.attemptAggregate_cases with ⟨s, -, h⟩ | ⟨e', -, h⟩
    · rw [h] at he
      cases he
    · rw [h]

/-- **No history moves or renames a record.** Carried out in place, through keys, it keeps every
record under its own name, only appends names and reports, and takes the table through the states of
the registry. -/
theorem keepsOrder_ofHistory (cs : List RegistryChange) :
    (ops.ofHistory cs).KeepsOrder ∧ ops.ofHistory cs = (Registry.ops.ofHistory cs).keyed ∧
      ∀ c, ops.change (ops.ofHistory cs) c =
        (Registry.ops.change (Registry.ops.ofHistory cs) c).map keyed id := by
  rw [agrees_keyed.ofHistory]
  exact ⟨keepsOrder_keyed _, rfl, agrees_keyed.change _⟩

/-- The interface `generic` lists a procedure that is not there. A merge replaces `run` and adds
`norm`. -/
def stumbling : List RegistryChange :=
  let run : Callable :=
    { name := "run", kind := .subroutine, sourceFile := "a.f90", firstLine := 1, lineCount := 9
      ambiguous := .ofList ["norm", "grid"] }
  [.insert run,
    .insert { run with name := "generic", kind := .interface, procedures := ["run", "absent"] },
    .merge [
      .insert { run with name := "norm", kind := .function, sourceFile := "b.f90" },
      .insert { run with sourceFile := "b.f90" }]]

theorem keepsOrder_ofHistory_stumbling :
    let k := ops.ofHistory stumbling
    k.keys = ["run", "generic", "norm"] ∧
      k.diagnostics = [.duplicateSymbol "run" "a.f90" "b.f90"] ∧
      (ops.change k .finalize).2 = some (.unknownProcedure "generic" "absent") ∧
      (ops.change k .finalize).1 = (ops.change k .resolve).1 ∧ k.KeepsOrder := by
  intro k
  have herror : (ops.change k .finalize).2 = some (.unknownProcedure "generic" "absent") := by
    decide +kernel
  obtain ⟨hkeeps, -, -⟩ := keepsOrder_ofHistory stumbling
  exact ⟨by decide +kernel, by decide +kernel, herror, hkeeps.finalize_error _ herror, hkeeps⟩

end KeyedRecords

end CallAtlas
