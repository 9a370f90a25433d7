import CallAtlas.Proofs.FirstOffence
import CallAtlas.Proofs.InterfaceUnions

/-!
# Aggregation in place

Aggregation can be carried out on a registry that is changed in place, in two passes. The first pass
goes through the interfaces and reads the records of their members; the second pass writes what was
read. The same records are read and written, since an interface can be a member, and a member can be
missing. Still the outcome is that of changing all records at once, or none.

* A missing member is found while nothing has been written. What is reported is the first missing
  member of the first interface that has one, and the registry is as it was.
* Otherwise every record is written at most once, as names are distinct, and what is written was
  read before. Neither what an interface held nor the order of the interfaces counts.

## Main definitions

* `Registry.aggregateInPlace` — the two passes
* `Registry.LacksMember` — an interface with a member that is missing
* `Registry.AggregatesTo` — what aggregation changes and what it leaves alone
* `Registry.IsAggregation` — the contract of the two passes

## Main results

* `Registry.aggregate_eq_error_iff` — how aggregation fails
* `Registry.run_aggregateInPlace_of_ok` — the two passes have the outcome of changing all records at
  once
* `Registry.isAggregation_inPlace` — the contract holds
-/

namespace CallAtlas

section

variable {ε α β : Type} {x y : α} {xs : List α}

/-- Of several errors the first counts. -/
theorem mapM_eq_error_iff {f : α → Except ε β} {e : ε} :
    xs.mapM f = .error e ↔
      ∃ x, IsFirst (fun y => ∃ e, f y = .error e) xs x ∧ f x = .error e := by
  induction xs with
  | nil => simp [IsFirst, pure, Except.pure]
  | cons y xs ih =>
    simp only [isFirst_cons_iff, List.mapM_cons]
    cases hy : f y with
    | error e' =>
      constructor
      · intro h
        obtain rfl : e' = e := Except.error.inj h
        exact ⟨y, Or.inl ⟨rfl, e', hy⟩, hy⟩
      · rintro ⟨x, ⟨rfl, -⟩ | ⟨hnot, -⟩, hx⟩
        · obtain rfl : e' = e := Except.error.inj (hy.symm.trans hx)
          rfl
        · exact absurd ⟨e', rfl⟩ hnot
    | ok b =>
      have hrest : (xs.mapM f >>= fun bs => pure (b :: bs)) = .error e ↔ xs.mapM f = .error e :=
        bind_pure_eq_error_iff
      refine hrest.trans (ih.trans ?_)
      constructor
      · rintro ⟨x, hfirst, hx⟩
        refine ⟨x, Or.inr ⟨?_, hfirst⟩, hx⟩
        rintro ⟨e', he'⟩
        cases he'
      · rintro ⟨x, ⟨rfl, -⟩ | ⟨-, hfirst⟩, hx⟩
        · rw [hy] at hx
          cases hx
        · exact ⟨x, hfirst, hx⟩

theorem map_eq_error_iff {z : Except ε α} {g : α → β} {e : ε} :
    z.map g = .error e ↔ z = .error e :=
  bind_pure_eq_error_iff

theorem mapM_map_eq_error_iff {γ : Type} {f : α → Except ε β} {g : α → β → γ} {e : ε} :
    xs.mapM (fun x => (f x).map (g x)) = .error e ↔ xs.mapM f = .error e := by
  simp only [mapM_eq_error_iff, map_eq_error_iff]

/-- What a computation for each member of a list gives, where a failure counts as nothing. -/
theorem eq_filterMap_of_mapM_eq_ok {f : α → Except ε β} {ys : List β} (h : xs.mapM f = .ok ys) :
    ys = xs.filterMap fun x => (f x).toOption := by
  have hall := forall₂_of_mapM_eq_ok h
  clear h
  induction hall with
  | nil => rfl
  | cons hxy _ ih => rw [List.filterMap_cons, hxy, ih]; rfl

end

namespace Registry

variable {r s : Registry} {c : Callable} {e : Error} {x : String}

/-! ## How aggregation fails -/

/-- The record of a procedure that the interface `c` lists. -/
def member (r : Registry) (c : Callable) (p : String) : Except Error Callable :=
  (r.find? p).elim (.error (.unknownProcedure c.name p)) .ok

theorem members_eq_mapM (r : Registry) (c : Callable) :
    r.members c = c.procedures.mapM (r.member c) := by
  rw [members]
  congr 1
  funext p
  rw [member]
  cases r.find? p <;> rfl

/-- Some procedure of the interface `c` has no record. -/
def LacksMember (r : Registry) (c : Callable) : Prop :=
  c.kind = .interface ∧ ∃ p ∈ c.procedures, p ∉ r.names

theorem find?_eq_none_iff : r.find? x = none ↔ x ∉ r.names := by
  rw [find?, List.find?_eq_none, names, List.mem_map]
  simp

theorem member_eq_error_iff {p : String} :
    r.member c p = .error e ↔ p ∉ r.names ∧ e = .unknownProcedure c.name p := by
  rw [member, ← find?_eq_none_iff]
  cases r.find? p with
  | none => simp [eq_comm]
  | some m => simp

/-- The members of an interface cannot be read if one is missing, and the first that is missing is
reported. -/
theorem members_eq_error_iff :
    r.members c = .error e ↔
      ∃ p, IsFirst (· ∉ r.names) c.procedures p ∧ e = .unknownProcedure c.name p := by
  have hfails : (fun p => ∃ e, r.member c p = .error e) = (· ∉ r.names) := by
    funext p
    simp [member_eq_error_iff]
  rw [members_eq_mapM, mapM_eq_error_iff, hfails]
  refine exists_congr fun p => and_congr_right fun hp => ?_
  obtain ⟨-, -, -, hmissing, -⟩ := hp
  rw [member_eq_error_iff, and_iff_right hmissing]

/-- If all members are known, they are read. -/
theorem knownMembers_eq {ms : List Callable} (h : r.members c = .ok ms) :
    r.knownMembers c = ms := by
  have hmember : (fun p => (r.member c p).toOption) = r.find? := by
    funext p
    rw [member]
    cases r.find? p <;> rfl
  rw [members_eq_mapM] at h
  rw [eq_filterMap_of_mapM_eq_ok h, hmember, knownMembers]

theorem exists_members_eq_error_iff :
    (∃ e, r.members c = .error e) ↔ ∃ p ∈ c.procedures, p ∉ r.names := by
  simp only [members_eq_error_iff]
  constructor
  · rintro ⟨e, p, ⟨before, after, hprocedures, hp, -⟩, -⟩
    exact ⟨p, by simp [hprocedures], hp⟩
  · intro h
    obtain ⟨p, hp⟩ := exists_isFirst h
    exact ⟨_, p, hp, rfl⟩

/-- **Aggregation reports the first interface with a missing member**, and of this interface the
first member that is missing. -/
theorem aggregate_eq_error_iff :
    r.aggregate = .error e ↔ ∃ c p, IsFirst r.LacksMember r.entries c ∧
      IsFirst (· ∉ r.names) c.procedures p ∧ e = .unknownProcedure c.name p := by
  have hfails : (fun c => ∃ e, r.members c = .error e) = fun c => ∃ p ∈ c.procedures, p ∉ r.names :=
    funext fun c => propext exists_members_eq_error_iff
  have hlacks : (fun c : Callable => decide (c.kind = .interface) = true ∧
      ∃ p ∈ c.procedures, p ∉ r.names) = r.LacksMember := by
    funext c
    rw [LacksMember, decide_eq_true_eq]
  rw [aggregate, bind_pure_eq_error_iff, mapM_eq_error_iff, hfails, interfaces]
  simp only [isFirst_filter_iff, hlacks, members_eq_error_iff, exists_and_left]

/-! ## The two passes -/

/-- Lets the record of a name absorb members, where it stands. -/
def absorbAt (r : Registry) (u : String × List Callable) : Registry :=
  (r.find? u.1).elim r fun c => r.insert (c.absorb u.2)

/-- Reads the members of an interface from the registry as it stands. -/
def readMembers (c : Callable) : ExceptT Error (StateM Registry) (String × List Callable) := do
  let r ← get
  return (c.name, ← r.members c)

/-- Aggregation on a registry that is changed in place. The first pass reads the members of every
interface; the second pass lets the interfaces absorb them, one after the other. -/
def aggregateInPlace : ExceptT Error (StateM Registry) Unit := do
  let read ← (← get).interfaces.mapM readMembers
  read.forM fun u => modify fun r => r.absorbAt u

theorem run_readMembers (c : Callable) (r : Registry) :
    (readMembers c).run.run r = ((r.members c).map (c.name, ·), r) := by
  change (do return (c.name, ← r.members c) : ExceptT Error (StateM Registry) _).run.run r = _
  cases r.members c <;> rfl

/-- The first pass changes nothing. -/
theorem run_mapM_readMembers (cs : List Callable) (r : Registry) :
    (cs.mapM readMembers).run.run r =
      (cs.mapM fun c => (r.members c).map (c.name, ·), r) := by
  induction cs with
  | nil => rfl
  | cons c cs ih =>
    have hc := run_readMembers c r
    rw [List.mapM_cons, List.mapM_cons]
    cases hm : (r.members c).map (c.name, ·) with
    | error e =>
      rw [hm] at hc
      exact run_bind_of_error hc
    | ok u =>
      rw [hm] at hc
      rw [run_bind_of_ok hc]
      cases hms : cs.mapM fun c => (r.members c).map (c.name, ·) with
      | error e =>
        rw [hms] at ih
        exact run_bind_of_error ih
      | ok us =>
        rw [hms] at ih
        exact run_bind_of_ok ih

/-- The second pass does not fail. -/
theorem run_forM_absorbAt (us : List (String × List Callable)) (r : Registry) :
    (us.forM fun u => modify fun r => r.absorbAt u :
      ExceptT Error (StateM Registry) Unit).run.run r = (.ok (), us.foldl absorbAt r) := by
  induction us generalizing r with
  | nil => rfl
  | cons u us ih =>
    rw [List.foldl_cons, ← ih]
    rfl

/-! ## What the second pass writes -/

theorem eq_of_entries_of_diagnostics (hentries : r.entries = s.entries)
    (hdiagnostics : r.diagnostics = s.diagnostics) : r = s := by
  cases r
  cases s
  congr 1

/-- What a record becomes when the record of a name absorbs members. -/
def absorbed (c : Callable) (u : String × List Callable) : Callable :=
  if c.name = u.1 then c.absorb u.2 else c

theorem upsert_eq_map {cs : List Callable} (hnodup : (cs.map Callable.name).Nodup)
    (hc : c.name ∈ cs.map Callable.name) :
    upsert c cs = cs.map fun d => if d.name = c.name then c else d := by
  rw [upsert, upsertBy_eq_append hnodup, if_pos hc, List.append_nil]

/-- Only the record of the name changes. -/
theorem entries_absorbAt (r : Registry) (u : String × List Callable) :
    (r.absorbAt u).entries = r.entries.map (absorbed · u) := by
  cases hfind : r.find? u.1 with
  | none =>
    have hname : ∀ c ∈ r.entries, absorbed c u = c := by
      intro c hc
      refine if_neg fun h => find?_eq_none_iff.mp hfind ?_
      exact List.mem_map.mpr ⟨c, hc, h⟩
    rw [absorbAt, hfind, List.map_congr_left hname]
    exact (List.map_id' r.entries).symm
  | some c =>
    obtain ⟨hc, hname⟩ := find?_eq_some_iff.mp hfind
    have hmap : (r.insert (c.absorb u.2)).entries =
        r.entries.map fun d => if d.name = c.name then c.absorb u.2 else d :=
      upsert_eq_map r.nodup (List.mem_map.mpr ⟨c, hc, rfl⟩)
    rw [absorbAt, hfind]
    refine hmap.trans (List.map_congr_left fun d hd => ?_)
    by_cases hdc : d.name = c.name
    · rw [List.inj_on_of_nodup_map r.nodup hd hc hdc, if_pos rfl, absorbed, if_pos hname]
    · rw [if_neg hdc, absorbed, if_neg fun h => hdc (h.trans hname.symm)]

theorem diagnostics_absorbAt (r : Registry) (u : String × List Callable) :
    (r.absorbAt u).diagnostics = r.diagnostics := by
  rw [absorbAt]
  cases r.find? u.1 <;> rfl

/-- Every record goes through the second pass on its own. -/
theorem entries_foldl_absorbAt (us : List (String × List Callable)) (r : Registry) :
    (us.foldl absorbAt r).entries = r.entries.map fun c => us.foldl absorbed c := by
  induction us generalizing r with
  | nil => exact (List.map_id' r.entries).symm
  | cons u us ih =>
    rw [List.foldl_cons, ih, entries_absorbAt, List.map_map]
    rfl

theorem diagnostics_foldl_absorbAt (us : List (String × List Callable)) (r : Registry) :
    (us.foldl absorbAt r).diagnostics = r.diagnostics := by
  induction us generalizing r with
  | nil => rfl
  | cons u us ih => rw [List.foldl_cons, ih, diagnostics_absorbAt]

theorem foldl_absorbed_of_notMem {us : List (String × List Callable)}
    (hc : c.name ∉ us.map Prod.fst) : us.foldl absorbed c = c := by
  induction us with
  | nil => rfl
  | cons u us ih =>
    obtain ⟨hu, hus⟩ := not_or.mp (List.mem_cons.not.mp hc)
    rw [List.foldl_cons, absorbed, if_neg hu, ih hus]

/-- Names are distinct, so a record is written once. -/
theorem foldl_absorbed_of_mem {us : List (String × List Callable)} {ms : List Callable}
    (hnodup : (us.map Prod.fst).Nodup) (hc : (c.name, ms) ∈ us) :
    us.foldl absorbed c = c.absorb ms := by
  induction us with
  | nil => cases hc
  | cons u us ih =>
    obtain ⟨hu, hnodup⟩ := List.nodup_cons.mp hnodup
    rcases List.mem_cons.mp hc with rfl | hc
    · rw [List.foldl_cons, absorbed, if_pos rfl]
      exact foldl_absorbed_of_notMem hu
    · have hne : c.name ≠ u.1 := by
        rintro hname
        exact hu (hname ▸ List.mem_map.mpr ⟨_, hc, rfl⟩)
      rw [List.foldl_cons, absorbed, if_neg hne, ih hnodup hc]

/-- The first pass reads the known members of every interface. -/
theorem mem_read_iff {us : List (String × List Callable)}
    (h : (r.interfaces.mapM fun c => (r.members c).map (c.name, ·)) = .ok us)
    {u : String × List Callable} :
    u ∈ us ↔ ∃ c ∈ r.interfaces, u = (c.name, r.knownMembers c) := by
  rw [mem_iff_of_mapM_eq_ok h]
  refine exists_congr fun c => and_congr_right fun hc => ?_
  obtain ⟨_, hread⟩ := exists_mapM_eq_ok_iff.mp ⟨us, h⟩ c hc
  obtain ⟨ms, hms, -⟩ := exists_of_map_eq_ok hread
  rw [hms, knownMembers_eq hms]
  exact ⟨fun hu => (Except.ok.inj hu).symm, fun hu => congrArg Except.ok hu.symm⟩

theorem map_fst_read {cs : List Callable} {us : List (String × List Callable)}
    (h : (cs.mapM fun c => (r.members c).map (c.name, ·)) = .ok us) :
    us.map Prod.fst = cs.map Callable.name := by
  have hall := forall₂_of_mapM_eq_ok h
  clear h
  induction hall with
  | nil => rfl
  | cons hcu _ ih =>
    obtain ⟨ms, -, rfl⟩ := exists_of_map_eq_ok hcu
    rw [List.map_cons, List.map_cons, ih]

/-- After the first pass, the second pass does what changing all records at once does. -/
theorem foldl_absorbAt_eq {us : List (String × List Callable)}
    (h : (r.interfaces.mapM fun c => (r.members c).map (c.name, ·)) = .ok us) :
    us.foldl absorbAt r = r.mapEntries r.aggregated (name_aggregated r) := by
  have hnodup : (us.map Prod.fst).Nodup := by
    rw [map_fst_read h]
    exact (List.filter_sublist.map Callable.name).nodup r.nodup
  have hrecord : ∀ c ∈ r.entries, us.foldl absorbed c = r.aggregated c := by
    intro c hc
    by_cases hkind : c.kind = .interface
    · have hmem : c ∈ r.interfaces := List.mem_filter.mpr ⟨hc, decide_eq_true hkind⟩
      rw [aggregated, if_pos hkind]
      exact foldl_absorbed_of_mem hnodup ((mem_read_iff h).mpr ⟨c, hmem, rfl⟩)
    · rw [aggregated_of_ne hkind]
      refine foldl_absorbed_of_notMem fun hname => ?_
      rw [map_fst_read h] at hname
      obtain ⟨b, hb, hbc⟩ := List.mem_map.mp hname
      obtain ⟨hb, hbkind⟩ := List.mem_filter.mp hb
      rw [List.inj_on_of_nodup_map r.nodup hb hc hbc] at hbkind
      exact hkind (of_decide_eq_true hbkind)
  refine eq_of_entries_of_diagnostics ?_ (diagnostics_foldl_absorbAt us r)
  rw [entries_foldl_absorbAt]
  exact List.map_congr_left hrecord

/-- **The two passes have the outcome of changing all records at once**, or none. -/
theorem run_aggregateInPlace_of_ok (h : r.aggregate = .ok s) :
    aggregateInPlace.run.run r = (.ok (), s) := by
  obtain ⟨hknows, rfl⟩ := aggregate_eq_ok_iff.mp h
  obtain ⟨us, hus⟩ : ∃ us, (r.interfaces.mapM fun c => (r.members c).map (c.name, ·)) = .ok us := by
    refine exists_mapM_eq_ok_iff.mpr fun c hc => ?_
    obtain ⟨hc, hkind⟩ := List.mem_filter.mp hc
    obtain ⟨ms, hms⟩ := exists_members_eq_ok_iff.mpr (hknows c hc (of_decide_eq_true hkind))
    exact ⟨(c.name, ms), by rw [hms]; rfl⟩
  have hread := run_mapM_readMembers r.interfaces r
  rw [hus] at hread
  rw [← foldl_absorbAt_eq hus, ← run_forM_absorbAt]
  change (r.interfaces.mapM readMembers >>= _).run.run r = _
  exact run_bind_of_ok hread

theorem run_aggregateInPlace_of_error (h : r.aggregate = .error e) :
    aggregateInPlace.run.run r = (.error e, r) := by
  have hread := run_mapM_readMembers r.interfaces r
  rw [mapM_map_eq_error_iff.mpr (bind_pure_eq_error_iff.mp h)] at hread
  change (r.interfaces.mapM readMembers >>= _).run.run r = _
  exact run_bind_of_error hread

/-! ## The contract -/

/-- `s` is `r` with every interface as the union of its members in `r`. -/
structure AggregatesTo (r s : Registry) : Prop where
  /-- The names and their order stay. -/
  names_eq : s.names = r.names
  diagnostics_eq : s.diagnostics = r.diagnostics
  /-- What is no interface stays as it is. -/
  find?_of_ne : ∀ c ∈ r.entries, c.kind ≠ .interface → s.find? c.name = some c
  /-- Of an interface, nothing changes but what it takes over: this becomes the union over its
  members as they were, whatever it was before. -/
  find?_of_eq : ∀ c ∈ r.entries, c.kind = .interface → ∃ d, s.find? c.name = some d ∧
    d = { c with
      calls := d.calls
      usesModules := d.usesModules
      subroutines := d.subroutines
      functions := d.functions } ∧ r.IsUnionOfMembers d

/-- What comes of aggregation of `r` in place: a result and the registry afterwards. -/
structure IsAggregation (r : Registry) (outcome : Except Error Unit × Registry) : Prop where
  /-- It fails exactly if a member of an interface is missing. -/
  fails_iff : (∃ e, outcome.1 = .error e) ↔ ∃ c ∈ r.entries, r.LacksMember c
  /-- The first interface with a missing member is named, and the first of these members. -/
  error_eq : ∀ e, outcome.1 = .error e → ∃ c p, IsFirst r.LacksMember r.entries c ∧
    IsFirst (· ∉ r.names) c.procedures p ∧ e = .unknownProcedure c.name p
  /-- If it fails, nothing changes. -/
  unchanged : ∀ e, outcome.1 = .error e → outcome.2 = r
  /-- Otherwise the interfaces change, and nothing else. -/
  aggregatesTo : outcome.1 = .ok () → r.AggregatesTo outcome.2

theorem aggregatesTo_of_aggregate (h : r.aggregate = .ok s) : r.AggregatesTo s where
  names_eq := by
    rw [eq_mapEntries_of_aggregate h, names, names, mapEntries, List.map_map]
    exact List.map_congr_left fun c _ => name_aggregated r c
  diagnostics_eq := by rw [eq_mapEntries_of_aggregate h]; rfl
  find?_of_ne c hc hkind := by
    rw [find?_aggregate h, find?_eq_some_iff.mpr ⟨hc, rfl⟩, Option.map_some, aggregated_of_ne hkind]
  find?_of_eq c hc hkind := by
    have hfind : s.find? c.name = some (r.aggregated c) := by
      rw [find?_aggregate h, find?_eq_some_iff.mpr ⟨hc, rfl⟩, Option.map_some]
    refine ⟨r.aggregated c, hfind, ?_, ?_⟩
    · rw [aggregated, if_pos hkind]
      rfl
    · exact isUnionOfMembers_before h (find?_eq_some_iff.mp hfind).1
        ((kind_aggregated r c).trans hkind)

/-- **Aggregation is exact and atomic.** Carried out in place it fails only for a missing member,
and then changes nothing; otherwise it makes every interface the union of its members as they were.
In place or not, the outcome is the same. -/
theorem isAggregation_inPlace (r : Registry) :
    r.IsAggregation (aggregateInPlace.run.run r) ∧
      (aggregateInPlace.run.run r).1 = r.aggregate.map (fun _ => ()) ∧
      ∀ s, r.aggregate = .ok s → (aggregateInPlace.run.run r).2 = s := by
  cases h : r.aggregate with
  | error e =>
    rw [run_aggregateInPlace_of_error h]
    obtain ⟨c, p, hc, hp, he⟩ := aggregate_eq_error_iff.mp h
    obtain ⟨before, after, hentries, hlacks, -⟩ := hc
    refine ⟨⟨?_, ?_, fun _ _ => rfl, nofun⟩, rfl, nofun⟩
    · exact iff_of_true ⟨e, rfl⟩ ⟨c, by simp [hentries], hlacks⟩
    · intro e' he'
      obtain rfl : e = e' := Except.error.inj he'
      exact aggregate_eq_error_iff.mp h
  | ok s =>
    rw [run_aggregateInPlace_of_ok h]
    refine ⟨⟨?_, nofun, nofun, fun _ => aggregatesTo_of_aggregate h⟩, rfl, fun s' hs' => ?_⟩
    · refine iff_of_false nofun ?_
      rintro ⟨c, hc, hkind, p, hp, hmissing⟩
      obtain ⟨m, hm⟩ := (aggregate_eq_ok_iff.mp h).1 c hc hkind p hp
      rw [find?_eq_none_iff.mpr hmissing] at hm
      cases hm
    · exact Except.ok.inj hs'

end Registry

end CallAtlas
