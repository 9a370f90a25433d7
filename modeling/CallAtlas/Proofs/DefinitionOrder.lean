import CallAtlas.Proofs.CallEdges
import CallAtlas.Proofs.KeyedLists

/-!
# The order of a registry

A corpus is read in two levels: the definitions of a file go into a registry of their own, and the
registries of the files are merged. On both levels a later record replaces an earlier one of the
same name and takes its place. The two levels together amount to one: the registry of a corpus is
what comes out when the records of all definitions, file after file and from the top of each file,
are added one at a time.

The reason is the law of lists with keys, `upsertAllBy_upsertBy`: to add the registry of a file is
to add the records that it was made from.

## Main definitions

* `Registry.upsertAll` — adding records one at a time
* `Registry.definitions` — the definitions of a corpus, in order
* `Registry.IsSequenceOf` — the contract of a registry

## Main results

* `Registry.upsertAll_upsertAll` — adding what was added before
* `Registry.names_upsertAll` — names stand in the order of their first records
* `Registry.exists_records_of_mapM` — both levels as one
* `Registry.isSequenceOf_build` — the contract holds
-/

namespace CallAtlas

open Source (Document Kind Tree)

namespace Registry

variable {c : Callable} {cs : List Callable} {r s : Registry} {kinds : List Kind}
  {trees : List Tree}

/-! ## Adding records -/

/-- Adds records one after the other. -/
def upsertAll (xs cs : List Callable) : List Callable :=
  cs.foldl (fun xs c => upsert c xs) xs

theorem upsertAll_eq_upsertAllBy (xs cs : List Callable) :
    upsertAll xs cs = upsertAllBy Callable.name xs cs :=
  rfl

theorem upsertAll_cons (xs : List Callable) (c : Callable) (cs : List Callable) :
    upsertAll xs (c :: cs) = upsertAll (upsert c xs) cs :=
  rfl

theorem upsertAll_append (xs ys zs : List Callable) :
    upsertAll xs (ys ++ zs) = upsertAll (upsertAll xs ys) zs :=
  List.foldl_append

/-- To add the outcome of adding records is to add the records. -/
theorem upsertAll_upsertAll (xs cs : List Callable) :
    upsertAll xs (upsertAll [] cs) = upsertAll xs cs := by
  simp only [upsertAll_eq_upsertAllBy, upsertAllBy_nil]

/-- Names stand in the order in which they come first. -/
theorem names_upsertAll (cs : List Callable) :
    (upsertAll [] cs).map Callable.name = (cs.map Callable.name).eraseDups := by
  rw [upsertAll_eq_upsertAllBy, map_upsertAllBy]
  simp

/-! ## Registries -/

theorem entries_define (r : Registry) (c : Callable) :
    (r.define c).entries = upsert c r.entries := by
  have hreport : (if c.kind = .other then r.report [.unsupportedKind c.name c.sourceFile]
      else r).entries = r.entries := by
    split <;> rfl
  show upsert c _ = _
  rw [hreport]

theorem entries_mergeOne (r : Registry) (c : Callable) :
    (r.mergeOne c).entries = upsert c r.entries := by
  rw [mergeOne]
  split <;> rfl

/-- When every step adds one record, all records are added in order. -/
theorem entries_foldl {step : Registry → Callable → Registry}
    (hstep : ∀ r c, (step r c).entries = upsert c r.entries) (cs : List Callable) (r : Registry) :
    (cs.foldl step r).entries = upsertAll r.entries cs := by
  induction cs generalizing r with
  | nil => rfl
  | cons c cs ih => rw [List.foldl_cons, ih, hstep, upsertAll_cons]

theorem entries_merge (r s : Registry) : (r.merge s).entries = upsertAll r.entries s.entries :=
  entries_foldl entries_mergeOne s.entries (r.report s.diagnostics)

/-- `r` is what comes out when the records `cs` are added one at a time. -/
structure IsSequenceOf (r : Registry) (cs : List Callable) : Prop where
  /-- Every name stands once, in the order in which the names come first. -/
  names_eq : r.names = (cs.map Callable.name).eraseDups
  /-- The record of a name is the last one with that name. -/
  find?_eq : ∀ x, r.find? x = cs.reverse.find? fun c => c.name = x
  /-- The entries are those of a registry into which the records were inserted. -/
  entries_eq : r.entries = (cs.foldl insert ∅).entries

theorem isSequenceOf_iff : r.IsSequenceOf cs ↔ r.entries = upsertAll [] cs := by
  have hfold : (cs.foldl insert ∅).entries = upsertAll [] cs :=
    entries_foldl (fun _ _ => rfl) cs ∅
  refine ⟨fun h => h.entries_eq.trans hfold, fun h => ⟨?_, fun x => ?_, h.trans hfold.symm⟩⟩
  · rw [names, h, names_upsertAll]
  · have hfind : (cs.foldl insert ∅).find? x = (cs.reverse.find? fun c => c.name = x).or none :=
      find?_foldl (fun r c => find?_insert r c x) cs ∅
    rw [Option.or_none] at hfind
    rw [← hfind, find?, find?, h, hfold]

/-! ## The definitions of a corpus -/

/-- The definitions of the given kinds in a corpus, each with its file: file after file, and in a
file by their numbers, which are in pre-order. -/
def definitions (kinds : List Kind) (trees : List Tree) : List (Tree × Nat) :=
  trees.flatMap fun t =>
    ((List.range t.size).filter fun d => kinds.contains (t.kind d)).map fun d => (t, d)

/-- The records of the definitions that a search finds in the files of a corpus. -/
def records (kinds : List Kind) (trees : List Tree) : Except Error (List Callable) :=
  (trees.flatMap fun t => (t.descendants 0 kinds).map fun d => (t, d)).mapM fun p =>
    Callable.ofDefinition p.1 p.2

theorem records_eq_mapM_definitions (htrees : ∀ t ∈ trees, t.IsPreorder) :
    records kinds trees =
      (definitions kinds trees).mapM fun p => Callable.ofDefinition p.1 p.2 := by
  have hdefs : (trees.flatMap fun t => (t.descendants 0 kinds).map fun d => (t, d)) =
      definitions kinds trees := by
    refine List.flatMap_congr fun t ht => ?_
    rw [Tree.descendants, Tree.subtree_zero (htrees t ht)]
  rw [records, hdefs]

theorem records_cons {t : Tree} {cs ds : List Callable}
    (hcs : (t.descendants 0 kinds).mapM (Callable.ofDefinition t) = .ok cs)
    (hds : records kinds trees = .ok ds) : records kinds (t :: trees) = .ok (cs ++ ds) := by
  rw [records] at hds
  rw [records, List.flatMap_cons, List.mapM_append, List.mapM_map]
  show ((t.descendants 0 kinds).mapM (Callable.ofDefinition t) >>= _) = _
  rw [hcs, hds]
  rfl

/-- The registry of a file holds the records of its definitions. -/
theorem exists_records_of_ofTree {t : Tree} (h : ofTree kinds t = .ok r) :
    ∃ cs, (t.descendants 0 kinds).mapM (Callable.ofDefinition t) = .ok cs ∧
      r.entries = upsertAll [] cs := by
  obtain ⟨cs, hcs, rfl⟩ := exists_of_map_eq_ok h
  exact ⟨cs, hcs, entries_foldl entries_define cs ∅⟩

/-- **Both levels are one**: merging the registries of files adds the records of all definitions, in
order. -/
theorem exists_records_of_mapM {rs : List Registry} (h : trees.mapM (ofTree kinds) = .ok rs)
    (r : Registry) :
    ∃ cs, records kinds trees = .ok cs ∧ (rs.foldl merge r).entries = upsertAll r.entries cs := by
  induction trees generalizing rs r with
  | nil =>
    obtain rfl : [] = rs := Except.ok.inj h
    exact ⟨[], rfl, rfl⟩
  | cons t trees ih =>
    rw [List.mapM_cons] at h
    obtain ⟨s, hs, h⟩ := exists_of_bind_eq_ok h
    obtain ⟨rest, hrest, h⟩ := exists_of_bind_eq_ok h
    obtain rfl : s :: rest = rs := Except.ok.inj h
    obtain ⟨cs, hcs, hentries⟩ := exists_records_of_ofTree hs
    obtain ⟨ds, hds, hfold⟩ := ih hrest (r.merge s)
    refine ⟨cs ++ ds, records_cons hcs hds, ?_⟩
    calc (rest.foldl merge (r.merge s)).entries
      _ = upsertAll (r.merge s).entries ds := hfold
      _ = upsertAll (upsertAll r.entries (upsertAll [] cs)) ds := by rw [entries_merge, hentries]
      _ = upsertAll r.entries (cs ++ ds) := by rw [upsertAll_upsertAll, upsertAll_append]

theorem exists_records_of_build (h : build kinds trees = .ok r) :
    ∃ cs, records kinds trees = .ok cs ∧ r.entries = upsertAll [] cs := by
  obtain ⟨rs, hrs, rfl⟩ := exists_of_map_eq_ok h
  exact exists_records_of_mapM hrs ∅

/-- Every record of the registry of a corpus is the record of some definition of the given kinds. -/
theorem exists_definition_of_mem_build (h : build kinds trees = .ok r) (hc : c ∈ r.entries) :
    ∃ t ∈ trees, ∃ d, t.kind d ∈ kinds ∧ Callable.ofDefinition t d = .ok c := by
  obtain ⟨cs, hcs, hentries⟩ := exists_records_of_build h
  have hfind : r.find? c.name = some c := find?_eq_some_iff.mpr ⟨hc, rfl⟩
  rw [(isSequenceOf_iff.mpr hentries).find?_eq] at hfind
  have hmem : c ∈ cs := List.mem_reverse.mp (List.mem_of_find?_eq_some hfind)
  obtain ⟨⟨t, d⟩, hp, hrecord⟩ := (mem_iff_of_mapM_eq_ok hcs).mp hmem
  obtain ⟨t', ht', hd⟩ := List.mem_flatMap.mp hp
  obtain ⟨d', hd', hpair⟩ := List.mem_map.mp hd
  obtain ⟨rfl, rfl⟩ := Prod.mk.inj hpair
  exact ⟨t', ht', d', List.contains_iff_mem.mp (List.mem_filter.mp hd').2, hrecord⟩

theorem exists_ofDefinition_of_mem_build (h : build kinds trees = .ok r) (hc : c ∈ r.entries) :
    ∃ t ∈ trees, ∃ d, Callable.ofDefinition t d = .ok c := by
  obtain ⟨t, ht, d, -, hrecord⟩ := exists_definition_of_mem_build h hc
  exact ⟨t, ht, d, hrecord⟩

/-- A corpus can be cut in two, and the registries of the parts be merged. -/
theorem exists_merge_of_build_append {ts us : List Tree} (h : build kinds (ts ++ us) = .ok r) :
    ∃ a b, build kinds ts = .ok a ∧ build kinds us = .ok b ∧ (a.merge b).entries = r.entries := by
  obtain ⟨rs, hrs, rfl⟩ := exists_of_map_eq_ok h
  rw [List.mapM_append] at hrs
  obtain ⟨as, has, hrs⟩ := exists_of_bind_eq_ok hrs
  obtain ⟨bs, hbs, hrs⟩ := exists_of_bind_eq_ok hrs
  obtain rfl : as ++ bs = rs := Except.ok.inj hrs
  refine ⟨as.foldl merge ∅, bs.foldl merge ∅, by rw [build, has]; rfl, by rw [build, hbs]; rfl, ?_⟩
  obtain ⟨cs, hcs, hstart⟩ := exists_records_of_mapM hbs ∅
  obtain ⟨ds, hds, hrest⟩ := exists_records_of_mapM hbs (as.foldl merge ∅)
  obtain rfl : cs = ds := Except.ok.inj (hcs.symm.trans hds)
  have hempty : (∅ : Registry).entries = [] := rfl
  rw [entries_merge, hstart, hempty, upsertAll_upsertAll, List.foldl_append, hrest]

/-- **A registry lists every name where it is first defined, with the record of its last
definition**, and a corpus can be read in parts. -/
theorem isSequenceOf_build {docs : List Document}
    (h : build kinds (docs.map Tree.ofDocument) = .ok r) :
    (∃ cs, (definitions kinds (docs.map Tree.ofDocument)).mapM
        (fun p => Callable.ofDefinition p.1 p.2) = .ok cs ∧ r.IsSequenceOf cs) ∧
    ∀ ts us, docs = ts ++ us → ∃ a b, build kinds (ts.map Tree.ofDocument) = .ok a ∧
      build kinds (us.map Tree.ofDocument) = .ok b ∧ (a.merge b).entries = r.entries := by
  have htrees : ∀ t ∈ docs.map Tree.ofDocument, t.IsPreorder := by
    intro t ht
    obtain ⟨doc, -, rfl⟩ := List.mem_map.mp ht
    exact Tree.isPreorder_ofDocument doc
  refine ⟨?_, fun ts us hsplit => ?_⟩
  · obtain ⟨cs, hcs, hentries⟩ := exists_records_of_build h
    rw [records_eq_mapM_definitions htrees] at hcs
    exact ⟨cs, hcs, isSequenceOf_iff.mpr hentries⟩
  · rw [hsplit, List.map_append] at h
    exact exists_merge_of_build_append h

/-- The name `solve` is defined in both files. It stands where the first file defines it. -/
theorem isSequenceOf_build_driver :
    let docs := [Document.driverFile, Document.libraryFile]
    ∃ r, build callableKinds (docs.map Tree.ofDocument) = .ok r ∧
      r.names = ["run", "inner", "solve", "generic", "norm"] ∧
      (∃ cs, (definitions callableKinds (docs.map Tree.ofDocument)).mapM
        (fun p => Callable.ofDefinition p.1 p.2) = .ok cs ∧ r.IsSequenceOf cs) ∧
      ∃ a b, build callableKinds [.ofDocument .driverFile] = .ok a ∧
        build callableKinds [.ofDocument .libraryFile] = .ok b ∧
        (a.merge b).entries = r.entries := by
  intro docs
  have hnames : (build callableKinds (docs.map Tree.ofDocument)).toOption.map names =
      some ["run", "inner", "solve", "generic", "norm"] := by decide +kernel
  cases hr : build callableKinds (docs.map Tree.ofDocument) with
  | error e =>
    rw [hr] at hnames
    cases hnames
  | ok r =>
    rw [hr] at hnames
    obtain ⟨hsequence, hsplit⟩ := isSequenceOf_build hr
    exact ⟨r, rfl, Option.some.inj hnames, hsequence, hsplit [.driverFile] [.libraryFile] rfl⟩

end Registry

end CallAtlas
