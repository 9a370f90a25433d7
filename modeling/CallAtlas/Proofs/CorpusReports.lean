import CallAtlas.Proofs.DefinedNames

/-!
# What is reported about a corpus

While a registry is built, two things are reported: definitions of kinds of which only name and
place are kept, and names that several files define. The reports come up in two places. Reading a
file reports the kinds, at every definition, whatever becomes of its record. Merging a file reports
the names, once for each name of the file, and compares with the record that is found at that
moment. That record is the one of the latest file before, since each merge replaces it.

Here the reports are written down from the syntax trees alone.

## Main definitions

* `Registry.definedNames` — the names that a file defines
* `Registry.unsupportedIn`, `Registry.repeatedIn` — what there is to report about one file
* `Registry.reports` — what there is to report about a corpus

## Main results

* `Registry.diagnostics_foldl_define`, `Registry.diagnostics_merge` — what the two passes report
* `Registry.Tells.merge` — a merged registry knows the latest file of every name
* `Registry.diagnostics_foldl_merge` — the reports of a run, file by file
* `Registry.diagnostics_build` — the reports are complete and exact
-/

namespace CallAtlas

open Source (Document Kind Tree)

/-! ## Records and their files -/

theorem Callable.sourceFile_of_ofDefinition {t : Tree} {d : Nat} {c : Callable}
    (h : ofDefinition t d = .ok c) : c.sourceFile = t.file := by
  obtain ⟨name, -, ⟨-, rfl⟩ | ⟨kind, scope, -, -, hclassified⟩⟩ := ofDefinition_cases h
  · rfl
  · exact (Definition.classified_eq_ok hclassified).2.2.1

/-- Only statements outside the four sorts get the sort `other`. -/
theorem Callable.IsRecordOf.kind_eq_other_iff {t : Tree} {d : Nat} {c : Callable}
    (hc : c.IsRecordOf t d) : c.kind = .other ↔ (CallableKind.classify (t.kind d)).isNone := by
  rw [hc.kind_eq]
  cases t.kind d <;> decide

/-- Whether the name `x` is reported to be defined in several files. -/
def Diagnostic.repeats (x : String) : Diagnostic → Bool
  | .duplicateSymbol name _ _ => name = x
  | .unsupportedKind _ _ => false

namespace Registry

variable {r s : Registry} {kinds : List Kind} {t : Tree} {trees earlier : List Tree}
  {cs : List Callable} {x : String}

/-! ## What there is to report -/

/-- The definitions of the given kinds in a file, in pre-order. -/
def definitionNodes (kinds : List Kind) (t : Tree) : List Nat :=
  (List.range t.size).filter fun d => kinds.contains (t.kind d)

/-- The names of the definitions in a file, in pre-order and with repetitions. -/
def definedNames (kinds : List Kind) (t : Tree) : List String :=
  (definitionNodes kinds t).filterMap fun d => (Definition.nameOf t d).toOption

/-- One report for each definition of a kind outside the four sorts. -/
def unsupportedIn (kinds : List Kind) (t : Tree) : List Diagnostic :=
  ((definitionNodes kinds t).filter fun d => (CallableKind.classify (t.kind d)).isNone).filterMap
    fun d => (Definition.nameOf t d).toOption.map fun x => .unsupportedKind x t.file

/-- The file that defines a name and comes after all others that do. -/
def latestFile? (kinds : List Kind) (earlier : List Tree) (x : String) : Option String :=
  (earlier.reverse.find? fun t => (definedNames kinds t).contains x).map Tree.file

/-- One report for each name of a file that an earlier file defines too, in the order in which the
names come first in the file. -/
def repeatedIn (kinds : List Kind) (earlier : List Tree) (t : Tree) : List Diagnostic :=
  (definedNames kinds t).eraseDups.filterMap fun x =>
    (latestFile? kinds earlier x).map fun previous => .duplicateSymbol x previous t.file

/-- The reports about files that come after `earlier`, file by file. -/
def reports (kinds : List Kind) : (earlier trees : List Tree) → List Diagnostic
  | _, [] => []
  | earlier, t :: trees =>
    unsupportedIn kinds t ++ repeatedIn kinds earlier t ++ reports kinds (earlier ++ [t]) trees

/-! ## Reading a file -/

theorem diagnostics_define (r : Registry) (c : Callable) :
    (r.define c).diagnostics =
      r.diagnostics ++ if c.kind = .other then [.unsupportedKind c.name c.sourceFile] else [] := by
  rw [define]
  split
  · rfl
  · exact (List.append_nil _).symm

theorem diagnostics_foldl_define (cs : List Callable) (r : Registry) :
    (cs.foldl define r).diagnostics =
      r.diagnostics ++ (cs.filter fun c => c.kind = .other).map fun c =>
        .unsupportedKind c.name c.sourceFile := by
  induction cs generalizing r with
  | nil => exact (List.append_nil _).symm
  | cons c cs ih =>
    rw [List.foldl_cons, ih, diagnostics_define, List.append_assoc]
    by_cases hc : c.kind = .other <;> simp [hc]

/-- `s` is what reading the file `t` gives. -/
structure IsReadFrom (kinds : List Kind) (t : Tree) (s : Registry) : Prop where
  names_eq : s.names = (definedNames kinds t).eraseDups
  sourceFile_eq : ∀ c ∈ s.entries, c.sourceFile = t.file
  diagnostics_eq : s.diagnostics = unsupportedIn kinds t

theorem map_name_of_forall₂ {ds : List Nat}
    (h : List.Forall₂ (fun d c => Callable.IsRecordOf c t d) ds cs) :
    cs.map Callable.name = ds.filterMap fun d => (Definition.nameOf t d).toOption := by
  induction h with
  | nil => rfl
  | cons hc _ ih => simp [hc.nameOf_eq, Except.toOption, ih]

theorem map_unsupported_of_forall₂ {ds : List Nat}
    (h : List.Forall₂ (fun d c => Callable.IsRecordOf c t d ∧ c.sourceFile = t.file) ds cs) :
    ((cs.filter fun c => c.kind = .other).map fun c =>
        Diagnostic.unsupportedKind c.name c.sourceFile) =
      (ds.filter fun d => (CallableKind.classify (t.kind d)).isNone).filterMap fun d =>
        (Definition.nameOf t d).toOption.map fun x => .unsupportedKind x t.file := by
  induction h with
  | nil => rfl
  | @cons d c _ _ hc _ ih =>
    have hkind := hc.1.kind_eq_other_iff
    by_cases hd : (CallableKind.classify (t.kind d)).isNone
    · simp [hd, hkind.mpr hd, hc.1.nameOf_eq, hc.2, Except.toOption, ih]
    · simp [hd, mt hkind.mp hd, ih]

theorem isReadFrom_of_ofTree (ht : t.IsPreorder) (h : ofTree kinds t = .ok s) :
    IsReadFrom kinds t s := by
  obtain ⟨cs, hcs, rfl⟩ := exists_of_map_eq_ok h
  have hnodes : t.descendants 0 kinds = definitionNodes kinds t := by
    rw [Tree.descendants, Tree.subtree_zero ht, definitionNodes]
  rw [hnodes] at hcs
  have hrecords : List.Forall₂ (fun d c => Callable.IsRecordOf c t d ∧ c.sourceFile = t.file)
      (definitionNodes kinds t) cs :=
    (forall₂_of_mapM_eq_ok hcs).imp fun d c hc =>
      ⟨Callable.isRecordOf_of_ofDefinition ht hc, Callable.sourceFile_of_ofDefinition hc⟩
  have hentries : (cs.foldl define ∅).entries = upsertAll [] cs :=
    entries_foldl entries_define cs ∅
  have hsequence : (cs.foldl define ∅).IsSequenceOf cs := isSequenceOf_iff.mpr hentries
  refine ⟨?_, fun c hc => ?_, ?_⟩
  · rw [hsequence.names_eq, map_name_of_forall₂ (hrecords.imp fun _ _ hc => hc.1)]
    rfl
  · have hfind := find?_eq_some_iff.mpr ⟨hc, rfl⟩
    rw [hsequence.find?_eq] at hfind
    have hmem : c ∈ cs := List.mem_reverse.mp (List.mem_of_find?_eq_some hfind)
    obtain ⟨d, -, hd⟩ := (mem_iff_of_mapM_eq_ok hcs).mp hmem
    exact Callable.sourceFile_of_ofDefinition hd
  · rw [diagnostics_foldl_define, map_unsupported_of_forall₂ hrecords]
    rfl

/-! ## Merging a file -/

/-- The report about a record whose name is taken. -/
def repeated? (r : Registry) (c : Callable) : Option Diagnostic :=
  (r.find? c.name).map fun previous => .duplicateSymbol c.name previous.sourceFile c.sourceFile

theorem diagnostics_mergeOne (r : Registry) (c : Callable) :
    (r.mergeOne c).diagnostics = r.diagnostics ++ (r.repeated? c).toList := by
  rw [mergeOne, repeated?]
  split
  case h_1 hnone =>
    rw [hnone]
    exact (List.append_nil _).symm
  case h_2 previous hsome =>
    rw [hsome]
    rfl

/-- Records with distinct names do not meet each other, so all of them are compared with the records
that were there before. -/
theorem diagnostics_foldl_mergeOne (hcs : (cs.map Callable.name).Nodup) (r : Registry) :
    (cs.foldl mergeOne r).diagnostics = r.diagnostics ++ cs.filterMap r.repeated? := by
  induction cs generalizing r with
  | nil => exact (List.append_nil _).symm
  | cons c cs ih =>
    obtain ⟨hc, hcs'⟩ := List.nodup_cons.mp hcs
    have hrest : cs.filterMap (r.mergeOne c).repeated? = cs.filterMap r.repeated? := by
      refine List.filterMap_congr fun b hb => ?_
      have hne : c.name ≠ b.name := fun h => hc (h ▸ List.mem_map_of_mem hb)
      rw [repeated?, repeated?, find?_mergeOne, if_neg hne]
    rw [List.foldl_cons, ih hcs', diagnostics_mergeOne, hrest, List.append_assoc]
    cases hreport : r.repeated? c <;> simp [hreport]

theorem diagnostics_merge (r s : Registry) :
    (r.merge s).diagnostics = r.diagnostics ++ s.diagnostics ++ s.entries.filterMap r.repeated? :=
  diagnostics_foldl_mergeOne s.nodup (r.report s.diagnostics)

/-- `r` tells of every name the latest of the files `earlier` that defines it. -/
def Tells (kinds : List Kind) (earlier : List Tree) (r : Registry) : Prop :=
  ∀ x, (r.find? x).map Callable.sourceFile = latestFile? kinds earlier x

theorem IsReadFrom.map_find? (hs : IsReadFrom kinds t s) (x : String) :
    (s.find? x).map Callable.sourceFile =
      if (definedNames kinds t).contains x then some t.file else none := by
  have hmem : s.contains x ↔ (definedNames kinds t).contains x := by
    rw [contains_iff_mem_names, hs.names_eq, List.mem_eraseDups, List.contains_iff_mem]
  cases hx : s.find? x with
  | none =>
    have hnot : ¬ (definedNames kinds t).contains x := by
      rw [← hmem, contains_iff, hx]
      rintro ⟨c, hc⟩
      cases hc
    rw [if_neg hnot, Option.map_none]
  | some c =>
    have hdefined : (definedNames kinds t).contains x := hmem.mp (contains_iff.mpr ⟨c, hx⟩)
    rw [if_pos hdefined, Option.map_some, hs.sourceFile_eq c (find?_eq_some_iff.mp hx).1]

theorem latestFile?_concat (kinds : List Kind) (earlier : List Tree) (t : Tree) (x : String) :
    latestFile? kinds (earlier ++ [t]) x =
      if (definedNames kinds t).contains x then some t.file else latestFile? kinds earlier x := by
  rw [latestFile?, List.reverse_append, List.reverse_singleton, List.singleton_append,
    List.find?_cons]
  cases (definedNames kinds t).contains x <;> rfl

/-- A merge makes the new file the latest one of its names. -/
theorem Tells.merge (hr : Tells kinds earlier r) (hs : IsReadFrom kinds t s) :
    Tells kinds (earlier ++ [t]) (r.merge s) := by
  intro x
  rw [find?_merge, Option.map_or, hs.map_find?, hr x, latestFile?_concat]
  split <;> rfl

theorem Tells.filterMap_repeated? (hr : Tells kinds earlier r) (hs : IsReadFrom kinds t s) :
    s.entries.filterMap r.repeated? = repeatedIn kinds earlier t := by
  rw [repeatedIn, ← hs.names_eq, names, List.filterMap_map]
  refine List.filterMap_congr fun c hc => ?_
  rw [repeated?, hs.sourceFile_eq c hc, Function.comp_apply, ← hr c.name, Option.map_map]
  rfl

/-! ## The corpus -/

/-- The reports of a run, given that it starts from a registry of the files `earlier`. -/
theorem diagnostics_foldl_merge {rs : List Registry} (hr : Tells kinds earlier r)
    (hrs : List.Forall₂ (IsReadFrom kinds) trees rs) :
    (rs.foldl merge r).diagnostics = r.diagnostics ++ reports kinds earlier trees := by
  induction hrs generalizing r earlier with
  | nil => exact (List.append_nil _).symm
  | @cons t s trees rs hs _ ih =>
    calc (rs.foldl merge (r.merge s)).diagnostics
      _ = (r.merge s).diagnostics ++ reports kinds (earlier ++ [t]) trees := ih (hr.merge hs)
      _ = r.diagnostics ++ reports kinds earlier (t :: trees) := by
        rw [diagnostics_merge, hr.filterMap_repeated? hs, hs.diagnostics_eq, reports]
        simp only [List.append_assoc]

theorem countP_unsupportedIn (kinds : List Kind) (t : Tree) (x : String) :
    (unsupportedIn kinds t).countP (Diagnostic.repeats x) = 0 := by
  refine List.countP_eq_zero.mpr fun e he => ?_
  obtain ⟨d, -, hd⟩ := List.mem_filterMap.mp he
  obtain ⟨y, -, rfl⟩ := Option.map_eq_some_iff.mp hd
  exact Bool.false_ne_true

/-- A file has at most one report about a name, however often it defines the name. -/
theorem countP_repeatedIn (kinds : List Kind) (earlier : List Tree) (t : Tree) (x : String) :
    (repeatedIn kinds earlier t).countP (Diagnostic.repeats x) =
      if (definedNames kinds t).contains x ∧ (latestFile? kinds earlier x).isSome then 1
      else 0 := by
  have hpred : (fun y => (((latestFile? kinds earlier y).map fun previous =>
      Diagnostic.duplicateSymbol y previous t.file).map (Diagnostic.repeats x)).getD false) =
      fun y => y == x && (latestFile? kinds earlier x).isSome := by
    funext y
    by_cases hy : y = x
    · subst hy
      cases latestFile? kinds earlier y <;> simp [Diagnostic.repeats]
    · cases latestFile? kinds earlier y <;> simp [Diagnostic.repeats, hy]
  have hcount : (definedNames kinds t).eraseDups.countP (· == x) =
      if (definedNames kinds t).contains x then 1 else 0 := by
    have h := (nodup_eraseDups (definedNames kinds t)).count (a := x)
    rw [List.count_eq_countP] at h
    simpa only [List.mem_eraseDups, List.contains_iff_mem] using h
  rw [repeatedIn, List.countP_filterMap, hpred]
  cases (latestFile? kinds earlier x).isSome with
  | true => simpa using hcount
  | false => simp

/-- A name that is known before is reported for every file that defines it, and one that is not is
reported for every such file but the first. -/
theorem countP_reports (kinds : List Kind) (earlier trees : List Tree) (x : String) :
    (reports kinds earlier trees).countP (Diagnostic.repeats x) =
      (trees.countP fun t => (definedNames kinds t).contains x) -
        if (latestFile? kinds earlier x).isSome then 0 else 1 := by
  induction trees generalizing earlier with
  | nil => simp [reports]
  | cons t trees ih =>
    rw [reports, List.countP_append, List.countP_append, countP_unsupportedIn, countP_repeatedIn,
      ih, latestFile?_concat, List.countP_cons]
    by_cases hx : x ∈ definedNames kinds t
    · -- From now on the name is known.
      cases (latestFile? kinds earlier x).isSome <;> simp [hx, Nat.add_comm]
    · simp [hx]

/-- **The reports about a corpus are complete and exact.** They are listed file by file, and a name
that `k` files define is reported `k - 1` times. -/
theorem diagnostics_build {docs : List Document}
    (h : build kinds (docs.map Tree.ofDocument) = .ok r) :
    r.diagnostics = reports kinds [] (docs.map Tree.ofDocument) ∧
      ∀ x, r.diagnostics.countP (Diagnostic.repeats x) =
        ((docs.map Tree.ofDocument).countP fun t => (definedNames kinds t).contains x) - 1 := by
  obtain ⟨rs, hrs, rfl⟩ := exists_of_map_eq_ok h
  have hfiles : List.Forall₂ (IsReadFrom kinds) (docs.map Tree.ofDocument) rs :=
    ((List.forall₂_and_left _ _).mpr ⟨Tree.isPreorder_of_mem_map, forall₂_of_mapM_eq_ok hrs⟩).imp
      fun _ _ hs => isReadFrom_of_ofTree hs.1 hs.2
  have hempty : Tells kinds [] ∅ := fun x => rfl
  have hreports := diagnostics_foldl_merge hempty hfiles
  rw [show (∅ : Registry).diagnostics = [] from rfl, List.nil_append] at hreports
  refine ⟨hreports, fun x => ?_⟩
  rw [hreports, countP_reports]
  rfl

end Registry

/-- A file that defines `solve` twice, and `main` by statements of two kinds. -/
def Source.Document.patchFile : Document where
  file := "patch.f90"
  root := .group .program [
    .group .mainProgram [.named .programStmt "main"],
    .group .subroutineSubprogram [.named .subroutineStmt "solve"],
    .group .subroutineSubprogram [.named .subroutineStmt "main"],
    .group .subroutineSubprogram [.named .subroutineStmt "solve"]]

/-- Three files define `solve`. The last one is compared with the one before it. -/
theorem Registry.diagnostics_build_patched :
    let kinds := .programStmt :: callableKinds
    let docs := [Document.driverFile, Document.libraryFile, Document.patchFile]
    ∃ r, build kinds (docs.map Tree.ofDocument) = .ok r ∧
      r.diagnostics = [
        .duplicateSymbol "solve" "driver.f90" "library.f90",
        .unsupportedKind "main" "patch.f90",
        .duplicateSymbol "solve" "library.f90" "patch.f90"] ∧
      r.diagnostics.countP (Diagnostic.repeats "solve") = 3 - 1 := by
  intro kinds docs
  have hok : (build kinds (docs.map Tree.ofDocument)).toOption.isSome := by decide +kernel
  cases hr : build kinds (docs.map Tree.ofDocument) with
  | error e =>
    rw [hr] at hok
    cases hok
  | ok r =>
    obtain ⟨hreports, hcount⟩ := diagnostics_build hr
    refine ⟨r, rfl, ?_, ?_⟩
    · rw [hreports]
      decide +kernel
    · rw [hcount]
      decide +kernel

end CallAtlas
