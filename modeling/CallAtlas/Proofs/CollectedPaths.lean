import CallAtlas.Files.Corpus
import CallAtlas.Proofs.DefinitionRecord
import CallAtlas.Proofs.DirectoryWalks

/-!
# The paths of a corpus

The documents of a run are named one by one, or found below directories. Which they are does not
depend on how they were come by: neither on the order of the arguments, nor on a directory that is
listed twice or together with one above it, nor on the order in which directories list their
entries.

A directory tree is looked at as a map from positions to what stands there, so that the order of
entries does not show, and paths are looked at through their components.

## Main definitions

* `Path.Visible` — no directory on the way to a file is hidden
* `FileTree.Lists` — a document below a listed directory
* `FileTree.Collects` — the contract of collecting paths
* `FileTree.Covers` — a directory below one of those that are listed

## Main results

* `Corpus.pairwise_canonical`, `Corpus.mem_map_canonical` — paths in order, each of them once
* `Corpus.mem_documents` — what is found below a directory
* `FileTree.mem_collect` — what is collected from a tree
* `FileTree.Covers.lists` — a directory below another one adds nothing
* `FileTree.collects_collect` — the contract holds
-/

namespace CallAtlas

open CallAtlas.Path (Component components Precedes)

/-! ## Paths in order -/

namespace Corpus

variable {p q r : String} {ps : List String} {cs : List Component}

theorem isRepeat_iff : isRepeat p q ↔ components p = components q :=
  decide_eq_true_iff

theorem isSorted_iff : isSorted p q ↔ ¬ Precedes q p := by
  rw [isSorted, Bool.not_eq_true', decide_eq_false_iff_not]

theorem isSorted_trans (p q r : String) (hpq : isSorted p q) (hqr : isSorted q r) :
    isSorted p r := by
  rw [isSorted_iff] at hpq hqr ⊢
  intro hrp
  by_cases heq : components q = components p
  · exact hqr (by rwa [Precedes, heq])
  · exact hqr (hrp.trans (Path.precedes_of_not_precedes hpq heq))

theorem isSorted_total (p q : String) : isSorted p q || isSorted q p := by
  rw [Bool.or_eq_true, isSorted_iff, isSorted_iff, ← not_and_or]
  rintro ⟨hqp, hpq⟩
  exact List.lt_irrefl _ (hqp.trans hpq)

/-- A path comes before those that do not come before one after it. -/
theorem precedes_of_isSorted (hpq : Precedes p q) (hqr : isSorted q r) : Precedes p r := by
  by_contra hpr
  exact isSorted_iff.mp (isSorted_trans q r p hqr (isSorted_iff.mpr hpr)) hpq

/-! ### Repetitions -/

theorem eraseRepsBy_loop (p : String) (ps acc : List String) :
    List.eraseRepsBy.loop isRepeat p ps acc =
      acc.reverse ++ List.eraseRepsBy.loop isRepeat p ps [] := by
  induction ps generalizing p acc with
  | nil => simp [List.eraseRepsBy.loop]
  | cons q ps ih =>
    rw [List.eraseRepsBy.loop, List.eraseRepsBy.loop]
    cases isRepeat p q with
    | true => exact ih p acc
    | false =>
      rw [ih q (p :: acc), ih q [p]]
      simp

/-- Each path is compared with the one that stays before it. -/
theorem eraseRepsBy_cons_cons (p q : String) (ps : List String) :
    (p :: q :: ps).eraseRepsBy isRepeat =
      if isRepeat p q then (p :: ps).eraseRepsBy isRepeat
      else p :: (q :: ps).eraseRepsBy isRepeat := by
  rw [List.eraseRepsBy, List.eraseRepsBy.loop]
  cases isRepeat p q with
  | true => rfl
  | false => exact eraseRepsBy_loop q ps [p]

theorem eraseRepsBy_sublist (ps : List String) :
    (ps.eraseRepsBy isRepeat).Sublist ps := by
  cases ps with
  | nil => exact .slnil
  | cons p ps =>
    induction ps generalizing p with
    | nil => exact .refl _
    | cons q ps ih =>
      rw [eraseRepsBy_cons_cons]
      cases isRepeat p q with
      | true => exact (ih p).trans ((List.sublist_cons_self q ps).cons_cons p)
      | false => exact (ih q).cons_cons p

theorem mem_map_eraseRepsBy (ps : List String) :
    cs ∈ (ps.eraseRepsBy isRepeat).map components ↔ cs ∈ ps.map components := by
  cases ps with
  | nil => rfl
  | cons p ps =>
    induction ps generalizing p with
    | nil => rfl
    | cons q ps ih =>
      rw [eraseRepsBy_cons_cons]
      by_cases hpq : isRepeat p q
      · rw [if_pos hpq, ih p, List.map_cons, List.map_cons, List.map_cons,
          ← isRepeat_iff.mp hpq]
        simp
      · rw [if_neg hpq, List.map_cons, List.mem_cons, ih q, List.map_cons (l := q :: ps),
          List.mem_cons]

/-- Sorted paths without repetitions are in strict order. -/
theorem pairwise_eraseRepsBy (h : ps.Pairwise fun p q => isSorted p q) :
    (ps.eraseRepsBy isRepeat).Pairwise Precedes := by
  cases ps with
  | nil => exact .nil
  | cons p ps =>
    induction ps generalizing p with
    | nil => exact List.pairwise_singleton _ _
    | cons q ps ih =>
      rw [eraseRepsBy_cons_cons]
      obtain ⟨hp, hrest⟩ := List.pairwise_cons.mp h
      obtain ⟨hq, hps⟩ := List.pairwise_cons.mp hrest
      by_cases hpq : isRepeat p q
      · rw [if_pos hpq]
        exact ih p (List.pairwise_cons.mpr
          ⟨fun r hr => hp r (List.mem_cons_of_mem q hr), hps⟩)
      · rw [if_neg hpq]
        refine List.pairwise_cons.mpr ⟨fun r hr => ?_, ih q hrest⟩
        have hbefore : Precedes p q :=
          Path.precedes_of_not_precedes (isSorted_iff.mp (hp q List.mem_cons_self))
            fun heq => hpq (isRepeat_iff.mpr heq.symm)
        rcases List.mem_cons.mp ((eraseRepsBy_sublist _).subset hr) with rfl | hr
        · exact hbefore
        · exact precedes_of_isSorted hbefore (hq r hr)

/-- **Canonical paths are in strict order.** -/
theorem pairwise_canonical (paths : List String) : (canonical paths).Pairwise Precedes :=
  pairwise_eraseRepsBy (List.pairwise_mergeSort isSorted_trans isSorted_total paths)

/-- **No path is lost**, but for its spelling. -/
theorem mem_map_canonical (paths : List String) :
    cs ∈ (canonical paths).map components ↔ cs ∈ paths.map components := by
  rw [canonical, mem_map_eraseRepsBy, List.mem_map, List.mem_map]
  simp only [List.mem_mergeSort]

end Corpus

/-! ## What is found below a directory -/

namespace Path

variable {dir : List Component} {n : String} {names more : List String}

/-- The components of a path that goes down from a directory. -/
def below (dir : List Component) (names : List String) : List Component :=
  dir ++ names.map .name

@[simp] theorem below_nil (dir : List Component) : below dir [] = dir :=
  List.append_nil dir

@[simp] theorem below_cons (dir : List Component) (n : String) (names : List String) :
    below dir (n :: names) = below (dir ++ [.name n]) names := by
  simp [below]

theorem below_append (dir : List Component) (names more : List String) :
    below dir (names ++ more) = below (below dir names) more := by
  simp [below]

/-- No directory on the way down to a file is hidden, the one where the way starts included. -/
def Visible (dir : List Component) (names : List String) : Prop :=
  ∀ before after, names = before ++ after → after ≠ [] →
    (below dir before).getLast? ≠ some (.name ".git")

theorem visible_nil (dir : List Component) : Visible dir [] := by
  intro before after h hafter
  exact absurd (List.append_eq_nil_iff.mp h.symm).2 hafter

theorem visible_cons_iff : Visible dir (n :: names) ↔
    dir.getLast? ≠ some (.name ".git") ∧ Visible (dir ++ [.name n]) names := by
  constructor
  · intro h
    have hdir := h [] (n :: names) rfl (List.cons_ne_nil n names)
    rw [below_nil] at hdir
    refine ⟨hdir, fun before after heq hafter => ?_⟩
    rw [← below_cons]
    exact h (n :: before) after (congrArg (n :: ·) heq) hafter
  · rintro ⟨hdir, h⟩ before after heq hafter
    cases before with
    | nil => rwa [below_nil]
    | cons m before =>
      obtain ⟨rfl, heq'⟩ := List.cons.inj heq
      rw [below_cons]
      exact h before after heq' hafter

theorem visible_append_iff : Visible dir (names ++ more) ↔
    Visible dir names ∧ Visible (below dir names) more := by
  induction names generalizing dir with
  | nil => simp [visible_nil]
  | cons n names ih =>
    rw [List.cons_append, visible_cons_iff, ih, visible_cons_iff, and_assoc, below_cons]

end Path

namespace Corpus

open FileTree (child? isProper allProper)
open CallAtlas.Path (below Visible)

variable {path name n : String} {dir : List Component} {t u : FileTree} {names : List String}
  {entries : List (String × FileTree)} {cs : List Component}

/-- The names lead from a path where a tree stands to a document. -/
structure Finds (dir : List Component) (u : FileTree) (names : List String) : Prop where
  isFile : ∃ text, u.occupant? names = some (.file text)
  visible : Visible dir names
  isDocument : ∃ stem, stem ≠ "" ∧ (below dir names).getLast? = some (.name (stem ++ ".json"))

theorem finds_file_iff {text : Option String} : Finds dir (.file text) names ↔
    names = [] ∧ ∃ stem, stem ≠ "" ∧ dir.getLast? = some (.name (stem ++ ".json")) := by
  constructor
  · rintro ⟨⟨x, hx⟩, -, hdocument⟩
    cases names with
    | nil => exact ⟨rfl, by simpa using hdocument⟩
    | cons n names => cases hx
  · rintro ⟨rfl, hdocument⟩
    exact ⟨⟨text, rfl⟩, Path.visible_nil dir, by simpa using hdocument⟩

theorem finds_directory_iff : Finds dir (.directory entries) names ↔
    dir.getLast? ≠ some (.name ".git") ∧
      ∃ n v rest, names = n :: rest ∧ child? entries n = some v ∧
        Finds (dir ++ [.name n]) v rest := by
  constructor
  · rintro ⟨⟨text, htext⟩, hvisible, hdocument⟩
    cases names with
    | nil => cases htext
    | cons n rest =>
      rw [FileTree.occupant?_directory_cons] at htext
      obtain ⟨v, hv, htext⟩ := Option.bind_eq_some_iff.mp htext
      obtain ⟨hdir, hvisible⟩ := Path.visible_cons_iff.mp hvisible
      exact ⟨hdir, n, v, rest, rfl, hv, ⟨text, htext⟩, hvisible, by simpa using hdocument⟩
  · rintro ⟨hdir, n, v, rest, rfl, hv, ⟨text, htext⟩, hvisible, hdocument⟩
    refine ⟨⟨text, ?_⟩, Path.visible_cons_iff.mpr ⟨hdir, hvisible⟩, by simpa using hdocument⟩
    rw [FileTree.occupant?_directory_cons, hv]
    exact htext

mutual

/-- **What is found at a path where a tree stands.** -/
theorem mem_documents (path : String) : (u : FileTree) → u.isProper → (cs : List Component) →
    (cs ∈ (documents path u).map components ↔
      ∃ names, Finds (components path) u names ∧ cs = below (components path) names)
  | .file text, _, cs => by
    simp only [finds_file_iff, ← Path.isDocument_iff, documents]
    by_cases hdocument : Path.isDocument path <;> simp [hdocument]
  | .directory entries, h, cs => by
    simp only [finds_directory_iff, documents]
    by_cases hhidden : Path.isHidden path
    · simp [hhidden, Path.isHidden_iff.mp hhidden]
    · have hvisible : (components path).getLast? ≠ some (.name ".git") :=
        mt Path.isHidden_iff.mpr hhidden
      rw [if_neg hhidden, mem_documentsAll path entries h cs]
      constructor
      · rintro ⟨n, v, hv, rest, hfinds, rfl⟩
        exact ⟨n :: rest, ⟨hvisible, n, v, rest, rfl, hv, hfinds⟩, rfl⟩
      · rintro ⟨names, ⟨-, n, v, rest, rfl, hv, hfinds⟩, rfl⟩
        exact ⟨n, v, hv, rest, hfinds, rfl⟩

theorem mem_documentsAll (path : String) :
    (entries : List (String × FileTree)) → allProper entries → (cs : List Component) →
      (cs ∈ (documentsAll path entries).map components ↔
        ∃ n v, child? entries n = some v ∧ ∃ names, Finds (components path ++ [.name n]) v names ∧
          cs = below (components path) (n :: names))
  | [], _, cs => by simp [documentsAll, child?]
  | (name, t) :: entries, h, cs => by
    obtain ⟨hname, hnot, ht, hentries⟩ := FileTree.allProper_cons_iff.mp h
    rw [documentsAll, List.map_append, List.mem_append, mem_documents (Path.join path name) t ht cs,
      mem_documentsAll path entries hentries cs, Path.components_join path hname]
    constructor
    · rintro (⟨names, hfinds, rfl⟩ | ⟨n, v, hv, names, hfinds, rfl⟩)
      · exact ⟨name, t, (FileTree.child?_cons_eq_some_iff hnot).mpr (Or.inl ⟨rfl, rfl⟩), names,
          hfinds, (Path.below_cons _ _ _).symm⟩
      · exact ⟨n, v, (FileTree.child?_cons_eq_some_iff hnot).mpr (Or.inr hv), names, hfinds, rfl⟩
    · rintro ⟨n, v, hv, names, hfinds, rfl⟩
      rcases (FileTree.child?_cons_eq_some_iff hnot).mp hv with ⟨rfl, rfl⟩ | hv
      · exact Or.inl ⟨names, hfinds, Path.below_cons _ _ _⟩
      · exact Or.inr ⟨n, v, hv, names, hfinds, rfl⟩

end

end Corpus

/-! ## The contract -/

namespace FileTree

open Corpus (listed documents canonical Finds)
open CallAtlas.Path (below Visible)

variable {t u : FileTree} {dir dir' : String} {cwd position position' names : List String}
  {inputs inputs' dirs dirs' ps : List String} {cs : List Component}

/-- The paths of the documents that are named, or found below directories of a tree. -/
def collect (t : FileTree) (cwd inputs dirs : List String) : Except Failure (List String) :=
  Corpus.paths inputs (dirs.map fun dir => (dir, t.lookup? cwd dir))

/-- The names lead from a listed directory to a document: a file with the right extension, on a way
without hidden directories. -/
structure Lists (t : FileTree) (cwd : List String) (dir : String) (position names : List String) :
    Prop where
  leadsTo : t.LeadsTo cwd dir position
  isFile : ∃ text, t.occupant? (position ++ names) = some (.file text)
  visible : Visible (components dir) names
  isDocument : ∃ stem, stem ≠ "" ∧
    (below (components dir) names).getLast? = some (.name (stem ++ ".json"))

/-- Every listed directory that is not hidden is there. -/
def Provides (t : FileTree) (cwd dirs : List String) : Prop :=
  ∀ dir ∈ dirs, Path.isHidden dir = false → (t.lookup? cwd dir).any isDirectory

/-- The components are those of a document that is named or listed. -/
def IsCollected (t : FileTree) (cwd inputs dirs : List String) (cs : List Component) : Prop :=
  cs ∈ inputs.map components ∨
    ∃ dir ∈ dirs, ∃ position names,
      t.Lists cwd dir position names ∧ cs = below (components dir) names

/-- What collecting paths comes to. -/
structure Collects (t : FileTree) (cwd inputs dirs : List String)
    (outcome : Except Failure (List String)) : Prop where
  /-- It succeeds if the listed directories are there. -/
  succeeds_iff : (∃ ps, outcome = .ok ps) ↔ t.Provides cwd dirs
  /-- The paths are in strict order. -/
  ordered : ∀ ps, outcome = .ok ps → ps.Pairwise Precedes
  /-- They are those of the documents that are named or listed. -/
  mem_iff : ∀ ps, outcome = .ok ps →
    ∀ cs, cs ∈ ps.map components ↔ t.IsCollected cwd inputs dirs cs

/-! ### Listed directories -/

theorem LeadsTo.lists_iff {entries : List (String × FileTree)} (h : t.LeadsTo cwd dir position)
    (hget : t.get? position = some (.directory entries)) :
    t.Lists cwd dir position names ↔ Finds (components dir) (.directory entries) names := by
  constructor
  · rintro ⟨-, hfile, hvisible, hdocument⟩
    exact ⟨by rwa [occupant?_append hget] at hfile, hvisible, hdocument⟩
  · rintro ⟨hfile, hvisible, hdocument⟩
    exact ⟨h, by rwa [occupant?_append hget], hvisible, hdocument⟩

theorem Lists.ne_nil (h : t.Lists cwd dir position names) : names ≠ [] := by
  obtain ⟨entries, hget, -⟩ := h.leadsTo.exists_lookup?
  obtain ⟨-, n, v, rest, rfl, -⟩ :=
    Corpus.finds_directory_iff.mp ((h.leadsTo.lists_iff hget).mp h)
  exact List.cons_ne_nil n rest

theorem not_isHidden_of_visible (h : Visible (components dir) names) (hnames : names ≠ []) :
    Path.isHidden dir = false := by
  have hdir := h [] names rfl hnames
  rw [Path.below_nil] at hdir
  exact Bool.eq_false_iff.mpr (mt Path.isHidden_iff.mp hdir)

theorem exists_listed_iff : (∃ ps, listed (dir, t.lookup? cwd dir) = .ok ps) ↔
    (Path.isHidden dir = false → (t.lookup? cwd dir).any isDirectory) := by
  rw [listed]
  cases hhidden : Path.isHidden dir with
  | true => simp
  | false => cases t.lookup? cwd dir with
    | none => simp
    | some v => cases v <;> simp [isDirectory]

theorem mem_listed (ht : t.isProper) (h : listed (dir, t.lookup? cwd dir) = .ok ps) :
    cs ∈ ps.map components ↔
      ∃ position names, t.Lists cwd dir position names ∧ cs = below (components dir) names := by
  cases hhidden : Path.isHidden dir with
  | true =>
    rw [listed, if_pos hhidden] at h
    obtain rfl : [] = ps := Except.ok.inj h
    refine iff_of_false (by simp) ?_
    rintro ⟨position, names, hlists, -⟩
    rw [not_isHidden_of_visible hlists.visible hlists.ne_nil] at hhidden
    cases hhidden
  | false =>
    obtain ⟨position, hlead⟩ := any_lookup?_iff.mp (exists_listed_iff.mp ⟨ps, h⟩ hhidden)
    obtain ⟨entries, hget, hlookup⟩ := hlead.exists_lookup?
    rw [listed, hlookup, if_neg (by simp [hhidden])] at h
    obtain rfl : documents dir (.directory entries) = ps := Except.ok.inj h
    rw [Corpus.mem_documents dir _ (isProper_of_get? ht hget) cs]
    constructor
    · rintro ⟨names, hfinds, rfl⟩
      exact ⟨position, names, (hlead.lists_iff hget).mpr hfinds, rfl⟩
    · rintro ⟨position', names, hlists, rfl⟩
      obtain rfl := hlead.unique hlists.leadsTo
      exact ⟨names, (hlead.lists_iff hget).mp hlists, rfl⟩

theorem collect_eq (t : FileTree) (cwd inputs dirs : List String) :
    t.collect cwd inputs dirs =
      (dirs.mapM fun dir => listed (dir, t.lookup? cwd dir)).map fun found =>
        canonical (inputs ++ found.flatten) := by
  rw [collect, Corpus.paths, List.mapM_map]
  rfl

theorem toOption_collect (t : FileTree) (cwd inputs dirs : List String) :
    (t.collect cwd inputs dirs).toOption =
      (dirs.mapM fun dir => listed (dir, t.lookup? cwd dir)).toOption.map fun found =>
        canonical (inputs ++ found.flatten) := by
  rw [collect_eq]
  cases dirs.mapM fun dir => listed (dir, t.lookup? cwd dir) <;> rfl

theorem exists_of_collect_eq_ok (h : t.collect cwd inputs dirs = .ok ps) :
    ∃ found, (dirs.mapM fun dir => listed (dir, t.lookup? cwd dir)) = .ok found ∧
      canonical (inputs ++ found.flatten) = ps := by
  rw [collect_eq] at h
  exact exists_of_map_eq_ok h

theorem exists_collect_iff : (∃ ps, t.collect cwd inputs dirs = .ok ps) ↔ t.Provides cwd dirs := by
  have hall : (∃ found, (dirs.mapM fun dir => listed (dir, t.lookup? cwd dir)) = .ok found) ↔
      t.Provides cwd dirs :=
    exists_mapM_eq_ok_iff.trans (forall₂_congr fun dir _ => exists_listed_iff)
  rw [← hall]
  constructor
  · rintro ⟨ps, h⟩
    obtain ⟨found, hfound, -⟩ := exists_of_collect_eq_ok h
    exact ⟨found, hfound⟩
  · rintro ⟨found, hfound⟩
    exact ⟨_, by rw [collect_eq, hfound]; rfl⟩

theorem mem_collect (ht : t.isProper) (h : t.collect cwd inputs dirs = .ok ps) :
    cs ∈ ps.map components ↔ t.IsCollected cwd inputs dirs cs := by
  obtain ⟨found, hfound, rfl⟩ := exists_of_collect_eq_ok h
  rw [Corpus.mem_map_canonical, List.map_append, List.mem_append, List.map_flatten]
  refine or_congr_right ⟨fun hcs => ?_, ?_⟩
  · obtain ⟨ds, hds, hcs⟩ := List.mem_flatten.mp hcs
    obtain ⟨qs, hqs, rfl⟩ := List.mem_map.mp hds
    obtain ⟨dir, hdir, hlisted⟩ := (mem_iff_of_mapM_eq_ok hfound).mp hqs
    exact ⟨dir, hdir, (mem_listed ht hlisted).mp hcs⟩
  · rintro ⟨dir, hdir, hlists⟩
    obtain ⟨qs, hlisted⟩ := exists_mapM_eq_ok_iff.mp ⟨found, hfound⟩ dir hdir
    have hqs : qs ∈ found := (mem_iff_of_mapM_eq_ok hfound).mpr ⟨dir, hdir, hlisted⟩
    exact List.mem_flatten.mpr ⟨_, List.mem_map_of_mem hqs, (mem_listed ht hlisted).mpr hlists⟩

theorem collects_of_isProper (ht : t.isProper) (cwd inputs dirs : List String) :
    t.Collects cwd inputs dirs (t.collect cwd inputs dirs) := by
  refine ⟨exists_collect_iff, fun ps h => ?_, fun ps h cs => mem_collect ht h⟩
  obtain ⟨found, -, rfl⟩ := exists_of_collect_eq_ok h
  exact Corpus.pairwise_canonical _

/-! ### What is of no consequence -/

/-- The two lists name the same paths, in whatever spelling, order and number. -/
def SamePaths (ps qs : List String) : Prop :=
  ∀ cs, cs ∈ ps.map components ↔ cs ∈ qs.map components

/-- The two outcomes are failures, or the same paths in the same order. -/
def SameOutcome (a b : Except Failure (List String)) : Prop :=
  a.toOption.map (List.map components) = b.toOption.map (List.map components)

theorem SamePaths.symm {ps qs : List String} (h : SamePaths ps qs) : SamePaths qs ps :=
  fun cs => (h cs).symm

theorem SamePaths.exists_components_eq {ps qs : List String} {p : String} (h : SamePaths ps qs)
    (hp : p ∈ ps) : ∃ q ∈ qs, components q = components p :=
  List.mem_map.mp ((h _).mp (List.mem_map_of_mem hp))

theorem Lists.congr (hsame : t.SameOccupants u) (hdir : components dir' = components dir)
    (h : t.Lists cwd dir position names) : u.Lists cwd dir' position names := by
  obtain ⟨hlead, hfile, hvisible, hdocument⟩ := h
  refine ⟨hlead.congr hsame hdir, ?_, ?_, ?_⟩
  · rwa [← hsame]
  · rwa [hdir]
  · rwa [hdir]

theorem isHidden_congr (hdir : components dir' = components dir) :
    Path.isHidden dir' = Path.isHidden dir := by
  rw [Bool.eq_iff_iff, Path.isHidden_iff, Path.isHidden_iff, hdir]

theorem Provides.congr (hsame : t.SameOccupants u) (hdirs : SamePaths dirs dirs')
    (h : t.Provides cwd dirs) : u.Provides cwd dirs' := by
  intro dir' hdir' hhidden
  obtain ⟨dir, hdir, heq⟩ := hdirs.symm.exists_components_eq hdir'
  rw [← isHidden_congr heq] at hhidden
  obtain ⟨position, hlead⟩ := any_lookup?_iff.mp (h dir hdir hhidden)
  exact any_lookup?_iff.mpr ⟨position, hlead.congr hsame heq.symm⟩

theorem IsCollected.congr (hsame : t.SameOccupants u) (hinputs : SamePaths inputs inputs')
    (hdirs : SamePaths dirs dirs') (h : t.IsCollected cwd inputs dirs cs) :
    u.IsCollected cwd inputs' dirs' cs := by
  refine h.imp (hinputs cs).mp ?_
  rintro ⟨dir, hdir, position, names, hlists, rfl⟩
  obtain ⟨dir', hdir', heq⟩ := hdirs.exists_components_eq hdir
  exact ⟨dir', hdir', position, names, hlists.congr hsame heq, by rw [heq]⟩

/-- Outcomes are the same if the same documents are collected. -/
theorem Collects.sameOutcome {a b : Except Failure (List String)}
    (ha : t.Collects cwd inputs dirs a) (hb : u.Collects cwd inputs' dirs' b)
    (hprovides : t.Provides cwd dirs ↔ u.Provides cwd dirs')
    (hmem : t.Provides cwd dirs →
      ∀ cs, t.IsCollected cwd inputs dirs cs ↔ u.IsCollected cwd inputs' dirs' cs) :
    SameOutcome a b := by
  rw [SameOutcome]
  cases a with
  | error e =>
    cases b with
    | error e' => rfl
    | ok qs =>
      obtain ⟨ps, hps⟩ := ha.succeeds_iff.mpr (hprovides.mpr (hb.succeeds_iff.mp ⟨qs, rfl⟩))
      cases hps
  | ok ps =>
    have hhere := ha.succeeds_iff.mp ⟨ps, rfl⟩
    obtain ⟨qs, rfl⟩ := hb.succeeds_iff.mpr (hprovides.mp hhere)
    have hsame : ∀ cs, cs ∈ ps.map components ↔ cs ∈ qs.map components := by
      intro cs
      rw [ha.mem_iff ps rfl, hb.mem_iff qs rfl, hmem hhere]
    exact congrArg some (Path.map_components_eq (ha.ordered ps rfl) (hb.ordered qs rfl) hsame)

/-! ### Directories below others -/

/-- One of the directories contains another one, which is hidden or is there, with no hidden
directory on the way to it. -/
structure Covers (t : FileTree) (cwd dirs : List String) (dir' : String) : Prop where
  isThere : Path.isHidden dir' = false → (t.lookup? cwd dir').any isDirectory
  isBelow : ∃ dir ∈ dirs, ∃ names, components dir' = below (components dir) names ∧
    Visible (components dir) names

/-- What a directory lists is listed by the directory above it. -/
theorem Covers.lists (hcovers : t.Covers cwd dirs dir') (hprovides : t.Provides cwd dirs)
    (h : t.Lists cwd dir' position' names) :
    ∃ dir ∈ dirs, ∃ position rest, t.Lists cwd dir position rest ∧
      below (components dir') names = below (components dir) rest := by
  obtain ⟨dir, hdir, upper, heq, hupper⟩ := hcovers.isBelow
  have hvisible : Visible (components dir) (upper ++ names) :=
    Path.visible_append_iff.mpr ⟨hupper, heq ▸ h.visible⟩
  have hhidden := not_isHidden_of_visible hvisible (List.append_ne_nil_of_right_ne_nil _ h.ne_nil)
  obtain ⟨position, hlead⟩ := any_lookup?_iff.mp (hprovides dir hdir hhidden)
  -- The way to the directory below goes through the directory above.
  have hposition : position' = position ++ upper := by
    have hfollow := (leadsTo_iff.mp h.leadsTo).2.2
    rw [heq, below, follow?_append, (leadsTo_iff.mp hlead).2.2, Option.bind_some] at hfollow
    exact eq_append_of_follow? hfollow
  have hbelow : below (components dir') names = below (components dir) (upper ++ names) := by
    rw [heq, Path.below_append]
  refine ⟨dir, hdir, position, upper ++ names, ⟨hlead, ?_, hvisible, ?_⟩, hbelow⟩
  · rw [← List.append_assoc, ← hposition]
    exact h.isFile
  · rw [← hbelow]
    exact h.isDocument

theorem Covers.provides_iff (h : t.Covers cwd dirs dir') :
    t.Provides cwd dirs ↔ t.Provides cwd (dir' :: dirs) := by
  rw [Provides, Provides, List.forall_mem_cons]
  exact (and_iff_right h.isThere).symm

theorem Covers.isCollected_iff (h : t.Covers cwd dirs dir') (hprovides : t.Provides cwd dirs) :
    t.IsCollected cwd inputs dirs cs ↔ t.IsCollected cwd inputs (dir' :: dirs) cs := by
  refine or_congr_right ⟨?_, ?_⟩
  · rintro ⟨dir, hdir, hlists⟩
    exact ⟨dir, List.mem_cons_of_mem dir' hdir, hlists⟩
  · rintro ⟨dir, hdir, position, names, hlists, rfl⟩
    rcases List.mem_cons.mp hdir with rfl | hdir
    · obtain ⟨dir, hdir, position, rest, hrest, heq⟩ := h.lists hprovides hlists
      exact ⟨dir, hdir, position, rest, hrest, heq⟩
    · exact ⟨dir, hdir, position, names, hlists, rfl⟩

/-- **The paths of a corpus are canonical**: they are the documents that are named or listed, in
strict order, however the arguments and the entries of directories are ordered, repeated or spelled,
and whether or not a directory is listed together with one above it. -/
theorem collects_collect (ht : t.isProper) (cwd inputs dirs : List String) :
    t.Collects cwd inputs dirs (t.collect cwd inputs dirs) ∧
      (∀ u inputs' dirs', u.isProper → t.SameOccupants u → SamePaths inputs inputs' →
        SamePaths dirs dirs' →
          SameOutcome (t.collect cwd inputs dirs) (u.collect cwd inputs' dirs')) ∧
      ∀ dir', t.Covers cwd dirs dir' →
        SameOutcome (t.collect cwd inputs dirs) (t.collect cwd inputs (dir' :: dirs)) := by
  have hcollects := collects_of_isProper ht cwd inputs dirs
  refine ⟨hcollects, ?_, ?_⟩
  · intro u inputs' dirs' hu hsame hinputs hdirs
    refine hcollects.sameOutcome (collects_of_isProper hu cwd inputs' dirs') ⟨?_, ?_⟩ ?_
    · exact Provides.congr hsame hdirs
    · exact Provides.congr hsame.symm hdirs.symm
    · exact fun _ cs => ⟨IsCollected.congr hsame hinputs hdirs,
        IsCollected.congr hsame.symm hinputs.symm hdirs.symm⟩
  · intro dir' hcovers
    exact hcollects.sameOutcome (collects_of_isProper ht cwd inputs (dir' :: dirs))
      hcovers.provides_iff fun hprovides cs => hcovers.isCollected_iff hprovides

/-- A directory with documents at two depths, among hidden and other files. -/
def checkout : List (String × FileTree) :=
  [("lib", .directory [("util.json", .file none), (".json", .file none)]),
    ("main.json", .file none), ("notes.txt", .file none),
    (".git", .directory [("index.json", .file none)])]

/-- The root of the file system is listed twice, once as the parent of the working directory. -/
theorem collects_collect_checkout :
    let disk := directory checkout
    let outcome := disk.collect ["lib"] ["/lib/util.json"] ["/", ".."]
    disk.isProper ∧ disk.Collects ["lib"] ["/lib/util.json"] ["/", ".."] outcome ∧
      SameOutcome outcome ((directory checkout.reverse).collect ["lib"]
        ["/lib//util.json", "/lib/util.json"] ["..", "../", "//"]) ∧
      SameOutcome outcome (disk.collect ["lib"] ["/lib/util.json"] ["/lib", "/", ".."]) ∧
      outcome.toOption =
        some ["/lib/util.json", "/main.json", "../lib/util.json", "../main.json"] := by
  intro disk outcome
  have hproper : disk.isProper := by decide +kernel
  have hproper' : (directory checkout.reverse).isProper := by decide +kernel
  have hsame := sameOccupants_of_perm hproper hproper' (List.reverse_perm checkout).symm
  have hinputs : SamePaths ["/lib/util.json"] ["/lib//util.json", "/lib/util.json"] := by
    have hslash : components "/lib//util.json" = components "/lib/util.json" := by decide +kernel
    intro cs
    simp [hslash]
  have hdirs : SamePaths ["/", ".."] ["..", "../", "//"] := by
    have hup : components "../" = components ".." := by decide +kernel
    have hroot : components "//" = components "/" := by decide +kernel
    intro cs
    simp [hup, hroot, or_comm]
  have hvisible : Visible (components "/") ["lib"] :=
    Path.visible_cons_iff.mpr ⟨by decide +kernel, Path.visible_nil _⟩
  have hcovers : disk.Covers ["lib"] ["/", ".."] "/lib" :=
    ⟨fun _ => by decide +kernel, "/", List.mem_cons_self, ["lib"], by decide +kernel, hvisible⟩
  have hfound : (["/", ".."].mapM fun dir => listed (dir, disk.lookup? ["lib"] dir)).toOption =
      some [["/lib/util.json", "/main.json"], ["../lib/util.json", "../main.json"]] := by
    decide +kernel
  have hcanonical : canonical ["/lib/util.json", "/lib/util.json", "/main.json",
      "../lib/util.json", "../main.json"] =
        ["/lib/util.json", "/main.json", "../lib/util.json", "../main.json"] := by
    rw [canonical, List.mergeSort_of_pairwise (by decide +kernel)]
    decide +kernel
  obtain ⟨hcollects, hspelled, hbelow⟩ :=
    collects_collect hproper ["lib"] ["/lib/util.json"] ["/", ".."]
  refine ⟨hproper, hcollects, hspelled _ _ _ hproper' hsame hinputs hdirs, hbelow _ hcovers, ?_⟩
  rw [← hcanonical, toOption_collect, hfound]
  rfl

end FileTree

end CallAtlas
