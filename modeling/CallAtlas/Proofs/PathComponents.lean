import CallAtlas.Files.FileTree
import CallAtlas.KeyedList
import Mathlib.Data.List.Lex
import Mathlib.Data.List.Sort

/-!
# The components of paths

Two spellings of a path are the same path if they have the same components. This module says what
the components of a path below a directory are, what its last component tells, and that the order of
paths is a strict total order of the sequences of components.

## Main definitions

* `Path.isName` — a text that is one step down

## Main results

* `Path.components_join` — the components of a path below a directory
* `Path.isHidden_iff`, `Path.isDocument_iff` — what the last component tells
* `Path.map_components_eq` — a sequence in strict order is determined by its members
-/

namespace CallAtlas.Path

variable {dir name : String}

/-! ## Parts -/

theorem parts_of_notMem (hname : '/' ∉ name.toList) : parts name = [name] :=
  Text.split_of_notMem hname

theorem parts_append_slash (dir : String) (hname : '/' ∉ name.toList) :
    parts (dir ++ "/" ++ name) = parts dir ++ [name] := by
  have hchars : (dir ++ "/" ++ name).toList = dir.toList ++ '/' :: name.toList := by simp
  rw [parts, Text.split_append hchars]
  exact congrArg (parts dir ++ ·) (parts_of_notMem hname)

theorem parts_concat_slash (dir : String) : parts (dir ++ "/") = parts dir ++ [""] := by
  have hempty : '/' ∉ "".toList := by simp
  simpa using parts_append_slash dir hempty

theorem parts_ne_nil (path : String) : parts path ≠ [] :=
  Text.split_ne_nil '/' path

/-- A name is put after a slash, which may be there already. -/
theorem join_cases (dir : String) :
    (dir = "" ∧ ∀ name, join dir name = name) ∨
      (∃ upper, dir = upper ++ "/" ∧ ∀ name, join dir name = upper ++ "/" ++ name) ∨
      (dir ≠ "" ∧ ∀ name, join dir name = dir ++ "/" ++ name) := by
  by_cases hempty : dir = ""
  · exact Or.inl ⟨hempty, fun name => if_pos hempty⟩
  by_cases hslash : dir.toList.getLast? = some '/'
  · have hdir : dir = String.ofList dir.toList.dropLast ++ "/" := by
      rw [← String.toList_inj, String.toList_append, String.toList_ofList]
      exact (List.dropLast_append_getLast? '/' hslash).symm
    refine Or.inr (Or.inl ⟨_, hdir, fun name => ?_⟩)
    rw [join, if_neg hempty, if_pos hslash, ← hdir]
  · refine Or.inr (Or.inr ⟨hempty, fun name => ?_⟩)
    rw [join, if_neg hempty, if_neg hslash]

/-- Whether a text is the name of an entry in a directory: one part that is a step down. -/
def isName (name : String) : Bool :=
  !FileTree.isStay name && name ≠ ".." && !name.toList.contains '/'

theorem isName_iff : isName name ↔
    FileTree.isStay name = false ∧ name ≠ ".." ∧ '/' ∉ name.toList := by
  simp [isName, and_assoc]

theorem component?_eq (part : String) :
    component? part =
      if FileTree.isStay part then none
      else if part = ".." then some .parent else some (.name part) := by
  by_cases hempty : part = ""
  · rw [hempty]
    rfl
  by_cases hdot : part = "."
  · rw [hdot]
    rfl
  by_cases hparent : part = ".."
  · rw [hparent]
    rfl
  · simp [component?, FileTree.isStay, hempty, hdot, hparent]

theorem component?_of_isName (h : isName name) : component? name = some (.name name) := by
  obtain ⟨hstay, hparent, -⟩ := isName_iff.mp h
  rw [component?_eq, hstay, if_neg Bool.false_ne_true, if_neg hparent]

theorem isAbsolute_append (hdir : dir ≠ "") (rest : String) :
    isAbsolute (dir ++ rest) = isAbsolute dir := by
  have hchars : dir.toList ≠ [] := fun h => hdir (String.toList_eq_nil_iff.mp h)
  rw [isAbsolute, isAbsolute, String.toList_append, List.head?_append_of_ne_nil _ hchars]

theorem isAbsolute_iff {path : String} :
    isAbsolute path ↔ (components path).head? = some .root := by
  have hroot : ∀ {part : String}, component? part ≠ some .root := by
    intro part h
    rw [component?_eq] at h
    split at h
    · cases h
    · split at h <;> cases h
  rw [components]
  constructor
  · intro h
    rw [if_pos h]
    rfl
  · intro h
    by_contra habsolute
    rw [if_neg habsolute] at h
    by_cases hdot : (parts path).head? = some "."
    · rw [if_pos hdot] at h
      cases h
    · rw [if_neg hdot, List.nil_append] at h
      obtain ⟨part, -, hpart⟩ := List.mem_filterMap.mp (List.mem_of_head? h)
      exact hroot hpart

/-- The components of a path tell whether it is absolute. -/
theorem isAbsolute_congr {path path' : String} (h : components path' = components path) :
    isAbsolute path' = isAbsolute path := by
  rw [Bool.eq_iff_iff, isAbsolute_iff, isAbsolute_iff, h]

/-- A slash at the end makes no difference. -/
theorem components_append_slash (hdir : dir ≠ "") : components (dir ++ "/") = components dir := by
  have hlast : [""].filterMap component? = [] := rfl
  rw [components, components, parts_concat_slash, isAbsolute_append hdir,
    List.head?_append_of_ne_nil _ (parts_ne_nil dir), List.filterMap_append, hlast, List.append_nil]

theorem components_append_name (dir : String) (hname : isName name) :
    components (dir ++ "/" ++ name) = components (dir ++ "/") ++ [.name name] := by
  obtain ⟨-, -, hslash⟩ := isName_iff.mp hname
  have hlast : [""].filterMap component? = [] := rfl
  have hlast' : [name].filterMap component? = [.name name] := by
    rw [List.filterMap_cons, component?_of_isName hname]
    rfl
  have hdir : dir ++ "/" ≠ "" := by simp
  rw [components, components, parts_append_slash dir hslash, parts_concat_slash,
    isAbsolute_append hdir, List.head?_append_of_ne_nil _ (parts_ne_nil dir),
    List.head?_append_of_ne_nil _ (parts_ne_nil dir), List.filterMap_append, List.filterMap_append,
    hlast, hlast', List.append_nil, List.append_assoc]

theorem components_of_isName (hname : isName name) : components name = [.name name] := by
  obtain ⟨hstay, -, hslash⟩ := isName_iff.mp hname
  have habsolute : isAbsolute name = false :=
    decide_eq_false fun hhead => hslash (List.mem_of_head? hhead)
  have hdot : ¬ [name].head? = some "." := by
    intro h
    obtain rfl : name = "." := Option.some.inj h
    cases hstay
  rw [components, habsolute, parts_of_notMem hslash, if_neg Bool.false_ne_true, if_neg hdot,
    List.nil_append, List.filterMap_cons, component?_of_isName hname]
  rfl

/-- The first part of a path is empty only if the path is, or starts with a slash. -/
theorem exists_parts_eq_cons (habsolute : isAbsolute dir = false) (hdir : dir ≠ "") :
    ∃ first rest, parts dir = first :: rest ∧ first ≠ "" := by
  cases hchars : dir.toList with
  | nil => exact absurd (String.toList_eq_nil_iff.mp hchars) hdir
  | cons c cs =>
    have hc : ¬ (c == '/') = true := by simpa [isAbsolute, hchars] using habsolute
    rw [parts, Text.split, hchars, List.splitOn_cons_eq_if_modifyHead, if_neg hc]
    cases hparts : cs.splitOn '/' with
    | nil => exact absurd hparts (List.splitOn_ne_nil '/' cs)
    | cons first rest => exact ⟨_, _, rfl, by simp⟩

theorem components_eq_nil_iff : components dir = [] ↔ dir = "" := by
  constructor
  · intro h
    by_contra hdir
    cases habsolute : isAbsolute dir with
    | true => simp [components, habsolute] at h
    | false =>
      obtain ⟨first, rest, hparts, hfirst⟩ := exists_parts_eq_cons habsolute hdir
      by_cases hdot : first = "."
      · simp [components, habsolute, hparts, hdot] at h
      · have hstay : FileTree.isStay first = false := by simp [FileTree.isStay, hfirst, hdot]
        have hnone : component? first = none :=
          List.filterMap_eq_nil_iff.mp (List.append_eq_nil_iff.mp h).2 first (by simp [hparts])
        rw [component?_eq, hstay, if_neg Bool.false_ne_true] at hnone
        split at hnone <;> cases hnone
  · rintro rfl
    rfl

/-- **A path below a directory has one component more.** -/
theorem components_join (dir : String) (hname : isName name) :
    components (join dir name) = components dir ++ [.name name] := by
  rcases join_cases dir with ⟨rfl, hjoin⟩ | ⟨upper, rfl, hjoin⟩ | ⟨hdir, hjoin⟩
  · rw [hjoin, components_of_isName hname]
    rfl
  · rw [hjoin, components_append_name upper hname]
  · rw [hjoin, components_append_name dir hname, components_append_slash hdir]

/-! ## The last component -/

theorem lastName?_eq_some_iff {path s : String} :
    lastName? path = some s ↔ (components path).getLast? = some (.name s) := by
  rw [lastName?]
  split
  case h_1 s' hlast => simp [hlast]
  case h_2 hnone =>
    refine iff_of_false (by simp) fun hlast => hnone s hlast

theorem isHidden_iff {path : String} :
    isHidden path ↔ (components path).getLast? = some (.name ".git") := by
  rw [isHidden, decide_eq_true_iff, lastName?_eq_some_iff]

theorem hasExtension_iff {extension : String} :
    hasExtension extension name ↔ ∃ stem, stem ≠ "" ∧ name = stem ++ "." ++ extension := by
  rw [hasExtension, Bool.and_eq_true, List.isSuffixOf_iff_suffix, decide_eq_true_iff]
  constructor
  · rintro ⟨⟨stem, hstem⟩, hlength⟩
    refine ⟨String.ofList stem, ?_, ?_⟩
    · rintro hempty
      rw [← hstem, String.ofList_eq_empty_iff.mp hempty] at hlength
      exact absurd hlength (Nat.lt_irrefl _)
    · rw [← String.toList_inj, ← hstem]
      simp
  · rintro ⟨stem, hstem, rfl⟩
    have hchars : (stem ++ "." ++ extension).toList = stem.toList ++ '.' :: extension.toList := by
      simp
    have hpos : 0 < stem.toList.length :=
      List.length_pos_iff.mpr fun h => hstem (String.toList_eq_nil_iff.mp h)
    rw [hchars, List.length_append]
    exact ⟨List.suffix_append _ _, by omega⟩

theorem isDocument_iff {path : String} : isDocument path ↔
    ∃ stem, stem ≠ "" ∧ (components path).getLast? = some (.name (stem ++ ".json")) := by
  have hjson (stem : String) : stem ++ "." ++ "json" = stem ++ ".json" := by
    rw [String.append_assoc]
    rfl
  simp only [isDocument, Option.any_eq_true, lastName?_eq_some_iff, hasExtension_iff, hjson]
  constructor
  · rintro ⟨s, hs, stem, hstem, rfl⟩
    exact ⟨stem, hstem, hs⟩
  · rintro ⟨stem, hstem, hlast⟩
    exact ⟨_, hlast, stem, hstem, rfl⟩

/-! ## The order of paths -/

namespace Component

variable {a b c : Component}

theorem lt_irrefl (a : Component) : ¬ a < a := by
  rintro (h | ⟨-, h⟩)
  · exact Nat.lt_irrefl _ h
  · exact String.lt_irrefl _ h

theorem lt_trans (hab : a < b) (hbc : b < c) : a < c := by
  rcases hab with hab | ⟨hab, hab'⟩ <;> rcases hbc with hbc | ⟨hbc, hbc'⟩
  · exact Or.inl (Nat.lt_trans hab hbc)
  · exact Or.inl (hbc ▸ hab)
  · exact Or.inl (hab ▸ hbc)
  · exact Or.inr ⟨hab.trans hbc, String.lt_trans hab' hbc'⟩

theorem eq_of_rank_of_text (hrank : a.rank = b.rank) (htext : a.text = b.text) : a = b := by
  cases a <;> cases b <;> simp_all [rank, text]

theorem eq_of_not_lt (hab : ¬ a < b) (hba : ¬ b < a) : a = b := by
  obtain ⟨hrank, htext⟩ := not_or.mp hab
  obtain ⟨hrank', htext'⟩ := not_or.mp hba
  have heq : a.rank = b.rank := by omega
  refine eq_of_rank_of_text heq ?_
  by_contra hne
  exact htext' ⟨heq.symm, lt_of_not_lt_of_ne (fun h => htext ⟨heq, h⟩) hne⟩

instance : Std.Irrefl (fun a b : Component => a < b) := ⟨lt_irrefl⟩

instance : Trans (fun a b : Component => a < b) (fun a b : Component => a < b)
    (fun a b : Component => a < b) := ⟨lt_trans⟩

instance : Std.Trichotomous (fun a b : Component => a < b) := ⟨fun _ _ => eq_of_not_lt⟩

end Component

variable {p q r : String} {ps qs : List String}

theorem Precedes.trans (hpq : Precedes p q) (hqr : Precedes q r) : Precedes p r :=
  List.lt_trans hpq hqr

theorem precedes_of_not_precedes (h : ¬ Precedes p q) (hne : components p ≠ components q) :
    Precedes q p := by
  by_contra hqp
  exact hne ((List.Lex.trichotomous _).trichotomous _ _ h hqp)

/-- **A sequence of paths in strict order is determined by its members.** -/
theorem map_components_eq (hps : ps.Pairwise Precedes) (hqs : qs.Pairwise Precedes)
    (h : ∀ cs, cs ∈ ps.map components ↔ cs ∈ qs.map components) :
    ps.map components = qs.map components := by
  have : Std.Antisymm (fun cs ds : List Component => cs < ds) :=
    ⟨fun cs ds hcd hdc => absurd (List.lt_trans hcd hdc) (List.lt_irrefl cs)⟩
  have : Std.Irrefl (fun cs ds : List Component => cs < ds) := ⟨List.lt_irrefl⟩
  exact List.Pairwise.eq_of_mem_iff (List.pairwise_map.mpr hps) (List.pairwise_map.mpr hqs) h

end CallAtlas.Path
