import CallAtlas.Proofs.PathComponents
import CallAtlas.Proofs.WrittenFiles

/-!
# Walks to directories

A path is followed part by part. Where it leads to a directory, the parts that stay where they are
do not matter, so a walk along the path takes one step for each of its components. Two spellings of
a path hence lead to the same directory.

What stands where does not depend on the order in which a directory lists its entries, as long as
no two of them have the same name.

## Main definitions

* `FileTree.isProper` — the entries of each directory have names, and no two have the same
* `FileTree.enter?`, `FileTree.follow?` — the directories on the way along components
* `FileTree.LeadsTo` — the directory that a path leads to
* `FileTree.SameOccupants` — trees in which the same things stand at the same positions

## Main results

* `FileTree.leadsTo_iff` — a walk along a path is a walk along its components
* `FileTree.sameOccupants_of_perm` — the order of entries does not show
* `FileTree.LeadsTo.congr` — spellings of paths and orders of entries do not matter
-/

namespace CallAtlas

open CallAtlas.Path (Component components)

/-! ## Directories -/

namespace FileTree

mutual

/-- Whether the entries of every directory have names, and no two of a directory the same. -/
def isProper : FileTree → Bool
  | .file _ => true
  | .directory entries => allProper entries

/-- Whether entries have different names and are proper. -/
def allProper : List (String × FileTree) → Bool
  | [] => true
  | (name, t) :: entries =>
    Path.isName name && !(entries.map Prod.fst).contains name && t.isProper && allProper entries

end

variable {t u : FileTree} {entries entries' : List (String × FileTree)} {name n : String}
  {cwd position position' names : List String} {dir dir' : String}

theorem allProper_cons_iff : allProper ((name, t) :: entries) ↔
    Path.isName name ∧ name ∉ entries.map Prod.fst ∧ t.isProper ∧ allProper entries := by
  simp [allProper, and_assoc]

theorem child?_eq_some_mem (h : child? entries n = some u) : (n, u) ∈ entries := by
  obtain ⟨⟨m, v⟩, he, rfl⟩ := Option.map_eq_some_iff.mp h
  obtain rfl : m = n := by simpa using List.find?_some he
  exact List.mem_of_find?_eq_some he

/-- The entry of a name is the first one of the list or one of the others, and not both. -/
theorem child?_cons_eq_some_iff (hname : name ∉ entries.map Prod.fst) :
    child? ((name, t) :: entries) n = some u ↔
      n = name ∧ u = t ∨ child? entries n = some u := by
  by_cases hn : name = n
  · subst hn
    have hnone : ¬ child? entries name = some u := fun h =>
      hname (List.mem_map.mpr ⟨_, child?_eq_some_mem h, rfl⟩)
    have hfirst : child? ((name, t) :: entries) name = some t := by simp [child?]
    rw [hfirst, Option.some.injEq, or_iff_left hnone, and_iff_right rfl]
    exact eq_comm
  · simp [child?, hn, Ne.symm hn]

theorem child?_eq_some_iff (h : allProper entries) :
    child? entries n = some u ↔ (n, u) ∈ entries := by
  induction entries with
  | nil => simp [child?]
  | cons e entries ih =>
    obtain ⟨name, t⟩ := e
    obtain ⟨-, hnot, -, hentries⟩ := allProper_cons_iff.mp h
    rw [child?_cons_eq_some_iff hnot, ih hentries, List.mem_cons, Prod.mk.injEq]

theorem isProper_of_child? (h : allProper entries) (hchild : child? entries n = some u) :
    u.isProper := by
  induction entries with
  | nil => cases hchild
  | cons e entries ih =>
    obtain ⟨name, t⟩ := e
    obtain ⟨-, hnot, ht, hentries⟩ := allProper_cons_iff.mp h
    rcases (child?_cons_eq_some_iff hnot).mp hchild with ⟨rfl, rfl⟩ | hchild
    · exact ht
    · exact ih hentries hchild

theorem isProper_of_get? (ht : t.isProper) (h : t.get? position = some u) : u.isProper := by
  induction position generalizing t with
  | nil =>
    obtain rfl : t = u := Option.some.inj h
    exact ht
  | cons n position ih =>
    cases t with
    | file text => cases h
    | directory entries =>
      obtain ⟨v, hv, h⟩ := Option.bind_eq_some_iff.mp h
      exact ih (isProper_of_child? ht hv) h

theorem get?_append (t : FileTree) (position names : List String) :
    t.get? (position ++ names) = (t.get? position).bind (get? names) := by
  induction position generalizing t with
  | nil => rfl
  | cons n position ih =>
    cases t with
    | file text => rfl
    | directory entries =>
      rw [List.cons_append, get?, get?, Option.bind_assoc]
      exact congrArg _ (funext ih)

theorem occupant?_append (h : t.get? position = some u) (names : List String) :
    t.occupant? (position ++ names) = u.occupant? names := by
  rw [occupant?, get?_append, h]
  rfl

/-! ## The directory that a path leads to -/

/-- The directory that a component leads to from a directory. -/
def enter? (t : FileTree) (position : List String) : Component → Option (List String)
  | .root => some []
  | .current => some position
  | .parent => some position.dropLast
  | .name n => if t.isDirectoryAt (position ++ [n]) then some (position ++ [n]) else none

/-- The directory that components lead to, one after the other. -/
def follow? (t : FileTree) : List String → List Component → Option (List String)
  | position, [] => some position
  | position, c :: cs => (t.enter? position c).bind fun next => t.follow? next cs

theorem follow?_append (t : FileTree) (position : List String) (cs ds : List Component) :
    t.follow? position (cs ++ ds) =
      (t.follow? position cs).bind fun next => t.follow? next ds := by
  induction cs generalizing position with
  | nil => rfl
  | cons c cs ih =>
    rw [List.cons_append, follow?, follow?, Option.bind_assoc]
    exact congrArg _ (funext ih)

/-- In a working directory, the path leads to the directory at a position. -/
structure LeadsTo (t : FileTree) (cwd : List String) (dir : String) (position : List String) :
    Prop where
  locate?_eq : t.locate? cwd dir = some position
  directory : t.isDirectoryAt position

theorem isDirectoryAt_dropLast (h : t.isDirectoryAt position) :
    t.isDirectoryAt position.dropLast := by
  rcases List.eq_nil_or_concat' position with rfl | ⟨upper, n, rfl⟩
  · exact h
  · rw [isDirectoryAt, get?_append] at h
    rw [List.dropLast_concat, isDirectoryAt]
    cases hget : t.get? upper with
    | none => simp [hget] at h
    | some u =>
      cases u with
      | file text => simp [hget, get?] at h
      | directory entries => rfl

/-- A walk to a directory is a walk along components: the parts that stay where they are do not
count. -/
theorem walk?_iff {parts : List String} :
    t.walk? position parts = some names ∧ t.isDirectoryAt names ↔
      t.isDirectoryAt position ∧
        t.follow? position (parts.filterMap Path.component?) = some names := by
  have hup : Path.component? ".." = some .parent := rfl
  fun_induction walk? t position parts with
  | case1 position =>
    constructor
    · rintro ⟨h, hdir⟩
      cases h
      exact ⟨hdir, rfl⟩
    · rintro ⟨hdir, h⟩
      cases h
      exact ⟨rfl, hdir⟩
  | case2 position part parts hdir =>
    refine iff_of_false (by simp) ?_
    rintro ⟨h, -⟩
    rw [h] at hdir
    cases hdir
  | case3 position part parts hdir hstay ih =>
    have hnone : Path.component? part = none := by rw [Path.component?_eq, if_pos hstay]
    rw [List.filterMap_cons_none hnone]
    exact ih
  | case4 position parts hdir _ ih =>
    have hhere : t.isDirectoryAt position := by simpa using hdir
    rw [List.filterMap_cons_some hup, follow?, enter?, Option.bind_some]
    exact ih.trans (and_congr_left' (iff_of_true (isDirectoryAt_dropLast hhere) hhere))
  | case5 position part parts hdir hstay hparent hsome ih =>
    have hhere : t.isDirectoryAt position := by simpa using hdir
    have hdown : Path.component? part = some (.name part) := by
      rw [Path.component?_eq, if_neg hstay, if_neg hparent]
    rw [List.filterMap_cons_some hdown, follow?, enter?, and_iff_right hhere]
    refine ih.trans ?_
    by_cases hnext : t.isDirectoryAt (position ++ [part])
    · rw [if_pos hnext, and_iff_right hnext, Option.bind_some]
    · rw [if_neg hnext]
      exact iff_of_false (fun h => hnext h.1) (by simp)
  | case6 position part parts hdir hstay hparent hsome =>
    have hnext : ¬ t.isDirectoryAt (position ++ [part]) := by
      intro h
      rw [isDirectoryAt, Option.not_isSome_iff_eq_none.mp hsome] at h
      cases h
    have hdown : Path.component? part = some (.name part) := by
      rw [Path.component?_eq, if_neg hstay, if_neg hparent]
    rw [List.filterMap_cons_some hdown, follow?, enter?, if_neg hnext]
    exact iff_of_false (by simp) (by simp)

/-- The first component of a path takes it to where it starts, or the path is already there. -/
theorem follow?_components (t : FileTree) (cwd : List String) (dir : String) :
    t.follow? cwd (components dir) =
      t.follow? (origin cwd dir) ((Path.parts dir).filterMap Path.component?) := by
  rw [components, follow?_append, origin]
  by_cases habsolute : Path.isAbsolute dir
  · rw [if_pos habsolute, if_pos habsolute]
    rfl
  · rw [if_neg habsolute, if_neg habsolute]
    by_cases hdot : (Path.parts dir).head? = some "."
    · rw [if_pos hdot]
      rfl
    · rw [if_neg hdot]
      rfl

/-- **A path leads where its components lead**, in whatever spelling. -/
theorem leadsTo_iff :
    t.LeadsTo cwd dir position ↔
      components dir ≠ [] ∧ t.isDirectoryAt (origin cwd dir) ∧
        t.follow? cwd (components dir) = some position := by
  have hpair : t.LeadsTo cwd dir position ↔
      t.locate? cwd dir = some position ∧ t.isDirectoryAt position :=
    ⟨fun h => ⟨h.1, h.2⟩, fun h => ⟨h.1, h.2⟩⟩
  rw [hpair, locate?]
  by_cases hempty : dir = ""
  · subst hempty
    exact iff_of_false (by simp) fun h => h.1 rfl
  · rw [if_neg hempty, walk?_iff, follow?_components]
    exact (and_iff_right (mt Path.components_eq_nil_iff.mp hempty)).symm

theorem LeadsTo.exists_lookup? (h : t.LeadsTo cwd dir position) :
    ∃ entries, t.get? position = some (.directory entries) ∧
      t.lookup? cwd dir = some (.directory entries) := by
  obtain ⟨hlocate, hdir⟩ := h
  rw [lookup?, hlocate, Option.bind_some]
  rw [isDirectoryAt] at hdir
  cases hget : t.get? position with
  | none => simp [hget] at hdir
  | some v =>
    cases v with
    | file text => simp [hget, isDirectory] at hdir
    | directory entries => exact ⟨entries, rfl, rfl⟩

theorem any_lookup?_iff :
    (t.lookup? cwd dir).any isDirectory ↔ ∃ position, t.LeadsTo cwd dir position := by
  constructor
  · intro h
    cases hlocate : t.locate? cwd dir with
    | none => simp [lookup?, hlocate] at h
    | some position =>
      rw [lookup?, hlocate, Option.bind_some] at h
      exact ⟨position, hlocate, h⟩
  · rintro ⟨position, h⟩
    obtain ⟨entries, -, hlookup⟩ := h.exists_lookup?
    rw [hlookup]
    rfl

theorem LeadsTo.unique (h : t.LeadsTo cwd dir position) (h' : t.LeadsTo cwd dir position') :
    position = position' :=
  Option.some.inj (h.locate?_eq.symm.trans h'.locate?_eq)

theorem eq_append_of_follow? (h : t.follow? position (names.map .name) = some position') :
    position' = position ++ names := by
  induction names generalizing position with
  | nil => simpa [follow?, eq_comm] using h
  | cons n names ih =>
    rw [List.map_cons, follow?, enter?] at h
    split at h
    · rw [ih h, List.append_assoc, List.singleton_append]
    · cases h

/-! ## Trees in which the same things stand -/

/-- The same things stand at the same positions. -/
def SameOccupants (t u : FileTree) : Prop :=
  ∀ position, t.occupant? position = u.occupant? position

/-- The order of the entries of a directory does not show. -/
theorem sameOccupants_of_perm (h : allProper entries) (h' : allProper entries')
    (hperm : entries.Perm entries') :
    (directory entries).SameOccupants (directory entries') := by
  intro position
  cases position with
  | nil => rfl
  | cons n names =>
    have hchild : child? entries n = child? entries' n := by
      ext u
      rw [child?_eq_some_iff h, child?_eq_some_iff h', hperm.mem_iff]
    rw [occupant?_directory_cons, occupant?_directory_cons, hchild]

theorem SameOccupants.symm (h : t.SameOccupants u) : u.SameOccupants t :=
  fun position => (h position).symm

theorem SameOccupants.isDirectoryAt_eq (h : t.SameOccupants u) (position : List String) :
    t.isDirectoryAt position = u.isDirectoryAt position := by
  rw [Bool.eq_iff_iff, isDirectoryAt_iff, isDirectoryAt_iff, h]

theorem SameOccupants.follow?_eq (h : t.SameOccupants u) (position : List String)
    (cs : List Component) : t.follow? position cs = u.follow? position cs := by
  induction cs generalizing position with
  | nil => rfl
  | cons c cs ih =>
    have henter : t.enter? position c = u.enter? position c := by
      cases c with
      | name n => rw [enter?, enter?, h.isDirectoryAt_eq]
      | _ => rfl
    rw [follow?, follow?, henter]
    exact congrArg _ (funext ih)

theorem LeadsTo.congr (hsame : t.SameOccupants u) (hdir : components dir' = components dir)
    (h : t.LeadsTo cwd dir position) : u.LeadsTo cwd dir' position := by
  rw [leadsTo_iff] at h ⊢
  rwa [hdir, origin, Path.isAbsolute_congr hdir, ← origin, ← hsame.isDirectoryAt_eq,
    ← hsame.follow?_eq]

end FileTree

end CallAtlas
