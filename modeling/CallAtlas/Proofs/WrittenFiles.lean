import CallAtlas.Files.FileTree
import Mathlib.Data.List.Basic

/-!
# Written files

Writing a file changes a directory tree in one place. To say so, a tree is looked at as a map from
positions to what stands there, a directory or a file with its text (`FileTree.occupant?`). After a
file has been written, the map differs at the position of the file and nowhere else, and in
particular all directories are where they were.

Whether a path can be written to depends on the directories alone, and so does the position that it
leads to. A path that can be written to therefore still can after other files have been written,
and one that cannot still cannot.

## Main definitions

* `FileTree.occupant?` — what stands at a position
* `FileTree.PointsTo` — a path that names a place in a directory
* `FileTree.Admits` — a path that a file can be written at
* `FileTree.Receives` — a tree with some files more, and otherwise the same

## Main results

* `FileTree.occupant?_put?` — what stands where after a file was put somewhere
* `FileTree.PointsTo.congr` — places in directories do not depend on files
* `FileTree.PointsTo.read?_eq` — reading at such a place
* `FileTree.write?_eq_some_iff` — when a file can be written, and what comes of it
* `FileTree.write?_eq_none_congr` — whether a file can be written does not depend on files
* `FileTree.Receives.cons` — what stands where after several files were written
-/

namespace CallAtlas.FileTree

variable {t t' t'' : FileTree} {cwd position directory : List String} {path name text : String}

/-! ## What stands at a position -/

/-- A directory, or a file with its text. -/
inductive Occupant where
  | directory
  | file (text : Option String)
deriving DecidableEq, Repr

/-- What a tree is, without what is below it. -/
def top : FileTree → Occupant
  | .directory _ => .directory
  | .file text => .file text

/-- What stands at a position. -/
def occupant? (t : FileTree) (position : List String) : Option Occupant :=
  (t.get? position).map top

/-- The text of a file. -/
def Occupant.text? : Occupant → Option String
  | .directory => none
  | .file text => text

theorem isDirectoryAt_iff : t.isDirectoryAt position ↔ t.occupant? position = some .directory := by
  rw [isDirectoryAt, occupant?]
  cases t.get? position with
  | none => simp
  | some u => cases u <;> simp [isDirectory, top]

theorem occupant?_file_cons (x : Option String) (name : String) (names : List String) :
    (FileTree.file x).occupant? (name :: names) = none :=
  rfl

theorem occupant?_directory_cons (entries : List (String × FileTree)) (name : String)
    (names : List String) :
    (FileTree.directory entries).occupant? (name :: names) =
      (child? entries name).bind fun u => u.occupant? names := by
  rw [occupant?, get?]
  cases child? entries name <;> rfl

/-! ## Putting a file somewhere -/

theorem put?_cons {new : FileTree} {names : List String} (hnames : names ≠ [])
    (entries : List (String × FileTree)) :
    put? new (name :: names) (.directory entries) =
      (child? entries name).bind fun u => (put? new names u).map fun below =>
        .directory (putEntry name below entries) := by
  cases names with
  | nil => exact absurd rfl hnames
  | cons n names =>
    rw [put?]
    · cases child? entries name with
      | none => rfl
      | some u => cases hu : put? new (n :: names) u <;> simp [hu]
    · simp

/-- What a put changes on its way: the entry of the first name. -/
theorem occupant?_putEntry (entries : List (String × FileTree)) (below : FileTree) (n : String)
    (ns : List String) :
    (FileTree.directory (putEntry name below entries)).occupant? (n :: ns) =
      if n = name then below.occupant? ns
      else (FileTree.directory entries).occupant? (n :: ns) := by
  rw [occupant?_directory_cons, child?_putEntry]
  split
  · rfl
  · rw [occupant?_directory_cons]

/-- Below a file, and below nothing, there is nothing. -/
theorem occupant?_cons_of_not_isDirectory {x : Option FileTree} {n : String} {ns : List String}
    (hx : x.any isDirectory = false) : (x.bind fun u => u.occupant? (n :: ns)) = none := by
  cases x with
  | none => rfl
  | some u =>
    cases u with
    | file text => rfl
    | directory entries => simp [isDirectory] at hx

/-- **Putting a file somewhere changes what stands there, and nothing else.** -/
theorem occupant?_put? {x : Option String} (h : put? (.file x) position t = some t')
    (hdir : t.isDirectoryAt position = false) (other : List String) :
    t'.occupant? other = if other = position then some (.file x) else t.occupant? other := by
  induction position generalizing t t' other with
  | nil =>
    obtain rfl : .file x = t' := Option.some.inj h
    cases other with
    | nil => rfl
    | cons n ns => exact (occupant?_cons_of_not_isDirectory hdir).symm
  | cons name names ih =>
    cases t with
    | file text => simp [put?] at h
    | directory entries =>
      -- One entry is replaced, by the file itself or by a tree that holds it.
      obtain ⟨below, rfl, hbelow⟩ : ∃ below, t' = .directory (putEntry name below entries) ∧
          ∀ ns, below.occupant? ns = if ns = names then some (.file x)
            else (child? entries name).bind fun u => u.occupant? ns := by
        by_cases hnames : names = []
        · subst hnames
          have hchild : (child? entries name).any isDirectory = false := by
            simpa [isDirectoryAt, get?] using hdir
          refine ⟨.file x, (Option.some.inj h).symm, fun ns => ?_⟩
          cases ns with
          | nil => rfl
          | cons n ns =>
            rw [occupant?_file_cons, if_neg (by simp), occupant?_cons_of_not_isDirectory hchild]
        · rw [put?_cons hnames] at h
          obtain ⟨u, hu, h⟩ := Option.bind_eq_some_iff.mp h
          obtain ⟨below, hbelow, rfl⟩ := Option.map_eq_some_iff.mp h
          have hdir' : u.isDirectoryAt names = false := by
            simpa [isDirectoryAt, get?, hu] using hdir
          refine ⟨below, rfl, fun ns => ?_⟩
          rw [ih hbelow hdir', hu, Option.bind_some]
      cases other with
      | nil => rfl
      | cons n ns =>
        rw [occupant?_putEntry]
        by_cases hn : n = name
        · subst hn
          rw [if_pos rfl, hbelow, occupant?_directory_cons]
          simp
        · rw [if_neg hn, if_neg (by simp [hn])]

/-- A place in a directory can be filled. -/
theorem exists_put? (new : FileTree) (name : String) (hdir : t.isDirectoryAt position) :
    ∃ t', put? new (position ++ [name]) t = some t' := by
  induction position generalizing t with
  | nil =>
    cases t with
    | file x => simp [isDirectoryAt, get?, isDirectory] at hdir
    | directory entries => exact ⟨_, rfl⟩
  | cons n ns ih =>
    cases t with
    | file x => simp [isDirectoryAt, get?] at hdir
    | directory entries =>
      obtain ⟨u, hu, hdir⟩ : ∃ u, child? entries n = some u ∧ u.isDirectoryAt ns := by
        cases hu : child? entries n with
        | none => simp [isDirectoryAt, get?, hu] at hdir
        | some u => exact ⟨u, rfl, by simpa [isDirectoryAt, get?, hu] using hdir⟩
      obtain ⟨below, hbelow⟩ := ih hdir
      exact ⟨_, by rw [List.cons_append, put?_cons (by simp), hu, Option.bind_some, hbelow]; rfl⟩

/-- Only a place in a directory can be filled. -/
theorem isDirectoryAt_of_put? {new : FileTree} (h : put? new (position ++ [name]) t = some t') :
    t.isDirectoryAt position := by
  induction position generalizing t t' with
  | nil =>
    cases t with
    | file x => simp [put?] at h
    | directory entries => rfl
  | cons n ns ih =>
    cases t with
    | file x => simp [put?] at h
    | directory entries =>
      rw [List.cons_append, put?_cons (by simp)] at h
      obtain ⟨u, hu, h⟩ := Option.bind_eq_some_iff.mp h
      obtain ⟨below, hbelow, -⟩ := Option.map_eq_some_iff.mp h
      simpa [isDirectoryAt, get?, hu] using ih hbelow

/-! ## Following a path -/

theorem walk?_concat (t : FileTree) (position parts : List String) (part : String) :
    t.walk? position (parts ++ [part]) =
      (t.walk? position parts).bind fun directory => t.walk? directory [part] := by
  fun_induction walk? t position parts with
  | case1 position => rfl
  | case2 position p parts hdir => simp [walk?, hdir]
  | case3 position p parts hdir hstay ih => simpa [walk?, hdir, hstay] using ih
  | case4 position parts hdir hstay ih => simpa [walk?, hdir, hstay] using ih
  | case5 position p parts hdir hstay hparent hsome ih =>
    simpa [walk?, hdir, hstay, hparent, hsome] using ih
  | case6 position p parts hdir hstay hparent hsome =>
    simp [walk?, hdir, hstay, hparent, hsome]

/-- A walk that ends in a directory starts in one. -/
theorem isDirectoryAt_of_walk? {parts : List String} (h : t.walk? position parts = some directory)
    (hdir : t.isDirectoryAt directory) : t.isDirectoryAt position := by
  cases parts with
  | nil =>
    obtain rfl : position = directory := Option.some.inj h
    exact hdir
  | cons part parts =>
    by_contra hnot
    simp [walk?, hnot] at h

/-- A walk to a directory depends on directories only. -/
theorem walk?_congr (hsame : ∀ q, t'.isDirectoryAt q = t.isDirectoryAt q) {parts : List String}
    (h : t.walk? position parts = some directory) (hdir : t.isDirectoryAt directory) :
    t'.walk? position parts = some directory := by
  fun_induction walk? t position parts with
  | case1 position => exact h
  | case2 | case6 => cases h
  | case3 position p parts hdir hstay ih => simpa [walk?, hsame, hdir, hstay] using ih h
  | case4 position parts hdir hstay ih => simpa [walk?, hsame, hdir, hstay] using ih h
  | case5 position p parts hdir' hstay hparent hsome ih =>
    -- What the walk comes to is a directory, so the other tree has it as well.
    have hnext : t'.isDirectoryAt (position ++ [p]) := by
      rw [hsame]
      exact isDirectoryAt_of_walk? h hdir
    have hsome' : (t'.get? (position ++ [p])).isSome := by
      cases hget : t'.get? (position ++ [p]) with
      | none => simp [isDirectoryAt, hget] at hnext
      | some u => rfl
    simpa [walk?, hsame, hdir', hstay, hparent, hsome'] using ih h

/-- The path names a place in a directory, whether or not something stands there. -/
structure PointsTo (t : FileTree) (cwd : List String) (path : String) (directory : List String)
    (name : String) : Prop where
  parts_eq : Path.parts path = (Path.parts path).dropLast ++ [name]
  walk?_eq : t.walk? (origin cwd path) (Path.parts path).dropLast = some directory
  isDirectoryAt : t.isDirectoryAt directory
  /-- The last part of the path is a name. -/
  isStay_eq : isStay name = false
  ne_parent : name ≠ ".."

/-- The last step of a path that ends in a name. -/
theorem walk?_name (hdir : t.isDirectoryAt directory) (hstay : isStay name = false)
    (hparent : name ≠ "..") :
    t.walk? directory [name] =
      if (t.occupant? (directory ++ [name])).isSome then some (directory ++ [name]) else none := by
  simp [walk?, hdir, hstay, hparent, occupant?]

namespace PointsTo

theorem congr (hsame : ∀ q, t'.isDirectoryAt q = t.isDirectoryAt q)
    (h : t.PointsTo cwd path directory name) : t'.PointsTo cwd path directory name :=
  { h with
    walk?_eq := walk?_congr hsame h.walk?_eq h.isDirectoryAt
    isDirectoryAt := (hsame directory).trans h.isDirectoryAt }

theorem locate?_eq (h : t.PointsTo cwd path directory name) :
    t.locate? cwd path =
      if (t.occupant? (directory ++ [name])).isSome then some (directory ++ [name]) else none := by
  have hpath : path ≠ "" := by
    rintro rfl
    have hname : [""] = [name] := h.parts_eq
    have hstay := h.isStay_eq
    rw [← List.singleton_inj.mp hname] at hstay
    cases hstay
  rw [locate?, if_neg hpath, h.parts_eq, walk?_concat, h.walk?_eq, Option.bind_some,
    walk?_name h.isDirectoryAt h.isStay_eq h.ne_parent]

theorem lookup?_eq (h : t.PointsTo cwd path directory name) :
    t.lookup? cwd path = t.get? (directory ++ [name]) := by
  rw [lookup?, h.locate?_eq, occupant?]
  cases hget : t.get? (directory ++ [name]) with
  | none => rfl
  | some u => exact hget

theorem read?_eq (h : t.PointsTo cwd path directory name) :
    t.read? cwd path = (t.occupant? (directory ++ [name])).bind Occupant.text? := by
  rw [read?, h.lookup?_eq, occupant?]
  cases t.get? (directory ++ [name]) with
  | none => rfl
  | some u => cases u <;> rfl

end PointsTo

/-- A file can be written at the path. -/
structure Admits (t : FileTree) (cwd : List String) (path : String) (directory : List String)
    (name : String) : Prop extends PointsTo t cwd path directory name where
  isEntryName : isEntryName name
  isDirectoryAt_eq : t.isDirectoryAt (directory ++ [name]) = false

theorem Admits.congr (hsame : ∀ q, t'.isDirectoryAt q = t.isDirectoryAt q)
    (h : t.Admits cwd path directory name) : t'.Admits cwd path directory name where
  toPointsTo := h.toPointsTo.congr hsame
  isEntryName := h.isEntryName
  isDirectoryAt_eq := (hsame _).trans h.isDirectoryAt_eq

theorem isStay_of_isEntryName (h : isEntryName name) : isStay name = false ∧ name ≠ ".." := by
  simp only [isEntryName, Bool.and_eq_true, Bool.not_eq_true', decide_eq_true_eq] at h
  exact ⟨h.1.1.1, h.1.1.2⟩

theorem write?_eq (hname : (Path.parts path).getLast? = some name)
    (hwalk : t.walk? (origin cwd path) (Path.parts path).dropLast = some directory) :
    t.write? cwd path text =
      if !isEntryName name || t.isDirectoryAt (directory ++ [name]) then none
      else put? (.file (some text)) (directory ++ [name]) t := by
  simp only [write?, hname, hwalk, Option.bind_eq_bind, Option.bind_some]
  split <;> rfl

/-- **A file is put where the path points**, if nothing is in the way. -/
theorem write?_eq_some_iff :
    t.write? cwd path text = some t' ↔ ∃ directory name, t.Admits cwd path directory name ∧
      put? (.file (some text)) (directory ++ [name]) t = some t' := by
  constructor
  · intro h
    cases hname : (Path.parts path).getLast? with
    | none => simp [write?, hname] at h
    | some name =>
      cases hwalk : t.walk? (origin cwd path) (Path.parts path).dropLast with
      | none => simp [write?, hname, hwalk] at h
      | some directory =>
        rw [write?_eq hname hwalk] at h
        by_cases hfree : !isEntryName name || t.isDirectoryAt (directory ++ [name])
        · rw [if_pos hfree] at h
          cases h
        · rw [if_neg hfree] at h
          simp only [Bool.or_eq_true, Bool.not_eq_true', not_or, Bool.not_eq_false,
            Bool.not_eq_true] at hfree
          obtain ⟨hstay, hparent⟩ := isStay_of_isEntryName hfree.1
          have hparts : Path.parts path = (Path.parts path).dropLast ++ [name] :=
            (List.dropLast_append_getLast? name hname).symm
          exact ⟨directory, name,
            ⟨⟨hparts, hwalk, isDirectoryAt_of_put? h, hstay, hparent⟩, hfree.1, hfree.2⟩, h⟩
  · rintro ⟨directory, name, hadmits, hput⟩
    have hname : (Path.parts path).getLast? = some name := by
      rw [hadmits.parts_eq, List.getLast?_concat]
    rw [write?_eq hname hadmits.walk?_eq, if_neg, hput]
    simp [hadmits.isEntryName, hadmits.isDirectoryAt_eq]

theorem Admits.exists_write? (h : t.Admits cwd path directory name) (text : String) :
    ∃ t', t.write? cwd path text = some t' := by
  obtain ⟨t', ht'⟩ := exists_put? (.file (some text)) name h.isDirectoryAt
  exact ⟨t', write?_eq_some_iff.mpr ⟨directory, name, h, ht'⟩⟩

theorem write?_eq_none_iff :
    t.write? cwd path text = none ↔ ∀ directory name, ¬ t.Admits cwd path directory name := by
  constructor
  · intro h directory name hadmits
    obtain ⟨t', ht'⟩ := hadmits.exists_write? text
    rw [h] at ht'
    cases ht'
  · intro h
    rw [Option.eq_none_iff_forall_ne_some]
    intro t' ht'
    obtain ⟨directory, name, hadmits, -⟩ := write?_eq_some_iff.mp ht'
    exact h directory name hadmits

/-- **Whether a file can be written depends on the directories only.** -/
theorem write?_eq_none_congr (hsame : ∀ q, t'.isDirectoryAt q = t.isDirectoryAt q) :
    t'.write? cwd path text = none ↔ t.write? cwd path text = none := by
  rw [write?_eq_none_iff, write?_eq_none_iff]
  constructor
  · exact fun h directory name hadmits => h directory name (hadmits.congr hsame)
  · exact fun h directory name hadmits =>
      h directory name (hadmits.congr fun q => (hsame q).symm)

theorem isDirectoryAt_of_write? (h : t.write? cwd path text = some t') (q : List String) :
    t'.isDirectoryAt q = t.isDirectoryAt q := by
  obtain ⟨directory, name, hadmits, hput⟩ := write?_eq_some_iff.mp h
  rw [Bool.eq_iff_iff, isDirectoryAt_iff, isDirectoryAt_iff,
    occupant?_put? hput hadmits.isDirectoryAt_eq]
  split
  · subst q
    rw [← isDirectoryAt_iff, hadmits.isDirectoryAt_eq]
    simp
  · rfl

/-! ## Writing several files -/

/-- `t'` is `t` with texts in the files at some paths, and is otherwise the same. -/
structure Receives (cwd : List String) (t t' : FileTree) (files : List (String × String)) :
    Prop where
  /-- The files hold their texts. -/
  read?_eq : ∀ f ∈ files, t'.read? cwd f.1 = some f.2
  /-- Everywhere else stands what stood there before. -/
  occupant?_eq : ∀ q, (∀ f ∈ files, t'.locate? cwd f.1 ≠ some q) → t'.occupant? q = t.occupant? q
  /-- No directory comes or goes. -/
  isDirectoryAt_eq : ∀ q, t'.isDirectoryAt q = t.isDirectoryAt q

namespace Receives

theorem nil (cwd : List String) (t : FileTree) : Receives cwd t t [] :=
  ⟨nofun, fun _ _ => rfl, fun _ => rfl⟩

/-- One file is written before the others, none of which stands in its place. -/
theorem cons {t₁ : FileTree} {files : List (String × String)}
    (hw : t.write? cwd path text = some t₁) (h : Receives cwd t₁ t' files)
    (hapart : ∀ f ∈ files, f = (path, text) ∨ ∀ directory name, t.Admits cwd path directory name →
      t'.locate? cwd f.1 ≠ some (directory ++ [name])) :
    Receives cwd t t' ((path, text) :: files) := by
  obtain ⟨directory, name, hadmits, hput⟩ := write?_eq_some_iff.mp hw
  have hocc := occupant?_put? hput hadmits.isDirectoryAt_eq
  have hsame : ∀ q, t'.isDirectoryAt q = t.isDirectoryAt q := fun q =>
    (h.isDirectoryAt_eq q).trans (isDirectoryAt_of_write? hw q)
  have hpoints : t'.PointsTo cwd path directory name := hadmits.toPointsTo.congr hsame
  have hread : t'.read? cwd path = some text := by
    by_cases hagain : (path, text) ∈ files
    · exact h.read?_eq _ hagain
    · have hkept : t'.occupant? (directory ++ [name]) = t₁.occupant? (directory ++ [name]) := by
        refine h.occupant?_eq _ fun f hf => ?_
        rcases hapart f hf with rfl | hapart
        · exact absurd hf hagain
        · exact hapart directory name hadmits
      rw [hpoints.read?_eq, hkept, hocc, if_pos rfl]
      rfl
  have hlocate : t'.locate? cwd path = some (directory ++ [name]) := by
    rw [hpoints.read?_eq] at hread
    obtain ⟨occupant, hoccupant, -⟩ := Option.bind_eq_some_iff.mp hread
    rw [hpoints.locate?_eq, hoccupant]
    rfl
  refine ⟨List.forall_mem_cons.mpr ⟨hread, h.read?_eq⟩, fun q hq => ?_, hsame⟩
  obtain ⟨hne, hq⟩ := List.forall_mem_cons.mp hq
  rw [h.occupant?_eq q hq, hocc, if_neg]
  rintro rfl
  exact hne hlocate

end Receives

end CallAtlas.FileTree
