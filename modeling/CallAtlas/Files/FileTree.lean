import CallAtlas.Files.Path
import CallAtlas.KeyedList

/-!
# Directory trees

The files that a run reads and writes, as a value: the whole file system, as one tree. Positions are
lists of names from its root, and one of them is the working directory. A path is a text that is
followed from the root if it is absolute, and from the working directory if it is not. Every step
but the last has to meet a directory. The root is its own parent.

## Main definitions

* `FileTree`: a file or a directory with named entries.
* `FileTree.get?`, `FileTree.put?`: what stands at a position.
* `FileTree.locate?`, `FileTree.lookup?`: where a path leads.
* `FileTree.read?`, `FileTree.write?`, `FileTree.makeDirectories?`: the operations of a run.
* `FileTree.changes`: the files that differ between two trees.
-/

namespace CallAtlas

/-- A file or a directory. -/
inductive FileTree where
  /-- A file with its text, if it holds one. -/
  | file (text : Option String)
  | directory (entries : List (String × FileTree))
deriving Repr

namespace FileTree

/-- Whether a tree is a directory. -/
def isDirectory : FileTree → Bool
  | .directory _ => true
  | .file _ => false

/-- The entry of a name. -/
def child? (entries : List (String × FileTree)) (name : String) : Option FileTree :=
  (entries.find? fun e => e.1 = name).map Prod.snd

/-- Replaces the entry of a name, or adds it at the end. -/
def putEntry (name : String) (t : FileTree) (entries : List (String × FileTree)) :
    List (String × FileTree) :=
  upsertBy Prod.fst (name, t) entries

/-- What stands at a position. -/
def get? : List String → FileTree → Option FileTree
  | [], t => some t
  | name :: names, .directory entries => (child? entries name).bind (get? names)
  | _ :: _, .file _ => none

/-- Puts a tree at a position below an existing directory. -/
def put? (new : FileTree) : List String → FileTree → Option FileTree
  | [], _ => some new
  | [name], .directory entries => some (.directory (putEntry name new entries))
  | name :: names, .directory entries => do
    let below ← put? new names (← child? entries name)
    return .directory (putEntry name below entries)
  | _ :: _, .file _ => none

theorem child?_putEntry (name other : String) (t : FileTree) (entries : List (String × FileTree)) :
    child? (putEntry name t entries) other =
      if other = name then some t else child? entries other := by
  rw [child?, putEntry, find?_upsertBy]
  by_cases hother : other = name
  · simp [hother]
  · simp [hother, child?]

/-- Whether a directory stands at a position. -/
def isDirectoryAt (t : FileTree) (position : List String) : Bool :=
  (t.get? position).any isDirectory

/-- Whether a part of a path stays where it is. -/
def isStay (part : String) : Bool :=
  part = "" || part = "."

/-- The position that the parts of a path lead to, from another position. -/
def walk? (t : FileTree) : List String → List String → Option (List String)
  | position, [] => some position
  | position, part :: parts =>
    if !t.isDirectoryAt position then none
    else if isStay part then t.walk? position parts
    else if part = ".." then t.walk? position.dropLast parts
    else if (t.get? (position ++ [part])).isSome then t.walk? (position ++ [part]) parts
    else none

/-- Where a path starts, in a working directory. -/
def origin (cwd : List String) (path : String) : List String :=
  if Path.isAbsolute path then [] else cwd

/-- The position that a path leads to. The empty path leads nowhere. -/
def locate? (t : FileTree) (cwd : List String) (path : String) : Option (List String) :=
  if path = "" then none else t.walk? (origin cwd path) (Path.parts path)

/-- What a path leads to. -/
def lookup? (t : FileTree) (cwd : List String) (path : String) : Option FileTree :=
  (t.locate? cwd path).bind fun position => t.get? position

/-- The text of the file that a path leads to. -/
def read? (t : FileTree) (cwd : List String) (path : String) : Option String :=
  match t.lookup? cwd path with
  | some (.file text) => text
  | _ => none

/-- The greatest size of a name in bytes. -/
def maxNameSize : Nat := 255

/-- Whether a new entry can have a name. -/
def isEntryName (name : String) : Bool :=
  !isStay name && name ≠ ".." && name.utf8ByteSize ≤ maxNameSize && !name.toList.contains '\x00'

/-- Writes a text to the file at a path, in a directory that exists. -/
def write? (t : FileTree) (cwd : List String) (path text : String) : Option FileTree := do
  let name ← (Path.parts path).getLast?
  let position ← t.walk? (origin cwd path) (Path.parts path).dropLast
  if !isEntryName name || t.isDirectoryAt (position ++ [name]) then none
  put? (.file (some text)) (position ++ [name]) t

/-- Follows the parts of a path and makes the directories that are missing. -/
def makeWay? : List String → List String → FileTree → Option FileTree
  | position, [], t => if t.isDirectoryAt position then some t else none
  | position, part :: parts, t =>
    if !t.isDirectoryAt position then none
    else if isStay part then makeWay? position parts t
    else if part = ".." then makeWay? position.dropLast parts t
    else if (t.get? (position ++ [part])).isSome then makeWay? (position ++ [part]) parts t
    else if isEntryName part then
      (put? (.directory []) (position ++ [part]) t).bind (makeWay? (position ++ [part]) parts)
    else none

/-- Whether a path ends in a dot. -/
def endsInDot (path : String) : Bool :=
  ((Path.parts path).reverse.dropWhile (· = "")).head? = some "."

/-- Makes the directory at a path, with those above it that are missing. No directory can be made
under the name of a dot, so a path that ends in one has to lead to a directory already. For the
empty path there is nothing to make. -/
def makeDirectories? (t : FileTree) (cwd : List String) (path : String) : Option FileTree :=
  if path = "" then some t
  else if endsInDot path then
    if (t.lookup? cwd path).any isDirectory then some t else none
  else makeWay? (origin cwd path) (Path.parts path) t

mutual

/-- The files below a path, with their paths. -/
def files (path : String) : FileTree → List (String × Option String)
  | .file text => [(path, text)]
  | .directory entries => filesAll path entries

/-- The files below the entries of a directory. -/
def filesAll (path : String) : List (String × FileTree) → List (String × Option String)
  | [] => []
  | (name, t) :: entries => files (Path.join path name) t ++ filesAll path entries

end

/-- The files of a tree that an earlier tree does not have, or has with another text. -/
def changes (before after : FileTree) : List (String × Option String) :=
  (after.files "").filter fun f => !(before.files "").contains f

/-- Puts a tree at a position and makes the directories above it. -/
def plant (new : FileTree) : List String → FileTree → FileTree
  | [], _ => new
  | name :: names, .directory entries =>
    .directory (putEntry name (plant new names ((child? entries name).getD (.directory []))) entries)
  | name :: names, .file _ => .directory [(name, plant new names (.directory []))]

end FileTree

end CallAtlas
