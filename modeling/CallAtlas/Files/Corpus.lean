import CallAtlas.Files.Failure
import CallAtlas.Files.FileTree
import CallAtlas.Source.Tree

/-!
# The documents of a run

Documents are named one by one or found below directories. They are read in the order of their
paths, each of them once, so that the order in which directories list their entries is of no
consequence.

## Main definitions

* `Corpus.canonical`: paths in order and without repetitions.
* `Corpus.paths`: the paths of all documents.
* `Corpus.loadAll`: the syntax trees of documents.
-/

namespace CallAtlas.Corpus

/-- Whether a path does not come after another one. -/
def isSorted (p q : String) : Bool :=
  !decide (Path.Precedes q p)

/-- Whether two spellings are of the same path. -/
def isRepeat (p q : String) : Bool :=
  Path.components p = Path.components q

/-- Paths in order, each in the spelling that comes first. Sorting leaves the spellings of a path in
the order in which they were given. -/
def canonical (paths : List String) : List String :=
  (paths.mergeSort isSorted).eraseRepsBy isRepeat

mutual

/-- The documents at a path where a tree stands: the tree itself if it is a file with the right
extension, and everything below a directory. -/
def documents (path : String) : FileTree → List String
  | .file _ => if Path.isDocument path then [path] else []
  | .directory entries => if Path.isHidden path then [] else documentsAll path entries

/-- The documents below the entries of a directory. -/
def documentsAll (path : String) : List (String × FileTree) → List String
  | [] => []
  | (name, t) :: entries => documents (Path.join path name) t ++ documentsAll path entries

end

/-- The documents below a listed directory, given what stands at its path. -/
def listed (dir : String × Option FileTree) : Except Failure (List String) :=
  if Path.isHidden dir.1 then .ok []
  else match dir.2 with
    | none => .error (.noDirectory dir.1)
    | some (.file _) => .error (.notListed dir.1)
    | some t => .ok (documents dir.1 t)

/-- The paths of all documents. -/
def paths (inputs : List String) (dirs : List (String × Option FileTree)) :
    Except Failure (List String) := do
  let found ← dirs.mapM listed
  return canonical (inputs ++ found.flatten)

/-- The syntax tree of a document, given the text that was read at its path. -/
def load (document : String × Option String) : Except Failure Source.Tree :=
  match document.2 with
  | none => .error (.notRead .syntaxTree document.1)
  | some text =>
    match Source.Tree.parse? text with
    | none => .error (.invalid .syntaxTree document.1)
    | some t => .ok t

/-- The syntax trees of documents, up to the first that has none. -/
def loadAll (documents : List (String × Option String)) : Except Failure (List Source.Tree) :=
  documents.mapM load

end CallAtlas.Corpus
