import CallAtlas.Text.Split

/-!
# Paths

A path is a text whose parts are divided by slashes. Two spellings can name the same sequence of
components: a repeated slash and an inner dot do not count. Paths are compared by their
components, and shown as they were given.

## Main definitions

* `Path.components`: what a path says, without the accidents of its spelling.
* `Path.Precedes`: the order of paths.
* `Path.join`: a name below a path.
* `Path.isDocument`, `Path.isHidden`: what the last component of a path tells.
-/

namespace CallAtlas.Path

/-- A component of a path. -/
inductive Component where
  /-- The slash at the start of an absolute path. -/
  | root
  /-- The dot at the start of a relative path. -/
  | current
  /-- Two dots. -/
  | parent
  | name (text : String)
deriving DecidableEq, Repr

namespace Component

/-- The place of a sort of component in the order. -/
def rank : Component → Nat
  | .root => 0
  | .current => 1
  | .parent => 2
  | .name _ => 3

/-- The name in a component. -/
def text : Component → String
  | .name s => s
  | _ => ""

/-- Components are ordered by their sort, and names by their characters. -/
instance : LT Component :=
  ⟨fun a b => a.rank < b.rank ∨ a.rank = b.rank ∧ a.text < b.text⟩

instance (a b : Component) : Decidable (a < b) :=
  inferInstanceAs (Decidable (a.rank < b.rank ∨ a.rank = b.rank ∧ a.text < b.text))

end Component

/-- The texts between the slashes of a path. -/
def parts (path : String) : List String :=
  Text.split '/' path

/-- Whether a path starts from the root of the file system. -/
def isAbsolute (path : String) : Bool :=
  path.toList.head? = some '/'

/-- The component that a part after the first one stands for. -/
def component? : String → Option Component
  | "" | "." => none
  | ".." => some .parent
  | s => some (.name s)

/-- The components of a path. -/
def components (path : String) : List Component :=
  let start := if isAbsolute path then [.root]
    else if (parts path).head? = some "." then [.current] else []
  start ++ (parts path).filterMap component?

/-- The order of paths. -/
def Precedes (p q : String) : Prop :=
  components p < components q

instance (p q : String) : Decidable (Precedes p q) :=
  inferInstanceAs (Decidable (components p < components q))

/-- The path of a name below a path. -/
def join (path name : String) : String :=
  if path = "" then name
  else if path.toList.getLast? = some '/' then path ++ name
  else path ++ "/" ++ name

/-- The name at the end of a path. -/
def lastName? (path : String) : Option String :=
  match (components path).getLast? with
  | some (.name s) => some s
  | _ => none

/-- Whether a name ends in a dot and an extension; a name that is nothing else has none. -/
def hasExtension (extension name : String) : Bool :=
  let ending := '.' :: extension.toList
  ending.isSuffixOf name.toList && ending.length < name.toList.length

/-- Whether a path names a document. -/
def isDocument (path : String) : Bool :=
  (lastName? path).any (hasExtension "json")

/-- Whether a path names the directory of a version control system. -/
def isHidden (path : String) : Bool :=
  lastName? path = some ".git"

end CallAtlas.Path
