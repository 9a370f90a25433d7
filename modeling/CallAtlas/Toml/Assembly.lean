import CallAtlas.Toml.Value

/-!
# Assembling TOML tables

A document builds its tables piece by piece: a header opens a table, key–value pairs fill it,
dotted keys open tables inside it. While it is read, a table remembers how it came to be, because
that decides what may still be added to it.

A table that was only passed through by a longer header may be opened by a header of its own
later. It then moves to the end of its parent and keeps its entries.

## Main definitions

* `Toml.Origin`, `Toml.Part`: a table under construction.
* `Toml.alter?`: changes the table at the end of a path.
* `Toml.insertPair?`: adds a key–value pair.
* `Toml.Builder`: the state of a document under construction.
* `Toml.Builder.openTable?`, `Toml.Builder.openElement?`: the effect of the two kinds of header.
* `Toml.Builder.finish`: the finished document.
-/

namespace CallAtlas.Toml

/-- How a table came to be. -/
inductive Origin where
  /-- By a header of its own. -/
  | header
  /-- By a longer header that passes through it. -/
  | passing
  /-- By a dotted key. -/
  | dotted
deriving DecidableEq, Repr

/-- What a name stands for in a table under construction. -/
inductive Part where
  /-- A finished value. -/
  | value (value : Value)
  /-- A table that may still grow. -/
  | table (origin : Origin) (parts : List (String × Part))
  /-- An array of tables made by headers, the last of which may still grow. -/
  | elements (tables : List (List (String × Part)))

/-- The contents of a table under construction. -/
abbrev Parts := List (String × Part)

mutual

/-- The finished value of a part. -/
def Part.toValue : Part → Value
  | .value v => v
  | .table _ parts => .table (partsToTable parts)
  | .elements tables => .array (tablesToValues tables)

/-- The finished entries of a table. -/
def partsToTable : List (String × Part) → List (String × Value)
  | [] => []
  | (k, p) :: ps => (k, p.toValue) :: partsToTable ps

/-- The finished elements of an array of tables. -/
def tablesToValues : List (List (String × Part)) → List Value
  | [] => []
  | parts :: tables => .table (partsToTable parts) :: tablesToValues tables

end

/-- The part under a name. -/
def part? (parts : Parts) (key : String) : Option Part :=
  (parts.find? fun e => e.1 = key).map Prod.snd

/-- Replaces the part under a name, or appends it. -/
def putPart (parts : Parts) (key : String) (p : Part) : Parts :=
  if parts.any fun e => e.1 = key then
    parts.map fun e => if e.1 = key then (key, p) else e
  else parts ++ [(key, p)]

/-- Changes the table at the end of a path, given how it came to be. Missing tables on the way
come into being; `byKey` tells whether the path is that of a dotted key, which may not enter a
table that has a header of its own. Of an array of tables the last one is meant. -/
def alter? (byKey : Bool) (change : Origin → Parts → Option Parts) :
    List String → Origin → Parts → Option Parts
  | [], origin, parts => change origin parts
  | key :: path, _, parts =>
    match part? parts key with
    | none => do
      let origin := if byKey then .dotted else .passing
      let inner ← alter? byKey change path origin []
      return parts ++ [(key, .table origin inner)]
    | some (.value _) => none
    | some (.table origin inner) => do
      if byKey && origin = .header then none
      else
        let inner ← alter? byKey change path origin inner
        return putPart parts key (.table origin inner)
    | some (.elements tables) => do
      let inner ← alter? byKey change path .header (tables.getLastD [])
      return putPart parts key (.elements (tables.dropLast ++ [inner]))

/-- Adds a key–value pair. The last table on a dotted path must itself come from a dotted key, and
no key may be given twice. -/
def insertPair? (path : List String) (key : String) (v : Value) (parts : Parts) : Option Parts :=
  alter? true (fun origin parts =>
    if (!path.isEmpty && origin ≠ .dotted) || (part? parts key).isSome then none
    else some (parts ++ [(key, .value v)])) path .header parts

/-- A table from key–value pairs, each with the path of its dotted key. -/
def tableOfPairs? (pairs : List (List String × String × Value)) : Option Value :=
  (pairs.foldlM (fun parts pair => insertPair? pair.1 pair.2.1 pair.2.2 parts) []).map fun parts =>
    .table (partsToTable parts)

/-! ### Documents -/

/-- A document under construction, and the path of the table that the last header opened. -/
structure Builder where
  root : Parts := []
  path : List String := []

namespace Builder

/-- Opens a table with a header of its own. -/
def openTable? (b : Builder) (parent : List String) (key : String) : Option Builder :=
  (alter? false (fun _ parts =>
    match part? parts key with
    | none => some (parts ++ [(key, .table .header [])])
    | some (.table .passing inner) =>
      some ((parts.filter fun e => e.1 ≠ key) ++ [(key, .table .header inner)])
    | some _ => none) parent .header b.root).map fun root => ⟨root, parent ++ [key]⟩

/-- Opens a new element of an array of tables. -/
def openElement? (b : Builder) (parent : List String) (key : String) : Option Builder :=
  (alter? false (fun _ parts =>
    match part? parts key with
    | none => some (parts ++ [(key, .elements [[]])])
    | some (.elements tables) => some (putPart parts key (.elements (tables ++ [[]])))
    | some _ => none) parent .header b.root).map fun root => ⟨root, parent ++ [key]⟩

/-- Adds a key–value pair to the open table. -/
def pair? (b : Builder) (path : List String) (key : String) (v : Value) : Option Builder :=
  (alter? false (fun _ parts => insertPair? path key v parts) b.path .header b.root).map
    fun root => { b with root }

/-- The finished document. -/
def finish (b : Builder) : Table :=
  partsToTable b.root

end Builder

end CallAtlas.Toml
