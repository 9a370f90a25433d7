import CallAtlas.Callable.Definition
import CallAtlas.KeyedList

/-!
# The registry of definitions

A registry holds the callables of a whole corpus by name. Its order is part of it: a name stands
where it was first defined, and a later definition replaces the record without moving it. The
order decides the order of edges in the graphs drawn from the registry.

## Main definitions

* `Diagnostic`: what is worth telling about a corpus without being an error.
* `Registry`: records with distinct names.
* `Registry.insert`, `Registry.merge`: adding one record, or another registry.
* `Registry.build`: the registry of all definitions of certain kinds in a list of syntax trees.

## Main results

* `Registry.names_upsert`: inserting keeps the order of the names and appends a new one.
-/

namespace CallAtlas

open Source (Kind Tree)

/-- Events that do not stop an analysis. -/
inductive Diagnostic where
  /-- A name is defined in two files; the later one counts. -/
  | duplicateSymbol (name previousFile file : String)
  /-- A definition is of a kind of which only name and place are kept. -/
  | unsupportedKind (name file : String)
deriving DecidableEq, Repr

namespace Registry

/-- Replaces the record with the same name, or appends the record. -/
def upsert (c : Callable) (cs : List Callable) : List Callable :=
  upsertBy Callable.name c cs

theorem names_upsert (c : Callable) (xs : List Callable) :
    (upsert c xs).map Callable.name =
      if c.name ∈ xs.map Callable.name then xs.map Callable.name
      else xs.map Callable.name ++ [c.name] :=
  map_upsertBy Callable.name c xs

theorem nodup_upsert {c : Callable} {xs : List Callable} (h : (xs.map Callable.name).Nodup) :
    ((upsert c xs).map Callable.name).Nodup :=
  nodup_map_upsertBy h

end Registry

/-- Records by name, in the order of first definition. -/
structure Registry where
  entries : List Callable
  diagnostics : List Diagnostic
  nodup : (entries.map Callable.name).Nodup

namespace Registry

instance : EmptyCollection Registry := ⟨⟨[], [], List.nodup_nil⟩⟩

instance : Inhabited Registry := ⟨∅⟩

/-! ### Looking up -/

/-- The names, in order. -/
def names (r : Registry) : List String :=
  r.entries.map Callable.name

/-- The record of a name. -/
def find? (r : Registry) (name : String) : Option Callable :=
  r.entries.find? fun c => c.name = name

/-- Whether a name is defined. -/
def contains (r : Registry) (name : String) : Bool :=
  r.entries.any fun c => c.name = name

/-- The number of records. -/
def size (r : Registry) : Nat :=
  r.entries.length

/-! ### Adding -/

/-- Adds a record; one of the same name is replaced in its place. -/
def insert (r : Registry) (c : Callable) : Registry :=
  { r with entries := upsert c r.entries, nodup := nodup_upsert r.nodup }

/-- Appends diagnostics. -/
def report (r : Registry) (ds : List Diagnostic) : Registry :=
  { r with diagnostics := r.diagnostics ++ ds }

/-- Adds a record from another file, reporting a name that is already there. -/
def mergeOne (r : Registry) (c : Callable) : Registry :=
  match r.find? c.name with
  | none => r.insert c
  | some previous =>
    (r.insert c).report [.duplicateSymbol c.name previous.sourceFile c.sourceFile]

/-- Adds the diagnostics and then the records of another registry, whose records win. -/
def merge (r s : Registry) : Registry :=
  s.entries.foldl mergeOne (r.report s.diagnostics)

/-- Changes every record without renaming it. -/
def mapEntries (r : Registry) (f : Callable → Callable) (hf : ∀ c, (f c).name = c.name) :
    Registry where
  entries := r.entries.map f
  diagnostics := r.diagnostics
  nodup := by
    have : Callable.name ∘ f = Callable.name := funext hf
    rw [List.map_map, this]
    exact r.nodup

/-! ### Building -/

/-- The statements that define the nodes of a call graph. -/
def callableKinds : List Kind :=
  [.subroutineStmt, .functionStmt, .interfaceStmt]

/-- The statements that define the nodes of a module graph. -/
def moduleKinds : List Kind :=
  [.moduleStmt]

/-- Adds a definition met in a file, reporting one of an unsupported kind. -/
def define (r : Registry) (c : Callable) : Registry :=
  let r := if c.kind = .other then r.report [.unsupportedKind c.name c.sourceFile] else r
  r.insert c

/-- The registry of one file. -/
def ofTree (kinds : List Kind) (t : Tree) : Except Error Registry :=
  ((t.descendants 0 kinds).mapM (Callable.ofDefinition t)).map fun cs => cs.foldl define ∅

/-- The registry of a corpus; of two files that define a name the later one counts. -/
def build (kinds : List Kind) (trees : List Tree) : Except Error Registry :=
  (trees.mapM (ofTree kinds)).map fun rs => rs.foldl merge ∅

end Registry

end CallAtlas
