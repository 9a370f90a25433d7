import CallAtlas.Layout.Program
import CallAtlas.Source.Kind

/-!
# What can go wrong in an analysis

Errors are causes; their wording is in one place, `Error.message`.

## Main definitions

* `Place`, `Malformed`: a syntax tree that does not have the expected form.
* `Error`: everything that stops an analysis or a view.
* `Error.message`: the text shown to the user.
-/

namespace CallAtlas

open Source (Kind)

/-- A place in a syntax tree that admits only children of certain kinds. -/
inductive Place where
  | typeDeclaration
  | entityDeclaration
  | allocation
  | deallocateStatement
  | deallocation
deriving DecidableEq, Repr

namespace Place

/-- How the place is called in messages. -/
def noun : Place → String
  | .typeDeclaration => "type declaration"
  | .entityDeclaration => "entity declaration"
  | .allocation => "allocation"
  | .deallocateStatement => "deallocate statement"
  | .deallocation => "deallocation"

/-- The kinds of children that the place admits. -/
def expected : Place → List Kind
  | .typeDeclaration => [.declarationTypeSpec, .intrinsicTypeSpec]
  | .entityDeclaration => [.name]
  | .allocation => [.name, .dataRef]
  | .deallocateStatement => [.allocateObjectList]
  | .deallocation => [.name, .dataRef]

end Place

/-- Ways in which a definition in a syntax tree can be malformed. -/
inductive Malformed where
  /-- A node that should be named has no name among its children. -/
  | noName (kind : Kind)
  /-- A node that should be named has several names among its children. -/
  | manyNames (kind : Kind)
  /-- A definition stands at the root, so that nothing encloses it. -/
  | noScope (name : String)
  /-- Neither a definition nor its scope tells its lines. -/
  | noLines (name : String)
  /-- A type declaration has no children. -/
  | noTypeSpec
  /-- An entity declaration has no children. -/
  | noEntityName
  /-- An allocation has fewer than two children. -/
  | noShape
  /-- A deallocate statement has no children. -/
  | noObjects
  /-- A child is of a kind that its place does not admit. -/
  | unexpectedChild (place : Place) (found : Kind)
deriving DecidableEq, Repr

namespace Malformed

/-- The description of a malformed definition. -/
def message : Malformed → String
  | .noName k => k.label ++ " node has no name child"
  | .manyNames k => k.label ++ " node has more than one name child"
  | .noScope name => "definition `" ++ name ++ "` has no enclosing scope"
  | .noLines name => "definition `" ++ name ++ "` has no line span"
  | .noTypeSpec => "type declaration without a type specification"
  | .noEntityName => "entity declaration without a name"
  | .noShape => "allocation needs an object and a shape"
  | .noObjects => "deallocate statement without objects"
  | .unexpectedChild place found =>
    place.noun ++ " has a " ++ found.label ++ " child where one of [" ++
      ", ".intercalate (place.expected.map Kind.label) ++ "] was expected"

end Malformed

/-- The causes that stop an analysis or a view. -/
inductive Error where
  /-- A connection list is given for a mode that is neither to keep nor to exclude. -/
  | unknownFilterMode (mode : String)
  /-- A depth is asked for that is neither of the two. -/
  | unknownDepthMode (mode : String)
  /-- A parameter has the wrong number of key parts for its scope. -/
  | malformedKey (key : List String)
  /-- A parameter has a scope that does not exist. -/
  | unknownScope (key : List String)
  /-- An interface names a procedure that is defined nowhere. -/
  | unknownProcedure (interface procedure : String)
  /-- A syntax tree does not have the expected form. -/
  | malformed (file : String) (fault : Malformed)
  /-- A view starts from a node that the graph does not have. -/
  | unknownRoot (name : String)
  /-- A layout is asked for that Graphviz does not have. -/
  | unknownLayout (program : String)
deriving DecidableEq, Repr

namespace Error

/-- The text shown for an error. -/
def message : Error → String
  | .unknownFilterMode mode =>
    "configuration error: unknown connection filter mode `" ++ mode ++
      "` (expected keep or exclude)"
  | .unknownDepthMode mode => "configuration error: unknown depth mode `" ++ mode ++ "`"
  | .malformedKey key =>
    "configuration error: malformed parameter key (" ++ ",".intercalate key ++ ")"
  | .unknownScope key =>
    "configuration error: unknown parameter scope `" ++ key.headD "" ++ "` in (" ++
      ",".intercalate key ++ ")"
  | .unknownProcedure interface procedure =>
    "interface `" ++ interface ++ "` references unknown procedure `" ++ procedure ++ "`"
  | .malformed file fault => "unexpected syntax in " ++ file ++ ": " ++ fault.message
  | .unknownRoot name => "root node `" ++ name ++ "` is not present in the graph"
  | .unknownLayout program =>
    "layout engine failed: unknown layout program `" ++ program ++ "` (expected one of " ++
      ", ".intercalate layoutPrograms ++ ")"

end Error

end CallAtlas
