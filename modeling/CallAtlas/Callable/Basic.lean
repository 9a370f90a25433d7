import CallAtlas.NameMap
import CallAtlas.NameSet
import CallAtlas.Source.Kind

/-!
# Callables

A callable is what the analysis knows of one definition: a subroutine, a function, an interface or
a module, with the names it refers to.

## Main definitions

* `CallableKind`: the sort of a definition.
* `Variable`, `ArrayRef`: declared variables, and arrays that are allocated or deallocated.
* `Callable`: the record of a definition.
* `Callable.leaked`, `Callable.foreign`: arrays that are only allocated, or only deallocated.
-/

namespace CallAtlas

/-- The sort of a definition. -/
inductive CallableKind where
  | subroutine
  | function
  | interface
  | module
  /-- A name that is referred to and defined nowhere. -/
  | external
  /-- A definition statement of another kind, of which only name and place are kept. -/
  | other
deriving DecidableEq, Repr

namespace CallableKind

/-- The name of a sort. -/
def label : CallableKind → String
  | .subroutine => "Subroutine"
  | .function => "Function"
  | .interface => "Interface"
  | .module => "Module"
  | .external => "External"
  | .other => "Other"

/-- The sort of definition that a statement introduces, if it is one of the four. -/
def classify : Source.Kind → Option CallableKind
  | .subroutineStmt => some .subroutine
  | .functionStmt => some .function
  | .interfaceStmt => some .interface
  | .moduleStmt => some .module
  | _ => none

end CallableKind

/-- A variable from a type declaration. -/
structure Variable where
  name : String
  declaredType : String
  /-- The dimensions, if the declaration gives any. -/
  shape : Option (List String)
deriving DecidableEq, Repr

/-- An array in an allocate or deallocate statement. -/
structure ArrayRef where
  name : String
  shape : List String
  /-- The type from the array's declaration, if there is one. -/
  elementType : Option String
deriving DecidableEq, Repr

/-- The record of one definition. -/
structure Callable where
  name : String
  kind : CallableKind
  sourceFile : String
  firstLine : Nat
  lineCount : Nat
  usesModules : NameSet := ∅
  /-- Subroutines defined inside this definition. -/
  subroutines : NameSet := ∅
  /-- Functions defined inside this definition. -/
  functions : NameSet := ∅
  /-- Names that are called. -/
  calls : NameSet := ∅
  /-- Names in references that may be a function call or an access to an array. -/
  ambiguous : NameSet := ∅
  /-- Those of the ambiguous names that turned out to be arrays. -/
  arrayAccesses : NameSet := ∅
  declaredVariables : NameMap Variable := ∅
  allocated : List ArrayRef := []
  deallocated : List ArrayRef := []
  /-- The member procedures of an interface. -/
  procedures : List String := []

namespace Callable

/-- The arrays that are allocated and never deallocated. -/
def leaked (c : Callable) : List ArrayRef :=
  c.allocated.filter fun a => !c.deallocated.any fun b => b.name = a.name

/-- The arrays that are deallocated and never allocated. -/
def foreign (c : Callable) : List ArrayRef :=
  c.deallocated.filter fun a => !c.allocated.any fun b => b.name = a.name

end Callable

end CallAtlas
