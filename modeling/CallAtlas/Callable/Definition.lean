import CallAtlas.Callable.Basic
import CallAtlas.Error
import CallAtlas.Source.Tree

/-!
# The callable of a definition statement

A definition statement such as `subroutine solve` stands as a child of its scope, the node that
also holds its body. What the definition refers to is collected from the scope.

A reference is *local* to a definition unless it lies in an internal procedure, behind a
`contains`; a definition that is itself internal sees everything below its scope.

## Main definitions

* `Definition.nameOf`: the name of a node.
* `Definition.isLocal`, `Definition.localNodes`: the references of a definition.
* `Definition.declarations`, `Definition.allocations`, `Definition.deallocations`.
* `Callable.ofDefinition`: the record of a definition statement.
-/

namespace CallAtlas

open Source (Kind Tree)

namespace Definition

variable (t : Tree)

/-! ### Names and places -/

/-- The identifier of a node: the text of its one name child. -/
def nameOf (i : Nat) : Except Malformed String :=
  match (t.children i).filter fun c => (t.kind c).isName with
  | [only] => .ok (t.text only)
  | [] => .error (.noName (t.kind i))
  | _ => .error (.manyNames (t.kind i))

/-- The names of nodes. -/
def namesOf (nodes : List Nat) : Except Malformed NameSet :=
  (nodes.mapM (nameOf t)).map NameSet.ofList

/-- First line and number of lines, taken from the scope if it tells them. -/
def location (d : Nat) : Option (Nat × Nat) :=
  (((t.parent d).bind t.span) <|> t.span d).map fun s => (s.first, s.lineCount)

/-- Checks that a node may stand in a place. -/
def checkChild (place : Place) (i : Nat) : Except Malformed Unit :=
  if place.expected.contains (t.kind i) then .ok ()
  else .error (.unexpectedChild place (t.kind i))

/-- The texts of a node's children. -/
def texts (i : Nat) : List String :=
  (t.children i).map t.text

/-! ### References of a definition -/

/-- Whether a node below the scope of `d` belongs to `d` itself. -/
def isLocal (d i : Nat) : Bool :=
  i != d && (t.hasAncestor d .internalSubprogramPart || !t.hasAncestor i .internalSubprogramPart)

/-- The nodes of a kind that belong to the definition `d` with the given scope. -/
def localNodes (d scope : Nat) (k : Kind) : List Nat :=
  (t.descendants scope [k]).filter (isLocal t d)

/-- The definition statements of a kind inside the scope of `d`, other than `d`. -/
def nestedDefinitions (d scope : Nat) (k : Kind) : List Nat :=
  (t.descendants scope [k]).filter (· != d)

/-- The modules that a procedure uses: inside a module, all that the module imports anywhere. -/
def moduleUses (d scope : Nat) : Except Malformed NameSet :=
  namesOf t (t.descendants ((t.nearestAncestor d .module).getD scope) [.useStmt])

/-- The procedures that an interface block lists, sorted. -/
def interfaceMembers (scope : Nat) : List String :=
  let names := (t.descendants scope [.procedureNameList]).flatMap fun list =>
    ((t.children list).filter fun c => (t.kind c).isName).map t.text
  (NameSet.ofList names).toList

/-! ### Declarations and arrays -/

/-- The variable that an entity declaration introduces. -/
def entity (declaredType : String) (i : Nat) : Except Malformed Variable :=
  match t.children i with
  | [] => .error .noEntityName
  | name :: rest => do
    checkChild t .entityDeclaration name
    let shape := rest.head?.filter fun c =>
      t.kind c = .assumedShapeSpecList || t.kind c = .explicitShapeSpecList
    return ⟨t.text name, declaredType, shape.map (texts t)⟩

/-- The variables of a type declaration statement. -/
def declared (stmt : Nat) : Except Malformed (List Variable) :=
  match t.children stmt with
  | [] => .error .noTypeSpec
  | spec :: _ => do
    checkChild t .typeDeclaration spec
    (t.descendants stmt [.entityDecl]).mapM (entity t (t.text spec))

/-- The variables that a definition declares; a later declaration of a name replaces an earlier
one. -/
def declarations (d scope : Nat) : Except Malformed (NameMap Variable) := do
  let found ← (localNodes t d scope .typeDeclarationStmt).mapM (declared t)
  return .ofList (found.flatten.map fun v => (v.name, v))

/-- Sorts arrays by name; arrays of one name stay in order. -/
def sortArrays (arrays : List ArrayRef) : List ArrayRef :=
  arrays.mergeSort fun a b => !decide (b.name < a.name)

/-- The array of an allocation, with the type of its declaration. -/
def allocation (known : NameMap Variable) (i : Nat) : Except Malformed ArrayRef :=
  match t.children i with
  | object :: shape :: _ => do
    checkChild t .allocation object
    let name := t.text object
    return ⟨name, texts t shape, (known.find? name).map Variable.declaredType⟩
  | _ => .error .noShape

/-- The arrays that a definition allocates. -/
def allocations (known : NameMap Variable) (d scope : Nat) :
    Except Malformed (List ArrayRef) :=
  ((localNodes t d scope .allocation).mapM (allocation t known)).map sortArrays

/-- An object of a deallocate statement. -/
def released (i : Nat) : Except Malformed ArrayRef := do
  checkChild t .deallocation i
  return ⟨t.text i, [], none⟩

/-- The arrays of one deallocate statement. -/
def deallocation (stmt : Nat) : Except Malformed (List ArrayRef) :=
  match t.children stmt with
  | [] => .error .noObjects
  | list :: _ => do
    checkChild t .deallocateStatement list
    (t.children list).mapM (released t)

/-- The arrays that a definition deallocates. -/
def deallocations (d scope : Nat) : Except Malformed (List ArrayRef) :=
  ((localNodes t d scope .deallocateStmt).mapM (deallocation t)).map fun arrays =>
    sortArrays arrays.flatten

/-! ### The record -/

/-- Adds to a record what the body of a procedure refers to. -/
def addBody (d scope : Nat) (c : Callable) : Except Malformed Callable := do
  let usesModules ← moduleUses t d scope
  let calls ← namesOf t (localNodes t d scope .callStmt)
  let ambiguous ← namesOf t (localNodes t d scope .partRef)
  let declaredVariables ← declarations t d scope
  let allocated ← allocations t declaredVariables d scope
  let deallocated ← deallocations t d scope
  return { c with usesModules, calls, ambiguous, declaredVariables, allocated, deallocated }

/-- The record of a definition of one of the four sorts, given its name and scope. -/
def classified (kind : CallableKind) (d scope : Nat) (name : String) :
    Except Malformed Callable := do
  match location t d with
  | none => .error (.noLines name)
  | some (firstLine, lineCount) =>
    let subroutines ← namesOf t (nestedDefinitions t d scope .subroutineStmt)
    let functions ← namesOf t (nestedDefinitions t d scope .functionStmt)
    let c : Callable :=
      { name, kind, sourceFile := t.file, firstLine, lineCount, subroutines, functions }
    match kind with
    | .subroutine | .function => addBody t d scope c
    | .interface => return { c with procedures := interfaceMembers t scope }
    | .module => return { c with usesModules := ← namesOf t (t.descendants scope [.useStmt]) }
    | .external | .other => return c

/-- The record of a definition statement. -/
def record (d : Nat) : Except Malformed Callable := do
  let name ← nameOf t d
  match CallableKind.classify (t.kind d) with
  | none =>
    let (firstLine, lineCount) := (location t d).getD (0, 0)
    return { name, kind := .other, sourceFile := t.file, firstLine, lineCount }
  | some kind =>
    match t.parent d with
    | none => .error (.noScope name)
    | some scope => classified t kind d scope name

end Definition

/-- The record of the definition statement `d` of a syntax tree. -/
def Callable.ofDefinition (t : Tree) (d : Nat) : Except Error Callable :=
  (Definition.record t d).mapError (.malformed t.file)

end CallAtlas
