/-!
# Kinds of syntax-tree nodes

The parser of the Fortran front end labels every node with the class of its grammar rule. The
analysis looks at a few dozen classes; all the others are one kind, `Kind.other`.

## Main definitions

* `Source.Kind`: the kind of a node.
* `Source.Kind.className`, `Source.Kind.ofClassName`: the front end's name of a kind.
* `Source.Kind.label`: the name of a kind in messages.
-/

namespace CallAtlas.Source

/-- The kind of a syntax-tree node. -/
inductive Kind where
  | program
  | mainProgram
  | programStmt
  | module
  | moduleStmt
  | moduleSubprogramPart
  | subroutineSubprogram
  | subroutineStmt
  | functionSubprogram
  | functionStmt
  | interfaceBlock
  | interfaceStmt
  | procedureStmt
  | procedureNameList
  | internalSubprogramPart
  | useStmt
  | callStmt
  | partRef
  | name
  | procedureDesignator
  | typeDeclarationStmt
  | intrinsicTypeSpec
  | declarationTypeSpec
  | entityDecl
  | assumedShapeSpecList
  | explicitShapeSpecList
  | allocateStmt
  | allocation
  | allocateShapeSpecList
  | deallocateStmt
  | allocateObjectList
  | dataRef
  | comment
  /-- Any class that the analysis does not look at. -/
  | other
deriving DecidableEq, Repr

namespace Kind

/-- The class name that the front end gives to nodes of a kind. -/
def className : Kind → String
  | .program => "Program"
  | .mainProgram => "Main_Program"
  | .programStmt => "Program_Stmt"
  | .module => "Module"
  | .moduleStmt => "Module_Stmt"
  | .moduleSubprogramPart => "Module_Subprogram_Part"
  | .subroutineSubprogram => "Subroutine_Subprogram"
  | .subroutineStmt => "Subroutine_Stmt"
  | .functionSubprogram => "Function_Subprogram"
  | .functionStmt => "Function_Stmt"
  | .interfaceBlock => "Interface_Block"
  | .interfaceStmt => "Interface_Stmt"
  | .procedureStmt => "Procedure_Stmt"
  | .procedureNameList => "Procedure_Name_List"
  | .internalSubprogramPart => "Internal_Subprogram_Part"
  | .useStmt => "Use_Stmt"
  | .callStmt => "Call_Stmt"
  | .partRef => "Part_Ref"
  | .name => "Name"
  | .procedureDesignator => "Procedure_Designator"
  | .typeDeclarationStmt => "Type_Declaration_Stmt"
  | .intrinsicTypeSpec => "Intrinsic_Type_Spec"
  | .declarationTypeSpec => "Declaration_Type_Spec"
  | .entityDecl => "Entity_Decl"
  | .assumedShapeSpecList => "Assumed_Shape_Spec_List"
  | .explicitShapeSpecList => "Explicit_Shape_Spec_List"
  | .allocateStmt => "Allocate_Stmt"
  | .allocation => "Allocation"
  | .allocateShapeSpecList => "Allocate_Shape_Spec_List"
  | .deallocateStmt => "Deallocate_Stmt"
  | .allocateObjectList => "Allocate_Object_List"
  | .dataRef => "Data_Ref"
  | .comment => "Comment"
  | .other => "Other"

/-- Every kind. -/
def all : List Kind :=
  [.program, .mainProgram, .programStmt, .module, .moduleStmt, .moduleSubprogramPart,
    .subroutineSubprogram, .subroutineStmt, .functionSubprogram, .functionStmt, .interfaceBlock,
    .interfaceStmt, .procedureStmt, .procedureNameList, .internalSubprogramPart, .useStmt,
    .callStmt, .partRef, .name, .procedureDesignator, .typeDeclarationStmt, .intrinsicTypeSpec,
    .declarationTypeSpec, .entityDecl, .assumedShapeSpecList, .explicitShapeSpecList,
    .allocateStmt, .allocation, .allocateShapeSpecList, .deallocateStmt, .allocateObjectList,
    .dataRef, .comment, .other]

/-- The kind with a class name; an unknown class is `other`. -/
def ofClassName (name : String) : Kind :=
  (all.find? fun k => k.className = name).getD .other

/-- The name of a kind in messages: its class name in one word. -/
def label (k : Kind) : String :=
  String.ofList (k.className.toList.filter (· ≠ '_'))

/-- Nodes whose text is an identifier. -/
def isName : Kind → Bool
  | .name | .procedureDesignator => true
  | _ => false

end Kind

end CallAtlas.Source
