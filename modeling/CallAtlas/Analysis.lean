import CallAtlas.CallGraph.OfRegistry
import CallAtlas.Json.Printer

/-!
# The analysis of a corpus

## Main definitions

* `Analysis`, `Analysis.ofTrees`: both registries of a corpus and their graphs.
* `Analysis.diagnostics`: the diagnostics of both.
* `Callable.toJson`, `Analysis.dump`: the registries as JSON text.
-/

namespace CallAtlas

open Source (Tree)

/-- The definitions of a corpus and the graphs between them. -/
structure Analysis where
  callables : Registry
  modules : Registry
  callGraph : CallGraph
  moduleGraph : CallGraph

/-- Analyses the syntax trees of a corpus. -/
def Analysis.ofTrees (trees : List Tree) : Except Error Analysis := do
  let built ← Registry.build Registry.callableKinds trees
  match built.finalize with
  | (_, some e) => .error e
  | (callables, none) =>
    let modules ← Registry.build Registry.moduleKinds trees
    return ⟨callables, modules, .ofCalls callables, .ofModules modules⟩

namespace Analysis

/-- The diagnostics about callables, then those about modules. -/
def diagnostics (a : Analysis) : List Diagnostic :=
  a.callables.diagnostics ++ a.modules.diagnostics

/-- The graph that views are cut from. -/
def baseGraph (a : Analysis) (modules : Bool) : CallGraph :=
  if modules then a.moduleGraph else a.callGraph

end Analysis

/-! ### Registries as JSON -/

/-- A list of texts as an array. -/
def Json.ofStrings (xs : List String) : Json :=
  .array (xs.map .ofString)

/-- The members of a set, sorted, as an array. -/
def NameSet.toJson (s : NameSet) : Json :=
  .ofStrings s.toList

/-- A variable as an object. -/
def Variable.toJson (v : Variable) : Json :=
  .object [
    ("name", .ofString v.name),
    ("declared_type", .ofString v.declaredType),
    ("shape", .ofOption .ofStrings v.shape)]

/-- An array as an object. -/
def ArrayRef.toJson (a : ArrayRef) : Json :=
  .object [
    ("name", .ofString a.name),
    ("shape", .ofStrings a.shape),
    ("element_type", .ofOption .ofString a.elementType)]

/-- The fields of a record. -/
def Callable.toMembers (c : Callable) : List (String × Json) := [
  ("name", .ofString c.name),
  ("kind", .ofString c.kind.label),
  ("source_file", .ofString c.sourceFile),
  ("first_line", .ofNat c.firstLine),
  ("line_count", .ofNat c.lineCount),
  ("uses_modules", c.usesModules.toJson),
  ("subroutines", c.subroutines.toJson),
  ("functions", c.functions.toJson),
  ("calls", c.calls.toJson),
  ("ambiguous", c.ambiguous.toJson),
  ("array_accesses", c.arrayAccesses.toJson),
  ("declared_variables",
    .object (c.declaredVariables.entries.map fun e => (Json.escape e.1, e.2.toJson))),
  ("allocated", .array (c.allocated.map ArrayRef.toJson)),
  ("deallocated", .array (c.deallocated.map ArrayRef.toJson)),
  ("procedures", .ofStrings c.procedures)]

/-- A record as an object. -/
def Callable.toJson (c : Callable) : Json :=
  .object c.toMembers

/-- Both registries as JSON text. -/
def Analysis.dump (a : Analysis) : String :=
  (Json.object [
    ("callables", .array (a.callables.entries.map Callable.toJson)),
    ("modules", .array (a.modules.entries.map Callable.toJson))]).pretty

end CallAtlas
