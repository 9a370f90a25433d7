import CallAtlas.Registry.Basic

/-!
# Telling calls from array accesses

In Fortran `f(i)` may call the function `f` or read the array `f`. Which of the two can be told
only when every function of the corpus is known.

## Main definitions

* `Callable.resolvedCalls`, `Callable.resolvedArrays`: the two halves of a set of references.
* `Callable.resolve`: a record with its ambiguous references resolved.
* `Registry.functionNames`, `Registry.resolve`: the same for a whole corpus.
-/

namespace CallAtlas

namespace Callable

/-- Those of the ambiguous names that are functions. -/
def resolvedCalls (ambiguous functions : NameSet) : NameSet :=
  ambiguous.filter functions.contains

/-- Those of the ambiguous names that are no functions. -/
def resolvedArrays (ambiguous functions : NameSet) : NameSet :=
  ambiguous.filter fun x => !functions.contains x

/-- Adds the functions among the ambiguous names to the calls. Accesses to arrays are the
ambiguous names that are not called in any way. -/
def resolve (functions : NameSet) (c : Callable) : Callable :=
  let calls := c.calls.union (resolvedCalls c.ambiguous functions)
  { c with calls, arrayAccesses := resolvedArrays c.ambiguous calls }

end Callable

namespace Registry

/-- The names of all functions. -/
def functionNames (r : Registry) : NameSet :=
  .ofList ((r.entries.filter fun c => c.kind = .function).map Callable.name)

/-- Resolves the ambiguous references of every record. -/
def resolve (r : Registry) : Registry :=
  r.mapEntries (Callable.resolve r.functionNames) fun _ => rfl

end Registry

end CallAtlas
