import CallAtlas.Registry.Resolution

/-!
# Interfaces

An interface stands for the procedures it lists: it calls what they call, and so on for the
modules they use and the procedures they contain.

## Main definitions

* `Registry.members`: the records of an interface's procedures.
* `Callable.absorb`: an interface with the references of its members.
* `Registry.aggregate`: a registry in which every interface has absorbed its members.
* `Registry.finalize`: resolution followed by aggregation.
-/

namespace CallAtlas

/-- The names in any of a list of sets. -/
def NameSet.unions (sets : List NameSet) : NameSet :=
  sets.foldl NameSet.union ∅

/-- Replaces what an interface refers to by what its members refer to. -/
def Callable.absorb (c : Callable) (members : List Callable) : Callable :=
  { c with
    calls := .unions (members.map Callable.calls)
    usesModules := .unions (members.map Callable.usesModules)
    subroutines := .unions (members.map Callable.subroutines)
    functions := .unions (members.map Callable.functions) }

namespace Registry

/-- The records of the procedures that an interface lists; the first missing one is an error. -/
def members (r : Registry) (c : Callable) : Except Error (List Callable) :=
  c.procedures.mapM fun procedure =>
    match r.find? procedure with
    | some member => .ok member
    | none => .error (.unknownProcedure c.name procedure)

/-- The interfaces, in order. -/
def interfaces (r : Registry) : List Callable :=
  r.entries.filter fun c => c.kind = .interface

/-- The known records of the procedures that an interface lists. -/
def knownMembers (r : Registry) (c : Callable) : List Callable :=
  c.procedures.filterMap r.find?

/-- A record after aggregation in `r`. -/
def aggregated (r : Registry) (c : Callable) : Callable :=
  if c.kind = .interface then c.absorb (r.knownMembers c) else c

/-- Lets every interface absorb its members as they are now. Nothing changes if a member is
missing; the first interface in order with a missing member is reported. -/
def aggregate (r : Registry) : Except Error Registry := do
  let _ ← r.interfaces.mapM r.members
  return r.mapEntries r.aggregated fun c => by
    unfold aggregated
    split <;> rfl

/-- Resolves references, then lets interfaces absorb their members. If that fails, the references
stay resolved. -/
def finalize (r : Registry) : Registry × Option Error :=
  match r.resolve.aggregate with
  | .ok s => (s, none)
  | .error e => (r.resolve, some e)

end Registry

end CallAtlas
