import CallAtlas.Files.Failure
import CallAtlas.Filter.OfToml
import CallAtlas.Parameters.OfToml

/-!
# Settings from files

## Main definitions

* `Parameters.ofFile`: the defaults with the parameters of a file.
* `ConnectionFilter.splitArg`: the two halves of a filter on the command line.
* `ConnectionFilter.ofFile`: the filter in a file.
-/

namespace CallAtlas

/-- The defaults, overridden by the parameters in the text that was read at a path. -/
def Parameters.ofFile (path : String) (text : Option String) : Except Failure Parameters :=
  match text.map Parameters.parse with
  | none => .error (.notRead .parameters path)
  | some (.error _) => .error (.invalid .parameters path)
  | some (.ok ps) => .ok (Parameters.defaults.mergedWith ps)

namespace ConnectionFilter

/-- The mode and the path of a filter on the command line: what stands before the first equals
sign and what stands after it, neither of them empty. -/
def splitArg (arg : String) : Except Failure (String × String) :=
  let mode := arg.toList.takeWhile (· ≠ '=')
  let path := (arg.toList.dropWhile (· ≠ '=')).drop 1
  if mode.isEmpty || path.isEmpty then .error (.malformedFilter arg)
  else .ok (String.ofList mode, String.ofList path)

/-- The filter for a mode in the text that was read at a path. -/
def ofFile (mode path : String) (text : Option String) : Except Failure ConnectionFilter := do
  let action ← (FilterAction.parse mode).mapError .analysis
  match text.map (ConnectionFilter.parse action) with
  | none => .error (.notRead .connections path)
  | some (.error _) => .error (.invalid .connections path)
  | some (.ok f) => .ok f

end ConnectionFilter

end CallAtlas
