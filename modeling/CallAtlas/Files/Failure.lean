import CallAtlas.ConfigFault
import CallAtlas.Error
import CallAtlas.Text.Blank

/-!
# How a run can fail

## Main definitions

* `Content`: what the files that a run reads hold.
* `Failure`: everything that ends a run.
* `Failure.message`: the text shown to the user.
-/

namespace CallAtlas

/-- What a file is expected to hold. -/
inductive Content where
  | syntaxTree
  | parameters
  | connections
deriving DecidableEq, Repr

namespace Content

/-- How the contents are called when a file cannot be read. -/
def noun : Content → String
  | .syntaxTree => "syntax tree"
  | .parameters => "graph parameters"
  | .connections => "connection list"

/-- How the contents are called when they are not as expected. -/
def invalidNoun : Content → String
  | .syntaxTree => "syntax tree document"
  | .parameters => "graph parameters in"
  | .connections => "connection list in"

end Content

/-- The causes that end a run. -/
inductive Failure where
  | analysis (cause : Error)
  /-- A directory of documents does not exist. -/
  | noDirectory (path : String)
  /-- A file stands where a directory of documents is expected. -/
  | notListed (path : String)
  /-- A file is absent, is a directory, or does not hold a text. -/
  | notRead (content : Content) (path : String)
  /-- The text of a file is not what it should be. -/
  | invalid (content : Content) (path : String)
  /-- There are no documents. -/
  | noDocuments
  /-- There is neither a graph to draw nor a dump to write. -/
  | noRoots
  /-- A connection list is not given as a mode and a path. -/
  | malformedFilter (arg : String)
  | notCreated (path : String)
  | notWritten (path : String)
  /-- The program that draws images is not installed. -/
  | noRenderer
  /-- The program that draws images ended with an exit code, or without one. -/
  | rendererFailed (code : Option Nat) (output : String)
deriving DecidableEq, Repr

namespace Failure

/-- The text of an exit code that may be absent. -/
def exitCodeText : Option Nat → String
  | some code => "Some(" ++ String.ofList (Nat.toDigits 10 code) ++ ")"
  | none => "None"

/-- The text shown for a failure. -/
def message : Failure → String
  | .analysis cause => cause.message
  | .noDirectory path => "Input directory not found: " ++ path
  | .notListed path => "Failed to list " ++ path
  | .notRead content path => "Failed to read " ++ content.noun ++ " " ++ path
  | .invalid content path => "Invalid " ++ content.invalidNoun ++ " " ++ path
  | .noDocuments => "Please provide at least one --input <tree.json> or --dir <dir>"
  | .noRoots => "No --root given; nothing to draw"
  | .malformedFilter arg => "expected MODE=PATH, got `" ++ arg ++ "`"
  | .notCreated path => "Failed to create " ++ path
  | .notWritten path => "Failed to write " ++ path
  | .noRenderer => "`dot` not found in PATH; install Graphviz"
  | .rendererFailed code output =>
    "graphviz exited with " ++ exitCodeText code ++ ": " ++ Text.trim output

end Failure

end CallAtlas
