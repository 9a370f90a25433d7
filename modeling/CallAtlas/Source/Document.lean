import CallAtlas.Decimal.Reader
import CallAtlas.Json.Reader
import CallAtlas.Source.Kind

/-!
# Syntax-tree documents

The front end hands over one document for each source file: the file's name and its syntax tree,
as nested nodes. This module reads documents from JSON.

A record may be written as an object or as an array of its fields in order. Fields that are not
known are skipped with whatever they hold; a known field may be given only once. The records
and lists that are actually read may be nested 127 deep.

## Main definitions

* `Source.Span`, `Source.Node`, `Source.Document`: a document.
* `Source.Document.parse?`: the document that a text holds.
-/

namespace CallAtlas.Source

/-- The lines `first` to `last` of a source file. -/
structure Span where
  first : Nat
  last : Nat
deriving DecidableEq, Repr

/-- The number of lines, in a machine word; a span that ends before it starts counts as one line. -/
def Span.lineCount (s : Span) : Nat :=
  (s.last - s.first + 1) % Decimal.wordBound

/-- A node of a syntax tree with everything below it. -/
inductive Node where
  | mk (kind : Kind) (text : Option String) (span : Option Span) (children : List Node)

/-- The syntax tree of one source file. -/
structure Document where
  file : String
  root : Node

/-! ### Records -/

/-- The fields of a record written as an object: for each expected name its value, if given.
A key must be a text, and a known one may not be repeated. -/
def fieldsOfMembers? (names : List String) (members : List (String × Json)) :
    Option (List (Option Json)) := do
  let members ← members.mapM fun m => (Json.textOf? m.1).map fun key => (key, m.2)
  names.mapM fun name =>
    match members.filter fun m => m.1 = name with
    | [] => some none
    | [m] => some (some m.2)
    | _ => none

/-- The fields of a record written as an array: there may be fewer, but not more. -/
def fieldsOfItems? (names : List String) (items : List Json) : Option (List (Option Json)) :=
  if names.length < items.length then none
  else some ((items.map some) ++ List.replicate (names.length - items.length) none)

/-- The fields of a record in either form. -/
def fields? (names : List String) : Json → Option (List (Option Json))
  | .object members => fieldsOfMembers? names members
  | .array items => fieldsOfItems? names items
  | _ => none

/-! ### Fields -/

/-- A whole number below `2 ^ 64`, written with digits alone. -/
def lineNumber? : Json → Option Nat
  | .number lexeme => (Decimal.readDigits? lexeme.toList).filter (· < Decimal.wordBound)
  | _ => none

/-- An optional text; `null` stands for none. -/
def optionalText? : Json → Option (Option String)
  | .null => some none
  | v => v.text?.map some

/-- A kind: its class name, or an object with the class name as its one key and `null` under it.
The object is one level of nesting. -/
def kind? (depth : Nat) : Json → Option Kind
  | .string lexeme => (Json.textOf? lexeme).map Kind.ofClassName
  | .object [(key, .null)] =>
    if depth = 0 then none else (Json.textOf? key).map Kind.ofClassName
  | _ => none

/-- An optional pair of line numbers; the pair is one level of nesting. -/
def span? (depth : Nat) : Json → Option (Option Span)
  | .null => some none
  | .array [first, last] =>
    if depth = 0 then none
    else do
      let first ← lineNumber? first
      let last ← lineNumber? last
      return some ⟨first, last⟩
  | _ => none

/-- A node that may open `depth` levels of nesting. -/
def node? : Nat → Json → Option Node
  | 0, _ => none
  | depth + 1, v => do
    match ← fields? ["kind", "text", "span", "children"] v with
    | [kind, text, span, children] =>
      let kind ← kind? depth (← kind)
      let text ← (text.map optionalText?).getD (some none)
      let span ← (span.map (span? depth)).getD (some none)
      let children ← match children, depth with
        | none, _ => some []
        | some (.array items), inner + 1 => items.mapM (node? inner)
        | some _, _ => none
      return .mk kind text span children
    | _ => none

/-- The number of records and lists that may be open at once. -/
def nestingLimit : Nat := 127

/-- The document that a JSON value holds. -/
def Document.ofJson? (v : Json) : Option Document := do
  match ← fields? ["file", "root"] v with
  | [file, root] =>
    let file ← (← file).text?
    let root ← node? (nestingLimit - 1) (← root)
    return ⟨file, root⟩
  | _ => none

/-- The document that a text holds. -/
def Document.parse? (s : String) : Option Document :=
  (Json.parse? s).bind Document.ofJson?

end CallAtlas.Source
