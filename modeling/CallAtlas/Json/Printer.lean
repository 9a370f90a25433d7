import CallAtlas.Json.Basic

/-!
# Writing JSON

The indented form puts every item and member on a line of its own, two spaces deeper than its
container; an empty container stays on one line.

## Main definitions

* `Json.pretty`: the indented text of a value.
-/

namespace CallAtlas.Json

/-- The two spaces for each level of nesting, after a line break. -/
def lineBreak (level : Nat) : String :=
  "\n" ++ String.ofList (List.replicate (2 * level) ' ')

mutual

/-- The indented text of a value that stands `level` containers deep. -/
def prettyAt (level : Nat) : Json → String
  | .null => "null"
  | .bool b => if b then "true" else "false"
  | .number lexeme => lexeme
  | .string lexeme => "\"" ++ lexeme ++ "\""
  | .array [] => "[]"
  | .array (v :: vs) =>
    "[" ++ lineBreak (level + 1) ++ prettyAt (level + 1) v ++ prettyItems (level + 1) vs ++
      lineBreak level ++ "]"
  | .object [] => "\x7b\x7d"
  | .object (m :: ms) =>
    "\x7b" ++ lineBreak (level + 1) ++ prettyMember (level + 1) m ++
      prettyMembers (level + 1) ms ++ lineBreak level ++ "\x7d"

/-- The items after the first one. -/
def prettyItems (level : Nat) : List Json → String
  | [] => ""
  | v :: vs => "," ++ lineBreak level ++ prettyAt level v ++ prettyItems level vs

/-- One member of an object. -/
def prettyMember (level : Nat) : String × Json → String
  | (key, v) => "\"" ++ key ++ "\": " ++ prettyAt level v

/-- The members after the first one. -/
def prettyMembers (level : Nat) : List (String × Json) → String
  | [] => ""
  | m :: ms => "," ++ lineBreak level ++ prettyMember level m ++ prettyMembers level ms

end

/-- The indented text of a value, without a line break at its end. -/
def pretty (v : Json) : String :=
  prettyAt 0 v

end CallAtlas.Json
