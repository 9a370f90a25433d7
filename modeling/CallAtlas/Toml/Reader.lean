import CallAtlas.Toml.Assembly
import CallAtlas.Toml.Scalar

/-!
# Reading TOML

A document is a sequence of lines: headers, key–value pairs, comments and blank lines. Tables keep
the order of the document.

Arrays and inline tables may be nested 79 deep, and a dotted key may have 79 parts.

## Main definitions

* `Toml.scanKey?`: a key with its dots.
* `Toml.scanValue?`: any value.
* `Toml.scanLine?`: one line and its effect on the document.
* `Toml.parse?`: the table that a text holds.
-/

namespace CallAtlas.Toml

/-- The number of arrays and inline tables that may be open at once, and of parts in a key. -/
def nestingLimit : Nat := 79

/-! ### Blanks and comments -/

/-- A comment up to the end of its line. -/
def skipComment : List Char → List Char
  | '#' :: cs => cs.dropWhile isPrintable
  | cs => cs

/-- The end of a line: blanks and perhaps a comment, then a line break or the end of the text. -/
def lineEnd? (cs : List Char) : Option (List Char) :=
  match skipComment (skipWs cs) with
  | [] => some []
  | rest => newline? rest

/-- Skips blanks, line breaks and comments. Every round uses up a character, so `fuel` need not
exceed the length of the text. -/
def skipLines : Nat → List Char → List Char
  | 0, cs => cs
  | fuel + 1, cs =>
    match newline? (skipComment (skipWs cs)) with
    | some rest => skipLines fuel rest
    | none => skipWs cs

/-! ### Keys -/

/-- Characters of a key without quotes. -/
def isBareKey (c : Char) : Bool :=
  c.isAlphanum || c = '_' || c = '-'

/-- One part of a key. -/
def scanKeyPart? : List Char → Option (String × List Char)
  | '"' :: cs => scanBasicString? cs
  | '\'' :: cs => scanLiteralString? cs
  | cs =>
    let name := cs.takeWhile isBareKey
    if name.isEmpty then none else some (String.ofList name, cs.dropWhile isBareKey)

/-- The parts of a key, with blanks around each; `count` bounds their number. -/
def scanKeyParts? : Nat → List Char → Option (List String × List Char)
  | 0, _ => none
  | count + 1, cs => do
    let (part, cs) ← scanKeyPart? (skipWs cs)
    match skipWs cs with
    | '.' :: cs =>
      let (parts, cs) ← scanKeyParts? count cs
      return (part :: parts, cs)
    | cs => return ([part], cs)

/-- A key: the path of tables before its last part, and that part. -/
def scanKey? (cs : List Char) : Option ((List String × String) × List Char) := do
  let (parts, cs) ← scanKeyParts? nestingLimit cs
  let last ← parts.getLast?
  return ((parts.dropLast, last), cs)

/-! ### Values -/

/-- The values of an array after its opening bracket; `acc` holds the earlier ones, reversed. -/
def scanItems? (item? : List Char → Option (Value × List Char)) :
    Nat → List Value → List Char → Option (List Value × List Char)
  | 0, _, _ => none
  | fuel + 1, acc, cs =>
    match skipLines cs.length cs with
    | ']' :: rest => some (acc.reverse, rest)
    | cs => do
      let (v, cs) ← item? cs
      match skipLines cs.length cs with
      | ']' :: rest => return ((v :: acc).reverse, rest)
      | ',' :: rest => scanItems? item? fuel (v :: acc) rest
      | _ => none

/-- The pairs of an inline table; `acc` holds the earlier ones, reversed. -/
def scanPairs? (item? : List Char → Option (Value × List Char)) :
    Nat → List (List String × String × Value) → List Char →
      Option (List (List String × String × Value) × List Char)
  | 0, _, _ => none
  | fuel + 1, acc, cs => do
    let ((path, key), cs) ← scanKey? cs
    let cs ← expect? '=' cs
    let (v, cs) ← item? (skipWs cs)
    match skipWs cs with
    | '\x7d' :: rest => return (((path, key, v) :: acc).reverse, rest)
    | ',' :: rest => scanPairs? item? fuel ((path, key, v) :: acc) rest
    | _ => none

/-- An inline table after its opening brace. -/
def scanInline? (item? : List Char → Option (Value × List Char)) (cs : List Char) :
    Option (Value × List Char) :=
  match skipWs cs with
  | '\x7d' :: rest => some (.table [], rest)
  | _ => do
    let (pairs, rest) ← scanPairs? item? cs.length [] cs
    return (← tableOfPairs? pairs, rest)

/-- A value in which `depth` more arrays and inline tables may be opened. -/
def scanValueAt? : Nat → List Char → Option (Value × List Char)
  | depth, '[' :: cs =>
    match depth with
    | 0 => none
    | depth + 1 => (scanItems? (scanValueAt? depth) (cs.length + 1) [] cs).map fun p =>
        (.array p.1, p.2)
  | depth, '\x7b' :: cs =>
    match depth with
    | 0 => none
    | depth + 1 => scanInline? (scanValueAt? depth) cs
  | _, cs => scanScalar? cs

/-- A value. -/
def scanValue? (cs : List Char) : Option (Value × List Char) :=
  scanValueAt? nestingLimit cs

/-! ### Lines -/

/-- Reads one line that does not begin with a blank, and applies it to the document. -/
def scanLine? (b : Builder) : List Char → Option (Builder × List Char)
  | '[' :: '[' :: cs => do
    let ((path, key), cs) ← scanKey? cs
    let cs ← expect? ']' cs
    let cs ← expect? ']' cs
    return (← b.openElement? path key, ← lineEnd? cs)
  | '[' :: cs => do
    let ((path, key), cs) ← scanKey? cs
    let cs ← expect? ']' cs
    return (← b.openTable? path key, ← lineEnd? cs)
  | cs =>
    match cs with
    | '#' :: _ | '\n' :: _ | '\r' :: _ => (lineEnd? cs).map fun rest => (b, rest)
    | _ => do
      let ((path, key), cs) ← scanKey? cs
      let cs ← expect? '=' cs
      let (v, cs) ← scanValue? (skipWs cs)
      return (← b.pair? path key v, ← lineEnd? cs)

/-- Reads line after line. Every line uses up a character, so `fuel` need not exceed the length of
the text. -/
def scanDocument? : Nat → Builder → List Char → Option Builder
  | 0, _, _ => none
  | fuel + 1, b, cs =>
    match skipWs cs with
    | [] => some b
    | cs =>
      match scanLine? b cs with
      | some (b, rest) => scanDocument? fuel b rest
      | none => none

/-- The table that a text holds; a byte-order mark at its start is skipped. -/
def parse? (s : String) : Option Table :=
  let cs := s.toList
  let cs := if cs.head? = some (Char.ofNat 0xFEFF) then cs.drop 1 else cs
  (scanDocument? (cs.length + 1) {} cs).map Builder.finish

end CallAtlas.Toml
