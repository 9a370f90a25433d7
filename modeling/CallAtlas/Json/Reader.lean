import CallAtlas.Json.Basic

/-!
# Reading JSON

A text is first cut into tokens, then the tokens are assembled into a value. Both passes walk
their input once with an explicit accumulator: the nesting of a value is held in a list of open
containers, so it has no limit.

## Main definitions

* `Json.Token`, `Json.tokens?`: the tokens of a text.
* `Json.assemble?`: the value that a list of tokens spells.
* `Json.parse?`: the value that a text spells, blanks around it allowed.
-/

namespace CallAtlas.Json

/-- A token; the lexemes of strings come without their quotes. -/
inductive Token where
  | openBrace
  | closeBrace
  | openBracket
  | closeBracket
  | colon
  | comma
  | literal (value : Json)
  | string (lexeme : String)

/-! ### Lexemes -/

/-- The four blanks of JSON. -/
def isSpace (c : Char) : Bool :=
  c = ' ' || c = '\n' || c = '\t' || c = '\r'

/-- Reads a string up to its closing quote; gives its lexeme, reversed, and what follows.
Control characters must be escaped, and only the known escapes may be used. -/
def scanString : List Char → List Char → Option (List Char × List Char)
  | _, [] => none
  | acc, '"' :: rest => some (acc, rest)
  | acc, '\\' :: 'u' :: a :: b :: c :: d :: rest =>
    if (unit? a b c d).isSome then scanString (d :: c :: b :: a :: 'u' :: '\\' :: acc) rest
    else none
  | acc, '\\' :: c :: rest =>
    if (shortEscape? c).isSome then scanString (c :: '\\' :: acc) rest else none
  | acc, c :: rest =>
    if c = '\\' || c.toNat < 0x20 then none else scanString (c :: acc) rest

/-- A fraction: a point and at least one digit, or nothing. -/
def scanFraction : List Char → Option (List Char × List Char)
  | '.' :: cs =>
    let ds := cs.takeWhile Char.isDigit
    if ds.isEmpty then none else some ('.' :: ds, cs.dropWhile Char.isDigit)
  | cs => some ([], cs)

/-- An exponent: its mark, perhaps a sign, and at least one digit, or nothing. -/
def scanExponent : List Char → Option (List Char × List Char)
  | e :: cs =>
    if e = 'e' || e = 'E' then
      let sign := (cs.take 1).filter fun c => c = '+' || c = '-'
      let rest := cs.drop sign.length
      let ds := rest.takeWhile Char.isDigit
      if ds.isEmpty then none else some (e :: sign ++ ds, rest.dropWhile Char.isDigit)
    else some ([], e :: cs)
  | [] => some ([], [])

/-- A number: perhaps a minus sign, a whole part without needless zeros, a fraction, an
exponent. -/
def scanNumber (cs : List Char) : Option (List Char × List Char) := do
  let sign := (cs.take 1).filter (· = '-')
  let cs := cs.drop sign.length
  let whole := cs.takeWhile Char.isDigit
  if whole.isEmpty || (whole.head? = some '0' && 1 < whole.length) then none
  else
    let (fraction, cs) ← scanFraction (cs.dropWhile Char.isDigit)
    let (exponent, cs) ← scanExponent cs
    return (sign ++ whole ++ fraction ++ exponent, cs)

/-! ### Tokens -/

/-- The first token of a text that does not begin with a blank, and what follows it. -/
def token? : List Char → Option (Token × List Char)
  | '\x7b' :: cs => some (.openBrace, cs)
  | '\x7d' :: cs => some (.closeBrace, cs)
  | '[' :: cs => some (.openBracket, cs)
  | ']' :: cs => some (.closeBracket, cs)
  | ':' :: cs => some (.colon, cs)
  | ',' :: cs => some (.comma, cs)
  | '"' :: cs => (scanString [] cs).map fun p => (.string (String.ofList p.1.reverse), p.2)
  | 'n' :: 'u' :: 'l' :: 'l' :: cs => some (.literal .null, cs)
  | 't' :: 'r' :: 'u' :: 'e' :: cs => some (.literal (.bool true), cs)
  | 'f' :: 'a' :: 'l' :: 's' :: 'e' :: cs => some (.literal (.bool false), cs)
  | cs => (scanNumber cs).map fun p => (.literal (.number (String.ofList p.1)), p.2)

/-- Cuts a text into tokens, the latest first in `acc`. Each round uses up a character, so a
bound of the text's length is never reached. -/
def tokensFrom : Nat → List Char → List Token → Option (List Token)
  | 0, cs, acc => if cs.isEmpty then some acc.reverse else none
  | fuel + 1, cs, acc =>
    match cs with
    | [] => some acc.reverse
    | c :: rest =>
      if isSpace c then tokensFrom fuel rest acc
      else match token? cs with
        | some (t, rest') => tokensFrom fuel rest' (t :: acc)
        | none => none

/-- The tokens of a text. -/
def tokens? (cs : List Char) : Option (List Token) :=
  tokensFrom cs.length cs []

/-! ### Assembly -/

/-- A container that is still open, its earlier contents in reverse. -/
inductive Frame where
  | array (items : List Json)
  | object (members : List (String × Json)) (key : String)

/-- What may come next. -/
inductive Expecting where
  /-- A value. -/
  | value
  /-- A value, or the end of an array that is still empty. -/
  | firstItem
  /-- A key, or the end of an object that is still empty. -/
  | firstKey
  /-- A key of an object with the given earlier members. -/
  | key (members : List (String × Json))
  /-- The colon after a key. -/
  | colon (members : List (String × Json)) (key : String)
  /-- A comma or the end of the innermost container, or the end of the text. -/
  | next (done : Json)

/-- Assembles tokens into a value, given what may come next and the open containers. -/
def assemble? : Expecting → List Frame → List Token → Option Json
  | .next done, [], [] => some done
  | _, _, [] => none
  | expecting, frames, t :: ts =>
    match expecting, t, frames with
    | .firstItem, .closeBracket, .array _ :: rest => assemble? (.next (.array [])) rest ts
    | .firstKey, .closeBrace, _ => assemble? (.next (.object [])) frames ts
    | .firstKey, .string k, _ => assemble? (.colon [] k) frames ts
    | .key members, .string k, _ => assemble? (.colon members k) frames ts
    | .colon members k, .colon, _ => assemble? .value (.object members k :: frames) ts
    | .next v, .comma, .array items :: rest => assemble? .value (.array (v :: items) :: rest) ts
    | .next v, .comma, .object members k :: rest => assemble? (.key ((k, v) :: members)) rest ts
    | .next v, .closeBracket, .array items :: rest =>
      assemble? (.next (.array (v :: items).reverse)) rest ts
    | .next v, .closeBrace, .object members k :: rest =>
      assemble? (.next (.object ((k, v) :: members).reverse)) rest ts
    | .value, .openBracket, _ | .firstItem, .openBracket, _ =>
      assemble? .firstItem (.array [] :: frames) ts
    | .value, .openBrace, _ | .firstItem, .openBrace, _ => assemble? .firstKey frames ts
    | .value, .literal v, _ | .firstItem, .literal v, _ => assemble? (.next v) frames ts
    | .value, .string s, _ | .firstItem, .string s, _ => assemble? (.next (.string s)) frames ts
    | _, _, _ => none

/-- The value that a text spells. -/
def parse? (s : String) : Option Json :=
  (tokens? s.toList).bind (assemble? .value [])

end CallAtlas.Json
