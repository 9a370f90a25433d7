/-!
# JSON values

A value is kept close to its text: numbers and strings are lexemes, exactly as written, and an
object lists its members in order, repeated keys included. What a lexeme denotes is asked for
separately, because a reader that skips a value must not care.

## Main definitions

* `Json`: a value.
* `Json.escape`, `Json.ofString`: the lexeme of a text.
* `Json.unescape?`, `Json.text?`: the text of a lexeme, if it has one.
-/

namespace CallAtlas

/-- A JSON value; numbers and strings are kept as written, strings without their quotes. -/
inductive Json where
  | null
  | bool (value : Bool)
  | number (lexeme : String)
  | string (lexeme : String)
  | array (items : List Json)
  | object (members : List (String × Json))
deriving Inhabited

namespace Json

/-! ### Writing a text as a lexeme -/

/-- The last hexadecimal digit of `n`. -/
def hexDigit (n : Nat) : Char :=
  Nat.digitChar (n % 16)

/-- Quotes, backslashes and control characters are escaped, everything else stands for itself. -/
def escapeChar (c : Char) : List Char :=
  if c = '"' then ['\\', '"']
  else if c = '\\' then ['\\', '\\']
  else if c = '\n' then ['\\', 'n']
  else if c = '\r' then ['\\', 'r']
  else if c = '\t' then ['\\', 't']
  else if c.toNat = 8 then ['\\', 'b']
  else if c.toNat = 12 then ['\\', 'f']
  else if c.toNat < 0x20 then ['\\', 'u', '0', '0', hexDigit (c.toNat / 16), hexDigit c.toNat]
  else [c]

/-- The lexeme of a text. -/
def escape (s : String) : String :=
  String.ofList (s.toList.flatMap escapeChar)

/-- The string value with the given text. -/
def ofString (s : String) : Json :=
  .string (escape s)

/-- The number value of a natural number. -/
def ofNat (n : Nat) : Json :=
  .number (toString n)

/-- An optional value, `null` when it is absent. -/
def ofOption {α : Type} (f : α → Json) (x : Option α) : Json :=
  (x.map f).getD .null

/-! ### Reading the text of a lexeme -/

/-- The value of a hexadecimal digit in either case. -/
def hexValue? (c : Char) : Option Nat :=
  if '0' ≤ c && c ≤ '9' then some (c.toNat - '0'.toNat)
  else if 'a' ≤ c && c ≤ 'f' then some (c.toNat - 'a'.toNat + 10)
  else if 'A' ≤ c && c ≤ 'F' then some (c.toNat - 'A'.toNat + 10)
  else none

/-- The code unit written with four hexadecimal digits. -/
def unit? (a b c d : Char) : Option Nat := do
  let a ← hexValue? a
  let b ← hexValue? b
  let c ← hexValue? c
  let d ← hexValue? d
  return ((a * 16 + b) * 16 + c) * 16 + d

/-- The character that a one-letter escape stands for. -/
def shortEscape? (c : Char) : Option Char :=
  if c = '"' || c = '\\' || c = '/' then some c
  else if c = 'b' then some (Char.ofNat 8)
  else if c = 'f' then some (Char.ofNat 12)
  else if c = 'n' then some '\n'
  else if c = 'r' then some '\r'
  else if c = 't' then some '\t'
  else none

/-- A code unit that begins a surrogate pair. -/
def isHighSurrogate (n : Nat) : Bool := 0xD800 ≤ n && n < 0xDC00

/-- A code unit that ends a surrogate pair. -/
def isLowSurrogate (n : Nat) : Bool := 0xDC00 ≤ n && n < 0xE000

/-- The characters that a lexeme denotes. A surrogate without its partner denotes none. -/
def unescape? : List Char → Option (List Char)
  | [] => some []
  | '\\' :: 'u' :: a :: b :: c :: d :: rest => do
    let n ← unit? a b c d
    if isHighSurrogate n then
      match rest with
      | '\\' :: 'u' :: e :: f :: g :: h :: rest' =>
        let m ← unit? e f g h
        if isLowSurrogate m then
          let tail ← unescape? rest'
          return Char.ofNat (0x10000 + (n - 0xD800) * 0x400 + (m - 0xDC00)) :: tail
        else none
      | _ => none
    else if isLowSurrogate n then none
    else return Char.ofNat n :: (← unescape? rest)
  | '\\' :: c :: rest => do
    let x ← shortEscape? c
    return x :: (← unescape? rest)
  | c :: rest => do
    if c = '\\' then none else return c :: (← unescape? rest)

/-- The text of a string lexeme. -/
def textOf? (lexeme : String) : Option String :=
  (unescape? lexeme.toList).map String.ofList

/-- The text of a string value. -/
def text? : Json → Option String
  | .string lexeme => textOf? lexeme
  | _ => none

end Json

end CallAtlas
