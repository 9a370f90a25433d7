import CallAtlas.Toml.Value

/-!
# Reading TOML scalars

Every function reads from the front of a text and gives what follows.

## Main definitions

* `Toml.scanBasicString?`, `Toml.scanLiteralString?` and their multi-line forms: strings.
* `Toml.scanNumber?`: numbers.
* `Toml.scanScalar?`: any value that is neither an array nor a table.
-/

namespace CallAtlas.Toml

/-! ### Characters -/

/-- Blanks within a line. -/
def isWs (c : Char) : Bool := c = ' ' || c = '\t'

/-- Skips blanks within a line. -/
def skipWs (cs : List Char) : List Char := cs.dropWhile isWs

/-- Characters that may stand in a comment or a literal text: no control characters but the
tab. -/
def isPrintable (c : Char) : Bool :=
  c = '\t' || (0x20 ≤ c.toNat && c.toNat ≠ 0x7F)

/-- A line break. -/
def newline? : List Char → Option (List Char)
  | '\n' :: cs => some cs
  | '\r' :: '\n' :: cs => some cs
  | _ => none

/-- Drops a line break at the front. -/
def dropNewline (cs : List Char) : List Char :=
  (newline? cs).getD cs

/-! ### Strings -/

/-- The value of a hexadecimal digit in either case. -/
def hexValue? (c : Char) : Option Nat :=
  if '0' ≤ c && c ≤ '9' then some (c.toNat - '0'.toNat)
  else if 'a' ≤ c && c ≤ 'f' then some (c.toNat - 'a'.toNat + 10)
  else if 'A' ≤ c && c ≤ 'F' then some (c.toNat - 'A'.toNat + 10)
  else none

/-- The character with a code point of `count` hexadecimal digits. -/
def scanCodePoint? (count : Nat) (cs : List Char) : Option (Char × List Char) := do
  let ds ← (cs.take count).mapM hexValue?
  let n := ds.foldl (fun n d => 16 * n + d) 0
  if ds.length = count && n.isValidChar then some (Char.ofNat n, cs.drop count) else none

/-- The character that an escape stands for; the backslash is already read. -/
def scanEscape? : List Char → Option (Char × List Char)
  | [] => none
  | c :: cs =>
    if c = '"' || c = '\\' then some (c, cs)
    else if c = 'b' then some (Char.ofNat 8, cs)
    else if c = 't' then some ('\t', cs)
    else if c = 'n' then some ('\n', cs)
    else if c = 'f' then some (Char.ofNat 12, cs)
    else if c = 'r' then some ('\r', cs)
    else if c = 'u' then scanCodePoint? 4 cs
    else if c = 'U' then scanCodePoint? 8 cs
    else none

/-- The rest of a string in double quotes; `acc` holds what was read, reversed. Every round uses
up a character, so `fuel` need not exceed the length of the text. -/
def scanBasicBody? : Nat → List Char → List Char → Option (String × List Char)
  | 0, _, _ => none
  | _ + 1, _, [] => none
  | fuel + 1, acc, c :: cs =>
    if c = '"' then some (String.ofList acc.reverse, cs)
    else if c = '\\' then
      match scanEscape? cs with
      | some (x, cs) => scanBasicBody? fuel (x :: acc) cs
      | none => none
    else if isPrintable c then scanBasicBody? fuel (c :: acc) cs
    else none

/-- A string in double quotes; the opening quote is already read. -/
def scanBasicString? (cs : List Char) : Option (String × List Char) :=
  scanBasicBody? cs.length [] cs

/-- A string in single quotes, without escapes; the opening quote is already read. -/
def scanLiteralString? (cs : List Char) : Option (String × List Char) :=
  let body := cs.takeWhile fun c => c ≠ '\'' && isPrintable c
  (expect? '\'' (cs.drop body.length)).map fun rest => (String.ofList body, rest)

/-- Three or more quotes end a string of several lines: up to two more than three belong to the
string itself. Gives their number and what follows. -/
def scanClosing? (quote : Char) (cs : List Char) : Option (Nat × List Char) :=
  let run := (cs.takeWhile (· = quote)).length
  if run < 3 then none
  else
    let own := min (run - 3) 2
    some (own, cs.drop (own + 3))

/-- Skips the blanks and line breaks that a backslash at the end of a line hides. -/
def skipHidden : List Char → List Char
  | '\r' :: '\n' :: cs => skipHidden cs
  | c :: cs => if isWs c || c = '\n' then skipHidden cs else c :: cs
  | [] => []

/-- The rest of a string of several lines; `quote` is its quote. A line break counts as one
character, however it is written, and only double quotes have escapes. -/
def scanLinesBody? (quote : Char) : Nat → List Char → List Char → Option (String × List Char)
  | 0, _, _ => none
  | _ + 1, _, [] => none
  | fuel + 1, acc, c :: cs =>
    if c = quote then
      match scanClosing? quote (c :: cs) with
      | some (own, rest) =>
        some (String.ofList (acc.reverse ++ List.replicate own quote), rest)
      | none => scanLinesBody? quote fuel (c :: acc) cs
    else if c = '\\' && quote = '"' then
      match newline? (skipWs cs) with
      | some rest => scanLinesBody? quote fuel acc (skipHidden rest)
      | none =>
        match scanEscape? cs with
        | some (x, cs) => scanLinesBody? quote fuel (x :: acc) cs
        | none => none
    else match newline? (c :: cs) with
      | some rest => scanLinesBody? quote fuel ('\n' :: acc) rest
      | none => if isPrintable c then scanLinesBody? quote fuel (c :: acc) cs else none

/-- A string of several lines; the three opening quotes are already read. -/
def scanLines? (quote : Char) (cs : List Char) : Option (String × List Char) :=
  scanLinesBody? quote cs.length [] (dropNewline cs)

/-! ### Numbers -/

/-- A run of digits in which single underscores may stand between digits; gives the digits. -/
def scanGrouped? (isDigit : Char → Bool) (cs : List Char) : Option (List Char × List Char) :=
  let run := cs.takeWhile fun c => isDigit c || c = '_'
  if run.isEmpty || run.head? = some '_' || run.getLast? = some '_' ||
      (run.zip (run.drop 1)).contains ('_', '_') then none
  else some (run.filter (· ≠ '_'), cs.drop run.length)

/-- The sign of a number, if it has one. -/
def scanSign : List Char → List Char × List Char
  | '+' :: cs => ([], cs)
  | '-' :: cs => (['-'], cs)
  | cs => ([], cs)

/-- The number of 64-bit whole numbers from zero on. -/
def int64Bound : Nat := 0x8000000000000000

/-- A whole number in another base; the mark of the base is already read. -/
def scanBased? (base : Nat) (cs : List Char) : Option (Value × List Char) := do
  let isDigit := fun c => (hexValue? c).any (· < base)
  let (ds, rest) ← scanGrouped? isDigit cs
  let n := ds.foldl (fun n c => base * n + (hexValue? c).getD 0) 0
  if n < int64Bound then some (.integer n, rest) else none

/-- The digits before the point: no zero may lead. -/
def scanWhole? (cs : List Char) : Option (List Char × List Char) :=
  match cs with
  | '0' :: rest => some (['0'], rest)
  | _ => scanGrouped? Char.isDigit cs

/-- A fraction, if there is one. -/
def scanFractionDigits? : List Char → Option (Option (List Char) × List Char)
  | '.' :: cs => (scanGrouped? Char.isDigit cs).map fun p => (some p.1, p.2)
  | cs => some (none, cs)

/-- An exponent, if there is one. -/
def scanExponentDigits? : List Char → Option (Option (List Char) × List Char)
  | c :: cs =>
    if c = 'e' || c = 'E' then
      let (sign, cs) := scanSign cs
      (scanGrouped? Char.isDigit cs).map fun p => (some (sign ++ p.1), p.2)
    else some (none, c :: cs)
  | [] => some (none, [])

/-- A decimal number: a whole number of 64 bits, or a floating-point number if it has a fraction
or an exponent. A floating-point number may not be too large. -/
def scanDecimal? (cs : List Char) : Option (Value × List Char) := do
  let (sign, cs) := scanSign cs
  let (whole, cs) ← scanWhole? cs
  let (fraction, cs) ← scanFractionDigits? cs
  let (exponent, cs) ← scanExponentDigits? cs
  match fraction, exponent with
  | none, none =>
    let n : Int := Decimal.digitsValue whole
    let n := if sign.isEmpty then n else -n
    if -(int64Bound : Int) ≤ n && n < int64Bound then some (.integer n, cs) else none
  | _, _ =>
    let text := sign ++ whole ++ '.' :: (fraction.getD []) ++
      ((exponent.map fun e => 'e' :: e).getD [])
    let x ← Decimal.readFloatChars? text
    if x == 1.0 / 0.0 then none else some (.float x, cs)

/-- Infinity and what is not a number, with or without a sign. -/
def scanSpecial? (cs : List Char) : Option (Value × List Char) :=
  let (sign, rest) := scanSign cs
  let signed (x : Float) : Value := .float (if sign.isEmpty then x else -x)
  match rest with
  | 'i' :: 'n' :: 'f' :: rest => some (signed (1.0 / 0.0), rest)
  | 'n' :: 'a' :: 'n' :: rest => some (signed (0.0 / 0.0), rest)
  | _ => none

/-- A number of any form. -/
def scanNumber? : List Char → Option (Value × List Char)
  | '0' :: 'x' :: cs => scanBased? 16 cs
  | '0' :: 'o' :: cs => scanBased? 8 cs
  | '0' :: 'b' :: cs => scanBased? 2 cs
  | cs => scanSpecial? cs <|> scanDecimal? cs

/-! ### Scalars -/

/-- A value that holds no other values. -/
def scanScalar? : List Char → Option (Value × List Char)
  | '"' :: '"' :: '"' :: cs => (scanLines? '"' cs).map fun p => (.string p.1, p.2)
  | '"' :: cs => (scanBasicString? cs).map fun p => (.string p.1, p.2)
  | '\'' :: '\'' :: '\'' :: cs => (scanLines? '\'' cs).map fun p => (.string p.1, p.2)
  | '\'' :: cs => (scanLiteralString? cs).map fun p => (.string p.1, p.2)
  | 't' :: 'r' :: 'u' :: 'e' :: cs => some (.boolean true, cs)
  | 'f' :: 'a' :: 'l' :: 's' :: 'e' :: cs => some (.boolean false, cs)
  | cs => ((Datetime.scan? cs).map fun p => (.datetime p.1, p.2)) <|> scanNumber? cs

end CallAtlas.Toml
