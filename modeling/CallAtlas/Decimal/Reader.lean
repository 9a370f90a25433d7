/-!
# Reading numbers from text

A decimal number is an optional sign, digits with an optional point (at least one digit on some
side of it), and an optional exponent; the words for infinity and for "not a number" are read in
any case. The nearest double is taken, infinity when the number is too large.

## Main definitions

* `Decimal.toFloat`: the double nearest to a decimal.
* `Decimal.readFloat?`: the double that a text denotes.
* `Decimal.readNat?`, `Decimal.readInt?`: whole numbers with an optional sign.
-/

namespace CallAtlas.Decimal

/-- The value of a run of decimal digits. -/
def digitsValue (cs : List Char) : Nat :=
  cs.foldl (fun n c => 10 * n + (c.toNat - '0'.toNat)) 0

/-- The value of a non-empty run of ASCII digits. -/
def readDigits? (cs : List Char) : Option Nat :=
  if cs.isEmpty || !cs.all Char.isDigit then none else some (digitsValue cs)

/-- The number of unsigned 64-bit numbers. -/
def wordBound : Nat := 0x10000000000000000

/-- A whole number that may carry a plus sign. -/
def readNat? (s : String) : Option Nat :=
  match s.toList with
  | '+' :: cs => readDigits? cs
  | cs => readDigits? cs

/-- A whole number that may carry a sign. -/
def readInt? (s : String) : Option Int :=
  match s.toList with
  | '+' :: cs => (readDigits? cs).map Int.ofNat
  | '-' :: cs => (readDigits? cs).map fun n => -(n : Int)
  | cs => (readDigits? cs).map Int.ofNat

/-- The double nearest to `digits * 10 ^ exponent`. Numbers beyond the range of doubles are told
apart first, so that no huge power of ten is computed. -/
def toFloat (digits : Nat) (exponent : Int) : Float :=
  let leading := ((Nat.toDigits 10 digits).length : Int) + exponent
  if digits = 0 || leading < -330 then 0.0
  else if 310 < leading then 1.0 / 0.0
  else if exponent < 0 then Float.ofScientific digits true exponent.natAbs
  else Float.ofScientific digits false exponent.natAbs

/-- The exponent after the mark; nothing at all stands for zero. -/
def readExponent? : List Char → Option Int
  | [] => some 0
  | 'e' :: cs | 'E' :: cs =>
    match cs with
    | '-' :: ds => (readDigits? ds).map fun n => -(n : Int)
    | '+' :: ds => (readDigits? ds).map Int.ofNat
    | ds => (readDigits? ds).map Int.ofNat
  | _ => none

/-- A number without its sign. -/
def readMagnitude? (cs : List Char) : Option Float :=
  let word := String.ofList (cs.map Char.toLower)
  if word = "inf" || word = "infinity" then some (1.0 / 0.0)
  else if word = "nan" then some (0.0 / 0.0)
  else
    let whole := cs.takeWhile Char.isDigit
    let rest := cs.dropWhile Char.isDigit
    let (fraction, tail) := match rest with
      | '.' :: ds => (ds.takeWhile Char.isDigit, ds.dropWhile Char.isDigit)
      | ds => ([], ds)
    if whole.isEmpty && fraction.isEmpty then none
    else (readExponent? tail).map fun e =>
      toFloat (digitsValue (whole ++ fraction)) (e - fraction.length)

/-- The double denoted by the characters. -/
def readFloatChars? : List Char → Option Float
  | '-' :: cs => (readMagnitude? cs).map fun x => -x
  | '+' :: cs => readMagnitude? cs
  | cs => readMagnitude? cs

/-- The double denoted by a text, which may hold nothing else. -/
def readFloat? (s : String) : Option Float :=
  readFloatChars? s.toList

end CallAtlas.Decimal
