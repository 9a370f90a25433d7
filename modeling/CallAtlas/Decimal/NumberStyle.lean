import CallAtlas.Decimal.Shortest

/-!
# Written forms of floating-point numbers

A `NumberStyle` collects the decisions a text format makes about numbers: how long positional
notation is kept, whether a whole number shows its point, and what stands for the values that are
no numbers. The digits are always those of `Decimal.shortest`.

## Main definitions

* `NumberStyle`: the decisions.
* `NumberStyle.write`: the text of a number.
-/

namespace CallAtlas

/-- How a text format writes floating-point numbers. -/
structure NumberStyle where
  /-- Positional notation is used while the exponent of the first digit lies in this range. -/
  positional : Option (Int × Int)
  /-- A whole number in positional notation ends in `.0`. -/
  showsPoint : Bool
  /-- The choice between two equally near decimals. -/
  tie : Tie
  /-- The text of infinity, without its sign, if it is written with one. -/
  infinity : String
  /-- Whether infinity takes a sign. -/
  signedInfinity : Bool
  /-- The text of a value that is not a number. -/
  notANumber : String

namespace NumberStyle

/-- `n` zeros. -/
def zeros (n : Nat) : String :=
  String.ofList (List.replicate n '0')

/-- Puts the decimal point after the digit of weight one. -/
def placePoint (style : NumberStyle) (d : Decimal) : String :=
  let text := toString d.digits
  let whole := if style.showsPoint then ".0" else ""
  if 0 ≤ d.exponent then text ++ zeros d.exponent.toNat ++ whole
  else
    let places := (-d.exponent).toNat
    let cs := text.toList
    if cs.length ≤ places then "0." ++ zeros (places - cs.length) ++ text
    else
      String.ofList (cs.take (cs.length - places)) ++ "." ++
        String.ofList (cs.drop (cs.length - places))

/-- One digit before the point, and the exponent with its sign. -/
def scientific (d : Decimal) : String :=
  let cs := (toString d.digits).toList
  let fraction := String.ofList (cs.drop 1)
  let exponent := d.exponent + (cs.length - 1 : Nat)
  let mantissa := String.ofList (cs.take 1) ++ if fraction.isEmpty then "" else "." ++ fraction
  mantissa ++ "e" ++ (if exponent < 0 then "-" else "+") ++ toString exponent.natAbs

/-- Chooses between positional and scientific notation. -/
def writeDecimal (style : NumberStyle) (d : Decimal) : String :=
  let leading := d.exponent + ((toString d.digits).length - 1 : Nat)
  match style.positional with
  | none => placePoint style d
  | some (low, high) =>
    if low ≤ leading && leading ≤ high then placePoint style d else scientific d

/-- The text of a number. The sign of zero is kept, that of a value that is no number is not. -/
def write (style : NumberStyle) (x : Float) : String :=
  let bits := x.toBits
  let sign := if bits.toNat / (Binary.fractionSize * Binary.exponentSize) = 1 then "-" else ""
  let magnitude := bits.toNat % (Binary.fractionSize * Binary.exponentSize)
  if magnitude = 0 then sign ++ (if style.showsPoint then "0.0" else "0")
  else if magnitude / Binary.fractionSize = Binary.exponentSize - 1 then
    if magnitude % Binary.fractionSize ≠ 0 then style.notANumber
    else (if style.signedInfinity then sign else "") ++ style.infinity
  else sign ++ style.writeDecimal (Decimal.shortest style.tie (Binary.ofBits bits))

end NumberStyle

end CallAtlas
