/-!
# The shortest decimal that reads back

A binary floating-point number stands for an interval of reals: all those that round to it. Its
shortest decimal is the one with the fewest significant digits inside that interval, and of those
the one nearest to the number itself.

Everything is exact natural-number arithmetic: a positive number is `significand * 2 ^ exponent`,
and a decimal is tested against the ends of the interval after both are brought to one unit.

## Main definitions

* `Decimal`: a number `digits * 10 ^ exponent`.
* `Binary`, `Binary.ofBits`: the significand and exponent of a positive finite double.
* `Tie`: which of two equally near decimals is taken.
* `Decimal.shortest`: the shortest decimal of a positive number.
-/

namespace CallAtlas

/-- The number `digits * 10 ^ exponent`. -/
structure Decimal where
  digits : Nat
  exponent : Int
deriving DecidableEq, Repr

/-- Which neighbour is taken when a number lies half-way between two decimals. -/
inductive Tie where
  /-- The larger one. -/
  | up
  /-- The one whose last digit is even. -/
  | even
deriving DecidableEq, Repr

/-- The positive number `significand * 2 ^ exponent`. The field `narrowBelow` says that the next
smaller number is only half as far away as the next larger one, as at a power of two. -/
structure Binary where
  significand : Nat
  exponent : Int
  narrowBelow : Bool
deriving DecidableEq, Repr

namespace Binary

/-- The number of values of a double's fraction field of 52 bits. -/
def fractionSize : Nat := 0x10000000000000

/-- The number of values of a double's exponent field of 11 bits. -/
def exponentSize : Nat := 0x800

/-- Reads the magnitude of a finite double from its 64 bits; the sign bit is not looked at. -/
def ofBits (bits : UInt64) : Binary :=
  let fraction := bits.toNat % fractionSize
  let biased := bits.toNat / fractionSize % exponentSize
  if biased = 0 then ⟨fraction, -1074, false⟩
  else ⟨fractionSize + fraction, Int.ofNat biased - 1075, fraction = 0 && 1 < biased⟩

end Binary

namespace Decimal

/-- The number of decimal digits of `n`; zero has one. -/
def digitCount (n : Nat) : Nat :=
  (Nat.toDigits 10 n).length

/-- The decimal exponent of the first digit of `x`, the largest `p` with `10 ^ p ≤ x`. -/
def leadingExponent (x : Binary) : Int :=
  if 0 ≤ x.exponent then digitCount (x.significand * Nat.pow 2 x.exponent.toNat) - 1
  else
    let scale := Nat.pow 2 (-x.exponent).toNat
    if scale ≤ x.significand then digitCount (x.significand / scale) - 1
    -- the least `j` with `scale ≤ significand * 10 ^ j`
    else -(digitCount ((scale + x.significand - 1) / x.significand - 1) : Int)

/-- The interval of reals that round to a number, and the number itself, as multiples of
`1 / unit` of a grid step. The ends belong to the interval when `closed` holds. -/
structure Window where
  low : Nat
  value : Nat
  high : Nat
  unit : Nat
  closed : Bool

/-- The interval around `x`, measured in steps of the grid `10 ^ step`. -/
def Window.ofBinary (x : Binary) (step : Int) : Window :=
  -- a quarter of the significand's last place keeps all ends whole
  let binary := x.exponent - 2
  let scale := Nat.pow 2 binary.toNat * Nat.pow 10 (-step).toNat
  { low := (4 * x.significand - if x.narrowBelow then 1 else 2) * scale
    value := 4 * x.significand * scale
    high := (4 * x.significand + 2) * scale
    unit := Nat.pow 2 (-binary).toNat * Nat.pow 10 step.toNat
    closed := x.significand % 2 = 0 }

/-- Whether the grid point `n` lies in the interval. -/
def Window.contains (w : Window) (n : Nat) : Bool :=
  if w.closed then w.low ≤ n * w.unit && n * w.unit ≤ w.high
  else w.low < n * w.unit && n * w.unit < w.high

/-- The grid point of the interval nearest to the number, if there is one. If any grid point lies
in the interval, one of the two next to the number does. -/
def Window.nearest (w : Window) (tie : Tie) : Option Nat :=
  let below := w.value / w.unit
  let above := below + 1
  let toBelow := w.value - below * w.unit
  let toAbove := above * w.unit - w.value
  match w.contains below, w.contains above with
  | true, true =>
    if toBelow < toAbove then some below
    else if toAbove < toBelow then some above
    else match tie with
      | .up => some above
      | .even => some (if below % 2 = 0 then below else above)
  | true, false => some below
  | false, true => some above
  | false, false => none

/-- Drops trailing zeros from the digits; `fuel` bounds their number. -/
def trimZeros : Nat → Nat → Int → Decimal
  | 0, digits, exponent => ⟨digits, exponent⟩
  | fuel + 1, digits, exponent =>
    if digits % 10 = 0 && digits ≠ 0 then trimZeros fuel (digits / 10) (exponent + 1)
    else ⟨digits, exponent⟩

/-- Looks for a decimal on finer and finer grids, at most `fuel` of them. -/
def shortestFrom (x : Binary) (tie : Tie) : Nat → Int → Decimal
  | 0, step => ⟨0, step⟩
  | fuel + 1, step =>
    match (Window.ofBinary x step).nearest tie with
    | some n => trimZeros (digitCount n) n step
    | none => shortestFrom x tie fuel (step - 1)

/-- The shortest decimal that reads back as the positive number `x`. Seventeen digits always
suffice for a double. -/
def shortest (tie : Tie) (x : Binary) : Decimal :=
  shortestFrom x tie 17 (leadingExponent x)

end Decimal

end CallAtlas
