import CallAtlas.Decimal.NumberStyle
import CallAtlas.Json.Basic

/-!
# Floating-point numbers in JSON

## Main definitions

* `Json.numberStyle`: how a floating-point number is written.
* `Json.ofFloat`, `Json.ofInt`: the values of numbers.
-/

namespace CallAtlas.Json

/-- Positional notation is kept from five places after the point to sixteen before it, and a whole
number shows its point. There is no number for infinity or for what is not a number. -/
def numberStyle : NumberStyle where
  positional := some (-5, 15)
  showsPoint := true
  tie := .even
  infinity := "null"
  signedInfinity := false
  notANumber := "null"

/-- The value of a floating-point number, `null` where JSON has no number for it. -/
def ofFloat (x : Float) : Json :=
  .number (numberStyle.write x)

/-- The value of a whole number. -/
def ofInt (n : Int) : Json :=
  .number (toString n)

end CallAtlas.Json
