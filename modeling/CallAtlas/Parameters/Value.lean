import CallAtlas.Decimal.Reader
import CallAtlas.Json.Number
import CallAtlas.Text.Blank
import CallAtlas.Text.LowerCase

/-!
# Values of graph parameters

## Main definitions

* `Parameter.Value`: a truth value, a number or a text.
* `Parameter.Value.display`, `Parameter.Value.toJson`: its text forms.
* `Parameter.Value.toBool?`, `Parameter.Value.toFloat?`: a value read as a switch or as a size.
-/

namespace CallAtlas.Parameter

/-- The value of a graph parameter. -/
inductive Value where
  | bool (value : Bool)
  | integer (value : Int)
  | float (value : Float)
  | text (value : String)

namespace Value

/-- Numbers in drawings are written in full, without exponents. -/
def displayStyle : NumberStyle where
  positional := none
  showsPoint := false
  tie := .up
  infinity := "inf"
  signedInfinity := true
  notANumber := "NaN"

/-- The text of a value in a drawing. -/
def display : Value → String
  | .bool b => if b then "true" else "false"
  | .integer n => toString n
  | .float x => displayStyle.write x
  | .text s => s

/-- The value in JSON. -/
def toJson : Value → Json
  | .bool b => .bool b
  | .integer n => .ofInt n
  | .float x => .ofFloat x
  | .text s => .ofString s

/-- A value read as a switch: a number is on unless it is zero, and a few words are known in any
case. A floating-point number is no switch. -/
def toBool? : Value → Option Bool
  | .bool b => some b
  | .integer n => some (n != 0)
  | .float _ => none
  | .text s =>
    let word := Text.lowerCase s
    if ["true", "yes", "1"].contains word then some true
    else if ["false", "no", "0"].contains word then some false
    else none

/-- A value read as a size; a text may have blanks around the number. -/
def toFloat? : Value → Option Float
  | .bool _ => none
  | .integer n => some (.ofInt n)
  | .float x => some x
  | .text s => Decimal.readFloatChars? (Text.trimChars s.toList)

end Value

end CallAtlas.Parameter
