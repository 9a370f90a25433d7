import CallAtlas.ConfigFault
import CallAtlas.Parameters.Basic
import CallAtlas.Toml.Reader

/-!
# Parameters from TOML

Parameters may be written with tuple keys, with nested tables, or with both: the key of a
parameter is what the names on the way to its value denote, one after the other.

## Main definitions

* `Parameters.ofTable`: the leaves of a table in the order of the document.
* `Parameters.parse`: the parameters that a text holds.
-/

namespace CallAtlas.Parameters

/-- The parameter value of a TOML value that holds no other values; a date or time is a text. -/
def leafValue? : Toml.Value → Option Parameter.Value
  | .string s => some (.text s)
  | .integer n => some (.integer n)
  | .float x => some (.float x)
  | .boolean b => some (.bool b)
  | .datetime d => some (.text d.text)
  | .array _ | .table _ => none

mutual

/-- The leaves of a value that stands under a key. -/
def flatten (key : Parameter.Key) : Toml.Value → Except ConfigFault (List Parameter)
  | .table entries => flattenAll key entries
  | .array _ => .error (.listValue key)
  | v => .ok ((leafValue? v).toList.map fun value => ⟨key, value⟩)

/-- The leaves of a table that stands under a key. -/
def flattenAll (key : Parameter.Key) :
    List (String × Toml.Value) → Except ConfigFault (List Parameter)
  | [] => .ok []
  | (name, v) :: entries => do
    let here ← flatten (key ++ Parameter.parseKey name) v
    let rest ← flattenAll key entries
    return here ++ rest

end

/-- The parameters in a table. -/
def ofTable (t : Toml.Table) : Except ConfigFault Parameters :=
  (flattenAll [] t).map Parameters.mk

/-- The parameters that a text holds. -/
def parse (s : String) : Except ConfigFault Parameters :=
  match Toml.parse? s with
  | none => .error .notToml
  | some t => ofTable t

end CallAtlas.Parameters
