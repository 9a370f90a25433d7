import CallAtlas.Toml.Datetime

/-!
# TOML values

## Main definitions

* `Toml.Value`: a value; a table lists its entries in the order of the document.
* `Toml.Table`: the entries of a table.
-/

namespace CallAtlas.Toml

/-- A TOML value. -/
inductive Value where
  | string (value : String)
  | integer (value : Int)
  | float (value : Float)
  | boolean (value : Bool)
  | datetime (value : Datetime)
  | array (items : List Value)
  | table (entries : List (String × Value))

/-- The entries of a table, in order. -/
abbrev Table := List (String × Value)

end CallAtlas.Toml
