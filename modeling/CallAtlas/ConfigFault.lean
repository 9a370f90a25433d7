import CallAtlas.Parameters.Key

/-!
# Configuration files that cannot be used

## Main definitions

* `ConfigFault`: why a configuration text is refused.
* `ConfigFault.message?`: the description of a fault.
-/

namespace CallAtlas

/-- Why the text of a configuration file is refused. -/
inductive ConfigFault where
  /-- The text is not TOML. -/
  | notToml
  /-- A parameter has a list as its value. -/
  | listValue (key : Parameter.Key)
  /-- The connections of a node are not a list. -/
  | notAList (node : String)
  /-- The connections of a node hold something that is no text. -/
  | notAName (node : String)
deriving DecidableEq, Repr

/-- The description of a fault; there is none for a text that is not TOML. -/
def ConfigFault.message? : ConfigFault → Option String
  | .notToml => none
  | .listValue key => some ("array value for (" ++ ",".intercalate key ++ ") is not supported")
  | .notAList node => some ("connections of `" ++ node ++ "` must be a list of names")
  | .notAName node => some ("non-string entry in connections of `" ++ node ++ "`")

end CallAtlas
