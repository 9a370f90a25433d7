import CallAtlas.Error
import CallAtlas.NameMap
import CallAtlas.Text.LowerCase

/-!
# Connection filters

A connection filter says, for some nodes, which of the nodes they call may stay in a view: those
in a list, or those not in it.

## Main definitions

* `FilterAction`: whether the lists name what stays or what goes.
* `ConnectionFilter`: the lists of one action.
* `ConnectionFilter.condemns`: whether a list removes a name.
-/

namespace CallAtlas

/-- What being listed means. -/
inductive FilterAction where
  /-- Only listed names stay. -/
  | keep
  /-- Listed names go. -/
  | exclude
deriving DecidableEq, Repr

/-- The action that a word stands for, in any case. -/
def FilterAction.parse (s : String) : Except Error FilterAction :=
  let word := Text.lowerCase s
  if ["keep", "allow", "allowed"].contains word then .ok .keep
  else if ["exclude", "deny", "forbidden"].contains word then .ok .exclude
  else .error (.unknownFilterMode word)

/-- Lists of called names, by the name of the caller. -/
structure ConnectionFilter where
  action : FilterAction
  lists : NameMap (List String) := ∅

/-- Whether a caller's list removes a name that it calls. -/
def ConnectionFilter.condemns (action : FilterAction) (listed : List String) (name : String) :
    Bool :=
  match action with
  | .keep => !listed.contains name
  | .exclude => listed.contains name

end CallAtlas
