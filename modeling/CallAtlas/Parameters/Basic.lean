import CallAtlas.Parameters.Key
import CallAtlas.Parameters.Value

/-!
# Graph parameters

Parameters form a list, and they are applied in its order. Setting a key that is already in the
list changes its value and leaves it in its place.

## Main definitions

* `Parameter`, `Parameters`: a key with a value, and a list of them.
* `Parameters.set`, `Parameters.mergedWith`: later values win, earlier places stay.
* `Parameters.defaults`: what holds before any configuration.
* `Parameters.sizing`: the settings for sizes that shrink with depth.
-/

namespace CallAtlas

/-- A key and its value. -/
structure Parameter where
  key : Parameter.Key
  value : Parameter.Value

/-- The first part of the key, empty for an empty key. -/
def Parameter.scope (p : Parameter) : String :=
  p.key.headD ""

/-- Parameters in the order in which they are applied. -/
structure Parameters where
  entries : List Parameter := []

namespace Parameters

/-! ### Setting and merging -/

/-- Changes the value of the first entry with the key, or appends an entry. -/
def setEntry (p : Parameter) : List Parameter → List Parameter
  | [] => [p]
  | e :: es => if e.key = p.key then { e with value := p.value } :: es else e :: setEntry p es

/-- Sets the value of a key. -/
def set (ps : Parameters) (p : Parameter) : Parameters :=
  ⟨setEntry p ps.entries⟩

/-- Sets everything that `overrides` lists. -/
def mergedWith (ps overrides : Parameters) : Parameters :=
  overrides.entries.foldl set ps

/-- The parameters that hold before any configuration. -/
def defaults : Parameters where
  entries := [
    ⟨["graph", "outputorder"], .text "edgesfirst"⟩,
    ⟨["graph", "splines"], .text "spline"⟩,
    ⟨["node", "shape"], .text "rectangle"⟩,
    ⟨["graph", "overlap"], .text "false"⟩,
    ⟨["graph", "rankdir"], .text "LR"⟩,
    ⟨["graph", "layout"], .text "dot"⟩,
    ⟨["graph", "pad"], .float 0.1⟩,
    ⟨["node", "fontsize"], .integer 14⟩,
    ⟨["node", "style"], .text "filled"⟩,
    ⟨["node", "fillcolor"], .text "white"⟩]

/-! ### Sizes by depth -/

/-- Whether and how sizes shrink with depth. -/
structure Sizing where
  enabled : Bool := false
  initialSize : Float := 20.0
  sizeDelta : Float := 2.0

/-- Reads one entry of the scope `meta`. What is no number does not change a size. -/
def Sizing.read (s : Sizing) (name : String) (value : Parameter.Value) : Sizing :=
  if name = "node_size_depth" then { s with enabled := value.toBool?.getD false }
  else if name = "size_depth_init" then
    { s with initialSize := value.toFloat?.getD s.initialSize }
  else if name = "size_depth_delta" then
    { s with sizeDelta := value.toFloat?.getD s.sizeDelta }
  else s

/-- Reads an entry that may concern sizes; further key parts are not looked at. -/
def Sizing.readEntry (s : Sizing) (p : Parameter) : Sizing :=
  match p.key with
  | "meta" :: name :: _ => s.read name p.value
  | _ => s

/-- The settings from the whole list, wherever they stand; the last of a name counts. -/
def sizing (ps : Parameters) : Sizing :=
  ps.entries.foldl Sizing.readEntry {}

end Parameters

end CallAtlas
