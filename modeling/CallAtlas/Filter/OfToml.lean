import CallAtlas.ConfigFault
import CallAtlas.Filter.Basic
import CallAtlas.Toml.Reader

/-!
# Connection filters from TOML

A connection list is a table with a list of names for each node.

## Main definitions

* `ConnectionFilter.ofTable`: the filter of a table.
* `ConnectionFilter.parse`: the filter that a text holds.
-/

namespace CallAtlas.ConnectionFilter

/-- The names in the list of a node. -/
def names (node : String) (items : List Toml.Value) : Except ConfigFault (List String) :=
  items.mapM fun item =>
    match item with
    | .string s => .ok s
    | _ => .error (.notAName node)

/-- One entry of a connection list. -/
def entry (e : String × Toml.Value) : Except ConfigFault (String × List String) :=
  match e.2 with
  | .array items => (names e.1 items).map fun listed => (e.1, listed)
  | _ => .error (.notAList e.1)

/-- The filter of a table. -/
def ofTable (action : FilterAction) (t : Toml.Table) : Except ConfigFault ConnectionFilter :=
  (t.mapM entry).map fun lists => ⟨action, .ofList lists⟩

/-- The filter that a text holds. -/
def parse (action : FilterAction) (s : String) : Except ConfigFault ConnectionFilter :=
  match Toml.parse? s with
  | none => .error .notToml
  | some t => ofTable action t

end CallAtlas.ConnectionFilter
