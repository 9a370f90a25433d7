import CallAtlas.Layout.Engine
import CallAtlas.Parameters.Basic
import CallAtlas.View

/-!
# Drawings

A drawing is a view with the attributes that parameters give to the graph, to nodes and edges in
general, and to single nodes.

## Main definitions

* `Drawing`, `Drawing.ofView`: a drawing, at first without attributes.
* `LayoutService`: what can be asked for a layout of a drawing.
* `Drawing.resize`: sizes that shrink with depth.
* `Drawing.applyEntry`, `Drawing.apply`: the effect of one parameter and of a list of them.
* `Query.draw`: the drawing of a query.
-/

namespace CallAtlas

/-- Attributes by name. -/
abbrev Attributes := NameMap Parameter.Value

/-- A view and everything needed to draw it. -/
structure Drawing where
  graph : CallGraph
  roots : List Nat
  depths : Depths
  graphAttrs : Attributes := ∅
  nodeDefaults : Attributes := ∅
  edgeDefaults : Attributes := ∅
  /-- The attributes of single nodes, by number. -/
  nodeAttrs : Nat → Attributes := fun _ => ∅

/-- An engine that can be asked to lay a drawing out with a program. It may change, and it may
refuse. -/
class LayoutService (ε : Type) where
  layout : ε → Drawing → String → ε × Option Error

instance : LayoutService LayoutEngine where
  layout engine _ program := engine.request program

namespace Drawing

variable {ε : Type} [LayoutService ε]

/-- The drawing of a view, without attributes. -/
def ofView (v : View) (mode : DepthMode) : Drawing where
  graph := v.graph
  roots := v.roots
  depths := v.graph.depths v.roots mode

/-- The nodes in the order in which they are drawn. -/
def displayOrder (d : Drawing) : List Nat :=
  d.depths.displayOrder d.graph

/-- An attribute that was given to a named node itself. -/
def nodeAttr? (d : Drawing) (name attr : String) : Option Parameter.Value :=
  (d.graph.find? name).bind fun i => (d.nodeAttrs i).find? attr

/-- Gives an attribute to one node. -/
def setNodeAttr (d : Drawing) (i : Nat) (attr : String) (value : Parameter.Value) : Drawing :=
  { d with nodeAttrs := fun j => if j = i then (d.nodeAttrs j).insert attr value
                                 else d.nodeAttrs j }

/-! ### Sizes by depth -/

/-- Width and height of every node when sizes follow depth. -/
def nodeExtent : Float := 0.1

/-- The font size at a depth. -/
def fontSize (s : Parameters.Sizing) (depth : Nat) : Float :=
  s.initialSize - s.sizeDelta * Float.ofNat depth

/-- The attributes that sizing by depth gives to a node. -/
def sized (s : Parameters.Sizing) (depth : Nat) (attrs : Attributes) : Attributes :=
  ((attrs.insert "fontsize" (.float (fontSize s depth))).insert "width" (.float nodeExtent)).insert
    "height" (.float nodeExtent)

/-- Sizes every node by its depth. -/
def resize (d : Drawing) (s : Parameters.Sizing) : Drawing :=
  { d with nodeAttrs := fun i =>
      if d.graph.contains i then sized s (d.depths.get i) (d.nodeAttrs i) else d.nodeAttrs i }

/-! ### Applying parameters -/

/-- The scopes that a parameter can have. -/
def scopes : List String := ["graph", "node", "edge", "meta"]

/-- Applies one parameter. A layout is asked of the engine and is no attribute; a parameter for a
node that is not drawn has no effect. -/
def applyEntry (sizing : Parameters.Sizing) (p : Parameter) (d : Drawing) (engine : ε) :
    (Drawing × ε) × Option Error :=
  match p.key with
  | ["graph", "layout"] =>
    let (engine, refused) := LayoutService.layout engine d p.value.display
    ((d, engine), refused)
  | ["graph", k] => (({ d with graphAttrs := d.graphAttrs.insert k p.value }, engine), none)
  | ["node", k] => (({ d with nodeDefaults := d.nodeDefaults.insert k p.value }, engine), none)
  | ["edge", k] => (({ d with edgeDefaults := d.edgeDefaults.insert k p.value }, engine), none)
  | ["node", name, k] =>
    match d.graph.find? name with
    | some i => ((d.setNodeAttr i k p.value, engine), none)
    | none => ((d, engine), none)
  | ["meta", k] =>
    if k = "node_size_depth" && sizing.enabled then ((d.resize sizing, engine), none)
    else ((d, engine), none)
  | key =>
    if scopes.contains p.scope then ((d, engine), some (.malformedKey key))
    else ((d, engine), some (.unknownScope key))

/-- Applies parameters in order, up to the first error. -/
def applyEntries (sizing : Parameters.Sizing) :
    List Parameter → Drawing → ε → (Drawing × ε) × Option Error
  | [], d, engine => ((d, engine), none)
  | p :: ps, d, engine =>
    match applyEntry sizing p d engine with
    | ((d, engine), none) => applyEntries sizing ps d engine
    | stopped => stopped

/-- Applies parameters in order. The settings for sizes are read from the whole list; the sizes
themselves are set where the list says so. What was applied before an error stays. -/
def apply (d : Drawing) (ps : Parameters) (engine : ε) : (Drawing × ε) × Option Error :=
  applyEntries ps.sizing ps.entries d engine

end Drawing

/-- The drawing that a query and parameters make of a graph. -/
def Query.draw {ε : Type} [LayoutService ε] (q : Query) (base : CallGraph) (ps : Parameters)
    (engine : ε) : Except Error (Drawing × ε) := do
  let view ← q.run base
  match (Drawing.ofView view q.depthMode).apply ps engine with
  | (result, none) => return result
  | (_, some e) => .error e

end CallAtlas
