import CallAtlas.CallGraph.OfRegistry
import CallAtlas.Drawing.Basic
import CallAtlas.Json.Printer

/-!
# Drawings as JSON

## Main definitions

* `NodeExport`, `EdgeExport`, `GraphExport`: what is told of a drawing.
* `Drawing.toExport`: the export of a drawing.
* `Drawing.toJsonText`: its JSON text.
-/

namespace CallAtlas

/-- What is told of a node. -/
structure NodeExport where
  id : String
  kind : String
  file : Option String
  firstLine : Option Nat
  lineCount : Option Nat
  depth : Nat
  external : Bool
  attrs : Attributes

/-- What is told of an edge: the names of its ends. -/
structure EdgeExport where
  source : String
  target : String
deriving DecidableEq, Repr

/-- What is told of a drawing. -/
structure GraphExport where
  roots : List String
  nodes : List NodeExport
  edges : List EdgeExport

namespace NodeExport

/-- The node as an object; attributes are left out if there are none. -/
def toJson (n : NodeExport) : Json :=
  .object ([
    ("id", .ofString n.id),
    ("kind", .ofString n.kind),
    ("file", .ofOption .ofString n.file),
    ("first_line", .ofOption .ofNat n.firstLine),
    ("line_count", .ofOption .ofNat n.lineCount),
    ("depth", .ofNat n.depth),
    ("external", .bool n.external)] ++
    if n.attrs.isEmpty then []
    else [("attrs", .object (n.attrs.entries.map fun a => (Json.escape a.1, a.2.toJson)))])

end NodeExport

/-- The edge as an object. -/
def EdgeExport.toJson (e : EdgeExport) : Json :=
  .object [("from", .ofString e.source), ("to", .ofString e.target)]

/-- The export as an object. -/
def GraphExport.toJson (g : GraphExport) : Json :=
  .object [
    ("roots", .array (g.roots.map .ofString)),
    ("nodes", .array (g.nodes.map NodeExport.toJson)),
    ("edges", .array (g.edges.map EdgeExport.toJson))]

namespace Drawing

/-- The export of one node. -/
def exportNode (d : Drawing) (i : Nat) : Option NodeExport :=
  (d.graph.node? i).map fun n =>
    { id := n.name
      kind := n.kind.label
      file := n.sourceFile
      firstLine := n.firstLine
      lineCount := n.lineCount
      depth := d.depths.get i
      external := n.isExternal
      attrs := d.nodeAttrs i }

/-- The export of a drawing: nodes in the order of drawing, edges by number. -/
def toExport (d : Drawing) : GraphExport where
  roots := d.roots.map d.graph.name
  nodes := d.displayOrder.filterMap d.exportNode
  edges := d.graph.edgePairs.map fun e => ⟨d.graph.name e.1, d.graph.name e.2⟩

/-- The JSON text of a drawing. -/
def toJsonText (d : Drawing) : String :=
  d.toExport.toJson.pretty

end Drawing

end CallAtlas
