import CallAtlas.Drawing.Basic

/-!
# Drawings as DOT text

The language of Graphviz. There is one line for each attribute of the graph, one for the defaults
of nodes and one for those of edges, then one for each node in the order of drawing, and one for
each edge by number.

## Main definitions

* `Drawing.dotEscape`: a text inside quotes.
* `Drawing.dotLines`, `Drawing.toDot`: the text of a drawing.
-/

namespace CallAtlas.Drawing

/-- Backslashes, quotes and line breaks are escaped. -/
def dotEscapeChar (c : Char) : List Char :=
  if c = '\\' then ['\\', '\\']
  else if c = '"' then ['\\', '"']
  else if c = '\n' then ['\\', 'n']
  else [c]

/-- A text as it stands between quotes. -/
def dotEscape (s : String) : String :=
  String.ofList (s.toList.flatMap dotEscapeChar)

/-- A text between quotes. -/
def dotQuote (s : String) : String :=
  "\"" ++ dotEscape s ++ "\""

/-- One attribute. -/
def dotAttr (a : String × Parameter.Value) : String :=
  a.1 ++ "=" ++ dotQuote a.2.display

/-- A list of attributes. -/
def dotAttrs (attrs : Attributes) : String :=
  ", ".intercalate (attrs.entries.map dotAttr)

/-- The line that sets defaults, if there are any. -/
def dotDefaults (what : String) (attrs : Attributes) : List String :=
  if attrs.isEmpty then [] else ["    " ++ what ++ " [" ++ dotAttrs attrs ++ "];"]

/-- The line of a node. -/
def dotNode (d : Drawing) (i : Nat) : String :=
  let attrs := d.nodeAttrs i
  "    " ++ dotQuote (d.graph.name i) ++
    (if attrs.isEmpty then ";" else " [" ++ dotAttrs attrs ++ "];")

/-- The line of an edge. -/
def dotEdge (d : Drawing) (e : Nat × Nat) : String :=
  "    " ++ dotQuote (d.graph.name e.1) ++ " -> " ++ dotQuote (d.graph.name e.2) ++ ";"

/-- The lines of a drawing. -/
def dotLines (d : Drawing) : List String :=
  ["digraph CallGraph \x7b"] ++
    d.graphAttrs.entries.map (fun a => "    " ++ dotAttr a ++ ";") ++
    dotDefaults "node" d.nodeDefaults ++ dotDefaults "edge" d.edgeDefaults ++ [""] ++
    d.displayOrder.map (dotNode d) ++ [""] ++ d.graph.edgePairs.map (dotEdge d) ++ ["\x7d"]

/-- The DOT text of a drawing, without a line break at its end. -/
def toDot (d : Drawing) : String :=
  "\n".intercalate d.dotLines

end CallAtlas.Drawing
