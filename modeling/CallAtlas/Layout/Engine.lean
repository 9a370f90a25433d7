import CallAtlas.Error

/-!
# The layout engine

Asking for a layout only selects the program; it runs when an image is rendered.

## Main definitions

* `LayoutEngine`: the selected program and the format of images.
* `LayoutEngine.request`: selects a program.
* `LayoutEngine.command`: the arguments for a rendering.
-/

namespace CallAtlas

/-- The state of the layout engine. -/
structure LayoutEngine where
  /-- The format of rendered images. -/
  format : String
  /-- The selected program. -/
  program : String := "dot"
  /-- Everything that was asked for, in order, also what was refused. -/
  requested : List String := []
deriving DecidableEq, Repr

namespace LayoutEngine

/-- Selects a layout program. An unknown one is refused, and the selection stays. -/
def request (e : LayoutEngine) (program : String) : LayoutEngine × Option Error :=
  let e := { e with requested := e.requested ++ [program] }
  if layoutPrograms.contains program then ({ e with program }, none)
  else (e, some (.unknownLayout program))

/-- The arguments that make Graphviz write an image to `output`. -/
def command (e : LayoutEngine) (output : String) : List String :=
  ["-K" ++ e.program, "-T" ++ e.format, "-o", output]

end LayoutEngine

end CallAtlas
