import CallAtlas.Analysis
import CallAtlas.CommandLine.Options
import CallAtlas.Drawing.Dot
import CallAtlas.Drawing.Export
import CallAtlas.Files.Corpus
import CallAtlas.Files.Host
import CallAtlas.Files.Settings

/-!
# Running a command line

A run reads documents, writes the dump of the registries if that is asked for, and then writes a
graph for each root, or one for all of them. What has been written before a failure stays.

## Main definitions

* `Options.analysis`: the analysis of the documents.
* `Options.queries`: the views to draw, with the names of their files.
* `Options.run`: the whole run.
* `Options.workers`: how many workers share the work.
-/

namespace CallAtlas.Options

variable {m : Type → Type} [Monad m]

/-- The directory for graphs. -/
def graphDir (o : Options) : String :=
  o.outputDir.getD "."

/-- The form in which graphs are written. -/
def graphFormat (o : Options) : Format :=
  o.format.getD .dot

/-- The number of workers: the one that is asked for, unless that is zero. -/
def workers (requested : Option Nat) (available : Nat) : Nat :=
  match requested with
  | some (n + 1) => n + 1
  | _ => max 1 (available / 2)

/-- The analysis of the documents. -/
def analysis (host : Host m) (o : Options) : ExceptT Failure m Analysis := do
  let dirs ← o.dirs.mapM fun d => return (d, ← host.find d)
  let paths ← Corpus.paths o.inputs dirs
  if paths.isEmpty then throw .noDocuments
  let documents ← paths.mapM fun p => return (p, ← host.read p)
  let trees ← Corpus.loadAll documents
  (Analysis.ofTrees trees).mapError Failure.analysis

/-- Writes a text to a file. -/
def writeFile (host : Host m) (path text : String) : ExceptT Failure m Unit := do
  if !(← host.write path text) then throw (.notWritten path)

/-- Writes the dump, if it is asked for. -/
def writeDump (host : Host m) (o : Options) (a : Analysis) : ExceptT Failure m Unit :=
  match o.dumpRegistry with
  | none => pure ()
  | some path => writeFile host path a.dump

/-- The parameters of the drawings. -/
def parameters (host : Host m) (o : Options) : ExceptT Failure m Parameters :=
  match o.config with
  | none => pure Parameters.defaults
  | some path => do Parameters.ofFile path (← host.read path)

/-- The filter of an argument. -/
def filter (host : Host m) (arg : String) : ExceptT Failure m ConnectionFilter := do
  let (mode, path) ← ConnectionFilter.splitArg arg
  ConnectionFilter.ofFile mode path (← host.read path)

/-- What all views have in common. -/
def template (host : Host m) (o : Options) : ExceptT Failure m Query := do
  let mode ← (DepthMode.parse (o.depthMode.getD "first-predecessor")).mapError Failure.analysis
  let filters ← o.connections.mapM (filter host)
  return {
    excludeNodes := o.excludeNodes
    excludeFiles := o.excludeFiles
    filters := filters
    maxDepth := o.maxDepth
    depthMode := mode }

/-- The views to draw, with a label for each. -/
def queries (o : Options) (q : Query) : List (String × Query) :=
  if o.joint then [("_".intercalate o.roots, { q with roots := o.roots })]
  else o.roots.map fun root => (root, { q with roots := [root] })

/-- The file for the view with a label. -/
def graphPath (o : Options) (label : String) : String :=
  let stem := if o.modules then "module_graph" else "call_graph"
  Path.join o.graphDir (stem ++ "_" ++ label ++ "." ++ o.graphFormat.extension)

/-- Draws an image with an engine. -/
def renderImage (host : Host m) (engine : LayoutEngine) (d : Drawing) (path : String) :
    ExceptT Failure m Unit := do
  match ← host.render (engine.command path) d.toDot with
  | .missing => throw .noRenderer
  | .finished => pure ()
  | .failed code output => throw (.rendererFailed code output)

/-- Writes a drawing in the form that is asked for. -/
def writeDrawing (host : Host m) (o : Options) (engine : LayoutEngine) (d : Drawing)
    (path : String) : ExceptT Failure m Unit :=
  match o.graphFormat with
  | .dot => writeFile host path d.toDot
  | .json => writeFile host path d.toJsonText
  | .svg | .png => renderImage host engine d path

/-- The engine that a view is drawn with. -/
def engine (o : Options) : LayoutEngine :=
  { format := o.graphFormat.extension }

/-- Draws one view. -/
def drawView (host : Host m) (o : Options) (base : CallGraph) (ps : Parameters)
    (view : String × Query) : ExceptT Failure m Unit := do
  let (d, engine) ← (view.2.draw base ps o.engine).mapError Failure.analysis
  writeDrawing host o engine d (o.graphPath view.1)

/-- Draws the views one after the other. -/
def drawViews (host : Host m) (o : Options) (base : CallGraph) (ps : Parameters) :
    List (String × Query) → ExceptT Failure m Unit
  | [] => pure ()
  | view :: views => do
    drawView host o base ps view
    drawViews host o base ps views

/-- Draws the graphs of all roots. -/
def drawRoots (host : Host m) (o : Options) (a : Analysis) : ExceptT Failure m Unit := do
  let ps ← parameters host o
  let q ← template host o
  if !(← host.makeDirectories o.graphDir) then throw (.notCreated o.graphDir)
  drawViews host o (a.baseGraph o.modules) ps (o.queries q)

/-- The whole run. -/
def run (host : Host m) (o : Options) : ExceptT Failure m Unit := do
  let a ← analysis host o
  writeDump host o a
  if !o.roots.isEmpty then drawRoots host o a
  else if o.dumpRegistry.isNone then throw .noRoots

end CallAtlas.Options
