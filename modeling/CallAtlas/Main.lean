import CallAtlas.CommandLine.Run

/-!
# The command line program

Reads its arguments, runs them on the disk and reports with an exit code: 0 for success, 1 for a
run that failed, 2 for arguments that are not a command line. No other program is started from
here, so that images are reported as not available; the DOT text of a graph can be given to the
layout program by hand.
-/

namespace CallAtlas

/-- What stands at a path of the disk, without the texts of files. -/
partial def diskFind (path : String) : IO (Option FileTree) := do
  try
    let place ← IO.FS.realPath path
    if !(← place.isDir) then return some (.file none)
    let mut entries := []
    for e in ← place.readDir do
      if let some t ← diskFind e.path.toString then entries := (e.fileName, t) :: entries
    return some (.directory entries)
  catch _ => return none

/-- The text of the file at a path of the disk. -/
def diskRead (path : String) : IO (Option String) := do
  try return some (← IO.FS.readFile path) catch _ => return none

/-- Whether an action succeeds. -/
def succeeds (action : IO Unit) : IO Bool := do
  try action; return true catch _ => return false

/-- The disk as the surroundings of a run. -/
def disk : Host IO where
  find := diskFind
  read := diskRead
  write path text := succeeds (IO.FS.writeFile path text)
  makeDirectories path := succeeds (IO.FS.createDirAll path)
  render _ _ := return .missing

/-- How the program is used. -/
def usage : String := "\n".intercalate [
  "Usage: callatlas [OPTIONS]",
  "",
  "  -i, --input <INPUT>                  Syntax-tree JSON document (can specify multiple)",
  "  -d, --dir <DIR>                      Directory searched recursively for documents",
  "  -r, --root <ROOT>                    Root procedure of a graph view (can specify multiple)",
  "      --joint                          Draw all roots in one graph",
  "      --exclude-node <EXCLUDE_NODE>    Node removed before pruning",
  "      --exclude-file <EXCLUDE_FILE>    Source file whose definitions are removed before pruning",
  "      --connections <CONNECTIONS>      Successor filter as MODE=PATH, MODE being keep or exclude",
  "  -c, --config <CONFIG>                Graph parameters (TOML)",
  "      --modules                        Query the module dependency graph",
  "      --max-depth <MAX_DEPTH>          Drop nodes deeper than this",
  "      --depth-mode <DEPTH_MODE>        first-predecessor or shortest-path",
  "  -f, --format <FORMAT>                dot, json, svg or png",
  "  -o, --output-dir <OUTPUT_DIR>        Directory for the graphs",
  "      --dump-registry <DUMP_REGISTRY>  Write the resolved registries as JSON",
  "  -j, --jobs <JOBS>                    Worker threads",
  "  -h, --help                           Print help",
  "  -V, --version                        Print version"]

end CallAtlas

open CallAtlas in

/-- Runs a command line. -/
def main (args : List String) : IO UInt32 := do
  match Options.parse args with
  | .help => IO.println usage; return 0
  | .version => IO.println "callatlas 0.1.0"; return 0
  | .misuse => IO.eprintln usage; return 2
  | .run o =>
    match ← (o.run disk).run with
    | .ok () => return 0
    | .error failure => IO.eprintln ("Error: " ++ failure.message); return 1
