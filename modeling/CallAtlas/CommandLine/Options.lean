import CallAtlas.Decimal.Reader

/-!
# The options of a command line

Arguments are read from left to right, and the first one that cannot be right, or that asks for
information, decides. The value of an option is attached to it or is the next argument; a next
argument that looks like an option is none.

## Main definitions

* `Format`: the forms in which a graph is written.
* `Options`: what a command line asks for.
* `Request`: the outcome of reading a command line.
* `Options.parse`: reads a command line.
-/

namespace CallAtlas

/-- The forms in which a graph is written. -/
inductive Format where
  | dot
  | json
  | svg
  | png
deriving DecidableEq, Repr

namespace Format

/-- The name of a form, which is also the extension of its files. -/
def extension : Format → String
  | .dot => "dot"
  | .json => "json"
  | .svg => "svg"
  | .png => "png"

/-- The form with a name. -/
def ofName? (s : String) : Option Format :=
  [.dot, .json, .svg, .png].find? fun f => f.extension = s

end Format

/-- What a command line asks for. An option that may be given once is absent until it is. -/
structure Options where
  inputs : List String := []
  dirs : List String := []
  roots : List String := []
  /-- Draws all roots in one graph. -/
  joint : Bool := false
  excludeNodes : List String := []
  excludeFiles : List String := []
  connections : List String := []
  config : Option String := none
  /-- Draws the graph of modules. -/
  modules : Bool := false
  maxDepth : Option Nat := none
  depthMode : Option String := none
  format : Option Format := none
  outputDir : Option String := none
  dumpRegistry : Option String := none
  jobs : Option Nat := none
deriving DecidableEq, Repr

/-- The outcome of reading a command line. -/
inductive Request where
  | run (options : Options)
  | help
  | version
  /-- The arguments are not a command line. -/
  | misuse
deriving DecidableEq, Repr

namespace Options

/-- The options that take a value. -/
inductive Setting where
  | input
  | dir
  | root
  | excludeNode
  | excludeFile
  | connections
  | config
  | maxDepth
  | depthMode
  | format
  | outputDir
  | dumpRegistry
  | jobs
deriving DecidableEq, Repr

/-- What an option does. -/
inductive Role where
  | setting (s : Setting)
  | joint
  | modules
  | help
  | version
deriving DecidableEq, Repr

/-- The role of a long option. -/
def Role.ofLong? : String → Option Role
  | "input" => some (.setting .input)
  | "dir" => some (.setting .dir)
  | "root" => some (.setting .root)
  | "joint" => some .joint
  | "exclude-node" => some (.setting .excludeNode)
  | "exclude-file" => some (.setting .excludeFile)
  | "connections" => some (.setting .connections)
  | "config" => some (.setting .config)
  | "modules" => some .modules
  | "max-depth" => some (.setting .maxDepth)
  | "depth-mode" => some (.setting .depthMode)
  | "format" => some (.setting .format)
  | "output-dir" => some (.setting .outputDir)
  | "dump-registry" => some (.setting .dumpRegistry)
  | "jobs" => some (.setting .jobs)
  | "help" => some .help
  | "version" => some .version
  | _ => none

/-- The role of a short option. -/
def Role.ofShort? : Char → Option Role
  | 'i' => some (.setting .input)
  | 'd' => some (.setting .dir)
  | 'r' => some (.setting .root)
  | 'c' => some (.setting .config)
  | 'f' => some (.setting .format)
  | 'o' => some (.setting .outputDir)
  | 'j' => some (.setting .jobs)
  | 'h' => some .help
  | 'V' => some .version
  | _ => none

/-- Gives a value to an option that may be given once. -/
def once {α : Type} (old new : Option α) : Option (Option α) :=
  if old.isSome || new.isNone then none else some new

/-- A path is any text but the empty one. -/
def path? (s : String) : Option String :=
  if s = "" then none else some s

/-- A number that fits into 64 bits. -/
def count? (s : String) : Option Nat :=
  (Decimal.readNat? s).filter (· < Decimal.wordBound)

/-- The options with one more value. -/
def assign (o : Options) (value : String) : Setting → Option Options
  | .input => (path? value).map fun p => { o with inputs := o.inputs ++ [p] }
  | .dir => (path? value).map fun p => { o with dirs := o.dirs ++ [p] }
  | .root => some { o with roots := o.roots ++ [value] }
  | .excludeNode => some { o with excludeNodes := o.excludeNodes ++ [value] }
  | .excludeFile => some { o with excludeFiles := o.excludeFiles ++ [value] }
  | .connections => some { o with connections := o.connections ++ [value] }
  | .config => (once o.config (path? value)).map fun v => { o with config := v }
  | .maxDepth => (once o.maxDepth (count? value)).map fun v => { o with maxDepth := v }
  | .depthMode => (once o.depthMode (some value)).map fun v => { o with depthMode := v }
  | .format => (once o.format (Format.ofName? value)).map fun v => { o with format := v }
  | .outputDir => (once o.outputDir (path? value)).map fun v => { o with outputDir := v }
  | .dumpRegistry => (once o.dumpRegistry (path? value)).map fun v => { o with dumpRegistry := v }
  | .jobs => (once o.jobs (count? value)).map fun v => { o with jobs := v }

/-- An argument that is an option, with the value attached to it. -/
inductive Argument where
  /-- Two dashes, after which no options follow. -/
  | endOfOptions
  | option (role : Role) (attached : Option String)
  /-- An argument that is neither an option nor the value of one. -/
  | stray
deriving DecidableEq, Repr

/-- The value after an equals sign. -/
def valueAfterEquals : List Char → Option String
  | '=' :: cs => some (String.ofList cs)
  | _ => none

/-- The value that follows the letter of an option, with or without an equals sign. -/
def valueAfterLetter : List Char → Option String
  | [] => none
  | '=' :: cs => some (String.ofList cs)
  | cs => some (String.ofList cs)

/-- What an argument is where an option is expected. -/
def Argument.ofChars : List Char → Argument
  | ['-', '-'] => .endOfOptions
  | '-' :: '-' :: cs =>
    match Role.ofLong? (String.ofList (cs.takeWhile (· ≠ '='))) with
    | none => .stray
    | some role => .option role (valueAfterEquals (cs.dropWhile (· ≠ '=')))
  | '-' :: c :: cs =>
    match Role.ofShort? c with
    | none => .stray
    | some (.setting s) => .option (.setting s) (valueAfterLetter cs)
    | some role => .option role none
  | _ => .stray

/-- Whether an argument looks like an option. -/
def looksLikeOption (arg : String) : Bool :=
  match arg.toList with
  | '-' :: _ :: _ => true
  | _ => false

/-- Reads the arguments after those that have been taken into account. -/
def parseFrom (o : Options) : List String → Request
  | [] => .run o
  | arg :: args =>
    match Argument.ofChars arg.toList with
    | .stray => .misuse
    | .endOfOptions => if args.isEmpty then .run o else .misuse
    | .option .help none => .help
    | .option .version none => .version
    | .option .joint none => if o.joint then .misuse else parseFrom { o with joint := true } args
    | .option .modules none =>
      if o.modules then .misuse else parseFrom { o with modules := true } args
    | .option (.setting s) (some value) =>
      match o.assign value s with
      | none => .misuse
      | some o => parseFrom o args
    | .option (.setting s) none =>
      match args with
      | [] => .misuse
      | value :: args =>
        if looksLikeOption value then .misuse
        else match o.assign value s with
          | none => .misuse
          | some o => parseFrom o args
    | .option _ (some _) => .misuse

/-- Reads a command line. -/
def parse (args : List String) : Request :=
  parseFrom {} args

end Options

end CallAtlas
