import CallAtlas.Files.FileTree

/-!
# Hosts

What a run needs from its surroundings. A directory tree, seen from a working directory, is a host
of its own, in which a run is a function from trees to trees.

## Main definitions

* `Host`: the operations of the surroundings.
* `FileTree.host`: a directory tree as a host.
-/

namespace CallAtlas

/-- What comes of starting the program that draws images. -/
inductive Rendering where
  /-- The program is not installed. -/
  | missing
  /-- The program has written the image. -/
  | finished
  /-- The program ended with an exit code, or without one, and wrote a text to its error output. -/
  | failed (code : Option Nat) (output : String)

/-- The surroundings of a run. -/
structure Host (m : Type → Type) where
  /-- What stands at a path; the texts of the files in it may be left out. -/
  find : String → m (Option FileTree)
  /-- The text of the file at a path, if there is one. -/
  read : String → m (Option String)
  /-- Writes a text to the file at a path and tells whether that was possible. -/
  write : (path text : String) → m Bool
  /-- Makes the directory at a path and tells whether that was possible. -/
  makeDirectories : String → m Bool
  /-- Starts the program that draws images with arguments and an input. -/
  render : (args : List String) → (input : String) → m Rendering

namespace FileTree

/-- Replaces the tree by a new one, if there is one. -/
def step (f : FileTree → Option FileTree) : StateM FileTree Bool := fun t =>
  match f t with
  | none => (false, t)
  | some t => (true, t)

/-- A directory tree as a host, with a working directory and a program that draws images. -/
def host (cwd : List String) (render : List String → String → StateM FileTree Rendering) :
    Host (StateM FileTree) where
  find path := fun t => (t.lookup? cwd path, t)
  read path := fun t => (t.read? cwd path, t)
  write path text := step fun t => t.write? cwd path text
  makeDirectories path := step fun t => t.makeDirectories? cwd path
  render := render

end FileTree

end CallAtlas
