import CallAtlas.Text.Blank
import CallAtlas.Text.Split

/-!
# Keys of graph parameters

A key is a list of parts such as `node`, `solve`, `fontsize`. In a configuration file it may be
written as a tuple: parts between commas, with parentheses and quotes anywhere and blanks around
the parts.

## Main definitions

* `Parameter.Key`: the parts.
* `Parameter.parseKey`: the key that a text denotes.
-/

namespace CallAtlas.Parameter

/-- The parts of a key; the first one is its scope. -/
abbrev Key := List String

/-- The characters that only decorate a key. -/
def isDecoration (c : Char) : Bool :=
  c = '(' || c = ')' || c = '\'' || c = '"'

/-- The parts of a key as characters. -/
def keyParts (cs : List Char) : List (List Char) :=
  (((cs.filter fun c => !isDecoration c).splitOn ',').map Text.trimChars).filter
    fun part => !part.isEmpty

/-- The key that a text denotes. -/
def parseKey (s : String) : Key :=
  (keyParts s.toList).map String.ofList

end CallAtlas.Parameter
