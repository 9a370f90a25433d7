/-!
# Layout programs

## Main definitions

* `layoutPrograms`: the layout algorithms that Graphviz comes with.
-/

namespace CallAtlas

/-- The layout algorithms that Graphviz comes with. -/
def layoutPrograms : List String :=
  ["dot", "neato", "fdp", "sfdp", "twopi", "circo", "osage", "patchwork"]

end CallAtlas
