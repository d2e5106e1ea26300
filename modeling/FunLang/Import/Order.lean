import FunLang.Import.Discovery

set_option autoImplicit false

/-!
# The order of imported files

Files are loaded after the files that they import. The order is found by visiting a file's imports
before the file itself; a file that is met while it is being visited lies on a cycle, and then there
is no order.
-/

namespace FunLang.Import

/-- Which file imports which others. A file that is not listed imports nothing. -/
abbrev Graph := List (Path × List Path)

namespace Graph

/-- The files that a file imports. -/
def importsOf (g : Graph) (p : Path) : List Path := (List.lookup p g).getD []

/-- Visits a file below the files of `trail`, which are being visited. The files of `done` have been
visited. The answer is `done` with the file and all that it needs after it, or else a cycle, whose
first and last file are the same. No trail is longer than the graph, so that one level more than
that is deep enough. -/
def visit (g : Graph) : (levels : Nat) → (trail done : List Path) → Path → Except (List Path) (List Path)
  | 0, _, done, _ => .ok done
  | levels + 1, trail, done, p =>
    if p ∈ trail then .error (trail.dropWhile (· ≠ p) ++ [p])
    else if p ∈ done then .ok done
    else do
      let done ← (g.importsOf p).foldlM (visit g levels (trail ++ [p])) done
      return done ++ [p]

/-- The files that a file needs, each after the files that it imports, or a cycle among them. -/
def order (g : Graph) (entry : Path) : Except (List Path) (List Path) :=
  g.visit (g.length + 2) [] [] entry

end Graph

/-- The graph of the files that have been read. -/
def Discovery.graph (d : Discovery) : Graph := d.files.map fun f => (f.path, f.imports)

/-- The text about a cycle. -/
def cycleMessage (cycle : List Path) : String :=
  "import cycle detected: " ++ " -> ".intercalate (cycle.map Path.baseName)

end FunLang.Import
