import FunLang.Import.Order

set_option autoImplicit false

/-!
# Loading

The files of a program are read in their order, each one with the constructors that it sees through
its imports. One declaration may be seen along several ways, but two declarations of one name
must not be seen by the same file.
-/

namespace FunLang.Import

/-- A declared constructor, told apart from others by its file and its number there. -/
structure Declared where
  ctor : Constructor
  file : Path
  number : Nat
deriving DecidableEq, Repr, Inhabited

/-- A loaded file, with the constructors that it sees and its own. -/
structure Module where
  path : Path
  program : Program
  visible : List Declared
deriving Inhabited

/-- The constructors that a file sees through its imports, in order, and the names for which it sees
a second declaration. -/
structure Inherited where
  ctors : List Declared
  conflicts : List String

/-- Takes in one more constructor. -/
def Inherited.add (i : Inherited) (c : Declared) : Inherited :=
  match i.ctors.find? (·.ctor.name == c.ctor.name) with
  | none => { i with ctors := i.ctors ++ [c] }
  | some first =>
    if first = c then i else { i with conflicts := i.conflicts ++ [c.ctor.name] }

/-- The constructors that modules see, taken together. -/
def inherited (imports : List Module) : Inherited :=
  (imports.flatMap (·.visible)).foldl Inherited.add ⟨[], []⟩

/-- The constructors that a program declares, as those of a file. -/
def declaredBy (file : Path) (p : Program) : List Declared :=
  p.ctors.zipIdx.map fun (c, n) => ⟨c, file, n⟩

/-- The modules of the given files. A file that is not loaded has none. -/
def modulesAt (modules : List Module) (ps : List Path) : List Module :=
  ps.filterMap fun p => modules.find? (·.path == p)

/-- The messages about constructors that a file sees twice. -/
def conflictDiags (file : Path) (names : List String) : List Diagnostic :=
  names.map fun name =>
    (Diagnostic.error .start
      s!"constructor '{name}' is declared by more than one imported file").inFile file.render

/-- The message about an expression in a file that is only imported. -/
def ignoredBody (file : Path) (p : Program) : Diagnostic :=
  ((Diagnostic.warning p.body.pos "expression in imported file is ignored").inFile
    file.render).withHint "imported files contribute only their data declarations"

/-- Loads a file after the given modules. -/
def loadFile (entry : Path) (modules : List Module) (f : SourceFile) : Module × List Diagnostic :=
  let seen := inherited (modulesAt modules f.imports)
  let (p, s) := Parser.parseProgram f.source (.ofList (seen.ctors.map (·.ctor)))
  (⟨f.path, p, seen.ctors ++ declaredBy f.path p⟩,
    conflictDiags f.path seen.conflicts ++ s.diags.map (Diagnostic.stamp f.path.render)
      ++ if f.path = entry ∨ p.body.isMissing then [] else [ignoredBody f.path p])

/-- Loads files one after the other. -/
def load (entry : Path) (files : List SourceFile) : List Module × List Diagnostic :=
  files.foldl (fun (ms, ds) f =>
    let (m, new) := loadFile entry ms f
    (ms ++ [m], ds ++ new)) ([], [])

/-- The files that have been read, in the given order. -/
def Discovery.inOrder (d : Discovery) (order : List Path) : List SourceFile :=
  order.filterMap fun p => d.files.find? (·.path == p)

end FunLang.Import
