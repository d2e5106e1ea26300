import FunLang.FileSystem
import FunLang.Parser.Programs

set_option autoImplicit false

/-!
# Discovery of imported files

A program is a file and all the files that it imports, directly or through others. Discovery reads
them breadth first, each one once, and looks only at the imports at their start: the rest of a file
can be read only when the constructors of its imports are known.
-/

namespace FunLang.Import

/-- The ending that an imported file must have. -/
def extension : String := ".fun"

/-- A file that has been read, with the files that it imports, in the order of its text. -/
structure SourceFile where
  path : Path
  source : List UInt8
  imports : List Path
deriving Inhabited

/-- What has been read so far. A file that cannot be read ends the search. -/
structure Discovery where
  files : List SourceFile
  diags : List Diagnostic
  unreadable : Option (Path × FileError)
deriving Inhabited

namespace Discovery

def empty : Discovery := ⟨[], [], none⟩

/-- Whether a file has been read. -/
def contains (d : Discovery) (p : Path) : Bool := d.files.any (·.path == p)

/-- The text about the file that ended the search. -/
def failure? (d : Discovery) : Option String :=
  d.unreadable.map fun (p, e) =>
    let verb := if e = .isDirectory then "read" else "open"
    s!"cannot read {p.render}: {verb} {p.render}: {e.message}"

end Discovery

/-- Where an import of a file leads, or the message that it leads nowhere. -/
def target (fs : FileSystem) (file : Path) (i : Import) : Except Diagnostic Path :=
  let p := file.parent.resolve i.path
  if !(Text.encode extension).isSuffixOf p.name then
    .error ((Diagnostic.error i.pos
      s!"import path must have {extension} extension: {Text.decode i.path}").inFile file.render)
  else if !fs.contains p then
    .error (((Diagnostic.error i.pos s!"imported file not found: {Text.decode i.path}").inFile
      file.render).withHint "import paths are relative to the importing file")
  else .ok p

/-- Where the imports of a file lead, and the messages about those that lead nowhere. -/
def targets (fs : FileSystem) (file : Path) : List Import → List Path × List Diagnostic
  | [] => ([], [])
  | i :: is =>
    let (ps, ds) := targets fs file is
    match target fs file i with
    | .ok p => (p :: ps, ds)
    | .error d => (ps, d :: ds)

/-- A file with its imports, and the messages about them. -/
def header (fs : FileSystem) (file : Path) (source : List UInt8) : SourceFile × List Diagnostic :=
  let (imports, s) := Parser.parseImports source
  let (ps, ds) := targets fs file imports
  (⟨file, source, ps⟩, s.diags.map (Diagnostic.stamp file.render) ++ ds)

/-- Reads the files of a queue and what they import. Each round reads one more file, so that as many
rounds as there are files, and one for a file that cannot be read, are enough. -/
def discoverFrom (fs : FileSystem) : (rounds : Nat) → List Path → Discovery → Discovery
  | 0, _, d => d
  | rounds + 1, queue, d =>
    match queue.dropWhile d.contains with
    | [] => d
    | p :: rest =>
      match fs.read p with
      | .error e => { d with unreadable := some (p, e) }
      | .ok source =>
        let (file, ds) := header fs p source
        discoverFrom fs rounds (rest ++ file.imports)
          { d with files := d.files ++ [file], diags := d.diags ++ ds }

/-- Reads a file and everything that it imports. -/
def discover (fs : FileSystem) (entry : Path) : Discovery :=
  discoverFrom fs (fs.files.length + 1) [entry] .empty

end FunLang.Import
