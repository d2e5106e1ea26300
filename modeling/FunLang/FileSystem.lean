import FunLang.Path

set_option autoImplicit false

/-!
# File systems

The files that a command may see: a finite list of them with their bytes, some directories, and the
working directory. Whatever a listed path lies in is a directory too.
-/

namespace FunLang

structure FileSystem where
  /-- The working directory. -/
  workDir : Path
  files : List (Path × List UInt8)
  directories : List Path
deriving Inhabited

/-- Why a path leads to no file. -/
inductive FileError where
  | notFound
  | isDirectory
  | notDirectory
  | badName
  | longName
deriving DecidableEq, Repr, Inhabited

def FileError.message : FileError → String
  | .notFound => "no such file or directory"
  | .isDirectory => "is a directory"
  | .notDirectory => "not a directory"
  | .badName => "invalid argument"
  | .longName => "file name too long"

/-- What is found at a path. -/
inductive Node where
  | file (bytes : List UInt8)
  | directory
deriving Inhabited

namespace FileSystem

/-- The path that a text stands for in the working directory. -/
def absolute (fs : FileSystem) (s : String) : Path := fs.workDir.resolve (Text.encode s)

/-- Whether a path leads to a directory. -/
def isDirectory (fs : FileSystem) (p : Path) : Bool :=
  p.segments.isPrefixOf fs.workDir.segments
    || fs.directories.any (fun d => p.segments.isPrefixOf d.segments)
    || fs.files.any (fun f => p.segments.isPrefixOf f.1.segments.dropLast)

/-- What is found at a path. -/
def node? (fs : FileSystem) (p : Path) : Option Node :=
  match fs.files.lookup p with
  | some bytes => some (.file bytes)
  | none => if fs.isDirectory p then some .directory else none

/-- Whether a path leads to a file or a directory. -/
def contains (fs : FileSystem) (p : Path) : Bool := (fs.node? p).isSome

/-- How many bytes a name may have. -/
def nameLimit : Nat := 255

/-- How many bytes a path may have. -/
def pathLimit : Nat := 4095

/-- The first name on the way from a path that leads to nothing. -/
def firstMissing? (fs : FileSystem) (p : Path) : List (List UInt8) → Option (List UInt8)
  | [] => none
  | name :: names =>
    if fs.contains (p.push name) then fs.firstMissing? (p.push name) names else some name

/-- Why a path at which nothing is found leads nowhere: a name on the way can be no name, or is that
of a file, or is too long. -/
def missing (fs : FileSystem) (p : Path) : FileError :=
  if p.segments.any (·.contains 0) then .badName
  else if pathLimit < p.name.length then .longName
  else if fs.files.any (fun f => f.1.segments.isPrefixOf p.segments) then .notDirectory
  else if (fs.firstMissing? ⟨p.rooted, []⟩ p.segments).any (nameLimit < ·.length) then .longName
  else .notFound

/-- The bytes of a file. -/
def read (fs : FileSystem) (p : Path) : Except FileError (List UInt8) :=
  match fs.node? p with
  | some (.file bytes) => .ok bytes
  | some .directory => .error .isDirectory
  | none => .error (fs.missing p)

/-- Follows pieces of a name from a path. Only a directory can be followed further. -/
def walk (fs : FileSystem) (p : Path) : List (List UInt8) → Except FileError Node
  | [] =>
    match fs.node? p with
    | some n => .ok n
    | none => .error (fs.missing p)
  | piece :: rest =>
    match fs.node? p with
    | some .directory => walk fs (p.push piece) rest
    | some (.file _) => .error .notDirectory
    | none => .error (fs.missing p)

/-- What a text leads to when its pieces are followed one by one. Unlike the path that the text
stands for, this depends on every directory on the way. -/
def find (fs : FileSystem) (s : String) : Except FileError Node :=
  if s.isEmpty then .error .notFound
  else
    let name := Text.encode s
    fs.walk (if Path.isRooted name then ⟨true, []⟩ else fs.workDir) (Path.pieces name)

end FileSystem

end FunLang
