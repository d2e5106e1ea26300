import FunLang.Text.Utf8

set_option autoImplicit false

/-!
# Paths

A path is a list of segments, from the root of the file system or from a working directory. The names
of files are bytes, and so are segments: slashes and dots have a meaning, and all other bytes stand for
themselves. Bytes are read as a path without looking at any file: `.` and empty segments say nothing, and
`..` takes back the segment before it. So each place has one path as far as its name can tell.
-/

namespace FunLang

structure Path where
  /-- Whether the path begins at the root. -/
  rooted : Bool
  segments : List (List UInt8)
deriving DecidableEq, Repr, Inhabited

namespace Path

/-- The byte between segments. -/
def slash : UInt8 := 0x2F

/-- The segment for the directory itself. -/
def here : List UInt8 := [0x2E]

/-- The segment for the directory above. -/
def above : List UInt8 := [0x2E, 0x2E]

/-- The pieces of a name between slashes. -/
def pieces : List UInt8 → List (List UInt8)
  | [] => [[]]
  | b :: bs =>
    if b = slash then [] :: pieces bs
    else
      match pieces bs with
      | [] => [[b]]
      | piece :: rest => (b :: piece) :: rest

/-- Whether a name stands for a path from the root. -/
def isRooted (name : List UInt8) : Bool := name.head? == some slash

/-- One piece further. Above the root is the root; above a relative path is its `..`. -/
def push (p : Path) (piece : List UInt8) : Path :=
  if piece = [] ∨ piece = here then p
  else if piece = above then
    match p.segments.getLast? with
    | none => if p.rooted then p else { p with segments := [above] }
    | some last =>
      if last = above then { p with segments := p.segments ++ [above] }
      else { p with segments := p.segments.dropLast }
  else { p with segments := p.segments ++ [piece] }

/-- The path that a name stands for. -/
def ofName (name : List UInt8) : Path := (pieces name).foldl push ⟨isRooted name, []⟩

/-- The path that a text stands for. -/
def ofString (s : String) : Path := ofName (Text.encode s)

/-- The path that a name stands for when it is read in a directory. -/
def resolve (dir : Path) (name : List UInt8) : Path :=
  if isRooted name then ofName name else (pieces name).foldl push dir

/-- The shortest name of a path. -/
def name (p : Path) : List UInt8 :=
  if p.rooted then slash :: [slash].intercalate p.segments
  else if p.segments.isEmpty then here
  else [slash].intercalate p.segments

/-- A path as messages show it. -/
def render (p : Path) : String := Text.decode p.name

/-- The directory that a path lies in. -/
def parent (p : Path) : Path := { p with segments := p.segments.dropLast }

/-- The last segment of a path. -/
def baseName (p : Path) : String :=
  Text.decode (p.segments.getLast?.getD (if p.rooted then [slash] else here))

/-- The directory part of a text: what stands before its last slash. -/
def directoryOf (s : String) : Path :=
  ofString (String.ofList (s.toList.reverse.dropWhile (· != '/')).reverse)

/-- A text as messages show it: relative paths in their shortest form. -/
def display (s : String) : String := if isRooted (Text.encode s) then s else (ofString s).render

end Path

end FunLang
