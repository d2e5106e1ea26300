import FunLang.Position

set_option autoImplicit false

/-!
# Diagnostics

Messages about a source text, its imports or its evaluation: how bad it is, what it says, where,
and sometimes a hint. A report is a list of them in the order in which they came up.
-/

namespace FunLang

inductive Severity where
  | error
  | warning
  | unknown
deriving DecidableEq, Repr, Inhabited

namespace Severity

def name : Severity → String
  | error => "error"
  | warning => "warning"
  | unknown => "unknown"

end Severity

/-- A message. `file` is empty if the file is the one at hand, `hint` if there is none. -/
structure Diagnostic where
  severity : Severity
  message : String
  pos : Pos
  file : String := ""
  hint : String := ""
deriving DecidableEq, Repr, Inhabited

namespace Diagnostic

def error (pos : Pos) (message : String) : Diagnostic :=
  { severity := .error, message, pos }

def warning (pos : Pos) (message : String) : Diagnostic :=
  { severity := .warning, message, pos }

def withHint (d : Diagnostic) (hint : String) : Diagnostic := { d with hint }

def inFile (d : Diagnostic) (file : String) : Diagnostic := { d with file }

/-- Names the file of a message that has none. -/
def stamp (file : String) (d : Diagnostic) : Diagnostic :=
  if d.file.isEmpty then d.inFile file else d

/-- The order of messages by file, line and column. -/
def le (a b : Diagnostic) : Bool :=
  if a.file ≠ b.file then a.file < b.file
  else if a.pos.line ≠ b.pos.line then a.pos.line < b.pos.line
  else a.pos.column ≤ b.pos.column

/-- The messages by file, line and column; those at one place keep their order. -/
def sort (ds : List Diagnostic) : List Diagnostic := ds.mergeSort le

def errors (ds : List Diagnostic) : List Diagnostic := ds.filter (·.severity == .error)

def warnings (ds : List Diagnostic) : List Diagnostic := ds.filter (·.severity == .warning)

def hasErrors (ds : List Diagnostic) : Bool := ds.any (·.severity == .error)

/-- A message as it is shown; `file` names the file of a message that names none. -/
def render (file : String) (d : Diagnostic) : String :=
  let place := if d.file.isEmpty then file else d.file
  s!"{d.severity.name}[{place}:{d.pos.line}:{d.pos.column}]: {d.message}"
    ++ if d.hint.isEmpty then "" else "\n  hint: " ++ d.hint

/-- A report as it is shown, one message after the other. -/
def renderAll (file : String) (ds : List Diagnostic) : String :=
  "\n".intercalate (ds.map (render file))

/-- The errors of a report as one text, if there are any. -/
def errorText? (file : String) (ds : List Diagnostic) : Option String :=
  if hasErrors ds then some (renderAll file (errors ds)) else none

end Diagnostic

end FunLang
