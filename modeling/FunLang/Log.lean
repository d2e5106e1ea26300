import FunLang.Text.Quoted

set_option autoImplicit false

/-!
# Log lines

A log record is a level, a message and some named texts. It is written on one line of `name=text`
pairs; a text that would not be read back as it stands is quoted.
-/

namespace FunLang.Log

/-- A level is a number; four of them have names. -/
abbrev Level := Int64

def debug : Level := -4

def info : Level := 0

def warn : Level := 4

def error : Level := 8

/-- A name, and a distance from it if there is one. -/
def offsetName (name : String) (n : Level) : String :=
  if n = 0 then name
  else if n < 0 then name ++ toString n.toInt
  else name ++ "+" ++ toString n.toInt

/-- A level as the nearest name that is not above it and the distance from it. -/
def Level.render (l : Level) : String :=
  if l < info then offsetName "DEBUG" (l - debug)
  else if l < warn then offsetName "INFO" (l - info)
  else if l < error then offsetName "WARN" (l - warn)
  else offsetName "ERROR" (l - error)

structure Record where
  level : Level
  message : String
  fields : List (String × String)
deriving DecidableEq, Repr, Inhabited

/-- Whether a character can stand in a text without quotes. -/
def isPlain (c : Char) : Bool :=
  if c.toNat < 0x80 then 0x20 < c.toNat && c != '=' && c != '"'
  else c != '�' && Text.isPrintable c

/-- A text as a record shows it. -/
def renderText (s : String) : String :=
  if s.isEmpty || !s.toList.all isPlain then Text.quote s else s

def renderField (f : String × String) : String := f.1 ++ "=" ++ renderText f.2

/-- A record as a line. -/
def Record.render (r : Record) : String :=
  " ".intercalate ((("level", Level.render r.level) :: ("msg", r.message) :: r.fields).map renderField)
    ++ "\n"

/-- The lines of the records at or above a level. -/
def lines (level : Level) (rs : List Record) : String :=
  String.join ((rs.filter fun r => level ≤ r.level).map Record.render)

end FunLang.Log
