import FunLang.Log
import FunLang.Number.Reading

set_option autoImplicit false

/-!
# Written log levels

A level is written as one of four names, in either case, with an optional distance from it:
`debug`, `WARN`, `info+2`.
-/

namespace FunLang.Log

/-- The capital of a letter, as far as names of levels may need it. -/
def capital (c : Char) : Char := if c = 'ı' then 'I' else if c = 'ſ' then 'S' else c.toUpper

/-- The level of a name. -/
def named? (name : List Char) : Option Level :=
  match String.ofList (name.map capital) with
  | "DEBUG" => some debug
  | "INFO" => some info
  | "WARN" => some warn
  | "ERROR" => some error
  | _ => none

/-- What can be wrong with a written level. -/
inductive Level.ReadError where
  | badDistance (distance : String) (e : Number.NumberError)
  | unknownName
deriving DecidableEq, Repr, Inhabited

/-- The text about a level that cannot be read. -/
def Level.ReadError.message (s : String) (e : Level.ReadError) : String :=
  s!"slog: level string {Text.quote s}: " ++
    match e with
    | badDistance distance e => s!"strconv.Atoi: parsing {Text.quote distance}: {e.message}"
    | unknownName => "unknown name"

/-- The distance from a name; nothing is no distance. -/
def readDistance (cs : List Char) : Except Level.ReadError Level :=
  if cs.isEmpty then .ok 0
  else
    match Number.readSigned Number.readDecimal cs with
    | .ok n => .ok n
    | .error e => .error (.badDistance (String.ofList cs) e)

/-- Reads a level. A distance that is too large wraps around. -/
def Level.read (s : String) : Except Level.ReadError Level := do
  let isName (c : Char) : Bool := c != '+' && c != '-'
  let distance ← readDistance (s.toList.dropWhile isName)
  match named? (s.toList.takeWhile isName) with
  | some l => return l + distance
  | none => throw .unknownName

end FunLang.Log
