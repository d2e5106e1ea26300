import FunLang.Diagnostic
import FunLang.Syntax

set_option autoImplicit false

/-!
# The state of a parser

A parser reads tokens from left to right. Its state holds the tokens that are left, the messages so
far and the constructors it knows: a name in the source text is a constructor if it is in that table
and a variable otherwise.

A parser never gives up. It reports what is wrong and goes on with a stand-in, and of several
messages about one token only the first is kept, since the others mostly follow from it.
-/

namespace FunLang

/-- The constructors with known names, the latest first. -/
abbrev CtorTable := List Constructor

namespace CtorTable

/-- The constructor of that name. -/
def find? (table : CtorTable) (name : String) : Option Constructor :=
  List.find? (fun c => c.name == name) table

/-- Whether a constructor of that name is known. -/
def contains (table : CtorTable) (name : String) : Bool := (table.find? name).isSome

/-- Adds a constructor; an earlier one of its name is hidden. -/
def insert (table : CtorTable) (c : Constructor) : CtorTable := c :: table

/-- The table of the given constructors; of two with one name the later counts. -/
def ofList (cs : List Constructor) : CtorTable := cs.foldl insert []

end CtorTable

namespace Parser

structure State where
  rest : List Token
  /-- Whether the first token of `rest` has been reported already. -/
  reported : Bool
  diags : List Diagnostic
  ctors : CtorTable
deriving Inhabited

end Parser

abbrev Parser := StateM Parser.State

namespace Parser

/-- The name of something that could not be read. -/
def errorName : String := "<error>"

/-- The current token; behind the last one stands the end of the input, at no known place. -/
def State.current (s : State) : Token := s.rest.headD (.endAt .unknown)

/-- The token after the current one. -/
def State.peek (s : State) : Token := s.rest.tail.headD (.endAt .unknown)

/-- The state behind the current token. -/
def State.advance (s : State) : State :=
  match s.rest with
  | [] => s
  | _ :: rest => { s with rest, reported := false }

/-- Adds a message, whether or not the current token has one. -/
def State.report (s : State) (d : Diagnostic) : State := { s with diags := s.diags ++ [d] }

/-- Adds an error about a token unless the current one has been reported already. -/
def State.complain (s : State) (t : Token) (message : String) : State :=
  if s.reported then s else { s.report (.error t.pos message) with reported := true }

def current : Parser Token := return (← get).current

def peek : Parser Token := return (← get).peek

/-- Whether the current token is of the given kind. -/
def check (k : TokenKind) : Parser Bool := return (← current).kind == k

/-- Passes over the current token and returns it. -/
def advance : Parser Token := do
  let t ← current
  modify (·.advance)
  return t

def report (d : Diagnostic) : Parser Unit := modify (·.report d)

def complain (t : Token) (message : String) : Parser Unit := modify (·.complain t message)

/-- Passes over the current token if it is of the given kind, and tells whether it did. -/
def accept (k : TokenKind) : Parser Bool := do
  if ← check k then
    let _ ← advance
    return true
  else return false

/-- How messages name a kind of token that was expected. -/
def spelling : TokenKind → String
  | .ident => "identifier"
  | .stringLit => "string"
  | .kwLet => "'let'"
  | .kwIn => "'in'"
  | .kwIf => "'if'"
  | .kwThen => "'then'"
  | .kwElse => "'else'"
  | .kwCase => "'case'"
  | .kwOf => "'of'"
  | .kwData => "'data'"
  | .kwImport => "'import'"
  | .assign => "'='"
  | .arrow => "'->'"
  | .rparen => "')'"
  | .semicolon => "';'"
  | k => k.name

/-- Passes over a token of the given kind; any other token stays and is an error. Returns the current
token in both cases. -/
def expect (k : TokenKind) : Parser Token := do
  let t ← current
  if t.kind = k then advance
  else
    complain t s!"expected {spelling k}, got {t.describe}"
    return t

/-- The constructor of that name, if it is known. -/
def ctor? (name : String) : Parser (Option Constructor) := return (← get).ctors.find? name

/-- A bound on the depth of the calls for a number of tokens: every token is read within a few calls
of the one before it. -/
def depthFor (tokens : Nat) : Nat := 8 * (tokens + 1)

end Parser

end FunLang
