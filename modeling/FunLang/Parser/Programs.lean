import FunLang.Parser.Exprs
import FunLang.Token.Lexer

set_option autoImplicit false

/-!
# Reading programs and interactive lines

    program ::= { import STRING ; } { data } [ expr [ ; ] ]
    data    ::= data NAME = ctor { | ctor } ;
    ctor    ::= NAME { atype }
    line    ::= { data } [ let NAME = expr [ ; ] | expr [ ; ] ]

A declaration that has no name where one is expected is left out, and reading goes on behind the
next semicolon or at the next declaration. Constructors that it had declared by then stay known.
-/

namespace FunLang.Parser

/-- A text between quotes without them; any other text as it is. -/
def stripQuotes (literal : List UInt8) : List UInt8 :=
  if 2 ≤ literal.length ∧ literal.head? = some 0x22 ∧ literal.getLast? = some 0x22 then
    literal.tail.dropLast
  else literal

/-- Reads one import. -/
def importDecl : Parser Import := do
  let t ← expect .kwImport
  let path ← expect .stringLit
  let _ ← expect .semicolon
  return ⟨stripQuotes path.literal, t.pos⟩

/-- Reads imports as long as there are some. -/
def importDecls : (n : Nat) → Parser (List Import)
  | 0 => return []
  | n + 1 => do
    if ← check .kwImport then
      let i ← importDecl
      let is ← importDecls n
      return i :: is
    else return []

/-- Passes over tokens up to the end of a declaration: behind the next semicolon, or before the next
declaration or the end of the input. -/
def synchronize : (n : Nat) → Parser Unit
  | 0 => return ()
  | n + 1 => do
    match (← current).kind with
    | .eof | .kwData | .kwImport => return ()
    | .semicolon =>
      let _ ← advance
    | _ =>
      let _ ← advance
      synchronize n

/-- Makes a constructor known. A name that is known already is an error, and the new one counts. -/
def declare (c : Constructor) : Parser Unit := do
  if (← ctor? c.name).isSome then
    report ((Diagnostic.error c.pos s!"constructor '{c.name}' is already declared").withHint
      "constructor names must be unique across all data declarations")
  modify fun s => { s with ctors := s.ctors.insert c }

/-- Reads the constructors of a type; none if a name is not where it is expected. -/
def constructors : (n : Nat) → (type : String) → Parser (Option (List Constructor))
  | 0, _ => return none
  | n + 1, type => do
    let t ← expect .ident
    if t.kind ≠ .ident then return none
    else
      let fields ← atomicTypes n
      let c : Constructor := ⟨t.text, fields, type, t.pos⟩
      declare c
      if ← accept .bar then
        let cs ← constructors n type
        return cs.map (c :: ·)
      else return some [c]

/-- Reads one data declaration. -/
def dataDecl (n : Nat) : Parser (Option DataDecl) := do
  let t ← expect .kwData
  let name ← expect .ident
  if name.kind ≠ .ident then
    synchronize n
    return none
  else
    let _ ← expect .assign
    match ← constructors n name.text with
    | some cs =>
      let _ ← expect .semicolon
      return some ⟨name.text, cs, t.pos⟩
    | none =>
      synchronize n
      return none

/-- Reads data declarations as long as there are some. -/
def dataDecls : (n : Nat) → Parser (List DataDecl)
  | 0 => return []
  | n + 1 => do
    if ← check .kwData then
      let d ← dataDecl n
      let ds ← dataDecls n
      return d.toList ++ ds
    else return []

/-- Expects the end of the input, after an optional semicolon. -/
def finish : Parser Unit := do
  let _ ← accept .semicolon
  let t ← current
  if t.kind ≠ .eof then
    complain t s!"unexpected {t.describe} after expression"

/-- Reads a whole program. -/
def program (n : Nat) : Parser Program := do
  let imports ← importDecls n
  let data ← dataDecls n
  let t ← current
  if t.kind = .kwImport then
    complain t "imports must come before data declarations"
    return ⟨imports, data, .missing⟩
  else if t.kind = .eof then return ⟨imports, data, .missing⟩
  else
    let body ← expr n
    finish
    return ⟨imports, data, body⟩

/-- Reads a single expression. -/
def soleExpr (n : Nat) : Parser Expr := do
  let e ← expr n
  finish
  return e

/-- What an interactive line holds: data declarations, and a definition (with a name) or an
expression (without one) or nothing more (a `missing` expression). -/
structure Line where
  data : List DataDecl
  name : Option String
  expr : Expr
deriving Inhabited

/-- Reads a `let` that may stop before its `in`; it is then a definition of the name. -/
def definition (n : Nat) : Parser (Option String × Expr) := do
  let t ← expect .kwLet
  let name ← binderName
  let _ ← expect .assign
  let bound ← expr n
  let k := (← current).kind
  if k = .eof ∨ k = .semicolon then return (some name, bound)
  else
    let _ ← expect .kwIn
    let body ← expr n
    return (none, .letIn t.pos name bound body)

/-- Reads an interactive line. -/
def line (n : Nat) : Parser Line := do
  let data ← dataDecls n
  match (← current).kind with
  | .eof => return ⟨data, none, .missing⟩
  | .kwLet =>
    let (name, e) ← definition n
    finish
    return ⟨data, name, e⟩
  | _ =>
    let e ← expr n
    finish
    return ⟨data, none, e⟩

/-- The state at the start of a source text. -/
def State.start (source : List UInt8) (ctors : CtorTable) : State :=
  ⟨Lexer.tokenize source, false, [], ctors⟩

/-- Reads a source text with a parser that bounds its depth. -/
def parseWith {α : Type} (p : Nat → Parser α) (source : List UInt8) (ctors : CtorTable) : α × State :=
  let s := State.start source ctors
  (p (depthFor s.rest.length)).run s

/-- Reads a source text as a program. The state afterwards holds the messages and the constructors. -/
def parseProgram (source : List UInt8) (ctors : CtorTable) : Program × State :=
  parseWith program source ctors

/-- Reads a source text as an expression. -/
def parseExpr (source : List UInt8) (ctors : CtorTable) : Expr × State :=
  parseWith soleExpr source ctors

/-- Reads a source text as an interactive line. -/
def parseLine (source : List UInt8) (ctors : CtorTable) : Line × State :=
  parseWith line source ctors

/-- Reads only the imports at the start of a source text. -/
def parseImports (source : List UInt8) : List Import × State :=
  parseWith importDecls source []

end FunLang.Parser
