import FunLang.Position
import FunLang.Text.Quoted
import FunLang.Text.Utf8

set_option autoImplicit false

/-!
# Tokens

The kinds of token that a source text is made of, and tokens: a kind, the bytes it was read from
and where it starts.
-/

namespace FunLang

inductive TokenKind where
  | illegal
  | eof
  | ident
  | intLit
  | stringLit
  | kwLet
  | kwIn
  | kwFun
  | kwIf
  | kwThen
  | kwElse
  | kwCase
  | kwOf
  | kwData
  | kwImport
  | kwTrue
  | kwFalse
  | intType
  | boolType
  | plus
  | minus
  | star
  | lt
  | gt
  | leq
  | geq
  | assign
  | arrow
  | lambda
  | lparen
  | rparen
  | bar
  | colon
  | semicolon
deriving DecidableEq, Repr, Inhabited

namespace TokenKind

/-- The name of a kind in messages and listings. -/
def name : TokenKind → String
  | illegal => "ILLEGAL"
  | eof => "EOF"
  | ident => "IDENT"
  | intLit => "INT_LIT"
  | stringLit => "STRING_LIT"
  | kwLet => "LET"
  | kwIn => "IN"
  | kwFun => "FUN"
  | kwIf => "IF"
  | kwThen => "THEN"
  | kwElse => "ELSE"
  | kwCase => "CASE"
  | kwOf => "OF"
  | kwData => "DATA"
  | kwImport => "IMPORT"
  | kwTrue => "TRUE"
  | kwFalse => "FALSE"
  | intType => "INT_TYPE"
  | boolType => "BOOL_TYPE"
  | plus => "PLUS"
  | minus => "MINUS"
  | star => "STAR"
  | lt => "LT"
  | gt => "GT"
  | leq => "LEQ"
  | geq => "GEQ"
  | assign => "ASSIGN"
  | arrow => "ARROW"
  | lambda => "LAMBDA"
  | lparen => "LPAREN"
  | rparen => "RPAREN"
  | bar => "BAR"
  | colon => "COLON"
  | semicolon => "SEMICOLON"

/-- All kinds, in the order of their numbers. -/
def all : List TokenKind :=
  [illegal, eof, ident, intLit, stringLit, kwLet, kwIn, kwFun, kwIf, kwThen, kwElse, kwCase, kwOf,
    kwData, kwImport, kwTrue, kwFalse, intType, boolType, plus, minus, star, lt, gt, leq, geq,
    assign, arrow, lambda, lparen, rparen, bar, colon, semicolon]

/-- The kind with the given number. -/
def ofNumber? (n : Int) : Option TokenKind :=
  if n < 0 then none else all[n.toNat]?

/-- The kind with the given name. -/
def ofName? (s : String) : Option TokenKind := all.find? (·.name == s)

/-- The name of the kind with the given number, also for a number that has no kind. -/
def nameOfNumber (n : Int) : String :=
  match ofNumber? n with
  | some k => k.name
  | none => s!"TokenType({n})"

/-- The reserved words and their kinds. -/
def keywords : List (String × TokenKind) :=
  [("let", kwLet), ("in", kwIn), ("fun", kwFun), ("if", kwIf), ("then", kwThen), ("else", kwElse),
    ("case", kwCase), ("of", kwOf), ("data", kwData), ("import", kwImport), ("true", kwTrue),
    ("false", kwFalse), ("Int", intType), ("Bool", boolType)]

/-- Whether a word is reserved and cannot name a variable. -/
def isKeyword (word : String) : Bool := (keywords.lookup word).isSome

/-- The kind of a word: its own if it is reserved, an identifier otherwise. -/
def ofWord (word : String) : TokenKind := (keywords.lookup word).getD ident

end TokenKind

structure Token where
  kind : TokenKind
  literal : List UInt8
  pos : Pos
deriving DecidableEq, Repr, Inhabited

namespace Token

/-- The text that the token was read from; for an illegal token, what is wrong with it. -/
def text (t : Token) : String := Text.decode t.literal

/-- The end of the input at `p`. -/
def endAt (p : Pos) : Token := ⟨.eof, [], p⟩

/-- A token with its kind, its quoted text and its place. -/
def render (t : Token) : String :=
  s!"{t.kind.name}({Text.quoteBytes Text.isPrintable t.literal}) at {t.pos.line}:{t.pos.column}"

/-- A token as messages name it. -/
def describe (t : Token) : String :=
  match t.kind with
  | .eof => "end of input"
  | .illegal => "illegal input: " ++ t.text
  | .ident | .intLit | .stringLit => t.kind.name ++ " " ++ t.text
  | _ => "'" ++ t.text ++ "'"

end Token

end FunLang
