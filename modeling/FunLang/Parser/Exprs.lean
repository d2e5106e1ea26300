import FunLang.Parser.Patterns
import FunLang.Parser.Types

set_option autoImplicit false

/-!
# Reading expressions

    expr  ::= let NAME = expr in expr | fun NAME -> expr | \NAME -> expr
            | if expr then expr else expr | case expr of [|] alt { | alt } | binary
    alt   ::= pattern -> expr
    binary ::= application { operator application }
    application ::= head { atom }
    head  ::= atom | - INT
    atom  ::= INT | true | false | NAME | CONSTRUCTOR | ( expr [ : type ] )

Comparisons bind weaker than sums, sums weaker than products, and all operators associate to the
left. An argument never starts with a minus sign: `f -1` is a difference. Each of the first four
forms extends as far to the right as it can.

The argument `n` of each function bounds the depth of its calls.
-/

namespace FunLang.Parser

/-- How tightly an operator binds: 1 for comparisons, 2 for sums, 3 for products, and 0 for a
token that is no operator. -/
def level : TokenKind → Nat
  | .lt | .gt | .leq | .geq => 1
  | .plus | .minus => 2
  | .star => 3
  | _ => 0

/-- Whether a token can start an argument. -/
def startsAtom : TokenKind → Bool
  | .intLit | .kwTrue | .kwFalse | .ident | .lparen => true
  | _ => false

/-- Reports a token that starts no expression and passes over it. -/
def badAtom (t : Token) : Parser Expr := do
  complain t s!"unexpected {t.describe} in expression"
  if !(← check .eof) then
    let _ ← advance
  return .var t.pos errorName

/-- Reads the name of a variable that is being bound. -/
def binderName : Parser String := do
  let t ← expect .ident
  if t.kind ≠ .ident then return errorName
  else
    if (← ctor? t.text).isSome then
      complain t s!"cannot bind constructor name '{t.text}'"
    return t.text

mutual

/-- Reads an expression. -/
def expr : (n : Nat) → Parser Expr
  | 0 => return .missing
  | n + 1 => do
    match (← current).kind with
    | .kwLet =>
      let t ← expect .kwLet
      let name ← binderName
      let _ ← expect .assign
      let bound ← expr n
      let _ ← expect .kwIn
      let body ← expr n
      return .letIn t.pos name bound body
    | .lambda | .kwFun =>
      let t ← advance
      let param ← binderName
      let _ ← expect .arrow
      let body ← expr n
      return .fn t.pos param body
    | .kwIf =>
      let t ← expect .kwIf
      let test ← expr n
      let _ ← expect .kwThen
      let yes ← expr n
      let _ ← expect .kwElse
      let no ← expr n
      return .cond t.pos test yes no
    | .kwCase =>
      let t ← expect .kwCase
      let scrutinee ← expr n
      let _ ← expect .kwOf
      let _ ← accept .bar
      let alts ← alternatives n
      return .cases t.pos scrutinee alts
    | _ => binary n 1

/-- Reads one alternative and those that follow it after a bar. -/
def alternatives : (n : Nat) → Parser (List Alt)
  | 0 => return []
  | n + 1 => do
    let t ← current
    let p ← pattern n
    let _ ← expect .arrow
    let body ← expr n
    if ← accept .bar then
      let alts ← alternatives n
      return .mk t.pos p body :: alts
    else return [.mk t.pos p body]

/-- Reads an application and the operators after it that bind at least as tightly as `min`. -/
def binary : (n : Nat) → (min : Nat) → Parser Expr
  | 0, _ => return .missing
  | n + 1, min => do
    let left ← application n
    operators n min left

/-- Reads the operators that bind at least as tightly as `min`, with their right operands, and
joins them to `left`. -/
def operators : (n : Nat) → (min : Nat) → (left : Expr) → Parser Expr
  | 0, _, left => return left
  | n + 1, min, left => do
    let l := level (← current).kind
    if l = 0 ∨ l < min then return left
    else
      let op ← advance
      let right ← binary n (l + 1)
      operators n min (.binary op.pos (.ofKind op.kind) left right)

/-- Reads an expression and the arguments it is applied to. -/
def application : (n : Nat) → Parser Expr
  | 0 => return .missing
  | n + 1 => do
    let func ← atom n
    if startsAtom (← current).kind then
      let args ← atoms n
      return .app func.pos func args
    else return func

/-- Reads atoms as long as there are some. -/
def atoms : (n : Nat) → Parser (List Expr)
  | 0 => return []
  | n + 1 => do
    if startsAtom (← current).kind then
      let a ← atom n
      let as ← atoms n
      return a :: as
    else return []

/-- Reads an atom, or a number with a minus sign. -/
def atom : (n : Nat) → Parser Expr
  | 0 => return .missing
  | n + 1 => do
    let t ← current
    match t.kind with
    | .intLit =>
      let _ ← advance
      return .int t.pos (← intLiteral t false)
    | .minus =>
      if (← peek).kind = .intLit then
        let _ ← advance
        let digits ← advance
        return .int t.pos (← intLiteral digits true)
      else badAtom t
    | .kwTrue =>
      let _ ← advance
      return .bool t.pos true
    | .kwFalse =>
      let _ ← advance
      return .bool t.pos false
    | .ident =>
      let _ ← advance
      match ← ctor? t.text with
      | some c => return .ctor t.pos c
      | none => return .var t.pos t.text
    | .lparen =>
      let _ ← advance
      let inner ← expr n
      if ← check .colon then
        let colon ← advance
        let ty ← type n
        let _ ← expect .rparen
        return .annot colon.pos inner ty
      else
        let _ ← expect .rparen
        return inner
    | _ => badAtom t

end

end FunLang.Parser
