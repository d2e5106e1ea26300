import FunLang.Parser.State

set_option autoImplicit false

/-!
# Reading literals and patterns

    pattern ::= CONSTRUCTOR { apattern } | apattern
    apattern ::= [-] INT | true | false | NAME | CONSTRUCTOR | ( pattern )

The argument `n` of each function bounds the depth of its calls.
-/

namespace FunLang.Parser

/-- The number that a row of decimal digits stands for. -/
def digitsValue (digits : List UInt8) : Nat :=
  digits.foldl (fun n b => 10 * n + (b.toNat - 48)) 0

/-- The smallest and the largest integer of the language. -/
def minInt : Int := -9223372036854775808

def maxInt : Int := 9223372036854775807

/-- The integer that the digits of `t` stand for, with a minus sign in front if `negative`. One that is
out of range is an error and read as zero. -/
def intLiteral (t : Token) (negative : Bool) : Parser Int64 := do
  let n : Int := if negative then - (digitsValue t.literal : Int) else digitsValue t.literal
  if minInt ≤ n ∧ n ≤ maxInt then return Int64.ofInt n
  else
    let sign := if negative then "-" else ""
    report (.error t.pos s!"integer literal {sign}{t.text} out of range")
    return 0

/-- Whether a token can start an atomic pattern. -/
def startsPattern : TokenKind → Bool
  | .intLit | .minus | .kwTrue | .kwFalse | .ident | .lparen => true
  | _ => false

/-- Reports a token that starts no pattern and passes over it. -/
def badPattern (t : Token) : Parser Pattern := do
  complain t s!"unexpected {t.describe} in pattern"
  if !(← check .eof) then
    let _ ← advance
  return .var t.pos errorName

mutual

/-- Reads a constructor with its arguments, or an atomic pattern. -/
def pattern : (n : Nat) → Parser Pattern
  | 0 => return .missing
  | n + 1 => do
    let t ← current
    if t.kind = .ident then
      match ← ctor? t.text with
      | some c =>
        let _ ← advance
        let args ← atomicPatterns n
        return .ctor t.pos c args
      | none => atomicPattern n
    else atomicPattern n

/-- Reads an atomic pattern. -/
def atomicPattern : (n : Nat) → Parser Pattern
  | 0 => return .missing
  | n + 1 => do
    let t ← current
    match t.kind with
    | .intLit =>
      let _ ← advance
      return .int t.pos (← intLiteral t false)
    | .minus =>
      if (← peek).kind = .intLit then
        let _ ← advance
        let digits ← advance
        return .int t.pos (← intLiteral digits true)
      else badPattern t
    | .kwTrue =>
      let _ ← advance
      return .bool t.pos true
    | .kwFalse =>
      let _ ← advance
      return .bool t.pos false
    | .ident =>
      let _ ← advance
      match ← ctor? t.text with
      | some c => return .ctor t.pos c []
      | none => return .var t.pos t.text
    | .lparen =>
      let _ ← advance
      let p ← pattern n
      let _ ← expect .rparen
      return p
    | _ => badPattern t

/-- Reads atomic patterns as long as there are some. -/
def atomicPatterns : (n : Nat) → Parser (List Pattern)
  | 0 => return []
  | n + 1 => do
    if startsPattern (← current).kind then
      let p ← atomicPattern n
      let ps ← atomicPatterns n
      return p :: ps
    else return []

end

end FunLang.Parser
