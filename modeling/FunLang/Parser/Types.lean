import FunLang.Parser.State

set_option autoImplicit false

/-!
# Reading types

    type  ::= atype [ -> type ]
    atype ::= Int | Bool | NAME | ( type )

The argument `n` of each function bounds the depth of its calls.
-/

namespace FunLang.Parser

/-- Whether a token can start an atomic type. -/
def startsAtomicType : TokenKind → Bool
  | .intType | .boolType | .ident | .lparen => true
  | _ => false

mutual

/-- Reads a type. -/
def type : (n : Nat) → Parser Ty
  | 0 => return .missing
  | n + 1 => do
    let param ← atomicType n
    if ← check .arrow then
      let arrow ← advance
      let result ← type n
      return .arrow arrow.pos param result
    else return param

/-- Reads an atomic type. A token that starts none is passed over. -/
def atomicType : (n : Nat) → Parser Ty
  | 0 => return .missing
  | n + 1 => do
    let t ← current
    match t.kind with
    | .intType | .boolType | .ident =>
      let _ ← advance
      return .name t.pos t.text
    | .lparen =>
      let _ ← advance
      let ty ← type n
      let _ ← expect .rparen
      return ty
    | _ =>
      complain t s!"expected a type, got {t.describe}"
      let _ ← advance
      return .name t.pos errorName

end

/-- Reads atomic types as long as there are some. -/
def atomicTypes : (n : Nat) → Parser (List Ty)
  | 0 => return []
  | n + 1 => do
    if startsAtomicType (← current).kind then
      let t ← atomicType n
      let ts ← atomicTypes n
      return t :: ts
    else return []

end FunLang.Parser
