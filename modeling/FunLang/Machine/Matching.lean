import FunLang.Value

set_option autoImplicit false

/-!
# Matching

Matching a value against a pattern either fails or gives the bindings of the pattern's variables,
from left to right.
-/

namespace FunLang

mutual

/-- The bindings that make `p` match `v`. -/
def Pattern.bindings? : Pattern → Value → Option (List (String × Value))
  | .int _ n, .int m => if n = m then some [] else none
  | .bool _ b, .bool c => if b = c then some [] else none
  | .var _ x, v => some [(x, v)]
  | .ctor _ c ps, .data d vs => if c.same d then bindingsAll? ps vs else none
  | _, _ => none

/-- The bindings that make each pattern match the value at its place; there must be as many values as
patterns. -/
def Pattern.bindingsAll? : List Pattern → List Value → Option (List (String × Value))
  | [], [] => some []
  | p :: ps, v :: vs =>
    match p.bindings? v with
    | none => none
    | some bs =>
      match bindingsAll? ps vs with
      | none => none
      | some cs => some (bs ++ cs)
  | _, _ => none

end

/-- The first alternative whose pattern matches a value: its body and the bindings. -/
def Alt.select? : List Alt → Value → Option (Expr × List (String × Value))
  | [], _ => none
  | .mk _ p e :: alts, v =>
    match p.bindings? v with
    | some bs => some (e, bs)
    | none => select? alts v

end FunLang
