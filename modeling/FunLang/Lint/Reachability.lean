import FunLang.Diagnostic
import FunLang.Layout

set_option autoImplicit false

/-!
# Alternatives that are never chosen

The first matching alternative of a `case` is chosen. So nothing is left after a variable, after an
integer or a truth value that occurred before, and after both truth values. Of the alternatives
after a variable or after both truth values only the first is reported.
-/

namespace FunLang.Lint

/-- The warnings about the alternatives from one on, given the literals before it. -/
def unreachableFrom (ints : List Int64) (bools : List Bool) : List Alt → List Diagnostic
  | [] => []
  | .mk _ (.var _ x) _ :: rest =>
    match rest with
    | [] => []
    | next :: _ =>
      [(Diagnostic.warning next.pattern.pos "alternative is unreachable").withHint
        s!"the pattern '{x}' before it matches every value"]
  | .mk _ (.int p n) _ :: rest =>
    (if ints.contains n then
      [.warning p s!"alternative is unreachable: {n.toInt} is already matched"]
    else []) ++ unreachableFrom (n :: ints) bools rest
  | .mk _ (.bool p b) _ :: rest =>
    (if bools.contains b then
      [.warning p s!"alternative is unreachable: {Layout.bool b} is already matched"]
    else [])
    ++ match (b :: bools).contains true && (b :: bools).contains false, rest with
      | true, next :: _ =>
        [(Diagnostic.warning next.pattern.pos "alternative is unreachable").withHint
          "both true and false are matched before it"]
      | _, rest => unreachableFrom ints (b :: bools) rest
  | _ :: rest => unreachableFrom ints bools rest

/-- The warnings about alternatives that are never chosen. -/
def unreachable (alts : List Alt) : List Diagnostic := unreachableFrom [] [] alts

/-- The warning about a condition that is a literal. -/
def constantCondition : Expr → List Diagnostic
  | .bool p b =>
    let branch := if b then "else" else "then"
    [(Diagnostic.warning p s!"condition is always {Layout.bool b}").withHint
      s!"the {branch} branch is never evaluated"]
  | _ => []

/-- The warning about a constructor with more arguments than it declares. -/
def overApplied (p : Pos) (f : Expr) (args : List Expr) : List Diagnostic :=
  match f with
  | .ctor _ c =>
    if c.arity < args.length then
      [.warning p
        s!"constructor '{c.name}' takes {c.arity} argument(s) but is applied to {args.length}"]
    else []
  | _ => []

end FunLang.Lint
