import FunLang.Syntax

set_option autoImplicit false

/-!
# Showing an expression as source text

In the middle of an evaluation an expression holds forms that no source text has. Its surface is
the source expression that shows it: a value as the expression that would produce it, an expression with
an environment of its own without that environment, a `let` under way as the `let` it came from.
-/

namespace FunLang

mutual

/-- The source expression that shows `e`. -/
def Expr.surface : Expr → Expr
  | .binary p op l r => .binary p op l.surface r.surface
  | .cond p c t e => .cond p c.surface t.surface e.surface
  | .fn p x b => .fn p x b.surface
  | .app p f as => .app p f.surface (surfaceAll as)
  | .letIn p x b e => .letIn p x b.surface e.surface
  | .annot p e t => .annot p e.surface t
  | .cases p s alts => .cases p s.surface (surfaceAlts alts)
  | .value v => v.surface
  | .within _ e => e.surface
  | .tying x _ b e => .letIn .unknown x b.surface e.surface
  | .wrapped _ e => e.surface
  | e => e

def surfaceAll : List Expr → List Expr
  | [] => []
  | e :: es => e.surface :: surfaceAll es

def surfaceAlts : List Alt → List Alt
  | [] => []
  | .mk p pat e :: alts => .mk p pat e.surface :: surfaceAlts alts

/-- The expression that would produce a value. -/
def Value.surface : Value → Expr
  | .absent => .var .unknown "<?>"
  | .int n => .int .unknown n
  | .bool b => .bool .unknown b
  | .closure _ x b _ => .fn .unknown x b.surface
  | .data c [] => .ctor .unknown c
  | .data c (v :: vs) => .app .unknown (.ctor .unknown c) (v.surface :: surfaceValues vs)

def surfaceValues : List Value → List Expr
  | [] => []
  | v :: vs => v.surface :: surfaceValues vs

end

end FunLang
