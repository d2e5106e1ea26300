import FunLang.Lint.Scope

set_option autoImplicit false

/-!
# Linting

Warnings about a program that reads well but may not be meant: variables that are not bound, binders
that are not used or hide others, parts that are never evaluated, and names of unusual shape. A
program with warnings can still be run.
-/

namespace FunLang.Lint

mutual

/-- The findings about an expression under a scope. -/
def expr (Γ : Scope) : Expr → Findings
  | .var p x => occurrence Γ p x
  | .binary _ _ l r => expr Γ l ++ expr Γ r
  | .cond _ c t e => .ofWarnings (constantCondition c) ++ expr Γ c ++ expr Γ t ++ expr Γ e
  | .fn p x body =>
    let b : Binder := ⟨x, .parameter, p, false⟩
    closing Γ.length [b] (introduce Γ b) (expr (b :: Γ) body)
  | .app p f args => .ofWarnings (overApplied p f args) ++ expr Γ f ++ exprs Γ args
  | .letIn p x bound body =>
    let b : Binder := ⟨x, .letBinding, p, false⟩
    closing Γ.length [b] (introduce Γ b) (expr ({ b with pending := true } :: Γ) bound ++ expr (b :: Γ) body)
  | .annot _ e _ => expr Γ e
  | .cases _ s alts => expr Γ s ++ .ofWarnings (unreachable alts) ++ alternatives Γ alts
  | _ => .empty

def exprs (Γ : Scope) : List Expr → Findings
  | [] => .empty
  | e :: es => expr Γ e ++ exprs Γ es

def alternatives (Γ : Scope) : List Alt → Findings
  | [] => .empty
  | .mk _ p e :: rest =>
    closing Γ.length (patternBinders Γ p).1 (patternBinders Γ p).2
      (expr ((patternBinders Γ p).1.reverse ++ Γ) e) ++ alternatives Γ rest

end

/-- All warnings about a program, by their places. -/
def program (p : Program) : List Diagnostic :=
  Diagnostic.sort (p.data.flatMap dataNaming ++ (expr [] p.body).warnings)

end FunLang.Lint
