import FunLang.Syntax
import Mathlib.Tactic

set_option autoImplicit false

/-!
# Expressions of source text

An expression is a source expression if it holds no form that only comes up in the middle of an
evaluation: no value, no environment and no `let` under way. A form that the language does not
know is taken as it is, whatever it holds, since an evaluation never looks inside it.
-/

namespace FunLang

mutual

/-- Whether an expression has only the forms of source text, at all depths. -/
def Expr.isSource : Expr → Bool
  | .missing | .var .. | .int .. | .bool .. | .ctor .. | .custom .. | .wrapped .. => true
  | .binary _ _ l r => l.isSource && r.isSource
  | .cond _ c t e => c.isSource && t.isSource && e.isSource
  | .fn _ _ body => body.isSource
  | .app _ f args => f.isSource && Expr.areSource args
  | .letIn _ _ bound body => bound.isSource && body.isSource
  | .annot _ e _ => e.isSource
  | .cases _ s alts => s.isSource && Alt.areSource alts
  | .value _ | .within .. | .tying .. => false

def Expr.areSource : List Expr → Bool
  | [] => true
  | e :: es => e.isSource && Expr.areSource es

def Alt.areSource : List Alt → Bool
  | [] => true
  | .mk _ _ e :: alts => e.isSource && Alt.areSource alts

end

theorem Expr.isSource_of_mem {es : List Expr} (h : Expr.areSource es = true) :
    ∀ e ∈ es, e.isSource = true := by
  induction es with
  | nil => simp
  | cons e es ih =>
      simp only [Expr.areSource, Bool.and_eq_true] at h
      intro e' he'
      rcases List.mem_cons.mp he' with rfl | he'
      · exact h.1
      · exact ih h.2 e' he'

theorem Alt.isSource_of_mem {alts : List Alt} (h : Alt.areSource alts = true) {p : Pos} {pat : Pattern}
    {e : Expr} (hmem : Alt.mk p pat e ∈ alts) : e.isSource = true := by
  induction alts with
  | nil => simp at hmem
  | cons a alts ih =>
      obtain ⟨p', pat', e'⟩ := a
      simp only [Alt.areSource, Bool.and_eq_true] at h
      rcases List.mem_cons.mp hmem with heq | hmem
      · cases heq
        exact h.1
      · exact ih h.2 hmem

/-- The functions in a value have source expressions as their bodies. Functions that are bound in
the environment of another function are not looked at. -/
def Value.isSourced : Value → Bool
  | .closure _ _ body _ => body.isSource
  | .data _ fields => areSourced fields
  | _ => true
where
  areSourced : List Value → Bool
    | [] => true
    | v :: vs => v.isSourced && areSourced vs

end FunLang
