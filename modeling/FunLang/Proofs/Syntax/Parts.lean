import FunLang.Proofs.Machine.Matching

set_option autoImplicit false

/-!
# Parts of expressions and patterns

The expressions directly below an expression, all that lie somewhere below it, and how deep they are
nested. Patterns and types do not count as expressions, and a form that does not come from source text
has nothing below it.
-/

namespace FunLang

/-- The expressions directly below an expression. -/
def Expr.children : Expr → List Expr
  | .binary _ _ l r => [l, r]
  | .cond _ c t e => [c, t, e]
  | .fn _ _ body => [body]
  | .app _ f args => f :: args
  | .letIn _ _ bound body => [bound, body]
  | .annot _ e _ => [e]
  | .cases _ s alts => s :: alts.map Alt.body
  | .missing | .var .. | .int .. | .bool .. | .ctor .. | .value _ | .within .. | .tying .. | .custom ..
  | .wrapped .. => []

/-- A part of an expression: the expression itself, or one directly below a part. -/
inductive Expr.Part (top : Expr) : Expr → Prop where
  | refl : Part top top
  | child {e e' : Expr} (h : Part top e) (hmem : e' ∈ e.children) : Part top e'

/-- The parts of an expression are the expression and the parts of those below it. -/
theorem Expr.part_iff {top e : Expr} :
    top.Part e ↔ e = top ∨ ∃ child ∈ top.children, child.Part e := by
  constructor
  · intro h
    induction h with
    | refl => exact Or.inl rfl
    | child _ hmem ih =>
        refine Or.inr ?_
        rcases ih with rfl | ⟨child, hchild, h⟩
        · exact ⟨_, hmem, .refl⟩
        · exact ⟨child, hchild, .child h hmem⟩
  · rintro (rfl | ⟨child, hchild, h⟩)
    · exact .refl
    · induction h with
      | refl => exact .child .refl hchild
      | child _ hmem ih => exact .child ih hmem

/-- A property of all parts is one of the expression and of all parts of those below it. -/
theorem Expr.forall_part_iff {P : Expr → Prop} {top : Expr} :
    (∀ e, top.Part e → P e) ↔ P top ∧ ∀ child ∈ top.children, ∀ e, child.Part e → P e := by
  simp only [@Expr.part_iff top]
  constructor
  · intro h
    exact ⟨h top (Or.inl rfl), fun child hchild e he => h e (Or.inr ⟨child, hchild, he⟩)⟩
  · rintro ⟨htop, hchildren⟩ e (rfl | ⟨child, hchild, he⟩)
    · exact htop
    · exact hchildren child hchild e he

mutual

/-- How deep expressions are nested; one that has nothing below it counts one. -/
def Expr.depth : Expr → Nat
  | .binary _ _ l r => max l.depth r.depth + 1
  | .cond _ c t e => max c.depth (max t.depth e.depth) + 1
  | .fn _ _ body => body.depth + 1
  | .app _ f args => max f.depth (Expr.depthAll args) + 1
  | .letIn _ _ bound body => max bound.depth body.depth + 1
  | .annot _ e _ => e.depth + 1
  | .cases _ s alts => max s.depth (Alt.depthAll alts) + 1
  | .missing | .var .. | .int .. | .bool .. | .ctor .. | .value _ | .within .. | .tying .. | .custom ..
  | .wrapped .. => 1

def Expr.depthAll : List Expr → Nat
  | [] => 0
  | e :: es => max e.depth (Expr.depthAll es)

def Alt.depthAll : List Alt → Nat
  | [] => 0
  | .mk _ _ e :: alts => max e.depth (Alt.depthAll alts)

end

theorem Expr.depthAll_le_iff {es : List Expr} {n : Nat} :
    Expr.depthAll es ≤ n ↔ ∀ e ∈ es, e.depth ≤ n := by
  induction es with
  | nil => simp [Expr.depthAll]
  | cons e es ih => simp [Expr.depthAll, ih]

theorem Alt.depthAll_le_iff {alts : List Alt} {n : Nat} :
    Alt.depthAll alts ≤ n ↔ ∀ a ∈ alts, a.body.depth ≤ n := by
  induction alts with
  | nil => simp [Alt.depthAll]
  | cons a alts ih =>
      obtain ⟨p, pat, e⟩ := a
      simp [Alt.depthAll, Alt.body, ih]

/-- An expression is one level deeper than what lies below it. -/
theorem Expr.depth_le_succ_iff {e : Expr} {n : Nat} :
    e.depth ≤ n + 1 ↔ ∀ child ∈ e.children, child.depth ≤ n := by
  cases e <;>
    simp [Expr.depth, Expr.children, Expr.depthAll_le_iff, Alt.depthAll_le_iff]

/-- What is applied in an application to all its arguments, those of a callee that is itself an
application included. -/
def Expr.head : Expr → Expr
  | .app _ f _ => f.head
  | e => e

/-- The number of these arguments. -/
def Expr.argCount : Expr → Nat
  | .app _ f args => f.argCount + args.length
  | _ => 0

/-! ## Patterns -/

/-- The patterns directly below a pattern. -/
def Pattern.children : Pattern → List Pattern
  | .ctor _ _ args => args
  | .missing | .int .. | .bool .. | .var .. => []

theorem Pattern.part_iff {top p : Pattern} :
    top.Part p ↔ p = top ∨ ∃ child ∈ top.children, child.Part p := by
  constructor
  · intro h
    induction h with
    | refl => exact Or.inl rfl
    | arg _ ha ih =>
        refine Or.inr ?_
        rcases ih with rfl | ⟨child, hchild, h⟩
        · exact ⟨_, ha, .refl⟩
        · exact ⟨child, hchild, .arg h ha⟩
  · rintro (rfl | ⟨child, hchild, h⟩)
    · exact .refl
    · cases top with
      | ctor pos c args =>
          induction h with
          | refl => exact .arg .refl hchild
          | arg _ ha ih => exact .arg ih ha
      | _ => cases hchild

/-- A property of all parts is one of the pattern and of all parts of those below it. -/
theorem Pattern.forall_part_iff {P : Pattern → Prop} {top : Pattern} :
    (∀ p, top.Part p → P p) ↔ P top ∧ ∀ child ∈ top.children, ∀ p, child.Part p → P p := by
  simp only [@Pattern.part_iff top]
  constructor
  · intro h
    exact ⟨h top (Or.inl rfl), fun child hchild p hp => h p (Or.inr ⟨child, hchild, hp⟩)⟩
  · rintro ⟨htop, hchildren⟩ p (rfl | ⟨child, hchild, hp⟩)
    · exact htop
    · exact hchildren child hchild p hp

end FunLang
