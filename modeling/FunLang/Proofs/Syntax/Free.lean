import FunLang.Proofs.Syntax.Source

set_option autoImplicit false

/-!
# Free names

The names that an expression may ask its environment for. The parameter of a function is bound in its
body, the variables of a pattern in the alternative, and the name of a `let` in its bound expression
as well as in its body. Once the bound expression of a `let` is under way it has an environment of its
own, so that only the body is left for the name. An expression under an environment of its own, a
value, and a form that the language does not know ask for nothing.
-/

namespace FunLang

mutual

/-- The names that are free in an expression. -/
def Expr.free : Expr → List String
  | .var _ x => [x]
  | .binary _ _ l r => l.free ++ r.free
  | .cond _ c t e => c.free ++ t.free ++ e.free
  | .fn _ x body => body.free.filter (· ≠ x)
  | .app _ f args => f.free ++ Expr.freeAll args
  | .letIn _ x bound body => (bound.free ++ body.free).filter (· ≠ x)
  | .annot _ e _ => e.free
  | .cases _ s alts => s.free ++ Alt.free alts
  | .tying x _ bound body => bound.free ++ body.free.filter (· ≠ x)
  | .missing | .int .. | .bool .. | .ctor .. | .value _ | .within .. | .custom .. | .wrapped .. => []

def Expr.freeAll : List Expr → List String
  | [] => []
  | e :: es => e.free ++ Expr.freeAll es

/-- The names that are free in some alternative. -/
def Alt.free : List Alt → List String
  | [] => []
  | .mk _ p e :: alts => e.free.filter (· ∉ p.binders) ++ Alt.free alts

end

theorem Expr.mem_freeAll {y : String} {e : Expr} {es : List Expr} (he : e ∈ es) (hy : y ∈ e.free) :
    y ∈ Expr.freeAll es := by
  induction es with
  | nil => simp at he
  | cons a es ih =>
      rw [Expr.freeAll, List.mem_append]
      rcases List.mem_cons.mp he with rfl | he
      · exact Or.inl hy
      · exact Or.inr (ih he)

theorem Expr.exists_of_mem_freeAll {y : String} {es : List Expr} (hy : y ∈ Expr.freeAll es) :
    ∃ e ∈ es, y ∈ e.free := by
  induction es with
  | nil => simp [Expr.freeAll] at hy
  | cons e es ih =>
      rw [Expr.freeAll, List.mem_append] at hy
      rcases hy with hy | hy
      · exact ⟨e, List.mem_cons_self, hy⟩
      · obtain ⟨e', he', hy⟩ := ih hy
        exact ⟨e', List.mem_cons_of_mem _ he', hy⟩

theorem Alt.mem_free {y : String} {p : Pos} {pat : Pattern} {e : Expr} {alts : List Alt}
    (hmem : Alt.mk p pat e ∈ alts) (hy : y ∈ e.free) (hpat : y ∉ pat.binders) : y ∈ Alt.free alts := by
  induction alts with
  | nil => simp at hmem
  | cons a alts ih =>
      obtain ⟨p', pat', e'⟩ := a
      rw [Alt.free, List.mem_append]
      rcases List.mem_cons.mp hmem with heq | hmem
      · cases heq
        exact Or.inl (List.mem_filter.mpr ⟨hy, by simpa using hpat⟩)
      · exact Or.inr (ih hmem)

theorem Alt.exists_of_mem_free {y : String} {alts : List Alt} (hy : y ∈ Alt.free alts) :
    ∃ a ∈ alts, y ∈ a.body.free ∧ y ∉ a.pattern.binders := by
  induction alts with
  | nil => simp [Alt.free] at hy
  | cons a alts ih =>
      obtain ⟨p, pat, e⟩ := a
      rw [Alt.free, List.mem_append] at hy
      rcases hy with hy | hy
      · obtain ⟨hy, hpat⟩ := List.mem_filter.mp hy
        exact ⟨.mk p pat e, List.mem_cons_self, hy, by simpa [Alt.pattern] using hpat⟩
      · obtain ⟨a, ha, hy⟩ := ih hy
        exact ⟨a, List.mem_cons_of_mem _ ha, hy⟩

end FunLang
