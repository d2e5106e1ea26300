import FunLang.Proofs.Knots.AtRest
import FunLang.Proofs.Machine.Frames

set_option autoImplicit false

/-!
# The spine of an evaluation

The spine of an expression is the way from the expression down to the part that makes its step. On it
stand the `let`s whose bound expression is being evaluated, each with its name and its knot, the outer
ones first (`Expr.spine`). `Expr.ties` collects such `let`s from everywhere in an expression.

`Expr.Running` describes the expressions that come up while a source expression is evaluated: whatever
is not on the spine is source text, or a value that some frame keeps.
-/

namespace FunLang

/-- The `let`s under way that enclose the part which makes the step. -/
def Expr.spine : Expr → List (String × Nat)
  | .tying x k bound _ => (x, k) :: bound.spine
  | .within _ e => e.spine
  | .binary _ _ l r =>
    match l.value? with
    | none => l.spine
    | some _ => r.spine
  | .cond _ c _ _ => c.spine
  | .app _ f (a :: _) =>
    match a.value? with
    | none => a.spine
    | some _ => f.spine
  | .cases _ s _ => s.spine
  | _ => []

mutual

/-- The `let`s under way anywhere in an expression. -/
def Expr.ties : Expr → List (String × Nat)
  | .tying x k bound body => (x, k) :: (bound.ties ++ body.ties)
  | .within _ e => e.ties
  | .binary _ _ l r => l.ties ++ r.ties
  | .cond _ c t e => c.ties ++ t.ties ++ e.ties
  | .fn _ _ body => body.ties
  | .app _ f args => f.ties ++ Expr.tiesAll args
  | .letIn _ _ bound body => bound.ties ++ body.ties
  | .annot _ e _ => e.ties
  | .cases _ s alts => s.ties ++ Alt.ties alts
  | _ => []

def Expr.tiesAll : List Expr → List (String × Nat)
  | [] => []
  | e :: es => e.ties ++ Expr.tiesAll es

def Alt.ties : List Alt → List (String × Nat)
  | [] => []
  | .mk _ _ e :: alts => e.ties ++ Alt.ties alts

end

mutual

theorem Expr.ties_of_isSource : ∀ {e : Expr}, e.isSource = true → e.ties = []
  | .missing, _ | .var .., _ | .int .., _ | .bool .., _ | .ctor .., _ | .custom .., _
  | .wrapped .., _ => by simp [Expr.ties]
  | .binary _ _ l r, h => by
      simp only [Expr.isSource, Bool.and_eq_true] at h
      simp [Expr.ties, Expr.ties_of_isSource h.1, Expr.ties_of_isSource h.2]
  | .cond _ c t e, h => by
      simp only [Expr.isSource, Bool.and_eq_true] at h
      simp [Expr.ties, Expr.ties_of_isSource h.1.1, Expr.ties_of_isSource h.1.2,
        Expr.ties_of_isSource h.2]
  | .fn _ _ body, h => by
      simp only [Expr.isSource] at h
      simp [Expr.ties, Expr.ties_of_isSource h]
  | .app _ f args, h => by
      simp only [Expr.isSource, Bool.and_eq_true] at h
      simp [Expr.ties, Expr.ties_of_isSource h.1, Expr.tiesAll_of_areSource h.2]
  | .letIn _ _ bound body, h => by
      simp only [Expr.isSource, Bool.and_eq_true] at h
      simp [Expr.ties, Expr.ties_of_isSource h.1, Expr.ties_of_isSource h.2]
  | .annot _ e _, h => by
      simp only [Expr.isSource] at h
      simp [Expr.ties, Expr.ties_of_isSource h]
  | .cases _ s alts, h => by
      simp only [Expr.isSource, Bool.and_eq_true] at h
      simp [Expr.ties, Expr.ties_of_isSource h.1, Alt.ties_of_areSource h.2]

theorem Expr.tiesAll_of_areSource : ∀ {es : List Expr}, Expr.areSource es = true → Expr.tiesAll es = []
  | [], _ => rfl
  | e :: es, h => by
      simp only [Expr.areSource, Bool.and_eq_true] at h
      simp [Expr.tiesAll, Expr.ties_of_isSource h.1, Expr.tiesAll_of_areSource h.2]

theorem Alt.ties_of_areSource : ∀ {alts : List Alt}, Alt.areSource alts = true → Alt.ties alts = []
  | [], _ => rfl
  | .mk _ _ e :: alts, h => by
      simp only [Alt.areSource, Bool.and_eq_true] at h
      simp [Alt.ties, Expr.ties_of_isSource h.1, Alt.ties_of_areSource h.2]

end

theorem Expr.value?_of_isSource {e : Expr} (h : e.isSource = true) : e.value? = none := by
  cases e with
  | value v => simp [Expr.isSource] at h
  | _ => rfl

/-- No `let` is under way in a source expression. -/
theorem Expr.spine_of_isSource : ∀ {e : Expr}, e.isSource = true → e.spine = []
  | .missing, _ | .var .., _ | .int .., _ | .bool .., _ | .ctor .., _ | .custom .., _
  | .wrapped .., _ | .fn .., _ | .letIn .., _ | .annot .., _ | .app _ _ [], _ => by simp [Expr.spine]
  | .binary _ _ l r, h => by
      simp only [Expr.isSource, Bool.and_eq_true] at h
      simp [Expr.spine, Expr.value?_of_isSource h.1, Expr.spine_of_isSource h.1]
  | .cond _ c t e, h => by
      simp only [Expr.isSource, Bool.and_eq_true] at h
      simp [Expr.spine, Expr.spine_of_isSource h.1.1]
  | .app _ f (a :: rest), h => by
      simp only [Expr.isSource, Expr.areSource, Bool.and_eq_true] at h
      simp [Expr.spine, Expr.value?_of_isSource h.2.1, Expr.spine_of_isSource h.2.1]
  | .cases _ s alts, h => by
      simp only [Expr.isSource, Bool.and_eq_true] at h
      simp [Expr.spine, Expr.spine_of_isSource h.1]

/-! ## Expressions that are being evaluated -/

/-- A value that has been computed: it is there, and at rest. -/
def Value.Computed (K : String → Nat → Prop) (v : Value) : Prop := v ≠ .absent ∧ v.AtRest K

/-- An expression in the place of a function that waits for its argument: nothing in it has been
evaluated yet, or all of it. -/
def Expr.Waiting (K : String → Nat → Prop) : Expr → Prop
  | .value v => v.Computed K
  | .within env e => env.AtRest K ∧ e.isSource = true
  | e => e.isSource = true

/-- An expression that comes up in an evaluation: only the part on the spine is under way. -/
def Expr.Running (K : String → Nat → Prop) : Expr → Prop
  | .value v => v.Computed K
  | .within env e => env.AtRest K ∧ e.Running K
  | .binary _ _ l r =>
    match l.value? with
    | none => l.Running K ∧ r.isSource = true
    | some a => a.Computed K ∧ r.Running K
  | .cond _ c t e => c.Running K ∧ t.isSource = true ∧ e.isSource = true
  | .app _ f [] => f.isSource = true
  | .app _ f (a :: rest) =>
    match a.value? with
    | none => a.Running K ∧ f.Waiting K ∧ Expr.areSource rest = true
    | some v => v.Computed K ∧ f.Running K ∧ Expr.areSource rest = true
  | .tying _ _ bound body => bound.Running K ∧ body.isSource = true
  | .cases _ s alts => s.Running K ∧ Alt.areSource alts = true
  | e => e.isSource = true

/-- A frame around the part that is under way. -/
def Frame.AtRest (K : String → Nat → Prop) : Frame → Prop
  | left _ _ r => r.isSource = true
  | right _ _ a => a.Computed K
  | test _ t e => t.isSource = true ∧ e.isSource = true
  | arg _ f rest => f.Waiting K ∧ Expr.areSource rest = true
  | callee _ v rest => v.Computed K ∧ Expr.areSource rest = true
  | bound _ _ body => body.isSource = true
  | scrutinee _ alts => Alt.areSource alts = true

/-- The `let` under way that a frame is, if it is one. -/
def Frame.ties : Frame → List (String × Nat)
  | bound x k _ => [(x, k)]
  | _ => []

variable {K K' : String → Nat → Prop}

attribute [local simp] Expr.Running

/-- Every source expression may be evaluated. -/
theorem Expr.running_of_isSource : ∀ {e : Expr}, e.isSource = true → e.Running K
  | .missing, h | .var .., h | .int .., h | .bool .., h | .ctor .., h | .custom .., h
  | .wrapped .., h | .fn .., h | .letIn .., h | .annot .., h => by simpa using h
  | .binary _ _ l r, h => by
      simp only [Expr.isSource, Bool.and_eq_true] at h
      simp only [Expr.Running, Expr.value?_of_isSource h.1]
      exact ⟨Expr.running_of_isSource h.1, h.2⟩
  | .cond _ c t e, h => by
      simp only [Expr.isSource, Bool.and_eq_true] at h
      exact ⟨Expr.running_of_isSource h.1.1, h.1.2, h.2⟩
  | .app _ f [], h => by
      simp only [Expr.isSource, Bool.and_eq_true] at h
      exact h.1
  | .app _ f (a :: rest), h => by
      simp only [Expr.isSource, Expr.areSource, Bool.and_eq_true] at h
      simp only [Expr.Running, Expr.value?_of_isSource h.2.1]
      refine ⟨Expr.running_of_isSource h.2.1, ?_, h.2.2⟩
      cases f with
      | value v => simp [Expr.isSource] at h
      | within env e => simp [Expr.isSource] at h
      | _ => exact h.1
  | .cases _ s alts, h => by
      simp only [Expr.isSource, Bool.and_eq_true] at h
      exact ⟨Expr.running_of_isSource h.1, h.2⟩

theorem Expr.Waiting.running {e : Expr} (h : e.Waiting K) : e.Running K := by
  cases e with
  | value v => exact h
  | within env e => exact ⟨h.1, Expr.running_of_isSource h.2⟩
  | _ => exact Expr.running_of_isSource h

theorem Expr.Waiting.spine_eq {e : Expr} (h : e.Waiting K) : e.spine = [] := by
  cases e with
  | value v => rfl
  | within env e =>
      rw [Expr.spine]
      exact Expr.spine_of_isSource h.2
  | _ => exact Expr.spine_of_isSource h

theorem Expr.Waiting.ties_eq {e : Expr} (h : e.Waiting K) : e.ties = [] := by
  cases e with
  | value v => simp [Expr.ties]
  | within env e =>
      rw [Expr.ties]
      exact Expr.ties_of_isSource h.2
  | _ => exact Expr.ties_of_isSource h

/-! ## Frames around a part under way -/

/-- A frame may be put around everything that is being evaluated, also around its value. -/
theorem Frame.AtRest.fill {F : Frame} (hF : F.AtRest K) {e : Expr} (he : e.Running K) :
    (F.fill e).Running K := by
  cases hv : e.value? with
  | none =>
      cases F with
      | left p op r => simpa [Frame.fill, hv] using ⟨he, hF⟩
      | right p op a => exact ⟨hF, he⟩
      | test p t f => exact ⟨he, hF⟩
      | arg p f rest => simpa [Frame.fill, hv] using ⟨he, hF⟩
      | callee p v rest => exact ⟨hF.1, he, hF.2⟩
      | bound x k body => exact ⟨he, hF⟩
      | scrutinee p alts => exact ⟨he, hF⟩
  | some v =>
      obtain rfl := Expr.eq_value_of_value? hv
      cases F with
      | left p op r => exact ⟨he, Expr.running_of_isSource hF⟩
      | right p op a => exact ⟨hF, he⟩
      | test p t f => exact ⟨he, hF⟩
      | arg p f rest => exact ⟨he, hF.1.running, hF.2⟩
      | callee p v rest => exact ⟨hF.1, he, hF.2⟩
      | bound x k body => exact ⟨he, hF⟩
      | scrutinee p alts => exact ⟨he, hF⟩

theorem Frame.atRest_of_fill {F : Frame} {e : Expr} (hv : e.value? = none) (h : (F.fill e).Running K) :
    F.AtRest K ∧ e.Running K := by
  cases F with
  | left p op r =>
      simp only [Frame.fill, Expr.Running, hv] at h
      exact ⟨h.2, h.1⟩
  | right p op a => exact ⟨h.1, h.2⟩
  | test p t f => exact ⟨h.2, h.1⟩
  | arg p f rest =>
      simp only [Frame.fill, Expr.Running, hv] at h
      exact ⟨h.2, h.1⟩
  | callee p v rest => exact ⟨⟨h.1, h.2.2⟩, h.2.1⟩
  | bound x k body => exact ⟨h.2, h.1⟩
  | scrutinee p alts => exact ⟨h.2, h.1⟩

/-- The spine leads through the frame and on to the part in it. -/
theorem Frame.AtRest.spine_fill {F : Frame} (hF : F.AtRest K) (e : Expr) :
    (F.fill e).spine = F.ties ++ e.spine := by
  cases F with
  | left p op r =>
      cases hv : e.value? with
      | none => simp [Frame.fill, Frame.ties, Expr.spine, hv]
      | some v =>
          have hr : r.spine = [] := Expr.spine_of_isSource hF
          simp [Expr.eq_value_of_value? hv, Frame.fill, Frame.ties, Expr.spine, hr]
  | arg p f rest =>
      cases hv : e.value? with
      | none => simp [Frame.fill, Frame.ties, Expr.spine, hv]
      | some v => simp [Expr.eq_value_of_value? hv, Frame.fill, Frame.ties, Expr.spine, hF.1.spine_eq]
  | _ => simp [Frame.fill, Frame.ties, Expr.spine]

/-- Outside of its spine an expression has no `let` under way. -/
theorem Expr.Running.ties_eq_spine : ∀ {e : Expr}, e.Running K → e.ties = e.spine
  | .missing, _ | .var .., _ | .int .., _ | .bool .., _ | .ctor .., _ | .custom .., _
  | .wrapped .., _ | .value _, _ => by simp [Expr.ties, Expr.spine]
  | .within _ e, h => by simpa [Expr.ties, Expr.spine] using Expr.Running.ties_eq_spine h.2
  | .binary _ _ l r, h => by
      cases hv : l.value? with
      | none =>
          simp only [Expr.Running, hv] at h
          simp [Expr.ties, Expr.spine, hv, Expr.Running.ties_eq_spine h.1, Expr.ties_of_isSource h.2]
      | some a =>
          simp only [Expr.Running, hv] at h
          simp [Expr.eq_value_of_value? hv, Expr.ties, Expr.spine, Expr.Running.ties_eq_spine h.2]
  | .cond _ c t e, h => by
      simp [Expr.ties, Expr.spine, Expr.Running.ties_eq_spine h.1, Expr.ties_of_isSource h.2.1,
        Expr.ties_of_isSource h.2.2]
  | .fn _ _ body, h => by simp [Expr.ties, Expr.spine, Expr.ties_of_isSource (e := body) h]
  | .app _ f [], h => by simp [Expr.ties, Expr.tiesAll, Expr.spine, Expr.ties_of_isSource (e := f) h]
  | .app _ f (a :: rest), h => by
      cases hv : a.value? with
      | none =>
          simp only [Expr.Running, hv] at h
          simp [Expr.ties, Expr.tiesAll, Expr.spine, hv, Expr.Running.ties_eq_spine h.1, h.2.1.ties_eq,
            Expr.tiesAll_of_areSource h.2.2]
      | some v =>
          simp only [Expr.Running, hv] at h
          simp [Expr.eq_value_of_value? hv, Expr.ties, Expr.tiesAll, Expr.spine,
            Expr.Running.ties_eq_spine h.2.1, Expr.tiesAll_of_areSource h.2.2]
  | .letIn _ _ bound body, h => Expr.ties_of_isSource h
  | .annot _ e _, h => Expr.ties_of_isSource h
  | .tying x k bound body, h => by
      simp [Expr.ties, Expr.spine, Expr.Running.ties_eq_spine h.1, Expr.ties_of_isSource h.2]
  | .cases _ s alts, h => by
      simp [Expr.ties, Expr.spine, Expr.Running.ties_eq_spine h.1, Alt.ties_of_areSource h.2]

/-! ## More knots -/

theorem Value.Computed.mono (hK : ∀ x k, K x k → K' x k) {v : Value} (h : v.Computed K) :
    v.Computed K' :=
  ⟨h.1, h.2.mono hK⟩

theorem Expr.Waiting.mono (hK : ∀ x k, K x k → K' x k) {e : Expr} (h : e.Waiting K) : e.Waiting K' := by
  cases e with
  | value v => exact Value.Computed.mono hK h
  | within env e => exact ⟨h.1.mono hK, h.2⟩
  | _ => exact h

theorem Frame.AtRest.mono (hK : ∀ x k, K x k → K' x k) {F : Frame} (h : F.AtRest K) : F.AtRest K' := by
  cases F with
  | right p op a => exact Value.Computed.mono hK h
  | arg p f rest => exact ⟨h.1.mono hK, h.2⟩
  | callee p v rest => exact ⟨h.1.mono hK, h.2⟩
  | _ => exact h

theorem Expr.Running.mono (hK : ∀ x k, K x k → K' x k) : ∀ {e : Expr}, e.Running K → e.Running K'
  | .missing, h | .var .., h | .int .., h | .bool .., h | .ctor .., h | .custom .., h
  | .wrapped .., h | .fn .., h | .letIn .., h | .annot .., h | .app _ _ [], h => h
  | .value _, h => Value.Computed.mono hK h
  | .within _ _, h => ⟨h.1.mono hK, Expr.Running.mono hK h.2⟩
  | .binary _ _ l _, h => by
      cases hv : l.value? with
      | none =>
          simp only [Expr.Running, hv] at h ⊢
          exact ⟨Expr.Running.mono hK h.1, h.2⟩
      | some a =>
          simp only [Expr.Running, hv] at h ⊢
          exact ⟨h.1.mono hK, Expr.Running.mono hK h.2⟩
  | .cond .., h => ⟨Expr.Running.mono hK h.1, h.2⟩
  | .app _ _ (a :: _), h => by
      cases hv : a.value? with
      | none =>
          simp only [Expr.Running, hv] at h ⊢
          exact ⟨Expr.Running.mono hK h.1, h.2.1.mono hK, h.2.2⟩
      | some v =>
          simp only [Expr.Running, hv] at h ⊢
          exact ⟨h.1.mono hK, Expr.Running.mono hK h.2.1, h.2.2⟩
  | .tying .., h => ⟨Expr.Running.mono hK h.1, h.2⟩
  | .cases .., h => ⟨Expr.Running.mono hK h.1, h.2⟩

end FunLang
