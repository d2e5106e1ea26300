import FunLang.Proofs.Lint.Kinds
import FunLang.Proofs.Twins.Runs

set_option autoImplicit false

/-!
# Programs without unbound names

Linting reports every name that is free in a program. A program without such a report therefore has
no free names, and its run never asks for a name that has no binding: beside itself as a twin it only
comes to expressions under environments that bind what is free in them.
-/

namespace FunLang

namespace Lint

/-- Some warning says that a name is not bound. -/
def ReportsUnbound (ds : List Diagnostic) (x : String) : Prop :=
  ∃ d ∈ ds, d.message = s!"variable '{x}' is not bound"

theorem ReportsUnbound.mono {ds ds' : List Diagnostic} {x : String} (h : ReportsUnbound ds x)
    (hds : ∀ d ∈ ds, d ∈ ds') : ReportsUnbound ds' x := by
  obtain ⟨d, hd, hmessage⟩ := h
  exact ⟨d, hds d hd, hmessage⟩

/-! ## Scopes -/

theorem mem_warnings_closing {level : Nat} {bs : List Binder} {opening : List Diagnostic}
    {inside : Findings} {d : Diagnostic} (hd : d ∈ inside.warnings) :
    d ∈ (closing level bs opening inside).warnings := by
  simp [closing, hd]

theorem Scope.find?_cons_of_ne (b : Binder) {Γ : Scope} {y : String} (hne : b.name ≠ y)
    (h : Γ.find? y = none) : Scope.find? (b :: Γ) y = none := by
  rw [Scope.find?, if_neg hne, h]

theorem Scope.find?_append_of_not_mem {bs : List Binder} {Γ : Scope} {y : String}
    (hbs : y ∉ bs.map Binder.name) (h : Γ.find? y = none) : Scope.find? (bs ++ Γ) y = none := by
  induction bs with
  | nil => exact h
  | cons b bs ih =>
      simp only [List.map_cons, List.mem_cons, not_or] at hbs
      exact Scope.find?_cons_of_ne b (Ne.symm hbs.1) (ih hbs.2)

mutual

/-- The binders that linting takes from a pattern are the variables that matching binds. -/
theorem names_patternBinders (Γ : Scope) :
    ∀ p : Pattern, (patternBinders Γ p).1.map Binder.name = p.binders
  | .var _ _ => rfl
  | .ctor _ _ args => names_patternsBinders Γ args
  | .int .. | .bool .. | .missing => rfl

theorem names_patternsBinders (Γ : Scope) :
    ∀ ps : List Pattern, (patternsBinders Γ ps).1.map Binder.name = Pattern.bindersAll ps
  | [] => rfl
  | p :: ps => by
      simp only [patternsBinders, Pattern.bindersAll, List.map_append]
      rw [names_patternBinders Γ p, names_patternsBinders _ ps]

end

/-! ## Free names are reported -/

mutual

theorem reportsUnbound_expr {y : String} : ∀ (e : Expr) (Γ : Scope), e.isSource = true → y ∈ e.free →
    Γ.find? y = none → ReportsUnbound (expr Γ e).warnings y
  | .var p x, Γ, _, hy, hΓ => by
      obtain rfl : y = x := by simpa [Expr.free] using hy
      simp only [expr, occurrence, hΓ]
      exact ⟨_, List.mem_singleton.mpr rfl, rfl⟩
  | .binary _ _ l r, Γ, hs, hy, hΓ => by
      simp only [Expr.isSource, Bool.and_eq_true] at hs
      simp only [Expr.free, List.mem_append] at hy
      rcases hy with hy | hy
      · exact (reportsUnbound_expr l Γ hs.1 hy hΓ).mono (by simp +contextual [expr])
      · exact (reportsUnbound_expr r Γ hs.2 hy hΓ).mono (by simp +contextual [expr])
  | .cond _ c t e, Γ, hs, hy, hΓ => by
      simp only [Expr.isSource, Bool.and_eq_true] at hs
      simp only [Expr.free, List.mem_append] at hy
      rcases hy with (hy | hy) | hy
      · exact (reportsUnbound_expr c Γ hs.1.1 hy hΓ).mono (by simp +contextual [expr])
      · exact (reportsUnbound_expr t Γ hs.1.2 hy hΓ).mono (by simp +contextual [expr])
      · exact (reportsUnbound_expr e Γ hs.2 hy hΓ).mono (by simp +contextual [expr])
  | .fn p x body, Γ, hs, hy, hΓ => by
      obtain ⟨hy, hne⟩ : y ∈ body.free ∧ y ≠ x := by simpa [Expr.free] using hy
      have hΓ := Scope.find?_cons_of_ne ⟨x, .parameter, p, false⟩ hne.symm hΓ
      exact (reportsUnbound_expr body _ hs hy hΓ).mono fun d hd => mem_warnings_closing hd
  | .app _ f args, Γ, hs, hy, hΓ => by
      simp only [Expr.isSource, Bool.and_eq_true] at hs
      simp only [Expr.free, List.mem_append] at hy
      rcases hy with hy | hy
      · exact (reportsUnbound_expr f Γ hs.1 hy hΓ).mono (by simp +contextual [expr])
      · exact (reportsUnbound_exprs args Γ hs.2 hy hΓ).mono (by simp +contextual [expr])
  | .letIn p x bound body, Γ, hs, hy, hΓ => by
      simp only [Expr.isSource, Bool.and_eq_true] at hs
      simp only [Expr.free, List.mem_filter, List.mem_append, decide_eq_true_eq] at hy
      obtain ⟨hy, hne⟩ := hy
      -- the name of the `let` is in force in both parts, in the first one as pending
      rcases hy with hy | hy
      · have hΓ := Scope.find?_cons_of_ne ⟨x, .letBinding, p, true⟩ (Ne.symm hne) hΓ
        exact (reportsUnbound_expr bound _ hs.1 hy hΓ).mono fun d hd =>
          mem_warnings_closing (List.mem_append_left _ hd)
      · have hΓ := Scope.find?_cons_of_ne ⟨x, .letBinding, p, false⟩ (Ne.symm hne) hΓ
        exact (reportsUnbound_expr body _ hs.2 hy hΓ).mono fun d hd =>
          mem_warnings_closing (List.mem_append_right _ hd)
  | .annot _ e _, Γ, hs, hy, hΓ => reportsUnbound_expr e Γ hs hy hΓ
  | .cases _ s alts, Γ, hs, hy, hΓ => by
      simp only [Expr.isSource, Bool.and_eq_true] at hs
      simp only [Expr.free, List.mem_append] at hy
      rcases hy with hy | hy
      · exact (reportsUnbound_expr s Γ hs.1 hy hΓ).mono (by simp +contextual [expr])
      · exact (reportsUnbound_alternatives alts Γ hs.2 hy hΓ).mono (by simp +contextual [expr])
  | .missing, _, _, hy, _ | .int .., _, _, hy, _ | .bool .., _, _, hy, _ | .ctor .., _, _, hy, _
  | .custom .., _, _, hy, _ | .wrapped .., _, _, hy, _ => by simp [Expr.free] at hy
  | .value _, _, hs, _, _ | .within .., _, hs, _, _ | .tying .., _, hs, _, _ => by
      simp [Expr.isSource] at hs

theorem reportsUnbound_exprs {y : String} : ∀ (es : List Expr) (Γ : Scope), Expr.areSource es = true →
    y ∈ Expr.freeAll es → Γ.find? y = none → ReportsUnbound (exprs Γ es).warnings y
  | [], _, _, hy, _ => by simp [Expr.freeAll] at hy
  | e :: es, Γ, hs, hy, hΓ => by
      simp only [Expr.areSource, Bool.and_eq_true] at hs
      simp only [Expr.freeAll, List.mem_append] at hy
      rcases hy with hy | hy
      · exact (reportsUnbound_expr e Γ hs.1 hy hΓ).mono (by simp +contextual [exprs])
      · exact (reportsUnbound_exprs es Γ hs.2 hy hΓ).mono (by simp +contextual [exprs])

theorem reportsUnbound_alternatives {y : String} : ∀ (alts : List Alt) (Γ : Scope),
    Alt.areSource alts = true → y ∈ Alt.free alts → Γ.find? y = none →
      ReportsUnbound (alternatives Γ alts).warnings y
  | [], _, _, hy, _ => by simp [Alt.free] at hy
  | .mk _ pat e :: alts, Γ, hs, hy, hΓ => by
      simp only [Alt.areSource, Bool.and_eq_true] at hs
      simp only [Alt.free, List.mem_append, List.mem_filter, decide_eq_true_eq] at hy
      rcases hy with ⟨hy, hne⟩ | hy
      · have hnames : y ∉ (patternBinders Γ pat).1.reverse.map Binder.name := by
          rwa [List.map_reverse, List.mem_reverse, names_patternBinders]
        refine (reportsUnbound_expr e _ hs.1 hy
          (Scope.find?_append_of_not_mem hnames hΓ)).mono fun d hd => ?_
        exact List.mem_append_left _ (mem_warnings_closing hd)
      · exact (reportsUnbound_alternatives alts Γ hs.2 hy hΓ).mono
          (by simp +contextual [alternatives])

end

/-- Without a report no name is free in the program. -/
theorem free_body_eq_nil {p : Program} (hp : p.body.isSource = true)
    (hlint : ∀ x, ¬ ReportsUnbound (program p) x) : p.body.free = [] := by
  rw [List.eq_nil_iff_forall_not_mem]
  intro x hx
  refine hlint x ((reportsUnbound_expr p.body [] hp hx rfl).mono fun d hd => ?_)
  exact List.mem_mergeSort.mpr (List.mem_append_right _ hd)

end Lint

namespace Machine

/-- The run of an expression in which no name is free never comes to a name without a binding. -/
theorem isFailure_unbound_of_free_eq_nil {e : Expr} (he : e.isSource = true) (hfree : e.free = [])
    {maxSteps : Int} {signal : Nat → Option Interrupt} {r : Result}
    (hr : Stops maxSteps signal 0 ⟨.empty, .empty, e⟩ r) {err : EvalError}
    (herr : r.outcome = .error err) : err.isFailure .unboundVariable = false := by
  have hcode : (Pairing.start False).Code .empty .empty e := ⟨Or.inl he, by simp [hfree]⟩
  -- the run goes beside itself, with no name admitted that has no binding
  have htwin : State.Twin (.start False) ⟨.empty, .empty, e⟩ ⟨.empty, .empty, e⟩ :=
    ⟨rfl, rfl, Pairing.linked_start False, .code hcode⟩
  obtain ⟨r', -, hr'⟩ := hr.twin htwin
  cases hr' with
  | error hloose =>
      cases herr
      exact Bool.eq_false_iff.mpr hloose
  | value _ _ _ => cases herr

/-- **Linting is sound for unbound names.** If linting reports no name of a program as not bound, then
no run of its body fails because of a name without a binding, whatever its budget is and however far
it goes. -/
theorem run_not_unbound_of_lint {p : Program} (hp : p.body.isSource = true)
    (hlint : ∀ x, ¬ Lint.ReportsUnbound (Lint.program p) x) {maxSteps : Int}
    {signal : Nat → Option Interrupt} {r : Result}
    (hr : run maxSteps signal ⟨.empty, .empty, p.body⟩ = some r) {e : EvalError}
    (he : r.outcome = .error e) : e.isFailure .unboundVariable = false :=
  isFailure_unbound_of_free_eq_nil hp (Lint.free_body_eq_nil hp hlint) (run_eq_some_iff.mp hr) he

/-- `(fun x -> x true) 1` fails, but not because of a name. -/
theorem run_not_unbound_of_lint_apply :
    run 0 quiet ⟨.empty, .empty, .app ⟨1, 2⟩
        (.fn ⟨1, 2⟩ "x" (.app ⟨1, 11⟩ (.var ⟨1, 11⟩ "x") [.bool ⟨1, 13⟩ true])) [.int ⟨1, 19⟩ 1]⟩
        = some ⟨.error (.failure (.callee ⟨1, 11⟩ (.int 1))), 6, ⟨#[], 1⟩⟩
      ∧ (EvalError.failure (.callee ⟨1, 11⟩ (.int 1))).isFailure .unboundVariable = false := by
  let p : Program := .ofExpr (.app ⟨1, 2⟩
    (.fn ⟨1, 2⟩ "x" (.app ⟨1, 11⟩ (.var ⟨1, 11⟩ "x") [.bool ⟨1, 13⟩ true])) [.int ⟨1, 19⟩ 1])
  have hwarnings : Lint.program p = [] := by
    have hbody : p.data.flatMap Lint.dataNaming ++ (Lint.expr [] p.body).warnings = [] := by
      decide +kernel
    rw [Lint.program, hbody, Diagnostic.sort, List.mergeSort_nil]
  have hlint : ∀ x, ¬ Lint.ReportsUnbound (Lint.program p) x := by
    simp [hwarnings, Lint.ReportsUnbound]
  have hrun : run 0 quiet ⟨.empty, .empty, p.body⟩
      = some ⟨.error (.failure (.callee ⟨1, 11⟩ (.int 1))), 6, ⟨#[], 1⟩⟩ := by
    apply run_eq_some_iff.mpr
    iterate 5 refine .state rfl rfl ?_
    exact .failure rfl rfl
  exact ⟨hrun, run_not_unbound_of_lint rfl hlint hrun rfl⟩

end Machine

end FunLang
