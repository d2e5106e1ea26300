import FunLang.Proofs.BigStep.Agreement
import FunLang.Proofs.Machine.Stops

set_option autoImplicit false

/-!
# Runs without a budget

Where nothing cuts a run short it stops exactly if its expression evaluates to an outcome, and the number
of its steps is the cost of the evaluation. The lemmas here speak of results and outcomes as a whole;
`Result.Shows` says which outcome a result stands for.
-/

namespace FunLang.Machine

/-- A run ends with an outcome. -/
def Result.Shows (r : Result) : Outcome → Prop
  | .value v σ => r.outcome = .ok v ∧ r.store = σ
  | .failure f => r.outcome = .error (.failure f)

/-- A run that ends with a value has evaluated its expression, whatever might have cut it short. -/
theorem Stops.exists_evaluates_of_ok {maxSteps : Int} {signal : Nat → Option Interrupt} {made : Nat}
    {s : State} {r : Result} {v : Value} (h : Stops maxSteps signal made s r) (hv : r.outcome = .ok v) :
    ∃ n, r.steps = made + n ∧ Evaluates .whole s.store s.env s.expr n (.value v r.store) := by
  induction h with
  | cut _ => cases hv
  | failure _ _ => cases hv
  | @value made s w σ _ hs =>
      cases hv
      have hend : s.Ends (.value v σ) := by simp [State.Ends, hs]
      exact ⟨1, rfl, (evaluates_iff_next s _ _).mpr (Or.inl ⟨rfl, hend⟩)⟩
  | @state made s t r _ hs _ ih =>
      obtain ⟨n, hsteps, he⟩ := ih hv
      exact ⟨n + 1, by omega, (evaluates_iff_next s _ _).mpr (Or.inr ⟨n, t, rfl, hs, he⟩)⟩

section Quiet

variable {maxSteps : Int} (hbudget : maxSteps ≤ 0) {made n : Nat} {s : State} {r : Result} {o : Outcome}
include hbudget

theorem Stops.exists_evaluates (h : Stops maxSteps quiet made s r) :
    ∃ n o, Evaluates .whole s.store s.env s.expr n o ∧ r.Shows o ∧ r.steps = made + n := by
  induction h with
  | cut hcut => simp [cutShort?_quiet hbudget] at hcut
  | @failure made s f _ hs =>
      have hend : s.Ends (.failure f) := by simp [State.Ends, hs]
      exact ⟨1, .failure f, (evaluates_iff_next s _ _).mpr (Or.inl ⟨rfl, hend⟩), rfl, rfl⟩
  | @value made s v σ _ hs =>
      have hend : s.Ends (.value v σ) := by simp [State.Ends, hs]
      exact ⟨1, .value v σ, (evaluates_iff_next s _ _).mpr (Or.inl ⟨rfl, hend⟩), ⟨rfl, rfl⟩, rfl⟩
  | @state made s t r _ hs _ ih =>
      obtain ⟨n, o, he, hr, hsteps⟩ := ih
      exact ⟨n + 1, o, (evaluates_iff_next s _ _).mpr (Or.inr ⟨n, t, rfl, hs, he⟩), hr, by omega⟩

theorem exists_stops_at_of_evaluates (h : Evaluates .whole s.store s.env s.expr n o) (made : Nat) :
    ∃ r, Stops maxSteps quiet made s r ∧ r.Shows o ∧ r.steps = made + n := by
  have hcut := cutShort?_quiet hbudget
  induction n generalizing s made with
  | zero => rcases (evaluates_iff_next s _ _).mp h with ⟨hn, -⟩ | ⟨m, t, hn, -⟩ <;> omega
  | succ n ih =>
      rcases (evaluates_iff_next s _ _).mp h with ⟨hn, hend⟩ | ⟨m, t, hm, ht, he⟩
      · obtain rfl : n = 0 := by omega
        unfold State.Ends at hend
        cases hs : s.next with
        | failure f =>
            simp only [hs] at hend
            subst hend
            exact ⟨_, .failure (hcut made) hs, rfl, rfl⟩
        | value v σ =>
            simp only [hs] at hend
            subst hend
            exact ⟨_, .value (hcut made) hs, ⟨rfl, rfl⟩, rfl⟩
        | state t => simp [hs] at hend
      · obtain rfl : n = m := by omega
        obtain ⟨r, hstops, hr, hsteps⟩ := ih he (made + 1)
        exact ⟨r, .state (hcut made) ht hstops, hr, by omega⟩

theorem exists_stops_of_evaluates (h : Evaluates .whole s.store s.env s.expr n o) (made : Nat) :
    ∃ r, Stops maxSteps quiet made s r ∧ r.Shows o := by
  obtain ⟨r, hstops, hr, -⟩ := exists_stops_at_of_evaluates hbudget h made
  exact ⟨r, hstops, hr⟩

theorem exists_evaluates_of_run (h : run maxSteps quiet s = some r) :
    ∃ o, Evaluates .whole s.store s.env s.expr r.steps o ∧ r.Shows o := by
  obtain ⟨n, o, he, hr, hsteps⟩ := (run_eq_some_iff.mp h).exists_evaluates hbudget
  obtain rfl : n = r.steps := by omega
  exact ⟨o, he, hr⟩

theorem exists_run_of_evaluates (h : Evaluates .whole s.store s.env s.expr n o) :
    ∃ r, run maxSteps quiet s = some r ∧ r.Shows o ∧ r.steps = n := by
  obtain ⟨r, hstops, hr, hsteps⟩ := exists_stops_at_of_evaluates hbudget h 0
  exact ⟨r, run_eq_some_iff.mpr hstops, hr, by omega⟩

theorem run_eq_of_evaluates {v : Value} {σ : Store}
    (h : Evaluates .whole s.store s.env s.expr n (.value v σ)) :
    run maxSteps quiet s = some ⟨.ok v, n, σ⟩ := by
  obtain ⟨⟨outcome, steps, store⟩, hrun, ⟨houtcome, hstore⟩, hsteps⟩ := exists_run_of_evaluates hbudget h
  subst houtcome hstore hsteps
  exact hrun

theorem evaluates_of_run_eq {v : Value} {σ : Store} (h : run maxSteps quiet s = some ⟨.ok v, n, σ⟩) :
    Evaluates .whole s.store s.env s.expr n (.value v σ) := by
  obtain ⟨o, he, ho⟩ := exists_evaluates_of_run hbudget h
  cases o with
  | failure f => cases ho
  | value w τ =>
      obtain ⟨hw, hτ⟩ := ho
      cases hw
      cases hτ
      exact he

end Quiet

end FunLang.Machine
