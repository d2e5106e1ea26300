import FunLang.Proofs.BigStep
import FunLang.Proofs.Machine.Stops

set_option autoImplicit false

/-!
# Steps and big-step evaluation agree

One step uses up one unit of cost and leads to what still has to be evaluated (`evaluates_iff_step`).
So an expression evaluates to an outcome at the cost of `n` exactly if the machine stops with it after
`n` steps.
-/

namespace FunLang

/-- What is left to do after a step under `env` that has led to `r`, if all of it, the step included,
costs `n` and ends with `o`. -/
def Continues (pl : Place) (env : Env) (r : Except Failure (Store × Step)) (n : Nat) (o : Outcome) :
    Prop :=
  match r with
  | .error f => n = 1 ∧ o = .failure f
  | .ok (σ, .done v) => n = 1 ∧ o = .value v σ
  | .ok (σ, .stay e) => ∃ m, n = m + 1 ∧ Evaluates pl σ env e m o
  | .ok (σ, .move e env') => ∃ m, n = m + 1 ∧ Evaluates .whole σ env' e m o

section Steps

variable {pl : Place} {σ : Store} {env : Env} {n : Nat} {o : Outcome}

/-! ## Expressions that wait for a part -/

theorem evaluates_within_iff {env' : Env} {e : Expr} :
    Evaluates pl σ env (.within env' e) n o ↔ Evaluates .whole σ env' e n o := by
  constructor
  · intro h
    cases h with
    | within he => exact he
  · exact .within

/-- A part of an expression makes its step in place. -/
theorem continues_part_iff {σ' : Store} {s : Step} :
    Continues .part env (.ok (σ', s)) n o ↔ ∃ m, n = m + 1 ∧ Evaluates .part σ' env s.inPlace m o := by
  cases s with
  | done v =>
      simp only [Continues, Step.inPlace, evaluates_part_value_iff]
      constructor
      · rintro ⟨rfl, rfl⟩
        exact ⟨0, rfl, rfl, rfl⟩
      · rintro ⟨m, rfl, rfl, rfl⟩
        exact ⟨rfl, rfl⟩
  | stay e => rfl
  | move e env' => simp only [Continues, Step.inPlace, evaluates_within_iff]

/-- A step of a part is a step of the expression that waits for it. -/
theorem evaluates_fill_iff_step {K : Frame} {e : Expr} (he : e.value? = none)
    (ih : ∀ n o, Evaluates .part σ env e n o ↔ Continues .part env (step σ env e) n o) :
    Evaluates pl σ env (K.fill e) n o ↔ Continues pl env (step σ env (K.fill e)) n o := by
  rw [evaluates_fill_iff, step_fill σ env K he]
  simp only [Operand, ih]
  cases step σ env e with
  | error f =>
      constructor
      · rintro ⟨n₁, n₂, o₁, ⟨rfl, rfl⟩, ⟨rfl, rfl⟩, rfl⟩
        exact ⟨rfl, rfl⟩
      · rintro ⟨rfl, rfl⟩
        exact ⟨1, 0, _, ⟨rfl, rfl⟩, ⟨rfl, rfl⟩, rfl⟩
  | ok r =>
      obtain ⟨σ', s⟩ := r
      show _ ↔ ∃ m, n = m + 1 ∧ Evaluates pl σ' env (K.fill s.inPlace) m o
      simp only [continues_part_iff, evaluates_fill_iff K, Operand]
      -- the step is charged to the part, on both sides
      constructor
      · rintro ⟨n₁, n₂, o₁, ⟨m, rfl, he⟩, hK, rfl⟩
        exact ⟨m + n₂, by omega, m, n₂, o₁, he, hK, rfl⟩
      · rintro ⟨k, rfl, m, n₂, o₁, he, hK, rfl⟩
        exact ⟨m + 1, n₂, o₁, ⟨m, rfl, he⟩, hK, by omega⟩

/-- An expression under an environment of its own takes its steps there. -/
theorem continues_leaving_iff {env' : Env} {r : Except Failure (Store × Step)} :
    Continues pl env (r.map fun r => (r.1, r.2.leaving env')) n o ↔ Continues .whole env' r n o := by
  cases r with
  | error f => rfl
  | ok r =>
      obtain ⟨σ', s⟩ := r
      cases s <;> rfl

/-! ## Expressions that make a step by themselves -/

theorem evaluates_value_iff_step {v : Value} :
    Evaluates .whole σ env (.value v) n o ↔ Continues .whole env (step σ env (.value v)) n o := by
  rw [step]
  by_cases hv : v = .absent
  · subst hv
    constructor
    · intro he
      cases he with
      | value_whole hv => exact absurd rfl hv
      | value_absent => exact ⟨1, rfl, .missing⟩
    · rintro ⟨m, rfl, he⟩
      cases he
      exact .value_absent
  · rw [Step.ofValue_of_ne hv]
    constructor
    · intro he
      cases he with
      | value_whole _ => exact ⟨rfl, rfl⟩
      | value_absent => exact absurd rfl hv
    · rintro ⟨rfl, rfl⟩
      exact .value_whole hv

theorem evaluates_var_iff_step {p : Pos} {x : String} :
    Evaluates pl σ env (.var p x) n o ↔ Continues pl env (step σ env (.var p x)) n o := by
  rw [step]
  cases h : env.lookup σ x with
  | unbound =>
      constructor
      · intro he
        cases he with
        | var h' _ => cases h.symm.trans h'
        | var_absent h' => cases h.symm.trans h'
        | var_unbound _ => exact ⟨rfl, rfl⟩
      · rintro ⟨rfl, rfl⟩
        exact .var_unbound h
  | unresolved =>
      -- the step leads back to where it started, and there is no rule
      have hnone : ∀ n, ¬ Evaluates pl σ env (.var p x) n o := by
        intro n he
        cases he with
        | var h' _ => cases h.symm.trans h'
        | var_absent h' => cases h.symm.trans h'
        | var_unbound h' => cases h.symm.trans h'
      simp [Continues, hnone]
  | found v =>
      by_cases hv : v = .absent
      · subst hv
        constructor
        · intro he
          cases he with
          | var h' hv' => cases h.symm.trans h'; exact absurd rfl hv'
          | var_absent _ => exact ⟨1, rfl, .missing⟩
          | var_unbound h' => cases h.symm.trans h'
        · rintro ⟨m, rfl, he⟩
          cases he
          exact .var_absent h
      · simp only [Step.ofValue_of_ne hv]
        constructor
        · intro he
          cases he with
          | var h' _ => cases h.symm.trans h'; exact ⟨rfl, rfl⟩
          | var_absent h' => cases h.symm.trans h'; exact absurd rfl hv
          | var_unbound h' => cases h.symm.trans h'
        · rintro ⟨rfl, rfl⟩
          exact .var h hv

theorem evaluates_binary_iff_step {p : Pos} {op : BinOp} {a b : Value} :
    Evaluates pl σ env (.binary p op (.value a) (.value b)) n o ↔
      Continues pl env (step σ env (.binary p op (.value a) (.value b))) n o := by
  have hrule : Evaluates pl σ env (.binary p op (.value a) (.value b)) n o ↔
      n = 1 ∧ o = op.outcome p a b σ := by
    constructor
    · intro he
      cases he with
      | binary hl hr => cases hl; cases hr; exact ⟨rfl, rfl⟩
      | binary_left hl => cases hl
      | binary_right hl hr => cases hr
    · rintro ⟨rfl, rfl⟩
      exact .binary .value_part .value_part
  rw [hrule, step]
  simp only [Expr.value?, BinOp.outcome]
  cases op.eval? a b <;> rfl

theorem evaluates_cond_iff_step {p : Pos} {v : Value} {t e : Expr} :
    Evaluates pl σ env (.cond p (.value v) t e) n o ↔
      Continues pl env (step σ env (.cond p (.value v) t e)) n o := by
  rw [step]
  constructor
  · intro he
    cases he with
    | cond_yes hc ht => cases hc; exact ⟨_, by omega, ht⟩
    | cond_no hc he => cases hc; exact ⟨_, by omega, he⟩
    | cond_test hc => cases hc
    | cond_other hc hv =>
        cases hc
        cases v with
        | bool b => simp [Value.isTruth] at hv
        | _ => exact ⟨rfl, rfl⟩
  · intro h
    cases v with
    | bool b =>
        cases b with
        | true =>
            obtain ⟨m, rfl, ht⟩ := h
            exact .of_zero_add (.cond_yes .value_part ht)
        | false =>
            obtain ⟨m, rfl, he⟩ := h
            exact .of_zero_add (.cond_no .value_part he)
    | _ =>
        obtain ⟨rfl, rfl⟩ := h
        exact .cond_other .value_part rfl

theorem applyValue_of_not_callable {p : Pos} {g v : Value} {rest : List Expr}
    (hg : g.isCallable = false) : applyValue p g v rest = .error (.callee p g) := by
  cases g with
  | closure label x body env' => simp [Value.isCallable] at hg
  | data c fields => simp [Value.isCallable] at hg
  | _ => cases rest <;> rfl

theorem evaluates_app_iff_step {p : Pos} {g v : Value} {rest : List Expr} :
    Evaluates pl σ env (.app p (.value g) (.value v :: rest)) n o ↔
      Continues pl env (step σ env (.app p (.value g) (.value v :: rest))) n o := by
  have hstep : step σ env (.app p (.value g) (.value v :: rest))
      = (applyValue p g v rest).map fun s => (σ, s) := by
    rw [step]
    simp only [Expr.value?]
    cases applyValue p g v rest <;> rfl
  rw [hstep]
  constructor
  · intro he
    -- both parts are values already and cost nothing, so the rules that evaluate them fall away
    cases he with
    | app_arg ha => cases ha
    | app_callee ha hf => cases hf
    | app_closure_last ha hf hb => cases ha; cases hf; exact ⟨_, by omega, hb⟩
    | app_closure ha hf hb => cases ha; cases hf; exact ⟨_, by omega, hb⟩
    | app_data_last ha hf => cases ha; cases hf; exact ⟨rfl, rfl⟩
    | app_data ha hf hb => cases ha; cases hf; exact ⟨_, by omega, hb⟩
    | app_other ha hf hg =>
        cases ha; cases hf
        rw [applyValue_of_not_callable hg]
        exact ⟨rfl, rfl⟩
  · intro h
    cases g with
    | closure label x body env' =>
        cases rest with
        | nil =>
            obtain ⟨m, rfl, hb⟩ := h
            exact .of_zero_add (.of_zero_add (.app_closure_last .value_part .value_part hb))
        | cons b rest =>
            obtain ⟨m, rfl, hb⟩ := h
            exact .of_zero_add (.of_zero_add (.app_closure .value_part .value_part hb))
    | data c fields =>
        cases rest with
        | nil =>
            obtain ⟨rfl, rfl⟩ := h
            exact .app_data_last .value_part .value_part
        | cons b rest =>
            obtain ⟨m, rfl, hb⟩ := h
            exact .of_zero_add (.of_zero_add (.app_data .value_part .value_part hb))
    | _ =>
        rw [applyValue_of_not_callable rfl] at h
        obtain ⟨rfl, rfl⟩ := h
        exact .app_other .value_part .value_part rfl

/-- A `let` makes its knot and goes on as a `let` whose knot is being tied. -/
theorem evaluates_letIn_iff_step {p : Pos} {x : String} {bound body : Expr} :
    Evaluates pl σ env (.letIn p x bound body) n o ↔
      Continues pl env (step σ env (.letIn p x bound body)) n o := by
  rw [step]
  constructor
  · intro he
    cases he with
    | letIn hb he => exact ⟨_, rfl, .tying (.within hb) he⟩
    | letIn_bound hb => exact ⟨_, rfl, .tying_bound (.within hb)⟩
  · rintro ⟨m, rfl, he⟩
    cases he with
    | tying hb he =>
        cases hb with
        | within hb => exact .letIn hb he
    | tying_bound hb =>
        cases hb with
        | within hb => exact .letIn_bound hb

theorem evaluates_tying_iff_step {x : String} {k : Nat} {v : Value} {body : Expr} :
    Evaluates pl σ env (.tying x k (.value v) body) n o ↔
      Continues pl env (step σ env (.tying x k (.value v) body)) n o := by
  rw [step]
  constructor
  · intro he
    cases he with
    | tying hb he => cases hb; exact ⟨_, by omega, he⟩
    | tying_bound hb => cases hb
  · rintro ⟨m, rfl, he⟩
    exact .of_zero_add (.tying .value_part he)

theorem evaluates_cases_iff_step {p : Pos} {v : Value} {alts : List Alt} :
    Evaluates pl σ env (.cases p (.value v) alts) n o ↔
      Continues pl env (step σ env (.cases p (.value v) alts)) n o := by
  rw [step]
  simp only [Expr.value?]
  constructor
  · intro he
    cases he with
    | cases_bare hs ha he => cases hs; rw [ha]; exact ⟨_, by omega, he⟩
    | cases_bind hs ha he => cases hs; rw [ha]; exact ⟨_, by omega, he⟩
    | cases_scrutinee hs => cases hs
    | cases_unmatched hs ha => cases hs; rw [ha]; exact ⟨rfl, rfl⟩
  · intro h
    split at h
    · next ha =>
      obtain ⟨m, rfl, he⟩ := h
      exact .of_zero_add (.cases_bare .value_part ha he)
    · next ha =>
      obtain ⟨m, rfl, he⟩ := h
      exact .of_zero_add (.cases_bind .value_part ha he)
    · next ha =>
      obtain ⟨rfl, rfl⟩ := h
      exact .cases_unmatched .value_part ha

theorem evaluates_redex_iff_step {e : Expr} (he : Redex e) (hpl : pl = .part → e.value? = none) :
    Evaluates pl σ env e n o ↔ Continues pl env (step σ env e) n o := by
  cases he with
  | value v =>
      cases pl with
      | whole => exact evaluates_value_iff_step
      | part => simp [Expr.value?] at hpl
  | var p x => exact evaluates_var_iff_step
  | binary p op a b => exact evaluates_binary_iff_step
  | cond p v t e => exact evaluates_cond_iff_step
  | app p g v rest => exact evaluates_app_iff_step
  | letIn p x bound body => exact evaluates_letIn_iff_step
  | tying x k v body => exact evaluates_tying_iff_step
  | cases p v alts => exact evaluates_cases_iff_step
  | app_nil p f =>
      rw [step]
      constructor
      · intro h
        cases h with
        | app_nil h => exact ⟨_, rfl, h⟩
      · rintro ⟨m, rfl, h⟩
        exact .app_nil h
  | annot p e t =>
      rw [step]
      constructor
      · intro h
        cases h with
        | annot h => exact ⟨_, rfl, h⟩
      · rintro ⟨m, rfl, h⟩
        exact .annot h
  | int | bool | fn | ctor | missing | custom | wrapped =>
      -- one step and one rule, with nothing to evaluate before it
      constructor
      · intro h
        cases h
        exact ⟨rfl, rfl⟩
      · rintro ⟨rfl, rfl⟩
        constructor

end Steps

/-! ## Runs -/

/-- Evaluating an expression is making a step and evaluating what it leads to. -/
theorem evaluates_iff_step (σ : Store) (env : Env) (e : Expr) :
    ∀ (pl : Place) (n : Nat) (o : Outcome), (pl = .part → e.value? = none) →
      (Evaluates pl σ env e n o ↔ Continues pl env (step σ env e) n o) := by
  induction env, e using Expr.focus_induction with
  | redex env e he =>
      intro pl n o hpl
      exact evaluates_redex_iff_step he hpl
  | within env env' e ih =>
      intro pl n o _
      rw [evaluates_within_iff, step_within, continues_leaving_iff]
      exact ih .whole n o (by simp)
  | frame env K e he ih =>
      intro pl n o _
      exact evaluates_fill_iff_step he fun n o => ih .part n o fun _ => he

namespace Machine

/-- The next step is the last one and ends with `o`. -/
def State.Ends (s : State) (o : Outcome) : Prop :=
  match s.next with
  | .failure f => o = .failure f
  | .value v σ => o = .value v σ
  | .state _ => False

/-- One step of a state, in terms of big-step evaluation. -/
theorem evaluates_iff_next (s : State) (n : Nat) (o : Outcome) :
    Evaluates .whole s.store s.env s.expr n o ↔
      n = 1 ∧ s.Ends o ∨
        ∃ m s', n = m + 1 ∧ s.next = .state s' ∧ Evaluates .whole s'.store s'.env s'.expr m o := by
  rw [evaluates_iff_step _ _ _ _ _ _ (by simp)]
  unfold State.Ends State.next
  cases step s.store s.env s.expr with
  | error f => simp [Continues]
  | ok r =>
      obtain ⟨σ, t⟩ := r
      cases t <;> simp [Continues]

/-- An expression evaluates at the cost of `n` if the `n`-th step is the last one. -/
theorem evaluates_iff_after? (n : Nat) (s : State) (o : Outcome) :
    Evaluates .whole s.store s.env s.expr n o ↔
      ∃ m s', n = m + 1 ∧ s.after? m = some s' ∧ s'.Ends o := by
  induction n generalizing s with
  | zero =>
      rw [evaluates_iff_next]
      simp
  | succ n ih =>
      rw [evaluates_iff_next]
      constructor
      · rintro (⟨hn, hs⟩ | ⟨m, t, hm, ht, he⟩)
        · exact ⟨0, s, by omega, rfl, hs⟩
        · obtain rfl : n = m := by omega
          obtain ⟨k, s', rfl, hk, hs⟩ := (ih t).mp he
          exact ⟨k + 1, s', rfl, by rw [State.after?_succ_of_next ht, hk], hs⟩
      · rintro ⟨m, s', hm, hs, hend⟩
        obtain rfl : n = m := by omega
        cases n with
        | zero =>
            cases hs
            exact Or.inl ⟨rfl, hend⟩
        | succ k =>
            simp only [State.after?] at hs
            cases ht : s.next with
            | failure f => simp [ht] at hs
            | value v σ => simp [ht] at hs
            | state t =>
                simp only [ht] at hs
                exact Or.inr ⟨k + 1, t, rfl, rfl, (ih t).mpr ⟨k, s', rfl, hs, hend⟩⟩

theorem last?_value_iff {s : State} {m n : Nat} {v : Value} {σ : Store} :
    s.last? m = some ⟨.ok v, n, σ⟩ ↔ n = m + 1 ∧ s.Ends (.value v σ) := by
  unfold State.last? State.Ends
  cases s.next with
  | failure f => simp
  | value w τ =>
      simp only [Option.some.injEq, Result.mk.injEq, Except.ok.injEq, Outcome.value.injEq]
      constructor
      · rintro ⟨rfl, rfl, rfl⟩
        exact ⟨rfl, rfl, rfl⟩
      · rintro ⟨rfl, rfl, rfl⟩
        exact ⟨rfl, rfl, rfl⟩
  | state t => simp

theorem last?_failure_iff {s : State} {m n : Nat} {f : Failure} :
    (∃ σ, s.last? m = some ⟨.error (.failure f), n, σ⟩) ↔ n = m + 1 ∧ s.Ends (.failure f) := by
  unfold State.last? State.Ends
  cases s.next with
  | failure g =>
      simp only [Option.some.injEq, Result.mk.injEq, Except.error.injEq, EvalError.failure.injEq,
        Outcome.failure.injEq]
      constructor
      · rintro ⟨σ, rfl, rfl, -⟩
        exact ⟨rfl, rfl⟩
      · rintro ⟨rfl, rfl⟩
        exact ⟨_, rfl, rfl, rfl⟩
  | value w τ => simp
  | state t => simp

/-- The machine and big-step evaluation agree, step for step of cost: a run without a budget stops with a
value after `n` steps exactly if the expression evaluates to it at the cost of `n`, and likewise for
failures. -/
theorem run_iff_evaluates (σ : Store) (env : Env) (e : Expr) (n : Nat) :
    (∀ v σ', run 0 quiet ⟨σ, env, e⟩ = some ⟨.ok v, n, σ'⟩ ↔
      Evaluates .whole σ env e n (.value v σ')) ∧
    ∀ f, (∃ σ', run 0 quiet ⟨σ, env, e⟩ = some ⟨.error (.failure f), n, σ'⟩) ↔
      Evaluates .whole σ env e n (.failure f) := by
  constructor
  · intro v σ'
    rw [run_quiet_iff, evaluates_iff_after? n ⟨σ, env, e⟩]
    constructor
    · rintro ⟨m, s', hs, hr⟩
      obtain ⟨hn, hend⟩ := last?_value_iff.mp hr
      exact ⟨m, s', hn, hs, hend⟩
    · rintro ⟨m, s', hn, hs, hend⟩
      exact ⟨m, s', hs, last?_value_iff.mpr ⟨hn, hend⟩⟩
  · intro f
    rw [evaluates_iff_after? n ⟨σ, env, e⟩]
    constructor
    · rintro ⟨σ', h⟩
      obtain ⟨m, s', hs, hr⟩ := (run_quiet_iff _ _).mp h
      obtain ⟨hn, hend⟩ := last?_failure_iff.mp ⟨σ', hr⟩
      exact ⟨m, s', hn, hs, hend⟩
    · rintro ⟨m, s', hn, hs, hend⟩
      obtain ⟨σ', hr⟩ := last?_failure_iff.mpr ⟨hn, hend⟩
      exact ⟨σ', (run_quiet_iff _ _).mpr ⟨m, s', hs, hr⟩⟩

end Machine

end FunLang
