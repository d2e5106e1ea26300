import FunLang.Proofs.Annotations.Erased
import FunLang.Proofs.BigStep.Runs

set_option autoImplicit false

/-!
# Annotations do not matter

An expression and its erasure come to the same end. The expression takes more steps: where it passes over
an annotation, or over an application to no argument, the erasure does nothing (`Skips`). Every other
expression that makes a step by itself makes the same step after erasing (`Redex.step_erased`).

Both directions of the main statement follow the cost of an evaluation, and for equal cost the size of
the expression.
-/

namespace FunLang

/-! ## Steps -/

namespace Step

def erased : Step → Step
  | done v => .done v.erased
  | stay e => .stay e.erased
  | move e env => .move e.erased env.erased

theorem ofValue_erased (v : Value) : Step.ofValue v.erased = (Step.ofValue v).erased := by
  cases v <;> rfl

end Step

/-- What a step leads to, without annotations. -/
def erasedStep (r : Store × Step) : Store × Step := (r.1.erased, r.2.erased)

theorem applyValue_erased (p : Pos) (g v : Value) (rest : List Expr) :
    applyValue p g.erased v.erased (Expr.erasedAll rest)
      = (applyValue p g v rest).map Step.erased := by
  have hcallee : ∀ w : Value, Failure.callee p w.erased = Failure.callee p w := by
    intro w
    simp [Failure.callee, Value.kind_erased, Value.render_erased]
  cases g with
  | closure label x body env => cases rest <;> rfl
  | data c fields =>
      have hfields : Value.erasedAll fields ++ [v.erased] = Value.erasedAll (fields ++ [v]) := by
        simp [Value.erasedAll_append, Value.erasedAll]
      cases rest with
      | nil => simp [Value.erased, applyValue, Expr.erasedAll, hfields, Except.map, Step.erased]
      | cons a rest =>
          simp [Value.erased, applyValue, Expr.erasedAll, hfields, Except.map, Step.erased, Expr.erased]
  | absent => exact congrArg Except.error (hcallee .absent)
  | int n => exact congrArg Except.error (hcallee (.int n))
  | bool b => exact congrArg Except.error (hcallee (.bool b))

/-- The expressions that are passed over in one step. -/
inductive Skips : Expr → Expr → Prop where
  | annot (p : Pos) (e : Expr) (t : Ty) : Skips (.annot p e t) e
  | app_nil (p : Pos) (f : Expr) : Skips (.app p f []) f

theorem Skips.erased_eq {a e : Expr} (h : Skips a e) : a.erased = e.erased := by
  cases h with
  | annot p e t => rw [Expr.erased]
  | app_nil p f => rw [Expr.erased]

theorem Skips.sizeOf_lt {a e : Expr} (h : Skips a e) : sizeOf e < sizeOf a := by
  cases h with
  | annot p e t =>
      rw [Expr.annot.sizeOf_spec]
      omega
  | app_nil p f =>
      rw [Expr.app.sizeOf_spec]
      omega

/-- An expression that makes its step by itself, and is not passed over, makes it after erasing. -/
theorem Redex.step_erased {e : Expr} (he : Redex e) (hskip : ∀ a, ¬ Skips e a) (σ : Store) (env : Env) :
    step σ.erased env.erased e.erased = (step σ env e).map erasedStep := by
  cases he with
  | value v =>
      simp only [Expr.erased, step, Step.ofValue_erased]
      rfl
  | var p x =>
      simp only [Expr.erased, step, Env.lookup_erased]
      cases env.lookup σ x with
      | found v =>
          simp only [Lookup.erased, Step.ofValue_erased]
          rfl
      | unresolved => rfl
      | unbound => rfl
  | int p n => rfl
  | bool p b => rfl
  | binary p op a b =>
      simp only [Expr.erased, step, Expr.value?_value, BinOp.eval?_erased]
      cases op.eval? a b with
      | some v => rfl
      | none => simp [Except.map, Failure.operands, Value.render_erased]
  | cond p v t e =>
      simp only [Expr.erased, step, Expr.value?_value]
      cases v with
      | bool b => cases b <;> rfl
      | _ => simp [Value.erased, Except.map, Failure.condition, Value.kind, Value.render,
          Value.renderFields_erased]
  | fn p x body => rfl
  | app_nil p f => exact absurd (Skips.app_nil p f) (hskip f)
  | app p g v rest =>
      simp only [Expr.erased, step, Expr.value?_value, applyValue_erased]
      cases applyValue p g v rest <;> rfl
  | letIn p x bound body =>
      simp only [Expr.erased, step, Store.size_erased, ← Store.addKnot_erased]
      rfl
  | tying x k v body =>
      simp only [Expr.erased, step, Expr.value?_value, ← Store.resolve_erased]
      rfl
  | annot p e t => exact absurd (Skips.annot p e t) (hskip e)
  | ctor p c => rfl
  | cases p v alts =>
      simp only [Expr.erased, step, Expr.value?_value, Alt.select?_erased]
      cases Alt.select? alts v with
      | none => simp [Except.map, Failure.unmatched, Value.render_erased]
      | some taken =>
          obtain ⟨e, bs⟩ := taken
          cases bs with
          | nil => rfl
          | cons b bs =>
              have hbind := Env.bindAll_erased (b :: bs) env
              simp only [Env.erasedBindings, List.map_cons] at hbind
              simp [Env.erasedBindings, Except.map, erasedStep, Step.erased, hbind]
  | missing => rfl
  | custom form text => rfl
  | wrapped form e => rfl

/-! ## Frames -/

def Frame.erased : Frame → Frame
  | left p op r => .left p op r.erased
  | right p op a => .right p op a.erased
  | test p t e => .test p t.erased e.erased
  | arg p f rest => .arg p f.erased (Expr.erasedAll rest)
  | callee p v rest => .callee p v.erased (Expr.erasedAll rest)
  | bound x k body => .bound x k body.erased
  | scrutinee p alts => .scrutinee p (Alt.erasedAll alts)

theorem Frame.fill_erased (K : Frame) (e : Expr) : (K.fill e).erased = K.erased.fill e.erased := by
  cases K <;> simp [Frame.fill, Frame.erased, Expr.erased]

theorem Frame.sizeOf_lt_fill (K : Frame) (e : Expr) : sizeOf e < sizeOf (K.fill e) := by
  cases K <;> simp [Frame.fill] <;> omega

theorem Frame.sizeOf_fill_lt (K : Frame) {a b : Expr} (h : sizeOf b < sizeOf a) :
    sizeOf (K.fill b) < sizeOf (K.fill a) := by
  cases K <;> simp [Frame.fill] <;> omega

/-- An expression makes its step by itself, is under an environment of its own, or waits for a part. -/
theorem Expr.focus_cases (e : Expr) :
    Redex e ∨ (∃ env a, e = .within env a) ∨ ∃ (K : Frame) (a : Expr), a.value? = none ∧ e = K.fill a := by
  refine Expr.focus_induction (motive := fun _ e => Redex e ∨ (∃ env a, e = .within env a) ∨
    ∃ (K : Frame) (a : Expr), a.value? = none ∧ e = K.fill a) ?_ ?_ ?_ .empty e
  · exact fun _ _ he => Or.inl he
  · exact fun _ env a _ => Or.inr (Or.inl ⟨env, a, rfl⟩)
  · exact fun _ K a ha _ => Or.inr (Or.inr ⟨K, a, ha, rfl⟩)

/-- An expression whose erasure is a value is one, or is passed over. -/
theorem Expr.value?_erased {e : Expr} (he : e.value? = none) (hskip : ∀ a, ¬ Skips e a) :
    e.erased.value? = none := by
  cases e with
  | value v => simp at he
  | annot p e t => exact absurd (Skips.annot p e t) (hskip e)
  | app p f args =>
      cases args with
      | nil => exact absurd (Skips.app_nil p f) (hskip f)
      | cons a rest => rfl
  | _ => rfl

/-! ## Evaluations -/

section Evaluations

variable {pl : Place} {σ : Store} {env : Env} {e : Expr} {n : Nat} {o : Outcome}

/-- Only a value that another expression waits for costs nothing. -/
theorem Evaluates.pos (h : Evaluates pl σ env e n o) (hpl : pl = .part → e.value? = none) : 0 < n := by
  have hsteps := (evaluates_iff_step σ env e pl n o hpl).mp h
  unfold Continues at hsteps
  split at hsteps
  · omega
  · omega
  · obtain ⟨m, rfl, -⟩ := hsteps
    omega
  · obtain ⟨m, rfl, -⟩ := hsteps
    omega

theorem Skips.evaluates_iff {a : Expr} (h : Skips a e) :
    Evaluates pl σ env a n o ↔ ∃ m, n = m + 1 ∧ Evaluates pl σ env e m o := by
  constructor
  · intro ha
    cases h with
    | annot p e t =>
        cases ha with
        | annot he => exact ⟨_, rfl, he⟩
    | app_nil p f =>
        cases ha with
        | app_nil hf => exact ⟨_, rfl, hf⟩
  · rintro ⟨m, rfl, he⟩
    cases h with
    | annot p e t => exact .annot he
    | app_nil p f => exact .app_nil he

theorem Skips.evaluates_fill {a : Expr} (h : Skips a e) (K : Frame)
    (he : Evaluates pl σ env (K.fill e) n o) : Evaluates pl σ env (K.fill a) (n + 1) o := by
  obtain ⟨n₁, n₂, o₁, he₁, hthen, rfl⟩ := (evaluates_fill_iff K).mp he
  have ha : Evaluates .part σ env a (n₁ + 1) o₁ := h.evaluates_iff.mpr ⟨n₁, rfl, he₁⟩
  exact (evaluates_fill_iff K).mpr ⟨n₁ + 1, n₂, o₁, ha, hthen, by omega⟩

def Outcome.erased : Outcome → Outcome
  | .value v σ => .value v.erased σ.erased
  | .failure f => .failure f

theorem Continues.exists_erased {r : Except Failure (Store × Step)} (h : Continues pl env r n o)
    (ih : ∀ pl σ env e m, m < n → Evaluates pl σ env e m o →
      ∃ k, Evaluates pl σ.erased env.erased e.erased k o.erased) :
    ∃ k, Continues pl env.erased (r.map erasedStep) k o.erased := by
  cases r with
  | error f =>
      obtain ⟨rfl, rfl⟩ := h
      exact ⟨1, rfl, rfl⟩
  | ok r =>
      obtain ⟨σ', s⟩ := r
      cases s with
      | done v =>
          obtain ⟨rfl, rfl⟩ := h
          exact ⟨1, rfl, rfl⟩
      | stay e' =>
          obtain ⟨m, rfl, he⟩ := h
          obtain ⟨k, hk⟩ := ih _ _ _ _ m (by omega) he
          exact ⟨k + 1, k, rfl, hk⟩
      | move e' env' =>
          obtain ⟨m, rfl, he⟩ := h
          obtain ⟨k, hk⟩ := ih _ _ _ _ m (by omega) he
          exact ⟨k + 1, k, rfl, hk⟩

theorem Continues.exists_of_erased {r : Except Failure (Store × Step)}
    (h : Continues pl env.erased (r.map erasedStep) n o)
    (ih : ∀ pl σ env e m, m < n → Evaluates pl σ.erased env.erased e.erased m o →
      ∃ k o', Evaluates pl σ env e k o' ∧ o'.erased = o) :
    ∃ k o', Continues pl env r k o' ∧ o'.erased = o := by
  cases r with
  | error f =>
      obtain ⟨rfl, rfl⟩ := h
      exact ⟨1, .failure f, ⟨rfl, rfl⟩, rfl⟩
  | ok r =>
      obtain ⟨σ', s⟩ := r
      cases s with
      | done v =>
          obtain ⟨rfl, rfl⟩ := h
          exact ⟨1, .value v σ', ⟨rfl, rfl⟩, rfl⟩
      | stay e' =>
          obtain ⟨m, rfl, he⟩ := h
          obtain ⟨k, o', hk, ho⟩ := ih _ _ _ _ m (by omega) he
          exact ⟨k + 1, o', ⟨k, rfl, hk⟩, ho⟩
      | move e' env' =>
          obtain ⟨m, rfl, he⟩ := h
          obtain ⟨k, o', hk, ho⟩ := ih _ _ _ _ m (by omega) he
          exact ⟨k + 1, o', ⟨k, rfl, hk⟩, ho⟩

/-- Induction over the cost of an evaluation and, for the same cost, over the size of the expression. -/
theorem cost_induction {motive : Nat → Expr → Prop}
    (h : ∀ n e, (∀ m a, m < n ∨ m ≤ n ∧ sizeOf a < sizeOf e → motive m a) → motive n e) :
    ∀ n e, motive n e := by
  intro n
  induction n using Nat.strong_induction_on with
  | _ n ihn =>
      intro e
      induction hs : sizeOf e using Nat.strong_induction_on generalizing e with
      | _ s ihs =>
          refine h n e fun m a hlt => ?_
          by_cases hm : m < n
          · exact ihn m hm a
          · obtain rfl : m = n := by omega
            exact ihs (sizeOf a) (by omega) a rfl

/-- What an expression comes to, its erasure comes to as well. -/
theorem Evaluates.exists_erased (h : Evaluates pl σ env e n o) :
    ∃ m, Evaluates pl σ.erased env.erased e.erased m o.erased := by
  induction n, e using cost_induction generalizing pl σ env o with
  | _ n e ih =>
      rcases e.focus_cases with hredex | ⟨env', a, rfl⟩ | ⟨K, a, ha, rfl⟩
      · by_cases hskip : ∃ a, Skips e a
        · obtain ⟨a, hskip⟩ := hskip
          obtain ⟨m, rfl, ha⟩ := hskip.evaluates_iff.mp h
          rw [hskip.erased_eq]
          exact ih m a (by omega) ha
        · rw [not_exists] at hskip
          by_cases hpl : pl = .part ∧ e.value? ≠ none
          · -- a part that is a value makes no step
            obtain ⟨rfl, hvalue⟩ := hpl
            obtain ⟨v, hv⟩ := Option.ne_none_iff_exists'.mp hvalue
            obtain rfl := Expr.eq_value_of_value? hv
            obtain ⟨rfl, rfl⟩ := evaluates_part_value_iff.mp h
            exact ⟨0, .value_part⟩
          · have hpl : pl = .part → e.value? = none := by simpa using hpl
            have hpl' : pl = .part → e.erased.value? = none := fun h => Expr.value?_erased (hpl h) hskip
            have hsteps := (evaluates_iff_step _ _ _ _ _ _ hpl).mp h
            obtain ⟨k, hk⟩ := hsteps.exists_erased fun _ _ _ a m hm => ih m a (Or.inl hm)
            rw [← hredex.step_erased hskip] at hk
            exact ⟨k, (evaluates_iff_step _ _ _ _ _ _ hpl').mpr hk⟩
      · have hsize : sizeOf a < sizeOf (Expr.within env' a) := by simp
        obtain ⟨m, hm⟩ := ih n a (by omega) (evaluates_within_iff.mp h)
        exact ⟨m, .within hm⟩
      · obtain ⟨n₁, n₂, o₁, ha₁, hthen, rfl⟩ := (evaluates_fill_iff K).mp h
        -- the part is smaller than the whole, and as it costs something the rest costs less
        have hpos := ha₁.pos fun _ => ha
        have hsize := K.sizeOf_lt_fill a
        obtain ⟨m₁, hm₁⟩ := ih n₁ a (by omega) ha₁
        rw [K.fill_erased]
        cases o₁ with
        | failure f =>
            obtain ⟨rfl, rfl⟩ := hthen
            exact ⟨m₁, .fill_failure _ hm₁⟩
        | value v σ₁ =>
            obtain ⟨m₂, hm₂⟩ := ih n₂ (K.fill (.value v)) (by omega) hthen
            rw [K.fill_erased] at hm₂
            exact ⟨m₁ + m₂, .fill_value hm₁ hm₂⟩

/-- What the erasure of an expression comes to, the expression comes to as well. -/
theorem Evaluates.exists_of_erased (h : Evaluates pl σ.erased env.erased e.erased n o) :
    ∃ m o', Evaluates pl σ env e m o' ∧ o'.erased = o := by
  induction n, e using cost_induction generalizing pl σ env o with
  | _ n e ih =>
      rcases e.focus_cases with hredex | ⟨env', a, rfl⟩ | ⟨K, a, ha, rfl⟩
      · by_cases hskip : ∃ a, Skips e a
        · obtain ⟨a, hskip⟩ := hskip
          have hsize := hskip.sizeOf_lt
          rw [hskip.erased_eq] at h
          -- the erasure makes no step here, but what is left is smaller
          obtain ⟨m, o', ha, ho⟩ := ih n a (by omega) h
          exact ⟨m + 1, o', hskip.evaluates_iff.mpr ⟨m, rfl, ha⟩, ho⟩
        · rw [not_exists] at hskip
          by_cases hpl : pl = .part ∧ e.value? ≠ none
          · obtain ⟨rfl, hvalue⟩ := hpl
            obtain ⟨v, hv⟩ := Option.ne_none_iff_exists'.mp hvalue
            obtain rfl := Expr.eq_value_of_value? hv
            obtain ⟨rfl, rfl⟩ := evaluates_part_value_iff.mp h
            exact ⟨0, .value v σ, .value_part, rfl⟩
          · have hpl : pl = .part → e.value? = none := by simpa using hpl
            have hpl' : pl = .part → e.erased.value? = none := fun h => Expr.value?_erased (hpl h) hskip
            have hsteps := (evaluates_iff_step _ _ _ _ _ _ hpl').mp h
            rw [hredex.step_erased hskip] at hsteps
            obtain ⟨k, o', hk, ho⟩ := hsteps.exists_of_erased fun _ _ _ a m hm => ih m a (Or.inl hm)
            exact ⟨k, o', (evaluates_iff_step _ _ _ _ _ _ hpl).mpr hk, ho⟩
      · have hsize : sizeOf a < sizeOf (Expr.within env' a) := by simp
        obtain ⟨m, o', ha, ho⟩ := ih n a (by omega) (evaluates_within_iff.mp h)
        exact ⟨m, o', .within ha, ho⟩
      · by_cases hskip : ∃ b, Skips a b
        · -- the part is passed over in the whole, where it stands
          obtain ⟨b, hskip⟩ := hskip
          have hsize := K.sizeOf_fill_lt hskip.sizeOf_lt
          rw [K.fill_erased, hskip.erased_eq, ← K.fill_erased] at h
          obtain ⟨m, o', hb, ho⟩ := ih n (K.fill b) (by omega) h
          exact ⟨m + 1, o', hskip.evaluates_fill K hb, ho⟩
        · rw [not_exists] at hskip
          rw [K.fill_erased] at h
          obtain ⟨n₁, n₂, o₁, ha₁, hthen, rfl⟩ := (evaluates_fill_iff K.erased).mp h
          have hpos := ha₁.pos fun _ => Expr.value?_erased ha hskip
          have hsize := K.sizeOf_lt_fill a
          obtain ⟨m₁, o₁', hm₁, rfl⟩ := ih n₁ a (by omega) ha₁
          cases o₁' with
          | failure f =>
              obtain ⟨rfl, rfl⟩ := hthen
              exact ⟨m₁, .failure f, .fill_failure K hm₁, rfl⟩
          | value v σ₁ =>
              have hrest : Evaluates pl σ₁.erased env.erased (K.fill (.value v)).erased n₂ o := by
                rw [K.fill_erased]
                exact hthen
              obtain ⟨m₂, o', hm₂, ho⟩ := ih n₂ (K.fill (.value v)) (by omega) hrest
              exact ⟨m₁ + m₂, o', .fill_value hm₁ hm₂, ho⟩

end Evaluations

/-! ## Runs -/

namespace Machine

def State.erased (s : State) : State :=
  ⟨s.store.erased, s.env.erased, s.expr.erased⟩

theorem Result.Shows.erased {r r' : Result} {o : Outcome} (h : r.Shows o) (h' : r'.Shows o.erased) :
    r'.outcome = r.outcome.map Value.erased := by
  cases o with
  | failure f =>
      have hr : r.outcome = .error (.failure f) := h
      have hr' : r'.outcome = .error (.failure f) := h'
      rw [hr, hr']
      rfl
  | value v σ =>
      have hr : r.outcome = .ok v := h.1
      have hr' : r'.outcome = .ok v.erased := h'.1
      rw [hr, hr']
      rfl

/-- A state and its erasure stop together, and in the same way. -/
theorem State.rel_run_erased (s : State) :
    Option.Rel (fun r r' => r'.outcome = r.outcome.map Value.erased) (run 0 quiet s)
      (run 0 quiet s.erased) := by
  cases hr : run 0 quiet s with
  | some r =>
      obtain ⟨o, he, ho⟩ := exists_evaluates_of_run le_rfl hr
      obtain ⟨m, he'⟩ := he.exists_erased
      obtain ⟨r', hr', ho', -⟩ := exists_run_of_evaluates (s := s.erased) le_rfl he'
      rw [hr']
      exact .some (ho.erased ho')
  | none =>
      cases hr' : run 0 quiet s.erased with
      | none => exact .none
      | some r' =>
          obtain ⟨o', he', -⟩ := exists_evaluates_of_run le_rfl hr'
          obtain ⟨m, o, he, -⟩ := Evaluates.exists_of_erased he'
          obtain ⟨r, hstops, -⟩ := exists_run_of_evaluates le_rfl he
          rw [hr] at hstops
          cases hstops

/-- **Annotations do not matter.** An expression and its erasure stop together when they are run without a
budget from the empty environment: with the same failure, or with a value and the erasure of that value. -/
theorem run_rel_erased (e : Expr) :
    Option.Rel (fun r r' => r'.outcome = r.outcome.map Value.erased)
      (run 0 quiet ⟨.empty, .empty, e⟩) (run 0 quiet ⟨.empty, .empty, e.erased⟩) := by
  have hstart : State.erased ⟨.empty, .empty, e⟩ = ⟨.empty, .empty, e.erased⟩ := by
    simp [State.erased, Store.erased, Store.empty, Env.erased]
  rw [← hstart]
  exact State.rel_run_erased ⟨.empty, .empty, e⟩

end Machine

end FunLang
