import FunLang.Proofs.BigStep.Runs
import FunLang.Proofs.Twins.Runs

set_option autoImplicit false

/-!
# Big-step evaluations side by side

What has been shown for runs from twins holds for evaluations: twins evaluate to twins.
-/

namespace FunLang

/-- What comes of two evaluations: the same failure, or twins. -/
inductive Outcome.Twin (π : Pairing) : Outcome → Outcome → Prop where
  | failure (f : Failure) : Outcome.Twin π (.failure f) (.failure f)
  | value {π' : Pairing} {v v' : Value} (hgrows : π.Grows π') (hlinked : π'.Linked)
      (hv : v.Twin π' v') : Outcome.Twin π (.value v π'.left) (.value v' π'.right)

theorem Outcome.Twin.of_grows {π π' : Pairing} (h : π.Grows π') {o o' : Outcome} (ho : o.Twin π' o') :
    o.Twin π o' := by
  cases ho with
  | failure f => exact .failure f
  | value hgrows hlinked hv => exact .value (h.trans hgrows) hlinked hv

/-- **Twins evaluate to twins, at the same cost.** The induction is on the cost: both make a step, and
what is left to evaluate are twins again. -/
theorem Evaluates.twin {π : Pairing} {pl : Place} {env env' : Env} {e e' : Expr} {n : Nat} {o : Outcome}
    (hπ : π.Linked) (htwin : Expr.Twin π env env' e e') (h : Evaluates pl π.left env e n o) :
    ∃ o', Evaluates pl π.right env' e' n o' ∧ o.Twin π o' := by
  induction n using Nat.strong_induction_on generalizing π pl env env' e e' o with
  | _ n ih =>
    by_cases hvalue : pl = .part → e.value? = none
    · have hvalue' : pl = .part → e'.value? = none := fun hpl => htwin.value?_eq_none (hvalue hpl)
      rw [evaluates_iff_step π.left env e pl n o hvalue] at h
      simp only [evaluates_iff_step π.right env' e' pl n _ hvalue']
      have hstep := step_twin hπ htwin
      generalize step π.left env e = r, step π.right env' e' = r' at h hstep
      cases hstep with
      | failure _ =>
          obtain ⟨rfl, rfl⟩ := h
          exact ⟨_, ⟨rfl, rfl⟩, .failure _⟩
      | step hgrows hlinked hs =>
          cases hs with
          | done hv =>
              obtain ⟨rfl, rfl⟩ := h
              exact ⟨_, ⟨rfl, rfl⟩, .value hgrows hlinked hv⟩
          | stay he =>
              obtain ⟨m, rfl, h⟩ := h
              obtain ⟨o', h', ho⟩ := ih m (by omega) hlinked he h
              exact ⟨o', ⟨m, rfl, h'⟩, ho.of_grows hgrows⟩
          | move he =>
              obtain ⟨m, rfl, h⟩ := h
              obtain ⟨o', h', ho⟩ := ih m (by omega) hlinked he h
              exact ⟨o', ⟨m, rfl, h'⟩, ho.of_grows hgrows⟩
    · -- a part that is a value makes no step
      obtain ⟨rfl, hsome⟩ := Classical.not_imp.mp hvalue
      obtain ⟨v, hv⟩ := Option.ne_none_iff_exists'.mp hsome
      obtain rfl := Expr.eq_value_of_value? hv
      obtain ⟨v', rfl, hv'⟩ := htwin.of_value
      obtain ⟨rfl, rfl⟩ := evaluates_part_value_iff.mp h
      exact ⟨_, .value_part, .value (.refl π) hπ hv'⟩

namespace Machine

variable {π : Pairing} {s s' : State} {n : Nat}

theorem Result.Twin.outcome {r r' : Result} (h : r.Twin π r') {o o' : Outcome} (ho : r.Shows o)
    (ho' : r'.Shows o') : o.Twin π o' := by
  cases h with
  | error _ =>
      cases o with
      | value v σ => cases ho.1
      | failure f =>
          cases o' with
          | value v σ => cases ho'.1
          | failure f' =>
              cases ho
              cases ho'
              exact .failure f
  | value hgrows hlinked hv =>
      cases o with
      | failure f => cases ho
      | value w σ =>
          cases o' with
          | failure f' => cases ho'
          | value w' σ' =>
              obtain ⟨⟨⟩, rfl⟩ := ho
              obtain ⟨⟨⟩, rfl⟩ := ho'
              exact .value hgrows hlinked hv

theorem State.Twin.exists_evaluates (h : s.Twin π s') {o : Outcome}
    (he : Evaluates .whole s.store s.env s.expr n o) :
    ∃ n' o', Evaluates .whole s'.store s'.env s'.expr n' o' ∧ o.Twin π o' := by
  rw [h.left] at he
  rw [h.right]
  obtain ⟨o', he', ho⟩ := he.twin h.linked h.expr
  exact ⟨n, o', he', ho⟩

theorem State.Twin.exists_evaluates_left (h : s.Twin π s') {o' : Outcome}
    (he : Evaluates .whole s'.store s'.env s'.expr n o') :
    ∃ n' o, Evaluates .whole s.store s.env s.expr n' o ∧ o.Twin π o' := by
  obtain ⟨r', hstops', hr'⟩ := exists_stops_of_evaluates le_rfl he 0
  obtain ⟨r, hstops⟩ := hstops'.of_twin h
  obtain ⟨n', o, he', hr, -⟩ := hstops.exists_evaluates le_rfl
  obtain ⟨r'', hstops'', htwin⟩ := hstops.twin h
  -- the second run has only one result
  obtain rfl : r' = r'' :=
    Option.some.inj ((run_eq_some_iff.mpr hstops').symm.trans (run_eq_some_iff.mpr hstops''))
  exact ⟨n', o, he', htwin.outcome hr hr'⟩

end Machine

end FunLang
