import FunLang.Proofs.Machine.Stops

set_option autoImplicit false

/-!
# The limits of a run

A run with a budget is the run without one up to the budget. If the latter stops within the budget,
both have the same result; if it does not, or if it never stops, the former makes as many steps as the
budget allows and is over budget then. An interrupt is seen before the next step: where it comes up
while a step is looked at, that step is still made. All of this is in `run_limits`, together with what
an observer is shown.

Both limits are about the same thing, steps that lead to a state before which the run is cut short.
`Stops.of_after?` makes these steps, and what is left is to tell where a run is not cut short.
-/

namespace FunLang.Machine

variable {s t : State} {r : Result} {n : Nat}

theorem cutShort?_of_lt {made budget : Nat} (h : made < budget) :
    cutShort? budget quiet made = none := by
  simp only [cutShort?, quiet]
  exact if_neg (by omega)

theorem cutShort?_spent {budget : Nat} (h : 0 < budget) :
    cutShort? budget quiet budget = some (.overBudget budget) := by
  simp only [cutShort?, quiet]
  exact if_pos (by omega)

/-! ## Budgets -/

/-- A budget that is large enough changes nothing. -/
theorem stops_of_steps_le {budget : Nat} (hr : run 0 quiet s = some r) (h : r.steps ≤ budget) :
    Stops budget quiet 0 s r := by
  obtain ⟨n, t, ht, hlast⟩ := (run_quiet_iff s r).mp hr
  have hsteps := State.steps_of_last? hlast
  refine .of_after? ht (fun i hi => cutShort?_of_lt (by omega)) (.of_last? (cutShort?_of_lt (by omega)) ?_)
  rwa [Nat.zero_add]

/-- A budget that the steps of a run come up to is spent. -/
theorem stops_overBudget {budget : Nat} (hpos : 0 < budget) (h : s.after? budget = some t) :
    Stops budget quiet 0 s ⟨.error (.overBudget budget), budget, t.store⟩ := by
  have hcut : Stops budget quiet budget t ⟨.error (.overBudget budget), budget, t.store⟩ :=
    .cut (cutShort?_spent hpos)
  exact .of_after? h (fun i hi => cutShort?_of_lt (by omega)) (by rwa [Nat.zero_add])

/-- A run that makes a step makes it with a budget up to this step. -/
theorem exists_stops_succ (h : s.after? n = some t) :
    ∃ r, Stops (n + 1 : Nat) quiet 0 s r ∧ r.steps = n + 1 := by
  cases hlast : t.last? n with
  | some r =>
      have hsteps := State.steps_of_last? hlast
      exact ⟨r, stops_of_steps_le ((run_quiet_iff s r).mpr ⟨n, t, h, hlast⟩) hsteps.le, hsteps⟩
  | none =>
      obtain ⟨t', ht'⟩ := State.after?_succ_of_last? h hlast
      exact ⟨_, stops_overBudget (by omega) ht', rfl⟩

/-- A run that never stops makes any number of steps. -/
theorem exists_after?_of_run_eq_none (h : run 0 quiet s = none) (n : Nat) :
    ∃ t, s.after? n = some t := by
  cases hn : s.after? n with
  | some t => exact ⟨t, rfl⟩
  | none =>
      obtain ⟨m, t, r, ht, hlast⟩ := State.exists_last?_of_after? hn 0
      rw [Nat.zero_add] at hlast
      simp [(run_quiet_iff s r).mpr ⟨m, t, ht, hlast⟩] at h

/-- A run makes all the steps before its last one. -/
theorem exists_after?_of_lt_steps (hr : run 0 quiet s = some r) (h : n < r.steps) :
    ∃ t, s.after? n = some t := by
  obtain ⟨m, t, ht, hlast⟩ := (run_quiet_iff s r).mp hr
  have hsteps := State.steps_of_last? hlast
  exact State.after?_of_le ht (by omega)

/-! ## Interrupts -/

section Interrupt

variable {maxSteps : Int} {signal : Nat → Option Interrupt} {i : Interrupt} {j : Nat}

theorem cutShort?_eq_none (hbudget : 0 < maxSteps → (j : Int) < maxSteps) (hlive : signal j = none) :
    cutShort? maxSteps signal j = none := by
  simp only [cutShort?, hlive]
  exact if_neg (by omega)

/-- The steps up to one that is looked at are made if there is no interrupt before it, and then this
step is made too. -/
theorem stops_of_live (h : s.after? j = some t) (hbudget : 0 < maxSteps → (j : Int) < maxSteps)
    (hlive : ∀ k ≤ j, signal k = none) (hrest : Stops maxSteps signal j t r) :
    Stops maxSteps signal 0 s r :=
  .of_after? h
    (fun k hk => cutShort?_eq_none (fun hpos => by have := hbudget hpos; omega) (hlive _ (by omega)))
    (by rwa [Nat.zero_add])

/-- An interrupt that comes up while step `j` is looked at ends the run behind this step. -/
theorem stops_interrupted (h : s.after? j = some t) (hnext : t.last? j = none)
    (hbudget : 0 < maxSteps → (j : Int) < maxSteps) (hlive : ∀ k ≤ j, signal k = none)
    (hsignal : signal (j + 1) = some i) :
    ∃ σ, Stops maxSteps signal 0 s ⟨.error (.stoppedAfter (j + 1) i), j + 1, σ⟩ := by
  obtain ⟨t', ht'⟩ := State.next_of_last? hnext
  have hcut : cutShort? maxSteps signal (j + 1) = some (.stoppedAfter (j + 1) i) := by
    simp only [cutShort?, hsignal]
  have hstep : Stops maxSteps signal j t ⟨.error (.stoppedAfter (j + 1) i), j + 1, t'.store⟩ :=
    .state (cutShort?_eq_none hbudget (hlive j le_rfl)) ht' (.cut hcut)
  exact ⟨t'.store, stops_of_live h hbudget hlive hstep⟩

end Interrupt

/-- **The limits of a run are exact.** A run with a budget has the result of the run without one if
that stops within the budget, and else it is over budget after as many steps as the budget allows. An
observer is called once for each step: the `i`-th call is for step `i` and the state that `i` steps lead
to. A cancellation that comes up in the call for step `j` ends the run behind this step, unless the step
itself has ended it. -/
theorem run_limits (s : State) :
    (∀ budget : Nat, 0 < budget →
      (∀ r, run 0 quiet s = some r →
        (r.steps ≤ budget → run budget quiet s = some r) ∧
        (budget < r.steps → ∃ σ, run budget quiet s = some ⟨.error (.overBudget budget), budget, σ⟩)) ∧
      (run 0 quiet s = none →
        ∃ σ, run budget quiet s = some ⟨.error (.overBudget budget), budget, σ⟩)) ∧
    (∀ maxSteps signal r, run maxSteps signal s = some r →
      ∃ calls : List (Nat × State), calls.length = r.steps ∧
        (∀ i c, calls[i]? = some c → c.1 = i ∧ s.after? i = some c.2) ∧
        ∀ (α : Type) (observe : α → Nat → State → α) (a : α),
          runWith maxSteps signal observe a s
            = some (r, calls.foldl (fun a c => observe a c.1 c.2) a)) ∧
    (∀ (maxSteps : Int) (signal : Nat → Option Interrupt) (j : Nat) (t : State),
      s.after? j = some t → (0 < maxSteps → (j : Int) < maxSteps) →
      (∀ k ≤ j, signal k = none) → signal (j + 1) = some .canceled →
      (∀ r, t.last? j = some r → run maxSteps signal s = some r) ∧
      (t.last? j = none →
        ∃ σ, run maxSteps signal s = some ⟨.error (.stoppedAfter (j + 1) .canceled), j + 1, σ⟩)) := by
  refine ⟨fun budget hpos => ⟨fun r hr => ⟨fun h => ?_, fun h => ?_⟩, fun hnone => ?_⟩,
    fun maxSteps signal r hr => ?_, fun maxSteps signal j t ht hbudget hlive hsignal =>
      ⟨fun r hr => ?_, fun hnext => ?_⟩⟩
  · exact run_eq_some_iff.mpr (stops_of_steps_le hr h)
  · obtain ⟨t, ht⟩ := exists_after?_of_lt_steps hr h
    exact ⟨t.store, run_eq_some_iff.mpr (stops_overBudget hpos ht)⟩
  · obtain ⟨t, ht⟩ := exists_after?_of_run_eq_none hnone budget
    exact ⟨t.store, run_eq_some_iff.mpr (stops_overBudget hpos ht)⟩
  · obtain ⟨calls, hlength, hcalls, hloop⟩ := (run_eq_some_iff.mp hr).exists_calls
    simp only [Nat.zero_add] at hlength hcalls
    exact ⟨calls, hlength, hcalls, fun α observe a => hloop observe a⟩
  · have hlast := Stops.of_last? (cutShort?_eq_none hbudget (hlive j le_rfl)) hr
    exact run_eq_some_iff.mpr (stops_of_live ht hbudget hlive hlast)
  · obtain ⟨σ, hstops⟩ := stops_interrupted ht hnext hbudget hlive hsignal
    exact ⟨σ, run_eq_some_iff.mpr hstops⟩

end FunLang.Machine
