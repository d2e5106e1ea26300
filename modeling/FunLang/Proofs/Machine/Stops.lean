import FunLang.Proofs.Machine.Runs

set_option autoImplicit false

/-!
# Runs that stop

A run with a budget and interrupts is ended before a step or by a step, or it goes on with the state
that the step leads to. `Stops` says this with a rule for each case, and `run_eq_some_iff` that a run
has a result exactly if these rules give it. An observer sees the run but has no influence on it:
it is called once for each step, with the state that the steps before lead to (`Stops.exists_calls`).

A run without a budget and without interrupts does nothing but steps (`run_quiet_iff`).
-/

namespace FunLang.Machine

/-- How a run is ended before its next step. -/
def cutShort? (maxSteps : Int) (signal : Nat → Option Interrupt) (made : Nat) : Option EvalError :=
  match signal made with
  | some i => some (.stoppedAfter made i)
  | none => if 0 < maxSteps ∧ maxSteps ≤ made then some (.overBudget made) else none

/-- The run from a state, after so many steps, stops with a result. -/
inductive Stops (maxSteps : Int) (signal : Nat → Option Interrupt) : Nat → State → Result → Prop where
  | cut {made : Nat} {s : State} {e : EvalError} (hcut : cutShort? maxSteps signal made = some e) :
      Stops maxSteps signal made s ⟨.error e, made, s.store⟩
  | failure {made : Nat} {s : State} {f : Failure} (hcut : cutShort? maxSteps signal made = none)
      (hs : s.next = .failure f) : Stops maxSteps signal made s ⟨.error (.failure f), made + 1, s.store⟩
  | value {made : Nat} {s : State} {v : Value} {σ : Store}
      (hcut : cutShort? maxSteps signal made = none) (hs : s.next = .value v σ) :
      Stops maxSteps signal made s ⟨.ok v, made + 1, σ⟩
  | state {made : Nat} {s s' : State} {r : Result} (hcut : cutShort? maxSteps signal made = none)
      (hs : s.next = .state s') (hrest : Stops maxSteps signal (made + 1) s' r) :
      Stops maxSteps signal made s r

section Observed

variable {α : Type} (maxSteps : Int) (signal : Nat → Option Interrupt) (observe : α → Nat → State → α)

theorem State.loop_eq (made : Nat) (a : α) (s : State) :
    s.loop maxSteps signal observe made a
      = match cutShort? maxSteps signal made with
        | some e => some (⟨.error e, made, s.store⟩, a)
        | none =>
          match s.next with
          | .failure f => some (⟨.error (.failure f), made + 1, s.store⟩, observe a made s)
          | .value v σ => some (⟨.ok v, made + 1, σ⟩, observe a made s)
          | .state s' => s'.loop maxSteps signal observe (made + 1) (observe a made s) := by
  rw [State.loop]
  unfold cutShort?
  cases signal made with
  | some i => rfl
  | none =>
      by_cases hb : 0 < maxSteps ∧ maxSteps ≤ made
      · simp only [if_pos hb]
      · cases s.next <;> simp only [if_neg hb]

theorem stops_of_loop (made : Nat) (a : α) (s : State) (r : Result × α)
    (h : s.loop maxSteps signal observe made a = some r) : Stops maxSteps signal made s r.1 := by
  refine State.loop.partial_correctness maxSteps signal observe
    (fun made _ s r => Stops maxSteps signal made s r.1) ?_ made a s r h
  intro rec ih made a s r hr
  cases hsignal : signal made with
  | some i =>
      simp only [hsignal, Option.some.injEq] at hr
      rw [← hr]
      exact .cut (by simp [cutShort?, hsignal])
  | none =>
      simp only [hsignal] at hr
      split at hr
      · next hb =>
        rw [← Option.some.inj hr]
        exact .cut (by simp [cutShort?, hsignal, hb])
      · next hb =>
        have hcut : cutShort? maxSteps signal made = none := by simp [cutShort?, hsignal, hb]
        cases hn : s.next with
        | failure f =>
            simp only [hn, Option.some.injEq] at hr
            rw [← hr]
            exact .failure hcut hn
        | value v σ =>
            simp only [hn, Option.some.injEq] at hr
            rw [← hr]
            exact .value hcut hn
        | state s' =>
            simp only [hn] at hr
            exact .state hcut hn (ih _ _ _ _ hr)

end Observed

variable {maxSteps : Int} {signal : Nat → Option Interrupt} {made : Nat} {s t : State} {r : Result}

/-- The call for a step that is the last one. -/
theorem sees_singleton (made : Nat) (s : State) (i : Nat) (c : Nat × State)
    (hc : [(made, s)][i]? = some c) : c.1 = made + i ∧ s.after? i = some c.2 := by
  cases i with
  | zero =>
      cases hc
      exact ⟨rfl, rfl⟩
  | succ i => simp at hc

/-- An observer is called once for each step of a run that stops. The `i`-th call is about the state
that `i` steps lead to. -/
theorem Stops.exists_calls (h : Stops maxSteps signal made s r) :
    ∃ calls : List (Nat × State), made + calls.length = r.steps ∧
      (∀ i c, calls[i]? = some c → c.1 = made + i ∧ s.after? i = some c.2) ∧
      ∀ {α : Type} (observe : α → Nat → State → α) (a : α),
        s.loop maxSteps signal observe made a
          = some (r, calls.foldl (fun a c => observe a c.1 c.2) a) := by
  induction h with
  | cut hcut => exact ⟨[], rfl, by simp, fun observe a => by rw [State.loop_eq, hcut]; rfl⟩
  | @failure made s _ hcut hs =>
      exact ⟨[(made, s)], rfl, sees_singleton made s, fun observe a => by rw [State.loop_eq, hcut, hs]; rfl⟩
  | @value made s _ _ hcut hs =>
      exact ⟨[(made, s)], rfl, sees_singleton made s, fun observe a => by rw [State.loop_eq, hcut, hs]; rfl⟩
  | @state made s s' r hcut hs _ ih =>
      obtain ⟨calls, hlength, hcalls, hloop⟩ := ih
      refine ⟨(made, s) :: calls, ?_, ?_, fun observe a => by rw [State.loop_eq, hcut, hs]; exact hloop observe _⟩
      · rw [List.length_cons, ← hlength]
        omega
      · rintro (_ | i) c hc
        · cases hc
          exact ⟨rfl, rfl⟩
        · obtain ⟨hnumber, hafter⟩ := hcalls i c hc
          exact ⟨by omega, by rw [State.after?_succ_of_next hs, hafter]⟩

/-- Steps before which a run is not cut short are made. -/
theorem Stops.of_after? {n : Nat} (h : s.after? n = some t)
    (huncut : ∀ i < n, cutShort? maxSteps signal (made + i) = none)
    (hrest : Stops maxSteps signal (made + n) t r) : Stops maxSteps signal made s r := by
  induction n generalizing made s with
  | zero =>
      cases h
      exact hrest
  | succ n ih =>
      obtain ⟨s', hs, hn⟩ := State.exists_of_after?_succ h
      refine .state (huncut 0 (by omega)) hs (ih hn (fun i hi => ?_) ?_)
      · have hcut := huncut (i + 1) (by omega)
        rwa [← Nat.add_assoc, Nat.add_right_comm] at hcut
      · rwa [← Nat.add_assoc, Nat.add_right_comm] at hrest

/-- A last step that is made ends the run. -/
theorem Stops.of_last? (hcut : cutShort? maxSteps signal made = none) (h : s.last? made = some r) :
    Stops maxSteps signal made s r := by
  unfold State.last? at h
  cases hs : s.next with
  | failure f =>
      simp only [hs, Option.some.injEq] at h
      exact h ▸ .failure hcut hs
  | value v σ =>
      simp only [hs, Option.some.injEq] at h
      exact h ▸ .value hcut hs
  | state s' => simp [hs] at h

/-- A run that is nowhere cut short stops with a last step. -/
theorem Stops.exists_last? (h : Stops maxSteps signal made s r)
    (huncut : ∀ i, cutShort? maxSteps signal i = none) :
    ∃ n t, s.after? n = some t ∧ t.last? (made + n) = some r := by
  induction h with
  | cut hcut => simp [huncut] at hcut
  | @failure made s _ _ hs => exact ⟨0, s, rfl, by simp only [State.last?, hs, Nat.add_zero]⟩
  | @value made s _ _ _ hs => exact ⟨0, s, rfl, by simp only [State.last?, hs, Nat.add_zero]⟩
  | state _ hs _ ih =>
      obtain ⟨n, t, ht, hr⟩ := ih
      refine ⟨n + 1, t, by rw [State.after?_succ_of_next hs, ht], ?_⟩
      rw [← hr]
      congr 1
      omega

theorem run_eq_some_iff : run maxSteps signal s = some r ↔ Stops maxSteps signal 0 s r := by
  unfold run runWith
  constructor
  · intro h
    obtain ⟨r', hloop, rfl⟩ := Option.map_eq_some_iff.mp h
    exact stops_of_loop maxSteps signal _ 0 () s r' hloop
  · intro h
    obtain ⟨calls, -, -, hloop⟩ := h.exists_calls
    exact Option.map_eq_some_iff.mpr ⟨_, hloop _ _, rfl⟩

theorem cutShort?_quiet (hbudget : maxSteps ≤ 0) (made : Nat) :
    cutShort? maxSteps quiet made = none := by
  simp [cutShort?, quiet, hbudget]

/-- A run without a budget and without interrupts stops with `r` exactly if some number of steps
leads to a state whose next step is the last one and gives `r`. -/
theorem run_quiet_iff (s : State) (r : Result) :
    run 0 quiet s = some r ↔ ∃ n s', s.after? n = some s' ∧ s'.last? n = some r := by
  have huncut := cutShort?_quiet (le_refl 0)
  rw [run_eq_some_iff]
  constructor
  · intro h
    simpa only [Nat.zero_add] using h.exists_last? huncut
  · rintro ⟨n, s', hs, hr⟩
    exact .of_after? hs (fun i _ => huncut _) (.of_last? (huncut _) (by rwa [Nat.zero_add]))

theorem runLogged_eq (o : Options) (s : State) :
    runLogged o s = (s.loop o.maxSteps o.signal (fun (seen : List Log.Record × Unit) n s =>
        (if o.level ≤ Log.debug then stepRecord n s :: seen.1 else seen.1, ())) 0 ([], ())).map
      fun (r, seen) => (r, seen.1.reverse ++ r.records) := by
  unfold runLogged runLoggedWith runWith
  dsimp only
  cases s.loop o.maxSteps o.signal _ 0 ([], ()) <;> rfl

/-- The log of a run has no influence on it either. -/
theorem exists_runLogged_iff {o : Options} :
    (∃ log, runLogged o s = some (r, log)) ↔ Stops o.maxSteps o.signal 0 s r := by
  rw [runLogged_eq]
  constructor
  · rintro ⟨log, h⟩
    obtain ⟨⟨r', seen⟩, hloop, heq⟩ := Option.map_eq_some_iff.mp h
    cases heq
    exact stops_of_loop _ _ _ 0 _ s _ hloop
  · intro h
    obtain ⟨calls, -, -, hloop⟩ := h.exists_calls
    exact ⟨_, Option.map_eq_some_iff.mpr ⟨_, hloop _ _, rfl⟩⟩

end FunLang.Machine
