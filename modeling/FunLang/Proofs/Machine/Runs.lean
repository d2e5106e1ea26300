import FunLang.Machine.Run
import Mathlib.Tactic

set_option autoImplicit false

/-!
# Iterated steps

`State.after? n s` is the state that `n` steps lead to from `s`, and `State.last? made s` the result of
a step that is the last one. An evaluation that has stopped at some time has made a last step.
-/

namespace FunLang.Machine

/-- The state after `n` steps, if the evaluation has not stopped by then. -/
def State.after? : Nat → State → Option State
  | 0, s => some s
  | n + 1, s =>
    match s.next with
    | .state s' => s'.after? n
    | _ => none

/-- How a run ends that has made `made` steps, if its next step is the last one. -/
def State.last? (made : Nat) (s : State) : Option Result :=
  match s.next with
  | .failure f => some ⟨.error (.failure f), made + 1, s.store⟩
  | .value v σ => some ⟨.ok v, made + 1, σ⟩
  | .state _ => none

/-- The step behind a state that another one leads to. -/
theorem State.exists_of_next_eq_state {s s' : State} (h : s.next = .state s') :
    ∃ r, step s.store s.env s.expr = .ok (s'.store, r) ∧
      (r = .stay s'.expr ∧ s'.env = s.env ∨ r = .move s'.expr s'.env) := by
  unfold State.next at h
  split at h
  · simp at h
  · simp at h
  · rename_i hstep
    cases h
    exact ⟨_, hstep, Or.inl ⟨rfl, rfl⟩⟩
  · rename_i hstep
    cases h
    exact ⟨_, hstep, Or.inr rfl⟩

theorem State.step_of_next_eq_value {s : State} {v : Value} {σ : Store} (h : s.next = .value v σ) :
    step s.store s.env s.expr = .ok (σ, .done v) := by
  unfold State.next at h
  split at h
  · simp at h
  · rename_i hstep
    cases h
    exact hstep
  · simp at h
  · simp at h

theorem State.after?_succ_of_next {s s' : State} (h : s.next = .state s') (n : Nat) :
    s.after? (n + 1) = s'.after? n := by
  simp [State.after?, h]

theorem State.exists_of_after?_succ {n : Nat} {s s' : State} (h : s.after? (n + 1) = some s') :
    ∃ t, s.next = .state t ∧ t.after? n = some s' := by
  unfold State.after? at h
  cases hn : s.next with
  | state t =>
      simp only [hn] at h
      exact ⟨t, rfl, h⟩
  | failure f => simp [hn] at h
  | value v σ => simp [hn] at h

theorem State.after?_of_le {m n : Nat} {s t : State} (h : s.after? n = some t) (hm : m ≤ n) :
    ∃ t', s.after? m = some t' := by
  induction m generalizing n s with
  | zero => exact ⟨s, rfl⟩
  | succ m ih =>
      obtain ⟨n, rfl⟩ := Nat.exists_eq_add_of_le' hm
      obtain ⟨s', hs, hn⟩ := State.exists_of_after?_succ (n := n + m) h
      rw [State.after?_succ_of_next hs]
      exact ih hn (by omega)

/-- The last state before an evaluation stops. -/
theorem State.exists_last?_of_after? {n : Nat} {s : State} (h : s.after? n = none) (made : Nat) :
    ∃ m t r, s.after? m = some t ∧ t.last? (made + m) = some r := by
  induction n generalizing s made with
  | zero => simp [State.after?] at h
  | succ n ih =>
      cases hn : s.next with
      | failure f => exact ⟨0, s, _, rfl, by simp only [State.last?, hn]; rfl⟩
      | value v σ => exact ⟨0, s, _, rfl, by simp only [State.last?, hn]; rfl⟩
      | state s' =>
          rw [State.after?_succ_of_next hn] at h
          obtain ⟨m, t, r, ht, hr⟩ := ih h (made + 1)
          refine ⟨m + 1, t, r, by rw [State.after?_succ_of_next hn, ht], ?_⟩
          rw [← hr]
          congr 1
          omega

theorem State.steps_of_last? {made : Nat} {s : State} {r : Result} (h : s.last? made = some r) :
    r.steps = made + 1 := by
  unfold State.last? at h
  split at h
  · rw [← Option.some.inj h]
  · rw [← Option.some.inj h]
  · simp at h

theorem State.next_of_last? {made : Nat} {s : State} (h : s.last? made = none) :
    ∃ s', s.next = .state s' := by
  unfold State.last? at h
  cases hs : s.next with
  | failure f => simp [hs] at h
  | value v σ => simp [hs] at h
  | state s' => exact ⟨s', rfl⟩

theorem State.after?_succ_of_last? {n made : Nat} {s t : State} (h : s.after? n = some t)
    (hlast : t.last? made = none) : ∃ t', s.after? (n + 1) = some t' := by
  induction n generalizing s with
  | zero =>
      cases h
      obtain ⟨s', hs⟩ := State.next_of_last? hlast
      exact ⟨s', State.after?_succ_of_next hs 0⟩
  | succ n ih =>
      obtain ⟨s', hs, hn⟩ := State.exists_of_after?_succ h
      rw [State.after?_succ_of_next hs]
      exact ih hn

end FunLang.Machine
