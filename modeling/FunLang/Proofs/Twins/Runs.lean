import FunLang.Proofs.Machine.Stops
import FunLang.Proofs.Twins.Steps

set_option autoImplicit false

/-!
# Runs of two evaluations

Runs from states that are twins go side by side: they stop after the same number of steps, with the
same error or with values that are twins, or neither of them stops (`Stops.twin`, `Stops.of_twin`).
-/

namespace FunLang

namespace Machine

/-- States of two runs that go side by side. -/
structure State.Twin (π : Pairing) (s s' : State) : Prop where
  left : s.store = π.left
  right : s'.store = π.right
  linked : π.Linked
  expr : Expr.Twin π s.env s'.env s.expr s'.expr

/-- What comes of the next steps of two runs. -/
inductive Next.Twin (π : Pairing) : Next → Next → Prop where
  | failure {f : Failure} (h : f.reason = .unboundVariable → π.loose) :
      Next.Twin π (.failure f) (.failure f)
  | value {π' : Pairing} {v v' : Value} (hgrows : π.Grows π') (hlinked : π'.Linked)
      (hv : v.Twin π' v') : Next.Twin π (.value v π'.left) (.value v' π'.right)
  | state {π' : Pairing} {s s' : State} (hgrows : π.Grows π') (h : s.Twin π' s') :
      Next.Twin π (.state s) (.state s')

/-- What comes of two runs: the same error, or twins. -/
inductive Result.Twin (π : Pairing) : Result → Result → Prop where
  | error {e : EvalError} {n : Nat} {σ τ : Store}
      (h : e.isFailure .unboundVariable = true → π.loose) :
      Result.Twin π ⟨.error e, n, σ⟩ ⟨.error e, n, τ⟩
  | value {π' : Pairing} {v v' : Value} {n : Nat} (hgrows : π.Grows π') (hlinked : π'.Linked)
      (hv : v.Twin π' v') : Result.Twin π ⟨.ok v, n, π'.left⟩ ⟨.ok v', n, π'.right⟩

variable {π π' : Pairing} {s s' : State}

theorem State.Twin.next (h : s.Twin π s') : Next.Twin π s.next s'.next := by
  have hstep := step_twin h.linked h.expr
  unfold State.next
  rw [h.left, h.right]
  generalize step π.left s.env s.expr = r, step π.right s'.env s'.expr = r' at hstep ⊢
  cases hstep with
  | failure hf => exact .failure hf
  | step hgrows hlinked hs =>
      cases hs with
      | done hv => exact .value hgrows hlinked hv
      | stay he => exact .state hgrows ⟨rfl, rfl, hlinked, he⟩
      | move he => exact .state hgrows ⟨rfl, rfl, hlinked, he⟩

theorem Result.Twin.of_grows (h : π.Grows π') {r r' : Result} (hr : r.Twin π' r') : r.Twin π r' := by
  cases hr with
  | error hloose => exact .error fun hf => h.loose.mp (hloose hf)
  | value hgrows hlinked hv => exact .value (h.trans hgrows) hlinked hv

section Runs

variable {maxSteps : Int} {signal : Nat → Option Interrupt} {made : Nat}

/-- No run is cut short because of an unbound name. -/
theorem isFailure_of_cutShort? {e : EvalError} (h : cutShort? maxSteps signal made = some e)
    (reason : Reason) : e.isFailure reason = false := by
  unfold cutShort? at h
  split at h
  · cases h
    rfl
  · split at h
    · cases h
      rfl
    · cases h

/-- Where the one run stops, the other one stops as well, and in the same way. -/
theorem Stops.twin {r : Result} (hs : Stops maxSteps signal made s r) (h : s.Twin π s') :
    ∃ r', Stops maxSteps signal made s' r' ∧ r.Twin π r' := by
  induction hs generalizing s' π with
  | cut hcut =>
      refine ⟨_, .cut hcut, .error fun hf => ?_⟩
      simp [isFailure_of_cutShort? hcut] at hf
  | failure hcut hs =>
      have hnext := h.next
      rw [hs] at hnext
      cases hs' : s'.next <;> rw [hs'] at hnext <;> cases hnext
      next hloose =>
        refine ⟨_, .failure hcut hs', .error fun hf => hloose ?_⟩
        simpa [EvalError.isFailure, EvalError.root] using hf
  | value hcut hs =>
      have hnext := h.next
      rw [hs] at hnext
      cases hs' : s'.next <;> rw [hs'] at hnext <;> cases hnext
      next hgrows hlinked hv => exact ⟨_, .value hcut hs', .value hgrows hlinked hv⟩
  | state hcut hs _ ih =>
      have hnext := h.next
      rw [hs] at hnext
      cases hs' : s'.next <;> rw [hs'] at hnext <;> cases hnext
      next hgrows ht =>
        obtain ⟨r', hstops, hr⟩ := ih ht
        exact ⟨r', .state hcut hs' hstops, hr.of_grows hgrows⟩

/-- A run stops if one that goes beside it does. -/
theorem Stops.of_twin {r' : Result} (hs : Stops maxSteps signal made s' r') (h : s.Twin π s') :
    ∃ r, Stops maxSteps signal made s r := by
  induction hs generalizing s π with
  | cut hcut => exact ⟨_, .cut hcut⟩
  | failure hcut hs' =>
      have hnext := h.next
      rw [hs'] at hnext
      cases hs : s.next <;> rw [hs] at hnext <;> cases hnext
      exact ⟨_, .failure hcut hs⟩
  | value hcut hs' =>
      have hnext := h.next
      rw [hs'] at hnext
      cases hs : s.next <;> rw [hs] at hnext <;> cases hnext
      exact ⟨_, .value hcut hs⟩
  | state hcut hs' _ ih =>
      have hnext := h.next
      rw [hs'] at hnext
      cases hs : s.next <;> rw [hs] at hnext <;> cases hnext
      next hgrows ht =>
        obtain ⟨r, hstops⟩ := ih ht
        exact ⟨r, .state hcut hs hstops⟩

end Runs

end Machine

end FunLang
