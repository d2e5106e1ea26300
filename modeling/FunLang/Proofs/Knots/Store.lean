import FunLang.Env
import Mathlib.Tactic

set_option autoImplicit false

/-!
# Knots in the store

What the operations of a store do to its knots: `addKnot` adds an unresolved one and leaves the others as
they are, and `resolve` changes at most the one that it is called for, which keeps the first value that
it is given.
-/

namespace FunLang.Store

theorem knotValue?_of_getElem? {σ : Store} {k : Nat} {knot : Knot} (h : σ.knots[k]? = some knot) :
    σ.knotValue? k = knot.value? := by
  simp [knotValue?, h]

theorem knotValue?_eq_none_of_le {σ : Store} {k : Nat} (hk : σ.knots.size ≤ k) :
    σ.knotValue? k = none := by
  simp [knotValue?, hk]

theorem lt_size_of_knotValue? {σ : Store} {k : Nat} {v : Value} (h : σ.knotValue? k = some v) :
    k < σ.knots.size := by
  by_contra hge
  simp [knotValue?_eq_none_of_le (Nat.le_of_not_lt hge)] at h

/-! ## New knots -/

theorem size_addKnot (σ : Store) (x : String) : (σ.addKnot x).knots.size = σ.knots.size + 1 := by
  simp [addKnot]

theorem getElem?_addKnot (σ : Store) (x : String) (l : Nat) :
    (σ.addKnot x).knots[l]? = if l = σ.knots.size then some ⟨x, none⟩ else σ.knots[l]? :=
  Array.getElem?_push

theorem knotValue?_addKnot (σ : Store) (x : String) (l : Nat) :
    (σ.addKnot x).knotValue? l = σ.knotValue? l := by
  unfold knotValue?
  rw [getElem?_addKnot]
  by_cases hl : l = σ.knots.size
  · simp [hl]
  · simp [hl]

/-! ## Resolved knots -/

theorem resolve_of_ne (σ : Store) (k : Nat) {v : Value} (hv : v ≠ .absent) :
    σ.resolve k v = { σ with knots := σ.knots.modify k fun knot =>
      if knot.value?.isSome then knot else { knot with value? := some v } } := by
  cases v with
  | absent => exact absurd rfl hv
  | _ => rfl

theorem size_resolve (σ : Store) (k : Nat) (v : Value) :
    (σ.resolve k v).knots.size = σ.knots.size := by
  cases v <;> simp [resolve]

/-- Only the knot that is resolved is changed. -/
theorem knotValue?_resolve_of_ne (σ : Store) {k l : Nat} (v : Value) (h : l ≠ k) :
    (σ.resolve k v).knotValue? l = σ.knotValue? l := by
  by_cases hv : v = .absent
  · rw [hv]
    rfl
  · unfold knotValue?
    rw [resolve_of_ne σ k hv, Array.getElem?_modify, if_neg h.symm]

/-- A knot that is there has a value once it is resolved, its first one. -/
theorem knotValue?_resolve_self {σ : Store} {k : Nat} (hk : k < σ.knots.size) {v : Value}
    (hv : v ≠ .absent) : (σ.resolve k v).knotValue? k = some ((σ.knotValue? k).getD v) := by
  unfold knotValue?
  rw [resolve_of_ne σ k hv, Array.getElem?_modify, if_pos rfl, Array.getElem?_eq_getElem hk]
  cases hval : σ.knots[k].value? <;> simp [hval]

/-- A resolved knot keeps its value, whichever knot is resolved. -/
theorem knotValue?_resolve_of_some {σ : Store} {l : Nat} {w : Value} (h : σ.knotValue? l = some w)
    (k : Nat) (v : Value) : (σ.resolve k v).knotValue? l = some w := by
  by_cases hl : l = k
  · subst hl
    by_cases hv : v = .absent
    · rw [hv]
      exact h
    · rw [knotValue?_resolve_self (lt_size_of_knotValue? h) hv, h]
      rfl
  · rw [knotValue?_resolve_of_ne σ v hl, h]

/-- What holds of the values of all knots and of the value that one is resolved with, holds afterwards. -/
theorem forall_knotValue?_resolve {P : Value → Prop} {σ : Store}
    (hσ : ∀ k v, σ.knotValue? k = some v → P v) (k : Nat) {v : Value} (hv : P v) :
    ∀ l w, (σ.resolve k v).knotValue? l = some w → P w := by
  intro l w hl
  by_cases hlk : l = k
  · subst hlk
    by_cases habsent : v = .absent
    · subst habsent
      exact hσ l w hl
    · have hlt : l < σ.knots.size := by
        have := lt_size_of_knotValue? hl
        rwa [size_resolve] at this
      rw [knotValue?_resolve_self hlt habsent, Option.some.injEq] at hl
      cases hold : σ.knotValue? l with
      | none =>
          rw [hold] at hl
          obtain rfl : v = w := hl
          exact hv
      | some u =>
          rw [hold] at hl
          obtain rfl : u = w := hl
          exact hσ l u hold
  · rw [knotValue?_resolve_of_ne σ v hlk] at hl
    exact hσ l w hl

theorem getElem?_resolve {σ : Store} {k l : Nat} {x : String} {v : Value} (hv : v ≠ .absent)
    (hk : σ.knots[k]? = some ⟨x, none⟩) :
    (σ.resolve k v).knots[l]? = if l = k then some ⟨x, some v⟩ else σ.knots[l]? := by
  rw [resolve_of_ne σ k hv, Array.getElem?_modify]
  by_cases hl : l = k
  · simp [hl, hk]
  · simp [hl, Ne.symm hl]

theorem knotValue?_resolve {σ : Store} {k : Nat} {x : String} {v : Value} (hv : v ≠ .absent)
    (hk : σ.knots[k]? = some ⟨x, none⟩) (l : Nat) :
    (σ.resolve k v).knotValue? l = if l = k then some v else σ.knotValue? l := by
  unfold knotValue?
  rw [getElem?_resolve hv hk]
  by_cases hl : l = k
  · simp [hl]
  · simp [hl]

end FunLang.Store
