import FunLang.Proofs.Machine.Matching
import FunLang.Proofs.Twins.Values

set_option autoImplicit false

/-!
# Environments of two evaluations

Environments that bind a name alike go on doing so when both are extended in the same way, and a
pattern that matches a value matches its twin and binds the same names to twins.
-/

namespace FunLang

variable {π : Pairing} {env env' : Env} {x y : String}

/-! ## Extending environments -/

/-- Whether a name is bound alike depends on its bindings alone. -/
theorem Env.TwinAt.of_find? {env₁ env₁' : Env} (h : env.TwinAt π env' y)
    (hl : env₁.find? y = env.find? y) (hr : env₁'.find? y = env'.find? y) :
    env₁.TwinAt π env₁' y := by
  cases h with
  | unbound hπ h h' => exact .unbound hπ (hl.trans h) (hr.trans h')
  | found h h' hv =>
      refine .found ?_ ?_ hv
      · rw [← h, Env.lookup, Env.lookup, hl]
      · rw [← h', Env.lookup, Env.lookup, hr]
  | knot h h' hk => exact .knot (hl.trans h) (hr.trans h') hk

theorem Env.find?_bind_of_ne (env : Env) (v : Value) (h : y ≠ x) :
    (Env.bind env x v).find? y = env.find? y := by
  simp [Env.find?, h.symm]

theorem Env.find?_bindKnot_of_ne (env : Env) (k : Nat) (h : y ≠ x) :
    (Env.bindKnot env x k).find? y = env.find? y := by
  simp [Env.find?, h.symm]

theorem Env.TwinAt.bind {v v' : Value} (hv : v.Twin π v') (h : y ≠ x → env.TwinAt π env' y) :
    (Env.bind env x v).TwinAt π (.bind env' x v') y := by
  by_cases hy : y = x
  · subst hy
    exact .found (Env.lookup_of_value _ (by simp [Env.find?]))
      (Env.lookup_of_value _ (by simp [Env.find?])) hv
  · exact (h hy).of_find? (Env.find?_bind_of_ne env v hy) (Env.find?_bind_of_ne env' v' hy)

theorem Env.TwinAt.bindKnot {k k' : Nat} (hk : π.knots k k') (h : y ≠ x → env.TwinAt π env' y) :
    (Env.bindKnot env x k).TwinAt π (.bindKnot env' x k') y := by
  by_cases hy : y = x
  · subst hy
    exact .knot (by simp [Env.find?]) (by simp [Env.find?]) hk
  · exact (h hy).of_find? (Env.find?_bindKnot_of_ne env k hy) (Env.find?_bindKnot_of_ne env' k' hy)

/-- The same names bound to twins, in the same order. -/
def BindingsTwin (π : Pairing) (bs bs' : List (String × Value)) : Prop :=
  List.Forall₂ (fun b b' => b'.1 = b.1 ∧ b.2.Twin π b'.2) bs bs'

theorem Env.TwinAt.bindAll {bs bs' : List (String × Value)} (hbs : BindingsTwin π bs bs')
    (h : y ∉ bs.map Prod.fst → env.TwinAt π env' y) : (env.bindAll bs).TwinAt π (env'.bindAll bs') y := by
  induction hbs generalizing env env' with
  | nil => exact h (by simp)
  | @cons b b' bs bs' hb _ ih =>
      have hfirst : y ∉ bs.map Prod.fst → (Env.bind env b.1 b.2).TwinAt π (.bind env' b'.1 b'.2) y := by
        intro hy
        rw [hb.1]
        exact .bind hb.2 fun hne => h (by simpa [hne] using hy)
      exact ih hfirst

/-! ## Matching -/

theorem Value.TwinAll.forall₂ {vs vs' : List Value} (h : Value.TwinAll π vs vs') :
    List.Forall₂ (Value.Twin π) vs vs' := by
  induction vs generalizing vs' with
  | nil =>
      cases h
      exact .nil
  | cons v vs ih =>
      cases h with
      | cons h hs => exact .cons h (ih hs)

/-- Twins have the same form, so a pattern cannot tell them apart. -/
theorem Value.Twin.rel {v v' : Value} (h : v.Twin π v') : Value.Rel (Value.Twin π) v v' := by
  cases h with
  | absent => exact .absent
  | int n => exact .int n
  | bool b => exact .bool b
  | closure _ _ => exact .closure
  | data c hs => exact .data rfl hs.forall₂

theorem Pattern.bindings?_twin (p : Pattern) {v v' : Value} (h : v.Twin π v') :
    Option.Rel (BindingsTwin π) (p.bindings? v) (p.bindings? v') :=
  p.bindings?_rel Value.Twin.rel h

/-- Of several alternatives the same one is taken for twins. -/
theorem Alt.select?_twin {v v' : Value} (h : v.Twin π v') (alts : List Alt) :
    Option.Rel (fun r r' => r'.1 = r.1 ∧ BindingsTwin π r.2 r'.2) (Alt.select? alts v)
      (Alt.select? alts v') := by
  induction alts with
  | nil => exact .none
  | cons a alts ih =>
      obtain ⟨p, pat, e⟩ := a
      have hpat := pat.bindings?_twin h
      unfold Alt.select?
      generalize pat.bindings? v = r, pat.bindings? v' = r' at hpat ⊢
      cases hpat with
      | none => exact ih
      | some hpat => exact .some ⟨rfl, hpat⟩

end FunLang
