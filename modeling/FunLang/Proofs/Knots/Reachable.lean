import FunLang.Proofs.Knots.AtRest

set_option autoImplicit false

/-!
# What can be reached

From an environment one comes to the values of its names, through resolved knots too, from a function
to the environment in which it was made, and from a constructed value to its fields. An environment is
ready if no name that can be seen on this way is unresolved and all functions on it are made of source
text (`Env.Ready`).

What is reached from something at rest is at rest (`Value.AtRest.of_reaches`), and an environment that
is ready is at rest with respect to the knots that can be reached from it.
-/

namespace FunLang

mutual

/-- The environments that can be reached from an environment. -/
inductive Env.Reaches (σ : Store) : Env → Env → Prop where
  | refl (env : Env) : Env.Reaches σ env env
  | found {env env' : Env} {x : String} {v : Value} (hx : env.lookup σ x = .found v)
      (hv : Value.Reaches σ v env') : Env.Reaches σ env env'

/-- The environments that can be reached from a value. -/
inductive Value.Reaches (σ : Store) : Value → Env → Prop where
  | closure {label : Nat} {x : String} {body : Expr} {env env' : Env} (h : Env.Reaches σ env env') :
      Value.Reaches σ (.closure label x body env) env'
  | field {c : Constructor} {fields : List Value} {v : Value} {env' : Env} (hv : v ∈ fields)
      (h : Value.Reaches σ v env') : Value.Reaches σ (.data c fields) env'

end

/-- An environment in which everything is resolved, wherever one looks, and all functions are made of
source text. -/
structure Env.Ready (σ : Store) (env : Env) : Prop where
  resolved : ∀ env', env.Reaches σ env' → ∀ x, env'.lookup σ x ≠ .unresolved
  source : ∀ env', env.Reaches σ env' → ∀ x v, env'.lookup σ x = .found v → v.isSourced = true

/-- The knots that can be reached from an environment, with the names they are bound to. -/
def Env.knots (σ : Store) (env : Env) : String → Nat → Prop :=
  fun x k => ∃ env', env.Reaches σ env' ∧ env'.find? x = some (.knot k)

variable {K : String → Nat → Prop} {σ : Store}

/-! ## Lookups -/

theorem Env.lookup_of_value (σ : Store) {env : Env} {x : String} {v : Value}
    (h : env.find? x = some (.value v)) : env.lookup σ x = .found v := by
  simp [Env.lookup, h]

theorem Env.lookup_of_knot {env : Env} {x : String} {k : Nat} {v : Value}
    (h : env.find? x = some (.knot k)) (hk : σ.knotValue? k = some v) : env.lookup σ x = .found v := by
  simp [Env.lookup, h, hk]

theorem Env.lookup_eq_unresolved_iff {env : Env} {x : String} :
    env.lookup σ x = .unresolved ↔ ∃ k, env.find? x = some (.knot k) ∧ σ.knotValue? k = none := by
  unfold Env.lookup
  cases env.find? x with
  | none => simp
  | some b =>
      cases b with
      | value v => simp
      | knot k => cases hk : σ.knotValue? k <;> simp [hk]

/-! ## Ways -/

mutual

theorem Env.Reaches.trans : ∀ {env env' env'' : Env}, env.Reaches σ env' → env'.Reaches σ env'' →
    env.Reaches σ env''
  | _, _, _, .refl _, h => h
  | _, _, _, .found hx hv, h => .found hx (Value.Reaches.trans hv h)

theorem Value.Reaches.trans : ∀ {v : Value} {env env' : Env}, v.Reaches σ env → env.Reaches σ env' →
    v.Reaches σ env'
  | _, _, _, .closure h, h' => .closure (Env.Reaches.trans h h')
  | _, _, _, .field hv h, h' => .field hv (Value.Reaches.trans h h')

end

/-! ## At rest -/

mutual

theorem Env.AtRest.of_reaches (hσ : ∀ x k v, K x k → σ.knotValue? k = some v → v.AtRest K) :
    ∀ {env env' : Env}, env.Reaches σ env' → env.AtRest K → env'.AtRest K
  | _, _, .refl _, henv => henv
  | _, _, .found hx hv, henv => Value.AtRest.of_reaches hσ hv (henv.lookup hσ hx)

theorem Value.AtRest.of_reaches (hσ : ∀ x k v, K x k → σ.knotValue? k = some v → v.AtRest K) :
    ∀ {v : Value} {env : Env}, v.Reaches σ env → v.AtRest K → env.AtRest K
  | _, _, .closure h, hv => Env.AtRest.of_reaches hσ h hv.env
  | _, _, .field hmem h, hv => Value.AtRest.of_reaches hσ h (hv.fields _ hmem)

end

theorem Env.sizeOf_lt_of_find? {x : String} {v : Value} :
    ∀ {env : Env}, env.find? x = some (.value v) → sizeOf v < sizeOf env
  | .empty, h => by simp [Env.find?] at h
  | .bind env y w, h => by
      by_cases hy : y = x
      · simp only [Env.find?, hy, if_true, Option.some.injEq, Env.Binding.value.injEq] at h
        simp only [Env.bind.sizeOf_spec, h]
        omega
      · simp only [Env.find?, hy, if_false] at h
        have := Env.sizeOf_lt_of_find? h
        simp only [Env.bind.sizeOf_spec]
        omega
  | .bindKnot env y k, h => by
      by_cases hy : y = x
      · simp [Env.find?, hy] at h
      · simp only [Env.find?, hy, if_false] at h
        have := Env.sizeOf_lt_of_find? h
        simp only [Env.bindKnot.sizeOf_spec]
        omega

theorem Value.areSourced_iff {fields : List Value} :
    Value.isSourced.areSourced fields = true ↔ ∀ v ∈ fields, v.isSourced = true := by
  induction fields with
  | nil => simp [Value.isSourced.areSourced]
  | cons v vs ih => simp [Value.isSourced.areSourced, ih]

/-- A value is at rest if it leads nowhere but where a ready environment leads. -/
theorem Env.Ready.atRest_of_reaches {env : Env} (henv : env.Ready σ) :
    ∀ (v : Value), v.isSourced = true → (∀ env', v.Reaches σ env' → env.Reaches σ env') →
      v.AtRest (env.knots σ)
  | .absent, _, _ => .absent
  | .int n, _, _ => .int n
  | .bool b, _, _ => .bool b
  | .closure label x body env₁, hv, hreach => by
      have henv₁ : env.Reaches σ env₁ := hreach env₁ (.closure (.refl env₁))
      refine .closure hv ?_ fun y k hy => ⟨env₁, henv₁, hy⟩
      -- a value bound in the environment is smaller; one behind a knot need not be, but counts as known
      intro y w hy
      have hw := Env.lookup_of_value σ hy
      have : sizeOf w < sizeOf env₁ := Env.sizeOf_lt_of_find? hy
      exact henv.atRest_of_reaches w (henv.source env₁ henv₁ y w hw) fun env' h' =>
        hreach env' (.closure (.found hw h'))
  | .data c fields, hv, hreach => by
      refine .data fun w hw => ?_
      have := List.sizeOf_lt_of_mem hw
      exact henv.atRest_of_reaches w (Value.areSourced_iff.mp hv w hw) fun env' h' =>
        hreach env' (.field hw h')
termination_by v => sizeOf v

theorem Env.Ready.atRest_of_lookup {env env' : Env} (henv : env.Ready σ) (hreach : env.Reaches σ env')
    {x : String} {v : Value} (hx : env'.lookup σ x = .found v) : v.AtRest (env.knots σ) :=
  henv.atRest_of_reaches v (henv.source env' hreach x v hx) fun _ h => hreach.trans (.found hx h)

/-- A ready environment is at rest with respect to the knots that can be reached from it. -/
theorem Env.Ready.atRest {env : Env} (henv : env.Ready σ) : env.AtRest (env.knots σ) :=
  ⟨fun _ _ hy => henv.atRest_of_lookup (.refl env) (Env.lookup_of_value σ hy),
    fun _ _ hy => ⟨env, .refl env, hy⟩⟩

/-- So are the values of these knots. -/
theorem Env.Ready.atRest_knots {env : Env} (henv : env.Ready σ) {x : String} {k : Nat} {v : Value}
    (hk : env.knots σ x k) (hv : σ.knotValue? k = some v) : v.AtRest (env.knots σ) := by
  obtain ⟨env', hreach, hx⟩ := hk
  exact henv.atRest_of_lookup hreach (Env.lookup_of_knot hx hv)

/-- All of these knots are resolved. -/
theorem Env.Ready.resolved_knots {env : Env} (henv : env.Ready σ) {x : String} {k : Nat}
    (hk : env.knots σ x k) : ∃ v, σ.knotValue? k = some v := by
  obtain ⟨env', hreach, hx⟩ := hk
  cases hv : σ.knotValue? k with
  | some v => exact ⟨v, rfl⟩
  | none => exact absurd (Env.lookup_eq_unresolved_iff.mpr ⟨k, hx, hv⟩) (henv.resolved env' hreach x)

theorem Value.AtRest.isSourced {v : Value} (h : v.AtRest K) : v.isSourced = true := by
  induction h with
  | absent => rfl
  | int n => rfl
  | bool b => rfl
  | closure hbody _ _ _ => exact hbody
  | data _ ih => exact Value.areSourced_iff.mpr ih

/-- An environment is ready if it is at rest with respect to knots that are resolved with values at
rest. -/
theorem Env.ready_of_atRest {env : Env} (henv : env.AtRest K)
    (hK : ∀ x k, K x k → ∃ v, σ.knotValue? k = some v ∧ v.AtRest K) : env.Ready σ := by
  have hσ : ∀ x k v, K x k → σ.knotValue? k = some v → v.AtRest K := by
    intro x k v hk hv
    obtain ⟨w, hw, hrest⟩ := hK x k hk
    obtain rfl : v = w := Option.some.inj (hv.symm.trans hw)
    exact hrest
  constructor
  · intro env' hreach x hx
    obtain ⟨k, hfind, hnone⟩ := Env.lookup_eq_unresolved_iff.mp hx
    obtain ⟨v, hv, -⟩ := hK x k ((Env.AtRest.of_reaches hσ hreach henv).knot x k hfind)
    simp [hv] at hnone
  · intro env' hreach x v hx
    exact ((Env.AtRest.of_reaches hσ hreach henv).lookup hσ hx).isSourced

end FunLang
