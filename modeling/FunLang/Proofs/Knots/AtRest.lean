import FunLang.Machine.Step
import FunLang.Proofs.Machine.Matching
import FunLang.Proofs.Syntax.Source

set_option autoImplicit false

/-!
# Values and environments at rest

A value is at rest with respect to a set `K` of knots, each with the name it is bound to, if the
functions in it have source expressions as bodies and the environments that can be seen from it bind
names only to values at rest and to knots of `K`. What is behind a knot is not looked at: a knot may
well be found again in its own value.
-/

namespace FunLang

/-- A value that is made of source expressions and of knots in `K`. -/
inductive Value.AtRest (K : String → Nat → Prop) : Value → Prop where
  | absent : AtRest K .absent
  | int (n : Int64) : AtRest K (.int n)
  | bool (b : Bool) : AtRest K (.bool b)
  | closure {label : Nat} {x : String} {body : Expr} {env : Env} (hbody : body.isSource = true)
      (hvalue : ∀ y v, env.find? y = some (.value v) → AtRest K v)
      (hknot : ∀ y k, env.find? y = some (.knot k) → K y k) : AtRest K (.closure label x body env)
  | data {c : Constructor} {fields : List Value} (hfields : ∀ v ∈ fields, AtRest K v) :
      AtRest K (.data c fields)

/-- An environment that binds names to values at rest and to knots in `K`. -/
structure Env.AtRest (K : String → Nat → Prop) (env : Env) : Prop where
  value : ∀ y v, env.find? y = some (.value v) → v.AtRest K
  knot : ∀ y k, env.find? y = some (.knot k) → K y k

variable {K K' : String → Nat → Prop}

theorem Value.AtRest.mono (hK : ∀ x k, K x k → K' x k) {v : Value} (h : v.AtRest K) :
    v.AtRest K' := by
  induction h with
  | absent => exact .absent
  | int n => exact .int n
  | bool b => exact .bool b
  | closure hbody _ hknot ih => exact .closure hbody ih fun y k hy => hK y k (hknot y k hy)
  | data _ ih => exact .data ih

theorem Env.AtRest.mono (hK : ∀ x k, K x k → K' x k) {env : Env} (h : env.AtRest K) :
    env.AtRest K' :=
  ⟨fun y v hy => (h.value y v hy).mono hK, fun y k hy => hK y k (h.knot y k hy)⟩

theorem Value.AtRest.env {label : Nat} {x : String} {body : Expr} {env : Env}
    (h : (Value.closure label x body env).AtRest K) : env.AtRest K := by
  cases h with
  | closure _ hvalue hknot => exact ⟨hvalue, hknot⟩

theorem Value.AtRest.body {label : Nat} {x : String} {body : Expr} {env : Env}
    (h : (Value.closure label x body env).AtRest K) : body.isSource = true := by
  cases h with
  | closure hbody _ _ => exact hbody

theorem Value.AtRest.fields {c : Constructor} {fields : List Value} (h : (Value.data c fields).AtRest K) :
    ∀ v ∈ fields, v.AtRest K := by
  cases h with
  | data hfields => exact hfields

/-- A constructed value with one more field. -/
theorem Value.AtRest.addField {c : Constructor} {fields : List Value} {v : Value}
    (h : (Value.data c fields).AtRest K) (hv : v.AtRest K) : (Value.data c (fields ++ [v])).AtRest K := by
  refine .data fun w hw => ?_
  rcases List.mem_append.mp hw with hw | hw
  · exact h.fields w hw
  · rw [List.mem_singleton.mp hw]
    exact hv

/-! ## Extending environments -/

theorem Env.AtRest.bind {env : Env} (h : env.AtRest K) (x : String) {v : Value} (hv : v.AtRest K) :
    (Env.bind env x v).AtRest K := by
  constructor
  · intro y w hy
    by_cases hxy : x = y
    · simp only [Env.find?, hxy, if_true, Option.some.injEq, Env.Binding.value.injEq] at hy
      exact hy ▸ hv
    · simp only [Env.find?, hxy, if_false] at hy
      exact h.value y w hy
  · intro y k hy
    by_cases hxy : x = y
    · simp [Env.find?, hxy] at hy
    · simp only [Env.find?, hxy, if_false] at hy
      exact h.knot y k hy

theorem Env.AtRest.bindKnot {env : Env} (h : env.AtRest K) {x : String} {k : Nat} (hk : K x k) :
    (Env.bindKnot env x k).AtRest K := by
  constructor
  · intro y w hy
    by_cases hxy : x = y
    · simp [Env.find?, hxy] at hy
    · simp only [Env.find?, hxy, if_false] at hy
      exact h.value y w hy
  · intro y l hy
    by_cases hxy : x = y
    · simp only [Env.find?, hxy, if_true, Option.some.injEq, Env.Binding.knot.injEq] at hy
      rw [← hxy, ← hy]
      exact hk
    · simp only [Env.find?, hxy, if_false] at hy
      exact h.knot y l hy

theorem Env.AtRest.bindAll {env : Env} (h : env.AtRest K) {bs : List (String × Value)}
    (hbs : ∀ b ∈ bs, b.2.AtRest K) : (env.bindAll bs).AtRest K := by
  induction bs generalizing env with
  | nil => exact h
  | cons b bs ih =>
      have hb : b.2.AtRest K := hbs b (by simp)
      exact ih (h.bind b.1 hb) fun c hc => hbs c (by simp [hc])

/-- A name is found bound to a value at rest, provided the resolved knots are. -/
theorem Env.AtRest.lookup {env : Env} {σ : Store} (h : env.AtRest K)
    (hσ : ∀ x k v, K x k → σ.knotValue? k = some v → v.AtRest K) {x : String} {v : Value}
    (hx : env.lookup σ x = .found v) : v.AtRest K := by
  unfold Env.lookup at hx
  cases hf : env.find? x with
  | none => simp [hf] at hx
  | some b =>
      cases b with
      | value w =>
          simp only [hf, Lookup.found.injEq] at hx
          exact hx ▸ h.value x w hf
      | knot k =>
          cases hk : σ.knotValue? k with
          | none => simp [hf, hk] at hx
          | some w =>
              simp only [hf, hk, Lookup.found.injEq] at hx
              exact hx ▸ hσ x k w (h.knot x k hf) hk

/-! ## Matching -/

/-- The alternative that is taken has a source expression as its body and binds parts of the value. -/
theorem Alt.select?_atRest {alts : List Alt} {v : Value} {e : Expr} {bs : List (String × Value)}
    (h : Alt.select? alts v = some (e, bs)) (halts : Alt.areSource alts = true) (hv : v.AtRest K) :
    e.isSource = true ∧ ∀ b ∈ bs, b.2.AtRest K := by
  obtain ⟨p, pat, hmem, hpat⟩ := Alt.exists_of_select? h
  exact ⟨Alt.isSource_of_mem halts hmem, Pattern.bindings?_forall (fun _ _ h => h.fields) hpat hv⟩

end FunLang
