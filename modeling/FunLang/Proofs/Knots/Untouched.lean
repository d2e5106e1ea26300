import FunLang.Proofs.Knots.Settled
import FunLang.Proofs.Machine.Stops

set_option autoImplicit false

/-!
# Runs leave knots alone that they have not made

An evaluation that ends with a value leaves all knots alone that were there before it
(`Evaluates.settles`). But a run may also fail or be cut short, and this may be in the middle of a `let`.
In every state of a run the `let`s under way are to resolve knots that the run has made
(`State.Apart`), so that no step touches an older one. However the run ends, the older knots are as they
were (`Stops.keeps`).
-/

namespace FunLang

/-- All `let`s under way resolve knots from number `base` on. -/
def Apart (base : Nat) (refs : List KnotRef) : Prop := ∀ k, .tie k ∈ refs → base ≤ k

section References

variable {base k : Nat} {refs refs' : List KnotRef}

@[simp] theorem apart_nil : Apart base [] := by
  simp [Apart]

@[simp] theorem apart_append : Apart base (refs ++ refs') ↔ Apart base refs ∧ Apart base refs' := by
  simp only [Apart, List.mem_append, or_imp, forall_and]

@[simp] theorem apart_cons_name : Apart base (.name k :: refs) ↔ Apart base refs := by
  simp [Apart]

@[simp] theorem apart_cons_tie : Apart base (.tie k :: refs) ↔ base ≤ k ∧ Apart base refs := by
  simp [Apart]

theorem Apart.part (h : Apart base refs) (hrefs : refs' ⊆ refs) : Apart base refs' :=
  fun k hk => h k (hrefs hk)

theorem Store.Covers.apart {σ : Store} (h : σ.Covers refs) : Apart base refs := by
  intro k hk
  obtain ⟨l, -, hl⟩ := h _ hk
  cases hl

end References

/-- A store that has all knots below `base`, and whose values are apart from them. -/
structure Store.Apart (base : Nat) (σ : Store) : Prop where
  size : base ≤ σ.knots.size
  values : ∀ k v, σ.knotValue? k = some v → FunLang.Apart base v.refs

/-- Such a store comes after `σ`, with the same knots below `base`. -/
structure Store.Spares (base : Nat) (σ σ' : Store) : Prop where
  apart : σ'.Apart base
  same : ∀ k, k < base → σ'.knotValue? k = σ.knotValue? k

section Steps

variable {base : Nat} {σ σ' : Store} {env : Env} {e : Expr} {r : Step} {v : Value}

theorem Store.Apart.refl (h : σ.Apart base) : σ.Spares base σ := ⟨h, fun _ _ => rfl⟩

theorem Store.Apart.addKnot (h : σ.Apart base) (x : String) : σ.Spares base (σ.addKnot x) := by
  refine ⟨⟨?_, fun k v hk => ?_⟩, fun k _ => Store.knotValue?_addKnot σ x k⟩
  · rw [Store.size_addKnot]
    exact Nat.le_succ_of_le h.size
  · rw [Store.knotValue?_addKnot] at hk
    exact h.values k v hk

theorem Store.Apart.resolve (h : σ.Apart base) {k : Nat} (hk : base ≤ k) (hv : FunLang.Apart base v.refs) :
    σ.Spares base (σ.resolve k v) := by
  refine ⟨⟨?_, Store.forall_knotValue?_resolve h.values k hv⟩, fun l hl => ?_⟩
  · rw [Store.size_resolve]
    exact h.size
  · exact Store.knotValue?_resolve_of_ne σ v (by omega)

theorem Env.apart_of_lookup (henv : Apart base env.refs) (hσ : σ.Apart base) {x : String}
    (h : env.lookup σ x = .found v) : Apart base v.refs := by
  rcases Env.refs_of_lookup h with hrefs | ⟨k, -, hk⟩
  · exact henv.part hrefs
  · exact hσ.values k v hk

theorem Step.apart_ofValue (hv : Apart base v.refs) : Apart base (Step.ofValue v).inPlace.refs := by
  cases v with
  | absent => exact apart_nil
  | _ => exact hv

theorem applyValue_apart {p : Pos} {g : Value} {rest : List Expr} (h : applyValue p g v rest = .ok r)
    (hg : Apart base g.refs) (hv : Apart base v.refs) (hrest : Apart base (Expr.refsAll rest)) :
    Apart base r.inPlace.refs := by
  cases g with
  | closure label x body env =>
      simp only [Value.refs, apart_append] at hg
      cases rest with
      | nil =>
          cases h
          simp [Step.inPlace, Expr.refs, Env.refs, hg, hv]
      | cons a rest =>
          cases h
          simp [Step.inPlace, Expr.refs, Env.refs, hg, hv, hrest]
  | data c fields =>
      have hdata : Apart base (Value.data c (fields ++ [v])).refs := by
        simp only [Value.refs] at hg
        simp [Value.refs, Value.refsAll_append, Value.refsAll, hg, hv]
      cases rest with
      | nil =>
          cases h
          exact hdata
      | cons a rest =>
          cases h
          simp [Step.inPlace, Expr.refs, hdata, hrest]
  | _ => simp [applyValue] at h

theorem Alt.apart_of_select? {alts : List Alt} {bs : List (String × Value)}
    (h : Alt.select? alts v = some (e, bs)) (halts : Apart base (Alt.refs alts))
    (hv : Apart base v.refs) (henv : Apart base env.refs) :
    Apart base e.refs ∧ Apart base (env.bindAll bs).refs := by
  obtain ⟨he, hbs⟩ := Alt.refs_of_select? h
  refine ⟨halts.part he, fun k hk => ?_⟩
  rcases Env.refs_bindAll hk with hk | ⟨b, hb, hk⟩
  · exact henv k hk
  · exact hv k (hbs b hb hk)

/-- Only a `let` under way resolves a knot, and one that begins makes a new knot for it. -/
theorem Reduces.spares (h : Reduces σ env e σ' r) (hσ : σ.Apart base) (henv : Apart base env.refs)
    (he : Apart base e.refs) : σ.Spares base σ' ∧ Apart base r.inPlace.refs := by
  cases h with
  | value v => exact ⟨hσ.refl, Step.apart_ofValue he⟩
  | found hx => exact ⟨hσ.refl, Step.apart_ofValue (Env.apart_of_lookup henv hσ hx)⟩
  | unresolved _ => exact ⟨hσ.refl, he⟩
  | int p n => exact ⟨hσ.refl, apart_nil⟩
  | bool p b => exact ⟨hσ.refl, apart_nil⟩
  | binary hv => exact ⟨hσ.refl, by simp [Step.inPlace, Expr.refs, BinOp.refs_of_eval? hv]⟩
  | yes p t f => exact ⟨hσ.refl, he.part (by simp [Step.inPlace, Expr.refs])⟩
  | no p t f => exact ⟨hσ.refl, he.part (by simp [Step.inPlace, Expr.refs])⟩
  | fn p x body =>
      exact ⟨⟨⟨hσ.size, hσ.values⟩, fun _ _ => rfl⟩, apart_append.mpr ⟨he, henv⟩⟩
  | app_nil p f => exact ⟨hσ.refl, he.part (by simp [Step.inPlace, Expr.refs])⟩
  | app hg =>
      simp only [Expr.refs, Expr.refsAll, apart_append] at he
      exact ⟨hσ.refl, applyValue_apart hg he.1 he.2.1 he.2.2⟩
  | letIn p x bound body =>
      simp only [Expr.refs, apart_append] at he
      -- the number of the new knot is the size of the store, which has all knots below `base`
      exact ⟨hσ.addKnot x, by simp [Step.inPlace, Expr.refs, Env.refs, hσ.size, henv, he]⟩
  | tying x k v body =>
      simp only [Expr.refs, apart_cons_tie, apart_append] at he
      exact ⟨hσ.resolve he.1 he.2.1, by simp [Step.inPlace, Expr.refs, Env.refs, henv, he]⟩
  | annot p e t => exact ⟨hσ.refl, he⟩
  | ctor p c => exact ⟨hσ.refl, apart_nil⟩
  | bare ha =>
      simp only [Expr.refs, apart_append] at he
      exact ⟨hσ.refl, (Alt.apart_of_select? ha he.2 he.1 henv).1⟩
  | bind ha =>
      simp only [Expr.refs, apart_append] at he
      obtain ⟨hbody, hbs⟩ := Alt.apart_of_select? ha he.2 he.1 henv
      exact ⟨hσ.refl, apart_append.mpr ⟨hbs, hbody⟩⟩

theorem Frame.apart_of_fill {F : Frame} (h : Apart base (F.fill e).refs) : Apart base e.refs := by
  cases F <;> exact h.part (by simp [Frame.fill, Expr.refs, Expr.refsAll])

/-- A part that is apart may take the place of another one. -/
theorem Frame.apart_fill {F : Frame} (h : Apart base (F.fill e).refs) {e' : Expr}
    (he' : Apart base e'.refs) : Apart base (F.fill e').refs := by
  cases F <;> simp_all [Frame.fill, Expr.refs, Expr.refsAll]

theorem step_spares (hσ : σ.Apart base) (henv : Apart base env.refs) (he : Apart base e.refs)
    (h : step σ env e = .ok (σ', r)) : σ.Spares base σ' ∧ Apart base r.inPlace.refs := by
  induction env, e using Expr.focus_induction generalizing r with
  | redex env e hredex => exact (hredex.reduces h).spares hσ henv he
  | within env env' e ih =>
      simp only [Expr.refs, apart_append] at he
      obtain ⟨s, hs, rfl⟩ := exists_of_step_within h
      obtain ⟨hspares, hs'⟩ := ih he.1 he.2 hs
      refine ⟨hspares, ?_⟩
      cases s with
      | done v => exact hs'
      | stay e' => exact apart_append.mpr ⟨he.1, hs'⟩
      | move e' env'' => exact hs'
  | frame env F e hv ih =>
      obtain ⟨s, hs, rfl⟩ := exists_of_step_fill hv h
      obtain ⟨hspares, hs'⟩ := ih henv (Frame.apart_of_fill he) hs
      exact ⟨hspares, Frame.apart_fill he hs'⟩

end Steps

/-! ## Runs -/

namespace Machine

/-- A state that leads to no change of the knots below `base`. -/
structure State.Apart (base : Nat) (s : State) : Prop where
  store : s.store.Apart base
  env : FunLang.Apart base s.env.refs
  expr : FunLang.Apart base s.expr.refs

variable {base : Nat} {s s' : State}

theorem State.Apart.next (h : s.Apart base) (hn : s.next = .state s') :
    s'.Apart base ∧ ∀ k, k < base → s'.store.knotValue? k = s.store.knotValue? k := by
  obtain ⟨r, hstep, hr⟩ := State.exists_of_next_eq_state hn
  obtain ⟨hspares, hexpr⟩ := step_spares h.store h.env h.expr hstep
  refine ⟨?_, hspares.same⟩
  rcases hr with ⟨rfl, henv⟩ | rfl
  · exact ⟨hspares.apart, henv ▸ h.env, hexpr⟩
  · obtain ⟨henv', hexpr'⟩ := apart_append.mp hexpr
    exact ⟨hspares.apart, henv', hexpr'⟩

/-- The knots below `base` are the same at the end of a run, whichever way it ends. -/
theorem Stops.spares {maxSteps : Int} {signal : Nat → Option Interrupt} {made : Nat} {r : Result}
    (h : Stops maxSteps signal made s r) (hs : s.Apart base) : s.store.Spares base r.store := by
  induction h with
  | cut _ => exact hs.store.refl
  | failure _ _ => exact hs.store.refl
  | value _ hn => exact (step_spares hs.store hs.env hs.expr (State.step_of_next_eq_value hn)).1
  | state _ hn _ ih =>
      obtain ⟨hs', hsame⟩ := hs.next hn
      obtain ⟨hapart, hrest⟩ := ih hs'
      exact ⟨hapart, fun k hk => (hrest k hk).trans (hsame k hk)⟩

theorem Stops.keeps {maxSteps : Int} {signal : Nat → Option Interrupt} {made : Nat} {r : Result}
    (h : Stops maxSteps signal made s r) (hs : Settled s.store s.env s.expr) :
    s.store.Keeps r.store := by
  have hapart : s.Apart s.store.knots.size :=
    ⟨⟨le_rfl, fun k v hk => (hs.store k v hk).apart⟩, hs.env.apart, hs.expr.apart⟩
  have hspares := h.spares hapart
  exact ⟨hspares.apart.size, hspares.same⟩

end Machine

end FunLang
