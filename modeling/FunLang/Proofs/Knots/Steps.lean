import FunLang.Proofs.Knots.Spine

set_option autoImplicit false

/-!
# What a step does to the knots

A step does one of three things to the knots of the store (`Change`): it leaves them alone, and then
the `let`s under way stay the same; it makes a knot, whose `let` is from then on the innermost one
under way; or it resolves the knot of the innermost `let` under way, which is then done.

`step_change` says that every step of an expression under evaluation is of one of these kinds and
leaves an expression under evaluation.
-/

namespace FunLang

/-- The knots in `K` and one more. -/
def withKnot (K : String → Nat → Prop) (x : String) (k : Nat) : String → Nat → Prop :=
  fun y l => K y l ∨ y = x ∧ l = k

/-- How a step changes the store, the `let`s under way and the knots that can be seen. -/
inductive Change (K : String → Nat → Prop) (σ : Store) :
    List (String × Nat) → Store → List (String × Nat) → (String → Nat → Prop) → Prop where
  | keep {lets : List (String × Nat)} {σ' : Store} (hknots : σ'.knots = σ.knots) :
      Change K σ lets σ' lets K
  | make {lets : List (String × Nat)} (x : String) :
      Change K σ lets (σ.addKnot x) (lets ++ [(x, σ.knots.size)]) (withKnot K x σ.knots.size)
  | tie {lets : List (String × Nat)} (x : String) (k : Nat) {v : Value} (hv : v.Computed K) :
      Change K σ (lets ++ [(x, k)]) (σ.resolve k v) lets K

variable {K K' : String → Nat → Prop} {σ σ' : Store}

theorem Change.mono {lets lets' : List (String × Nat)} (h : Change K σ lets σ' lets' K') :
    ∀ x k, K x k → K' x k := by
  cases h with
  | keep _ => exact fun _ _ hk => hk
  | make x => exact fun _ _ hk => Or.inl hk
  | tie x k _ => exact fun _ _ hk => hk

/-- The outer `let`s do not matter to a change. -/
theorem Change.under {lets lets' : List (String × Nat)} (h : Change K σ lets σ' lets' K')
    (outer : List (String × Nat)) : Change K σ (outer ++ lets) σ' (outer ++ lets') K' := by
  cases h with
  | keep hknots => exact .keep hknots
  | make x =>
      rw [← List.append_assoc]
      exact .make x
  | tie x k hv =>
      rw [← List.append_assoc]
      exact .tie x k hv

/-! ## Values that a step computes -/

theorem BinOp.computed_of_eval? {op : BinOp} {a b v : Value} (h : op.eval? a b = some v) :
    v.Computed K := by
  unfold BinOp.eval? at h
  split at h <;> simp only [Option.some.injEq, reduceCtorEq] at h <;> subst h
  all_goals
    first
    | exact ⟨by simp, .int _⟩
    | exact ⟨by simp, .bool _⟩

/-- A value that was looked up is what the expression becomes, unless it is absent. -/
theorem Step.running_ofValue {v : Value} (hv : v.AtRest K) :
    (Step.ofValue v).inPlace.Running K ∧ (Step.ofValue v).inPlace.spine = [] := by
  cases v with
  | absent => exact ⟨⟨⟨by simp [Env.find?], by simp [Env.find?]⟩, rfl⟩, rfl⟩
  | _ => exact ⟨⟨by simp, hv⟩, rfl⟩

/-- A function that waits for the next of its arguments. -/
theorem Expr.Waiting.running_app {f a : Expr} {rest : List Expr} (hf : f.Waiting K) (p : Pos)
    (hargs : Expr.areSource (a :: rest) = true) :
    (Expr.app p f (a :: rest)).Running K ∧ (Expr.app p f (a :: rest)).spine = [] := by
  simp only [Expr.areSource, Bool.and_eq_true] at hargs
  have hF : (Frame.arg p f rest).AtRest K := ⟨hf, hargs.2⟩
  exact ⟨hF.fill (Expr.running_of_isSource hargs.1),
    (hF.spine_fill a).trans (Expr.spine_of_isSource hargs.1)⟩

theorem applyValue_running {p : Pos} {g v : Value} {rest : List Expr} {r : Step}
    (h : applyValue p g v rest = .ok r) (hg : g.Computed K) (hv : v.Computed K)
    (hrest : Expr.areSource rest = true) : r.inPlace.Running K ∧ r.inPlace.spine = [] := by
  cases g with
  | closure label x body env =>
      have henv : (Env.bind env x v).AtRest K := hg.2.env.bind x hv.2
      cases rest with
      | nil =>
          simp only [applyValue, Except.ok.injEq] at h
          subst h
          refine ⟨⟨henv, Expr.running_of_isSource hg.2.body⟩, ?_⟩
          simp [Step.inPlace, Expr.spine, Expr.spine_of_isSource hg.2.body]
      | cons a rest =>
          simp only [applyValue, Except.ok.injEq] at h
          subst h
          exact Expr.Waiting.running_app (f := .within (.bind env x v) body) ⟨henv, hg.2.body⟩ p hrest
  | data c fields =>
      have hdata : (Value.data c (fields ++ [v])).Computed K := ⟨by simp, hg.2.addField hv.2⟩
      cases rest with
      | nil =>
          simp only [applyValue, Except.ok.injEq] at h
          subst h
          exact ⟨hdata, rfl⟩
      | cons a rest =>
          simp only [applyValue, Except.ok.injEq] at h
          subst h
          exact Expr.Waiting.running_app (f := .value (.data c (fields ++ [v]))) hdata p hrest
  | _ => simp [applyValue] at h

/-! ## Steps -/

/-- A step that leaves the knots alone and an expression without a `let` under way. -/
theorem Change.exists_of_keep {e : Expr} {r : Step} (hknots : σ'.knots = σ.knots) (he : e.spine = [])
    (hr : r.inPlace.Running K ∧ r.inPlace.spine = []) :
    ∃ K', Change K σ e.spine σ' r.inPlace.spine K' ∧ r.inPlace.Running K' := by
  rw [he, hr.2]
  exact ⟨K, .keep hknots, hr.1⟩

theorem Expr.running_stay {e : Expr} (he : e.isSource = true) :
    (Step.stay e).inPlace.Running K ∧ (Step.stay e).inPlace.spine = [] :=
  ⟨Expr.running_of_isSource he, Expr.spine_of_isSource he⟩

theorem Expr.running_move {e : Expr} (he : e.isSource = true) {env : Env} (henv : env.AtRest K) :
    (Step.move e env).inPlace.Running K ∧ (Step.move e env).inPlace.spine = [] :=
  ⟨⟨henv, Expr.running_of_isSource he⟩, by simp [Step.inPlace, Expr.spine, Expr.spine_of_isSource he]⟩

/-- What an expression does that makes its step by itself. -/
theorem Reduces.change {env : Env} {e : Expr} {r : Step} (h : Reduces σ env e σ' r)
    (henv : env.AtRest K) (he : e.Running K)
    (hσ : ∀ x k v, K x k → σ.knotValue? k = some v → v.AtRest K) :
    ∃ K', Change K σ e.spine σ' r.inPlace.spine K' ∧ r.inPlace.Running K' := by
  cases h with
  | value v =>
      rw [Step.ofValue_of_ne he.1]
      exact Change.exists_of_keep rfl rfl ⟨he, rfl⟩
  | found hx => exact Change.exists_of_keep rfl rfl (Step.running_ofValue (henv.lookup hσ hx))
  | unresolved _ => exact Change.exists_of_keep rfl rfl (Expr.running_stay rfl)
  | int p n => exact Change.exists_of_keep rfl rfl ⟨⟨by simp, .int n⟩, rfl⟩
  | bool p b => exact Change.exists_of_keep rfl rfl ⟨⟨by simp, .bool b⟩, rfl⟩
  | binary hv => exact Change.exists_of_keep rfl rfl ⟨BinOp.computed_of_eval? hv, rfl⟩
  | yes p t e => exact Change.exists_of_keep rfl rfl (Expr.running_stay he.2.1)
  | no p t e => exact Change.exists_of_keep rfl rfl (Expr.running_stay he.2.2)
  | fn p x body =>
      exact Change.exists_of_keep rfl rfl ⟨⟨by simp, .closure he henv.value henv.knot⟩, rfl⟩
  | app_nil p f => exact Change.exists_of_keep rfl rfl (Expr.running_stay he)
  | app hg => exact Change.exists_of_keep rfl rfl (applyValue_running hg he.2.1 he.1 he.2.2)
  | letIn p x bound body =>
      simp only [Expr.Running, Expr.isSource, Bool.and_eq_true] at he
      -- the bound expression is evaluated where its own knot can be seen already
      have henv' : (Env.bindKnot env x σ.knots.size).AtRest (withKnot K x σ.knots.size) :=
        (henv.mono fun _ _ hk => Or.inl hk).bindKnot (Or.inr ⟨rfl, rfl⟩)
      refine ⟨withKnot K x σ.knots.size, ?_, ⟨henv', Expr.running_of_isSource he.1⟩, he.2⟩
      simp only [Step.inPlace, Expr.spine, Expr.spine_of_isSource he.1]
      show Change K σ [] _ ([] ++ [(x, σ.knots.size)]) _
      exact .make x
  | tying x k v body =>
      have hr := Expr.running_move he.2 (henv.bind x he.1.2)
      refine ⟨K, ?_, hr.1⟩
      rw [hr.2]
      -- the bound expression is a value, so that this `let` is the innermost one under way
      show Change K σ ([] ++ [(x, k)]) _ [] K
      exact .tie x k he.1
  | annot p e t => exact Change.exists_of_keep rfl rfl (Expr.running_stay he)
  | ctor p c => exact Change.exists_of_keep rfl rfl ⟨⟨by simp, .data (by simp)⟩, rfl⟩
  | bare ha =>
      obtain ⟨hsource, -⟩ := Alt.select?_atRest ha he.2 he.1.2
      exact Change.exists_of_keep rfl rfl (Expr.running_stay hsource)
  | bind ha =>
      obtain ⟨hsource, hbs⟩ := Alt.select?_atRest ha he.2 he.1.2
      exact Change.exists_of_keep rfl rfl (Expr.running_move hsource (henv.bindAll hbs))

/-- What an expression under evaluation does. -/
theorem step_change {env : Env} {e : Expr} (henv : env.AtRest K) (he : e.Running K)
    (hσ : ∀ x k v, K x k → σ.knotValue? k = some v → v.AtRest K) {r : Step}
    (h : step σ env e = .ok (σ', r)) :
    ∃ K', Change K σ e.spine σ' r.inPlace.spine K' ∧ r.inPlace.Running K' := by
  induction env, e using Expr.focus_induction generalizing r with
  | redex env e hredex => exact (hredex.reduces h).change henv he hσ
  | within env env' e ih =>
      obtain ⟨s, hs, rfl⟩ := exists_of_step_within h
      obtain ⟨K', hchange, hrun⟩ := ih he.1 he.2 hs
      cases s with
      | done v => exact ⟨K', hchange, hrun⟩
      | stay e' => exact ⟨K', hchange, he.1.mono hchange.mono, hrun⟩
      | move e' env'' => exact ⟨K', hchange, hrun⟩
  | frame env F e hv ih =>
      obtain ⟨hF, he⟩ := Frame.atRest_of_fill hv he
      obtain ⟨s, hs, rfl⟩ := exists_of_step_fill hv h
      obtain ⟨K', hchange, hrun⟩ := ih henv he hs
      -- the frame waits in the new store too, which has all the knots of the old one
      have hF' : F.AtRest K' := hF.mono hchange.mono
      refine ⟨K', ?_, hF'.fill hrun⟩
      rw [hF.spine_fill e, Step.inPlace, hF'.spine_fill s.inPlace]
      exact hchange.under F.ties

end FunLang
