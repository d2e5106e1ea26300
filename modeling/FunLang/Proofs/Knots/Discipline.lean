import FunLang.Proofs.Knots.Reachable
import FunLang.Proofs.Knots.Tied
import FunLang.Proofs.Machine.Runs

set_option autoImplicit false

/-!
# The discipline of knots

Along a run of a source expression the knots that have been made and not yet resolved are those of the
`let`s under way on the spine. Every step keeps this up, so that it holds in every state of a run
(`State.Tidy.after`).

It follows that a knot is resolved once, that only a name of an enclosing `let` is ever found
unresolved, and that from a value at the end of a run no unresolved knot can be reached.
-/

namespace FunLang

variable {K : String → Nat → Prop}

/-! ## The focus -/

/-- The focus is under evaluation itself, under an environment at rest, and its `let`s are the
innermost ones. -/
theorem Expr.Running.focus {env : Env} {e : Expr} (henv : env.AtRest K) (he : e.Running K) :
    (e.focus env).1.AtRest K ∧ (e.focus env).2.Running K ∧
      ∃ outer, e.spine = outer ++ (e.focus env).2.spine := by
  induction env, e using Expr.focus_induction with
  | redex env e hredex =>
      rw [hredex.focus_eq env]
      exact ⟨henv, he, [], rfl⟩
  | within env env' e ih => exact ih he.1 he.2
  | frame env F e hv ih =>
      obtain ⟨hF, he⟩ := Frame.atRest_of_fill hv he
      obtain ⟨henv', he', outer, hspine⟩ := ih henv he
      rw [F.focus_fill env hv, hF.spine_fill, hspine, ← List.append_assoc]
      exact ⟨henv', he', _, rfl⟩

/-- The step of an expression does to the store what the step of its focus does. -/
theorem exists_step_focus {σ σ' : Store} {env : Env} {e : Expr} {r : Step}
    (h : step σ env e = .ok (σ', r)) :
    ∃ r', step σ (e.focus env).1 (e.focus env).2 = .ok (σ', r') := by
  induction env, e using Expr.focus_induction generalizing r with
  | redex env e hredex =>
      rw [hredex.focus_eq env]
      exact ⟨r, h⟩
  | within env env' e ih =>
      obtain ⟨s, hs, -⟩ := exists_of_step_within h
      exact ih hs
  | frame env F e hv ih =>
      obtain ⟨s, hs, -⟩ := exists_of_step_fill hv h
      rw [F.focus_fill env hv]
      exact ih hs

namespace Machine

variable {base : Nat} {s s' : State}

/-! ## States of a run -/

/-- A state of a run: its knots are in order and everything in it is at rest but the spine. -/
structure State.Tidy (K : String → Nat → Prop) (base : Nat) (s : State) : Prop where
  tied : Tied K base s.store s.expr.spine
  env : s.env.AtRest (Known K base s.store)
  expr : s.expr.Running (Known K base s.store)

theorem State.Tidy.next (h : s.Tidy K base) (hn : s.next = .state s') :
    s'.Tidy K base ∧ ∀ k v, s.store.knotValue? k = some v → s'.store.knotValue? k = some v := by
  obtain ⟨r, hstep, hr⟩ := State.exists_of_next_eq_state hn
  obtain ⟨K', hchange, hrun⟩ := step_change h.env h.expr h.tied.values hstep
  obtain ⟨htied, hknown⟩ := hchange.tied h.tied
  refine ⟨?_, fun k v hk => hchange.knotValue?_eq h.tied hk⟩
  -- the step leads to an expression under the same environment or under a new one
  rcases hr with ⟨rfl, henv⟩ | rfl
  · refine ⟨htied, ?_, hrun.mono hknown⟩
    rw [henv]
    exact (h.env.mono hchange.mono).mono hknown
  · exact ⟨htied, hrun.1.mono hknown, hrun.2.mono hknown⟩

theorem State.Tidy.after {n : Nat} (h : s.Tidy K base) (hn : s.after? n = some s') :
    s'.Tidy K base ∧ ∀ k v, s.store.knotValue? k = some v → s'.store.knotValue? k = some v := by
  induction n generalizing s with
  | zero =>
      simp only [State.after?, Option.some.injEq] at hn
      subst hn
      exact ⟨h, fun _ _ hk => hk⟩
  | succ n ih =>
      obtain ⟨t, ht, hn⟩ := State.exists_of_after?_succ hn
      obtain ⟨htidy, hkeep⟩ := h.next ht
      obtain ⟨htidy', hkeep'⟩ := ih htidy hn
      exact ⟨htidy', fun k v hk => hkeep' k v (hkeep k v hk)⟩

/-- A run starts in order if its expression is source text and its environment is ready. -/
theorem State.tidy_of_ready {σ : Store} {env : Env} {e : Expr} (he : e.isSource = true)
    (henv : env.Ready σ) : State.Tidy (env.knots σ) σ.knots.size ⟨σ, env, e⟩ := by
  -- no knot has been made yet, so that the known ones are those of the environment
  have hknown : Known (env.knots σ) σ.knots.size σ = env.knots σ := by
    funext x k
    refine propext ⟨?_, Or.inl⟩
    rintro (hk | ⟨hle, knot, hknot, -⟩)
    · exact hk
    · exact absurd (Array.getElem?_eq_some_iff.mp hknot).1 (Nat.not_lt.mpr hle)
  refine ⟨⟨le_rfl, ?_, ?_, ?_, ?_⟩, ?_, Expr.running_of_isSource he⟩
  · intro x k hk
    obtain ⟨v, hv⟩ := henv.resolved_knots hk
    refine ⟨?_, v, hv⟩
    obtain ⟨knot, hknot, -⟩ := Option.bind_eq_some_iff.mp hv
    exact (Array.getElem?_eq_some_iff.mp hknot).1
  · rw [hknown]
    exact fun x k v hk hv => henv.atRest_knots hk hv
  · intro x k
    rw [Expr.spine_of_isSource he]
    constructor
    · simp
    · rintro ⟨hle, hk⟩
      exact absurd (Array.getElem?_eq_some_iff.mp hk).1 (Nat.not_lt.mpr hle)
  · simp [Expr.spine_of_isSource he]
  · rw [hknown]
    exact henv.atRest

/-! ## What follows in a single state -/

/-- The knot that is about to be resolved has no value yet, and is to get one. -/
theorem State.Tidy.of_focus_tying (h : s.Tidy K base) {env : Env} {x : String} {k : Nat} {v : Value}
    {body : Expr} (hfocus : s.expr.focus s.env = (env, .tying x k (.value v) body)) :
    v ≠ .absent ∧ s.store.knots[k]? = some ⟨x, none⟩ := by
  obtain ⟨-, hrun, outer, hspine⟩ := h.expr.focus h.env
  rw [hfocus] at hrun hspine
  refine ⟨hrun.1.1, ((h.tied.unresolved x k).mp ?_).2⟩
  rw [hspine]
  simp [Expr.spine]

theorem State.Tidy.knotValue?_of_focus_tying (h : s.Tidy K base) {env : Env} {x : String} {k : Nat}
    {v : Value} {body : Expr} (hfocus : s.expr.focus s.env = (env, .tying x k (.value v) body))
    (hn : s.next = .state s') : s'.store.knotValue? k = some v := by
  obtain ⟨hv, hk⟩ := h.of_focus_tying hfocus
  obtain ⟨r, hstep, -⟩ := State.exists_of_next_eq_state hn
  obtain ⟨r', hfocused⟩ := exists_step_focus hstep
  rw [hfocus] at hfocused
  simp only [step, Expr.value?_value, Except.ok.injEq, Prod.mk.injEq] at hfocused
  rw [← hfocused.1, Store.knotValue?_resolve hv hk, if_pos rfl]

theorem State.Tidy.not_mem_ties (h : s.Tidy K base) {k : Nat} {v : Value}
    (hk : s.store.knotValue? k = some v) : k ∉ s.expr.ties.map Prod.snd := by
  rw [h.expr.ties_eq_spine, ← h.tied.mem_lets_iff]
  simp [hk]

theorem State.Tidy.mem_spine_of_unresolved (h : s.Tidy K base) {env : Env} {p : Pos} {x : String}
    (hfocus : s.expr.focus s.env = (env, .var p x)) (hx : env.lookup s.store x = .unresolved) :
    ∃ k, env.find? x = some (.knot k) ∧ (x, k) ∈ s.expr.spine := by
  obtain ⟨k, hfind, hnone⟩ := Env.lookup_eq_unresolved_iff.mp hx
  have henv := (h.expr.focus h.env).1
  rw [hfocus] at henv
  exact ⟨k, hfind, h.tied.mem_lets_of_known (henv.knot x k hfind) hnone⟩

theorem State.Tidy.lookup_ne_unresolved (h : s.Tidy K base) {v : Value} {σ : Store}
    (hn : s.next = .value v σ) {env : Env} (hreach : v.Reaches σ env) (x : String) :
    env.lookup σ x ≠ .unresolved := by
  obtain ⟨K', hchange, hrun⟩ :=
    step_change h.env h.expr h.tied.values (State.step_of_next_eq_value hn)
  obtain ⟨htied, hknown⟩ := hchange.tied h.tied
  have henv := Value.AtRest.of_reaches htied.values hreach (hrun.2.mono hknown)
  intro hx
  obtain ⟨k, hfind, hnone⟩ := Env.lookup_eq_unresolved_iff.mp hx
  -- a value has no `let` under way
  simpa [Step.inPlace, Expr.spine] using htied.mem_lets_of_known (henv.knot x k hfind) hnone

/-! ## The discipline -/

/-- A state in which the knots from number `base` on are handled as they should be. -/
structure State.Disciplined (base : Nat) (s : State) : Prop where
  /-- The unresolved ones of these knots are those of the `let`s under way on the spine. -/
  unresolved : ∀ k, base ≤ k ∧ k < s.store.knots.size ∧ s.store.knotValue? k = none ↔
    k ∈ s.expr.spine.map Prod.snd
  /-- No `let` is under way elsewhere. -/
  ties : s.expr.ties = s.expr.spine
  /-- No two `let`s share a knot. -/
  nodup : (s.expr.ties.map Prod.snd).Nodup
  /-- A knot that is about to be resolved is not resolved before. It has its value ever after, and no
  `let` is left that could resolve it. -/
  once : ∀ env x k v body, s.expr.focus s.env = (env, .tying x k (.value v) body) →
    s.store.knotValue? k = none ∧ ∀ m t, s.after? (m + 1) = some t →
      t.store.knotValue? k = some v ∧ k ∉ t.expr.ties.map Prod.snd
  /-- A resolved knot keeps its value. -/
  keeps : ∀ k v, s.store.knotValue? k = some v → ∀ m t, s.after? m = some t →
    t.store.knotValue? k = some v
  /-- A name that is found unresolved belongs to a `let` around the expression that asks for it. -/
  asked : ∀ env p x, s.expr.focus s.env = (env, .var p x) → env.lookup s.store x = .unresolved →
    ∃ k, env.find? x = some (.knot k) ∧ (x, k) ∈ s.expr.spine
  /-- No unresolved name can be reached from the value that a run ends with. -/
  value : ∀ v σ, s.next = .value v σ → ∀ env, v.Reaches σ env → ∀ x, env.lookup σ x ≠ .unresolved

/-- **The discipline of knots.** Every state that the evaluation of a source expression comes to
handles the knots made in it as it should, provided that no knot is unresolved from the start. -/
theorem knot_discipline {σ : Store} {env : Env} {e : Expr} (he : e.isSource = true)
    (henv : env.Ready σ) {n : Nat} (hn : State.after? n ⟨σ, env, e⟩ = some s) :
    s.Disciplined σ.knots.size := by
  obtain ⟨h, -⟩ := (State.tidy_of_ready he henv).after hn
  refine ⟨h.tied.mem_lets_iff, h.expr.ties_eq_spine, ?_, ?_, ?_, ?_, ?_⟩
  · rw [h.expr.ties_eq_spine]
    exact h.tied.nodup
  · intro env x k v body hfocus
    refine ⟨Store.knotValue?_of_getElem? (h.of_focus_tying hfocus).2, fun m t ht => ?_⟩
    obtain ⟨s', hs', ht⟩ := State.exists_of_after?_succ ht
    obtain ⟨htidy, hkeep⟩ := (h.next hs').1.after ht
    have hk := hkeep k v (h.knotValue?_of_focus_tying hfocus hs')
    exact ⟨hk, htidy.not_mem_ties hk⟩
  · exact fun k v hk m t ht => (h.after ht).2 k v hk
  · exact fun env p x hfocus hx => h.mem_spine_of_unresolved hfocus hx
  · exact fun v σ' hv env' hreach x => h.lookup_ne_unresolved hv hreach x

/-- A `let` whose bound function uses a name that is bound to a resolved knot. -/
theorem knot_discipline_let :
    ∃ s, State.after? 1 ⟨⟨#[⟨"g", some (.int 3)⟩], 0⟩, .bindKnot .empty "g" 0,
        .letIn ⟨1, 1⟩ "f" (.fn ⟨1, 9⟩ "n" (.app ⟨1, 19⟩ (.var ⟨1, 19⟩ "f") [.var ⟨1, 21⟩ "g"]))
          (.var ⟨1, 26⟩ "f")⟩ = some s
      ∧ s.expr.spine = [("f", 1)] ∧ s.Disciplined 1 := by
  have hready : Env.Ready ⟨#[⟨"g", some (.int 3)⟩], 0⟩ (.bindKnot .empty "g" 0) := by
    refine Env.ready_of_atRest (K := fun x k => x = "g" ∧ k = 0) ⟨?_, ?_⟩ ?_
    · intro y v hy
      by_cases hg : "g" = y <;> simp [Env.find?, hg] at hy
    · intro y k hy
      by_cases hg : "g" = y
      · simpa [Env.find?, hg, eq_comm] using hy
      · simp [Env.find?, hg] at hy
    · rintro x k ⟨rfl, rfl⟩
      exact ⟨.int 3, rfl, .int 3⟩
  exact ⟨_, rfl, rfl, knot_discipline (n := 1)
    (e := .letIn _ "f" (.fn _ "n" (.app _ (.var _ "f") [.var _ "g"])) (.var _ "f")) rfl hready rfl⟩

end Machine

end FunLang
