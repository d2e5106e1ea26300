import FunLang.Proofs.Knots.Store
import FunLang.Proofs.Machine.Frames
import FunLang.Proofs.Machine.Matching
import FunLang.Proofs.Machine.Runs
import FunLang.Proofs.Syntax.WellFormed

set_option autoImplicit false

/-!
# States that can be shown

In the middle of an evaluation an expression holds values, environments of its own and `let`s under
way. It is legible if these too are made of well-formed parts (`Expr.Legible`): every binder is a name
that no constructor has, every constructor is in the table, every application has an argument, and no
value is absent. The surface of a legible expression is a well-formed source expression
(`Expr.Legible.isWellFormed`).

A step keeps this up (`State.Legible.next`): what it brings into an expression comes from the
expression itself, from the environment or from a knot. So every state of a run that starts with a
well-formed expression can be shown as source text.
-/

namespace FunLang

section Legible

variable (Γ : CtorTable)

mutual

/-- An expression under evaluation whose parts are all well-formed, in its environments too. -/
def Expr.Legible : Expr → Prop
  | .int .. | .bool .. => True
  | .var _ x => isBinder Γ x = true
  | .ctor _ c => c.isKnown Γ = true
  | .binary _ op l r => (op != .unknown) = true ∧ l.Legible ∧ r.Legible
  | .cond _ c t e => c.Legible ∧ t.Legible ∧ e.Legible
  | .fn _ x body => isBinder Γ x = true ∧ body.Legible
  | .app _ f args => args ≠ [] ∧ f.Legible ∧ Expr.AreLegible args
  | .letIn _ x bound body => isBinder Γ x = true ∧ bound.Legible ∧ body.Legible
  | .tying x _ bound body => isBinder Γ x = true ∧ bound.Legible ∧ body.Legible
  | .annot _ e t => e.Legible ∧ t.isWellFormed = true
  | .cases _ s alts => alts ≠ [] ∧ s.Legible ∧ Alt.AreLegible alts
  | .value v => v.Legible
  | .within env e => env.Legible ∧ e.Legible
  | .missing | .custom .. | .wrapped .. => False

def Expr.AreLegible : List Expr → Prop
  | [] => True
  | e :: es => e.Legible ∧ Expr.AreLegible es

def Alt.AreLegible : List Alt → Prop
  | [] => True
  | .mk _ p e :: alts => p.isWellFormed Γ = true ∧ e.Legible ∧ Alt.AreLegible alts

def Value.Legible : Value → Prop
  | .absent => False
  | .int _ | .bool _ => True
  | .closure _ x body env => isBinder Γ x = true ∧ body.Legible ∧ env.Legible
  | .data c fields => c.isKnown Γ = true ∧ Value.AreLegible fields

def Value.AreLegible : List Value → Prop
  | [] => True
  | v :: vs => v.Legible ∧ Value.AreLegible vs

def Env.Legible : Env → Prop
  | .empty => True
  | .bind env _ v => env.Legible ∧ v.Legible
  | .bindKnot env _ _ => env.Legible

end

/-- All knots that are resolved have legible values. -/
def Store.Legible (σ : Store) : Prop := ∀ k v, σ.knotValue? k = some v → v.Legible Γ

end Legible

variable {Γ : CtorTable}

/-! ## Well-formed expressions -/

mutual

theorem Expr.legible_of_isWellFormed : ∀ {e : Expr}, e.isWellFormed Γ = true → e.Legible Γ
  | .int .., _ | .bool .., _ => trivial
  | .var .., h | .ctor .., h => h
  | .binary _ op l r, h => by
      simp only [Expr.isWellFormed, Bool.and_eq_true] at h
      exact ⟨h.1.1, legible_of_isWellFormed h.1.2, legible_of_isWellFormed h.2⟩
  | .cond _ c t e, h => by
      simp only [Expr.isWellFormed, Bool.and_eq_true] at h
      exact ⟨legible_of_isWellFormed h.1.1, legible_of_isWellFormed h.1.2, legible_of_isWellFormed h.2⟩
  | .fn _ x body, h => by
      simp only [Expr.isWellFormed, Bool.and_eq_true] at h
      exact ⟨h.1, legible_of_isWellFormed h.2⟩
  | .app _ f args, h => by
      simp only [Expr.isWellFormed, Bool.and_eq_true] at h
      exact ⟨by simpa using h.1.1, legible_of_isWellFormed h.1.2, areLegible_of_areWellFormed h.2⟩
  | .letIn _ x bound body, h => by
      simp only [Expr.isWellFormed, Bool.and_eq_true] at h
      exact ⟨h.1.1, legible_of_isWellFormed h.1.2, legible_of_isWellFormed h.2⟩
  | .annot _ e t, h => by
      simp only [Expr.isWellFormed, Bool.and_eq_true] at h
      exact ⟨legible_of_isWellFormed h.1, h.2⟩
  | .cases _ s alts, h => by
      simp only [Expr.isWellFormed, Bool.and_eq_true] at h
      exact ⟨by simpa using h.1.1, legible_of_isWellFormed h.1.2, altsAreLegible_of_areWellFormed h.2⟩

theorem Expr.areLegible_of_areWellFormed : ∀ {es : List Expr}, Expr.areWellFormed Γ es = true →
    Expr.AreLegible Γ es
  | [], _ => trivial
  | e :: es, h => by
      simp only [Expr.areWellFormed, Bool.and_eq_true] at h
      exact ⟨legible_of_isWellFormed h.1, areLegible_of_areWellFormed h.2⟩

theorem Expr.altsAreLegible_of_areWellFormed : ∀ {alts : List Alt}, Alt.areWellFormed Γ alts = true →
    Alt.AreLegible Γ alts
  | [], _ => trivial
  | .mk _ p e :: alts, h => by
      simp only [Alt.areWellFormed, Bool.and_eq_true] at h
      exact ⟨h.1.1, legible_of_isWellFormed h.1.2, altsAreLegible_of_areWellFormed h.2⟩

end

/-! ## Surfaces -/

mutual

/-- What a legible expression is shown as is a well-formed source expression. -/
theorem Expr.Legible.isWellFormed : ∀ {e : Expr}, e.Legible Γ → e.surface.isWellFormed Γ = true
  | .int .., _ | .bool .., _ => rfl
  | .var .., h | .ctor .., h => h
  | .binary _ op l r, h => by
      simp [Expr.surface, Expr.isWellFormed, h.1, isWellFormed h.2.1, isWellFormed h.2.2]
  | .cond _ c t e, h => by
      simp [Expr.surface, Expr.isWellFormed, isWellFormed h.1, isWellFormed h.2.1, isWellFormed h.2.2]
  | .fn _ x body, h => by simp [Expr.surface, Expr.isWellFormed, h.1, isWellFormed h.2]
  | .app _ f [], h => absurd rfl h.1
  | .app _ f (a :: as), h => by
      simp [Expr.surface, Expr.isWellFormed, Expr.areWellFormed, surfaceAll, isWellFormed h.2.1,
        isWellFormed h.2.2.1, areWellFormed h.2.2.2]
  | .letIn _ x bound body, h => by
      simp [Expr.surface, Expr.isWellFormed, h.1, isWellFormed h.2.1, isWellFormed h.2.2]
  | .tying x _ bound body, h => by
      simp [Expr.surface, Expr.isWellFormed, h.1, isWellFormed h.2.1, isWellFormed h.2.2]
  | .annot _ e t, h => by simp [Expr.surface, Expr.isWellFormed, isWellFormed h.1, h.2]
  | .cases _ s [], h => absurd rfl h.1
  | .cases _ s (.mk p pat e :: alts), h => by
      simp [Expr.surface, Expr.isWellFormed, Alt.areWellFormed, surfaceAlts, isWellFormed h.2.1,
        h.2.2.1, isWellFormed h.2.2.2.1, altsAreWellFormed h.2.2.2.2]
  | .value v, h => valueIsWellFormed h
  | .within _ e, h => by
      rw [Expr.surface]
      exact isWellFormed h.2

theorem Expr.Legible.areWellFormed : ∀ {es : List Expr}, Expr.AreLegible Γ es →
    Expr.areWellFormed Γ (surfaceAll es) = true
  | [], _ => rfl
  | e :: es, h => by simp [surfaceAll, Expr.areWellFormed, isWellFormed h.1, areWellFormed h.2]

theorem Expr.Legible.altsAreWellFormed : ∀ {alts : List Alt}, Alt.AreLegible Γ alts →
    Alt.areWellFormed Γ (surfaceAlts alts) = true
  | [], _ => rfl
  | .mk _ p e :: alts, h => by
      simp [surfaceAlts, Alt.areWellFormed, h.1, isWellFormed h.2.1, altsAreWellFormed h.2.2]

theorem Expr.Legible.valueIsWellFormed : ∀ {v : Value}, v.Legible Γ → v.surface.isWellFormed Γ = true
  | .int _, _ | .bool _, _ => rfl
  | .closure _ x body _, h => by simp [Value.surface, Expr.isWellFormed, h.1, isWellFormed h.2.1]
  | .data c [], h => h.1
  | .data c (v :: vs), h => by
      simp [Value.surface, Expr.isWellFormed, Expr.areWellFormed, h.1, valueIsWellFormed h.2.1,
        valuesAreWellFormed h.2.2]

theorem Expr.Legible.valuesAreWellFormed : ∀ {vs : List Value}, Value.AreLegible Γ vs →
    Expr.areWellFormed Γ (surfaceValues vs) = true
  | [], _ => rfl
  | v :: vs, h => by
      simp [surfaceValues, Expr.areWellFormed, valueIsWellFormed h.1, valuesAreWellFormed h.2]

end

/-! ## Values and environments -/

theorem Value.Legible.ne_absent {v : Value} (h : v.Legible Γ) : v ≠ .absent := by
  rintro rfl
  exact h

theorem Value.areLegible_iff {vs : List Value} : Value.AreLegible Γ vs ↔ ∀ v ∈ vs, v.Legible Γ := by
  induction vs with
  | nil => simp [Value.AreLegible]
  | cons v vs ih => simp [Value.AreLegible, ih]

theorem Value.Legible.addField {c : Constructor} {fields : List Value} {v : Value}
    (h : (Value.data c fields).Legible Γ) (hv : v.Legible Γ) :
    (Value.data c (fields ++ [v])).Legible Γ := by
  refine ⟨h.1, Value.areLegible_iff.mpr fun w hw => ?_⟩
  rcases List.mem_append.mp hw with hw | hw
  · exact Value.areLegible_iff.mp h.2 w hw
  · rw [List.mem_singleton.mp hw]
    exact hv

theorem Env.Legible.find? {env : Env} (h : env.Legible Γ) {x : String} {v : Value}
    (hx : env.find? x = some (.value v)) : v.Legible Γ := by
  fun_induction Env.find? env x with
  | case1 => cases hx
  | case2 env _ _ =>
      cases hx
      exact h.2
  | case3 env _ _ _ _ ih => exact ih h.1 hx
  | case4 => cases hx
  | case5 env _ _ _ _ ih => exact ih h hx

theorem Env.Legible.lookup {env : Env} {σ : Store} (h : env.Legible Γ) (hσ : σ.Legible Γ) {x : String}
    {v : Value} (hx : env.lookup σ x = .found v) : v.Legible Γ := by
  unfold Env.lookup at hx
  cases hf : env.find? x with
  | none => simp [hf] at hx
  | some b =>
      cases b with
      | value w =>
          simp only [hf, Lookup.found.injEq] at hx
          exact h.find? (hx ▸ hf)
      | knot k =>
          cases hk : σ.knotValue? k with
          | none => simp [hf, hk] at hx
          | some w =>
              simp only [hf, hk, Lookup.found.injEq] at hx
              exact hσ k v (hx ▸ hk)

theorem Env.Legible.bindAll {env : Env} (h : env.Legible Γ) {bs : List (String × Value)}
    (hbs : ∀ b ∈ bs, b.2.Legible Γ) : (env.bindAll bs).Legible Γ := by
  induction bs generalizing env with
  | nil => exact h
  | cons b bs ih => exact ih ⟨h, hbs b (by simp)⟩ fun c hc => hbs c (by simp [hc])

theorem Alt.AreLegible.of_mem {alts : List Alt} (h : Alt.AreLegible Γ alts) {p : Pos} {pat : Pattern}
    {e : Expr} (hmem : Alt.mk p pat e ∈ alts) : e.Legible Γ := by
  induction alts with
  | nil => simp at hmem
  | cons a alts ih =>
      obtain ⟨p', pat', e'⟩ := a
      rcases List.mem_cons.mp hmem with heq | hmem
      · cases heq
        exact h.2.1
      · exact ih h.2.2 hmem

/-- The alternative that is taken has a legible body and binds parts of the value. -/
theorem Alt.AreLegible.select? {alts : List Alt} {v : Value} {e : Expr} {bs : List (String × Value)}
    (h : Alt.AreLegible Γ alts) (hselect : Alt.select? alts v = some (e, bs)) (hv : v.Legible Γ) :
    e.Legible Γ ∧ ∀ b ∈ bs, b.2.Legible Γ := by
  obtain ⟨p, pat, hmem, hpat⟩ := Alt.exists_of_select? hselect
  have hfields : ∀ c fields, (Value.data c fields).Legible Γ → ∀ w ∈ fields, w.Legible Γ :=
    fun _ _ h => Value.areLegible_iff.mp h.2
  exact ⟨h.of_mem hmem, Pattern.bindings?_forall hfields hpat hv⟩

/-! ## Steps -/

section Steps

variable {σ σ' : Store} {env : Env} {e : Expr} {r : Step}

theorem Store.Legible.addKnot (h : σ.Legible Γ) (x : String) : (σ.addKnot x).Legible Γ := by
  intro k v hk
  rw [Store.knotValue?_addKnot] at hk
  exact h k v hk

theorem Store.Legible.resolve (h : σ.Legible Γ) (k : Nat) {v : Value} (hv : v.Legible Γ) :
    (σ.resolve k v).Legible Γ :=
  Store.forall_knotValue?_resolve h k hv

theorem BinOp.legible_of_eval? {op : BinOp} {a b v : Value} (h : op.eval? a b = some v) :
    v.Legible Γ := by
  unfold BinOp.eval? at h
  split at h <;> cases h <;> trivial

theorem Step.legible_ofValue {v : Value} (hv : v.Legible Γ) : (Step.ofValue v).inPlace.Legible Γ := by
  rw [Step.ofValue_of_ne hv.ne_absent]
  exact hv

theorem applyValue_legible {p : Pos} {g v : Value} {rest : List Expr}
    (h : applyValue p g v rest = .ok r) (hg : g.Legible Γ) (hv : v.Legible Γ)
    (hrest : Expr.AreLegible Γ rest) : r.inPlace.Legible Γ := by
  cases g with
  | closure label x body env =>
      cases rest with
      | nil =>
          cases h
          exact ⟨⟨hg.2.2, hv⟩, hg.2.1⟩
      | cons a rest =>
          cases h
          exact ⟨by simp, ⟨⟨hg.2.2, hv⟩, hg.2.1⟩, hrest⟩
  | data c fields =>
      cases rest with
      | nil =>
          cases h
          exact hg.addField hv
      | cons a rest =>
          cases h
          exact ⟨by simp, hg.addField hv, hrest⟩
  | _ => simp [applyValue] at h

/-- What an expression becomes that makes its step by itself. -/
theorem Reduces.legible (h : Reduces σ env e σ' r) (henv : env.Legible Γ) (he : e.Legible Γ)
    (hσ : σ.Legible Γ) : σ'.Legible Γ ∧ r.inPlace.Legible Γ := by
  cases h with
  | value v => exact ⟨hσ, Step.legible_ofValue he⟩
  | found hx => exact ⟨hσ, Step.legible_ofValue (henv.lookup hσ hx)⟩
  | unresolved _ => exact ⟨hσ, he⟩
  | int p n => exact ⟨hσ, trivial⟩
  | bool p b => exact ⟨hσ, trivial⟩
  | binary hv => exact ⟨hσ, BinOp.legible_of_eval? hv⟩
  | yes p t f => exact ⟨hσ, he.2.1⟩
  | no p t f => exact ⟨hσ, he.2.2⟩
  | fn p x body => exact ⟨hσ, he.1, he.2, henv⟩
  | app_nil p f => exact absurd rfl he.1
  | app hg => exact ⟨hσ, applyValue_legible hg he.2.1 he.2.2.1 he.2.2.2⟩
  | letIn p x bound body => exact ⟨hσ.addKnot x, he.1, ⟨henv, he.2.1⟩, he.2.2⟩
  | tying x k v body => exact ⟨hσ.resolve k he.2.1, ⟨henv, he.2.1⟩, he.2.2⟩
  | annot p e t => exact ⟨hσ, he.1⟩
  | ctor p c => exact ⟨hσ, he, trivial⟩
  | bare ha => exact ⟨hσ, (he.2.2.select? ha he.2.1).1⟩
  | bind ha =>
      obtain ⟨hbody, hbs⟩ := he.2.2.select? ha he.2.1
      exact ⟨hσ, henv.bindAll hbs, hbody⟩

theorem Frame.legible_of_fill {K : Frame} (h : (K.fill e).Legible Γ) : e.Legible Γ := by
  cases K with
  | left => exact h.2.1
  | right => exact h.2.2
  | test => exact h.1
  | arg => exact h.2.2.1
  | callee => exact h.2.1
  | bound => exact h.2.1
  | scrutinee => exact h.2.1

/-- A legible part may take the place of another one. -/
theorem Frame.legible_fill {K : Frame} (h : (K.fill e).Legible Γ) {e' : Expr} (he' : e'.Legible Γ) :
    (K.fill e').Legible Γ := by
  cases K with
  | left => exact ⟨h.1, he', h.2.2⟩
  | right => exact ⟨h.1, h.2.1, he'⟩
  | test => exact ⟨he', h.2⟩
  | arg => exact ⟨by simp, h.2.1, he', h.2.2.2⟩
  | callee => exact ⟨h.1, he', h.2.2⟩
  | bound => exact ⟨h.1, he', h.2.2⟩
  | scrutinee => exact ⟨h.1, he', h.2.2⟩

theorem step_legible (henv : env.Legible Γ) (he : e.Legible Γ) (hσ : σ.Legible Γ)
    (h : step σ env e = .ok (σ', r)) : σ'.Legible Γ ∧ r.inPlace.Legible Γ := by
  induction env, e using Expr.focus_induction generalizing r with
  | redex env e hredex => exact (hredex.reduces h).legible henv he hσ
  | within env env' e ih =>
      obtain ⟨s, hs, rfl⟩ := exists_of_step_within h
      obtain ⟨hσ', hs'⟩ := ih he.1 he.2 hs
      refine ⟨hσ', ?_⟩
      cases s with
      | done v => exact hs'
      | stay e' => exact ⟨he.1, hs'⟩
      | move e' env'' => exact hs'
  | frame env K e hv ih =>
      obtain ⟨s, hs, rfl⟩ := exists_of_step_fill hv h
      obtain ⟨hσ', hs'⟩ := ih henv (Frame.legible_of_fill he) hs
      exact ⟨hσ', Frame.legible_fill he hs'⟩

end Steps

/-! ## Runs -/

namespace Machine

/-- A state in which everything can be shown. -/
structure State.Legible (Γ : CtorTable) (s : State) : Prop where
  store : s.store.Legible Γ
  env : s.env.Legible Γ
  expr : s.expr.Legible Γ

theorem State.Legible.next {s s' : State} (h : s.Legible Γ) (hnext : s.next = .state s') :
    s'.Legible Γ := by
  obtain ⟨r, hstep, hr⟩ := State.exists_of_next_eq_state hnext
  obtain ⟨hstore, hexpr⟩ := step_legible h.env h.expr h.store hstep
  rcases hr with ⟨rfl, henv⟩ | rfl
  · exact ⟨hstore, henv ▸ h.env, hexpr⟩
  · exact ⟨hstore, hexpr.1, hexpr.2⟩

/-- Every state of a run can be shown if the first one can. -/
theorem State.Legible.after? {s s' : State} (h : s.Legible Γ) {n : Nat}
    (hn : s.after? n = some s') : s'.Legible Γ := by
  induction n generalizing s with
  | zero =>
      simp only [State.after?, Option.some.injEq] at hn
      exact hn ▸ h
  | succ n ih =>
      obtain ⟨t, ht, hn⟩ := State.exists_of_after?_succ hn
      exact ih (h.next ht) hn

end Machine

end FunLang
