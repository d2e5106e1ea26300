import FunLang.Proofs.Machine.Frames
import FunLang.Proofs.Twins.Knots

set_option autoImplicit false

/-!
# Expressions of two evaluations

Expressions that two evaluations have come to at the same time are equal but for the values and
environments in them (`Expr.Twin`). What has not been touched yet is the same expression on both sides,
under environments that bind alike the names that are free in it (`Pairing.Code`).

Twins are taken apart form by form, and a frame around a part has a twin around the twin of the part
(`Expr.Twin.exists_of_fill`).
-/

namespace FunLang

/-- An expression that is the same on both sides, under environments that bind alike the names that are
free in it. -/
structure Pairing.Code (π : Pairing) (env env' : Env) (e : Expr) : Prop where
  admits : π.Admits e
  free : ∀ y ∈ e.free, env.TwinAt π env' y

/-- The same where the names `xs` are to be bound before the expression is evaluated. -/
structure Pairing.CodeUnder (π : Pairing) (xs : List String) (env env' : Env) (e : Expr) : Prop where
  admits : π.Admits e
  free : ∀ y ∈ e.free, y ∉ xs → env.TwinAt π env' y

/-- Alternatives that are the same on both sides. -/
def Pairing.AltsCode (π : Pairing) (env env' : Env) (alts : List Alt) : Prop :=
  ∀ p pat e, Alt.mk p pat e ∈ alts → π.CodeUnder pat.binders env env' e

/-- Expressions that two evaluations have come to, each with the environment it is under. -/
inductive Expr.Twin (π : Pairing) : Env → Env → Expr → Expr → Prop where
  | code {env env' : Env} {e : Expr} (h : π.Code env env' e) : Expr.Twin π env env' e e
  | value {env env' : Env} {v v' : Value} (h : v.Twin π v') :
      Expr.Twin π env env' (.value v) (.value v')
  | within {env env' env₁ env₁' : Env} {e e' : Expr} (h : Expr.Twin π env₁ env₁' e e') :
      Expr.Twin π env env' (.within env₁ e) (.within env₁' e')
  | binary {env env' : Env} (p : Pos) (op : BinOp) {l l' r r' : Expr} (hl : Expr.Twin π env env' l l')
      (hr : Expr.Twin π env env' r r') : Expr.Twin π env env' (.binary p op l r) (.binary p op l' r')
  | cond {env env' : Env} (p : Pos) {c c' t e : Expr} (hc : Expr.Twin π env env' c c')
      (ht : π.Code env env' t) (he : π.Code env env' e) :
      Expr.Twin π env env' (.cond p c t e) (.cond p c' t e)
  | app {env env' : Env} (p : Pos) {f f' a a' : Expr} {rest : List Expr}
      (hf : Expr.Twin π env env' f f') (ha : Expr.Twin π env env' a a')
      (hrest : ∀ e ∈ rest, π.Code env env' e) :
      Expr.Twin π env env' (.app p f (a :: rest)) (.app p f' (a' :: rest))
  | tying {env env' : Env} (x : String) {k k' : Nat} {bound bound' body : Expr} (hk : π.knots k k')
      (hb : Expr.Twin π env env' bound bound') (hbody : π.CodeUnder [x] env env' body) :
      Expr.Twin π env env' (.tying x k bound body) (.tying x k' bound' body)
  | cases {env env' : Env} (p : Pos) {s s' : Expr} {alts : List Alt} (hs : Expr.Twin π env env' s s')
      (halts : π.AltsCode env env' alts) : Expr.Twin π env env' (.cases p s alts) (.cases p s' alts)

variable {π π' : Pairing} {env env' : Env}

/-! ## Later in the evaluations -/

theorem Pairing.Code.extend (h : π.Extends π') {e : Expr} (he : π.Code env env' e) :
    π'.Code env env' e :=
  ⟨h.admits he.admits, fun y hy => (he.free y hy).extend h⟩

theorem Pairing.CodeUnder.extend (h : π.Extends π') {xs : List String} {e : Expr}
    (he : π.CodeUnder xs env env' e) : π'.CodeUnder xs env env' e :=
  ⟨h.admits he.admits, fun y hy hne => (he.free y hy hne).extend h⟩

theorem Expr.Twin.extend (h : π.Extends π') {e e' : Expr} (he : Expr.Twin π env env' e e') :
    Expr.Twin π' env env' e e' := by
  induction he with
  | code he => exact .code (he.extend h)
  | value hv => exact .value (hv.extend h)
  | within _ ih => exact .within ih
  | binary p op _ _ ihl ihr => exact .binary p op ihl ihr
  | cond p _ ht he ihc => exact .cond p ihc (ht.extend h) (he.extend h)
  | app p _ _ hrest ihf iha => exact .app p ihf iha fun e he => (hrest e he).extend h
  | tying x hk _ hbody ihb => exact .tying x (h.knots _ _ hk) ihb (hbody.extend h)
  | cases p _ halts ihs => exact .cases p ihs fun p pat e he => (halts p pat e he).extend h

theorem Pairing.Code.mono (h : π.Grows π') {e : Expr} (he : π.Code env env' e) : π'.Code env env' e :=
  he.extend h.extends

theorem Pairing.CodeUnder.mono (h : π.Grows π') {xs : List String} {e : Expr}
    (he : π.CodeUnder xs env env' e) : π'.CodeUnder xs env env' e :=
  he.extend h.extends

theorem Expr.Twin.mono (h : π.Grows π') {e e' : Expr} (he : Expr.Twin π env env' e e') :
    Expr.Twin π' env env' e e' :=
  he.extend h.extends

/-! ## Binding names -/

/-- An expression may be evaluated once the names that it waits for are bound alike. -/
theorem Pairing.CodeUnder.code {env₁ env₁' : Env} {xs : List String} {e : Expr}
    (he : π.CodeUnder xs env env' e) (h : ∀ y, (y ∉ xs → env.TwinAt π env' y) → env₁.TwinAt π env₁' y) :
    π.Code env₁ env₁' e :=
  ⟨he.admits, fun y hy => h y (he.free y hy)⟩

theorem Pairing.CodeUnder.bind {x : String} {e : Expr} (he : π.CodeUnder [x] env env' e) {v v' : Value}
    (hv : v.Twin π v') : π.Code (.bind env x v) (.bind env' x v') e :=
  he.code fun _ h => .bind hv fun hne => h (by simpa using hne)

theorem Pairing.CodeUnder.bindKnot {x : String} {e : Expr} (he : π.CodeUnder [x] env env' e)
    {k k' : Nat} (hk : π.knots k k') : π.Code (.bindKnot env x k) (.bindKnot env' x k') e :=
  he.code fun _ h => .bindKnot hk fun hne => h (by simpa using hne)

theorem Pairing.CodeUnder.bindAll {bs bs' : List (String × Value)} {e : Expr}
    (he : π.CodeUnder (bs.map Prod.fst) env env' e) (hbs : BindingsTwin π bs bs') :
    π.Code (env.bindAll bs) (env'.bindAll bs') e :=
  he.code fun _ h => .bindAll hbs h

/-! ## Taking twins apart -/

section Parts

variable {e a : Expr}

theorem Pairing.Admits.part (h : π.Admits e) (hsource : e.isSource = true → a.isSource = true)
    (hrefs : a.refs ⊆ e.refs) : π.Admits a :=
  h.imp hsource fun hπ => hπ.mono hrefs

theorem Pairing.Code.part (h : π.Code env env' e) (hsource : e.isSource = true → a.isSource = true)
    (hrefs : a.refs ⊆ e.refs) (hfree : ∀ y ∈ a.free, y ∈ e.free) : π.Code env env' a :=
  ⟨h.admits.part hsource hrefs, fun y hy => h.free y (hfree y hy)⟩

theorem Pairing.Code.partUnder {xs : List String} (h : π.Code env env' e)
    (hsource : e.isSource = true → a.isSource = true) (hrefs : a.refs ⊆ e.refs)
    (hfree : ∀ y ∈ a.free, y ∉ xs → y ∈ e.free) : π.CodeUnder xs env env' a :=
  ⟨h.admits.part hsource hrefs, fun y hy hne => h.free y (hfree y hy hne)⟩

/-- An expression that is not source text is admitted only if the knots that it refers to are paired
with themselves. -/
theorem Pairing.Code.reflexive (h : π.Code env env' e) (he : e.isSource = false) : π.Reflexive e.refs :=
  h.admits.resolve_left (by simp [he])

end Parts

section Forms

variable {p : Pos} {e' : Expr}

theorem Expr.Twin.of_value {v : Value} (h : Expr.Twin π env env' (.value v) e') :
    ∃ v', e' = .value v' ∧ v.Twin π v' := by
  cases h with
  | code h => exact ⟨v, rfl, .refl v (h.reflexive rfl)⟩
  | value hv => exact ⟨_, rfl, hv⟩

theorem Expr.Twin.of_within {env₁ : Env} {a : Expr} (h : Expr.Twin π env env' (.within env₁ a) e') :
    ∃ env₁' a', e' = .within env₁' a' ∧ Expr.Twin π env₁ env₁' a a' := by
  cases h with
  | code h =>
      have hπ : π.Reflexive (env₁.refs ++ a.refs) := h.reflexive rfl
      have ha : π.Reflexive a.refs := hπ.mono (List.subset_append_right _ _)
      have henv : π.Reflexive env₁.refs := hπ.mono (List.subset_append_left _ _)
      exact ⟨env₁, a, rfl, .code ⟨Or.inr ha, fun y _ => .refl env₁ henv y⟩⟩
  | within ha => exact ⟨_, _, rfl, ha⟩

theorem Expr.Twin.of_binary {op : BinOp} {l r : Expr}
    (h : Expr.Twin π env env' (.binary p op l r) e') :
    ∃ l' r', e' = .binary p op l' r' ∧ Expr.Twin π env env' l l' ∧ Expr.Twin π env env' r r' := by
  cases h with
  | code h =>
      refine ⟨l, r, rfl, .code (h.part ?_ ?_ ?_), .code (h.part ?_ ?_ ?_)⟩ <;>
        simp +contextual [Expr.isSource, Expr.refs, Expr.free]
  | binary _ _ hl hr => exact ⟨_, _, rfl, hl, hr⟩

theorem Expr.Twin.of_cond {c t e : Expr} (h : Expr.Twin π env env' (.cond p c t e) e') :
    ∃ c', e' = .cond p c' t e ∧ Expr.Twin π env env' c c' ∧ π.Code env env' t ∧ π.Code env env' e := by
  cases h with
  | code h =>
      refine ⟨c, rfl, .code (h.part ?_ ?_ ?_), h.part ?_ ?_ ?_, h.part ?_ ?_ ?_⟩ <;>
        simp +contextual [Expr.isSource, Expr.refs, Expr.free]
  | cond _ hc ht he => exact ⟨_, rfl, hc, ht, he⟩

theorem Expr.Twin.of_app {f a : Expr} {rest : List Expr}
    (h : Expr.Twin π env env' (.app p f (a :: rest)) e') :
    ∃ f' a', e' = .app p f' (a' :: rest) ∧ Expr.Twin π env env' f f' ∧ Expr.Twin π env env' a a' ∧
      ∀ e ∈ rest, π.Code env env' e := by
  cases h with
  | code h =>
      refine ⟨f, a, rfl, .code (h.part ?_ ?_ ?_), .code (h.part ?_ ?_ ?_), fun e he => h.part ?_ ?_ ?_⟩
      · simp +contextual [Expr.isSource]
      · simp [Expr.refs]
      · simp +contextual [Expr.free]
      · simp +contextual [Expr.isSource, Expr.areSource]
      · simp [Expr.refs, Expr.refsAll]
      · simp +contextual [Expr.free, Expr.freeAll]
      · intro hs
        simp only [Expr.isSource, Expr.areSource, Bool.and_eq_true] at hs
        exact Expr.isSource_of_mem hs.2.2 e he
      · exact List.subset_append_of_subset_right _
          (Expr.refs_subset_refsAll (List.mem_cons_of_mem _ he))
      · intro y hy
        simp [Expr.free, Expr.freeAll, Expr.mem_freeAll he hy]
  | app _ hf ha hrest => exact ⟨_, _, rfl, hf, ha, hrest⟩

theorem Expr.Twin.of_tying {x : String} {k : Nat} {bound body : Expr}
    (h : Expr.Twin π env env' (.tying x k bound body) e') :
    ∃ k' bound', e' = .tying x k' bound' body ∧ π.knots k k' ∧ Expr.Twin π env env' bound bound' ∧
      π.CodeUnder [x] env env' body := by
  cases h with
  | code h =>
      have hπ : π.Reflexive (.tie k :: (bound.refs ++ body.refs)) := h.reflexive rfl
      refine ⟨k, bound, rfl, hπ.knots (.tie k) (by simp), .code ⟨Or.inr (hπ.mono ?_), ?_⟩,
        Or.inr (hπ.mono ?_), ?_⟩
      · simp
      · intro y hy
        exact h.free y (by simp [Expr.free, hy])
      · simp
      · intro y hy hne
        exact h.free y (by simpa [Expr.free, hy] using Or.inr hne)
  | tying _ hk hb hbody => exact ⟨_, _, rfl, hk, hb, hbody⟩

theorem Expr.Twin.of_cases {s : Expr} {alts : List Alt}
    (h : Expr.Twin π env env' (.cases p s alts) e') :
    ∃ s', e' = .cases p s' alts ∧ Expr.Twin π env env' s s' ∧ π.AltsCode env env' alts := by
  cases h with
  | code h =>
      refine ⟨s, rfl, .code (h.part ?_ ?_ ?_), fun p pat e he => h.partUnder ?_ ?_ ?_⟩
      · simp +contextual [Expr.isSource]
      · simp [Expr.refs]
      · simp +contextual [Expr.free]
      · intro hs
        simp only [Expr.isSource, Bool.and_eq_true] at hs
        exact Alt.isSource_of_mem hs.2 he
      · exact List.subset_append_of_subset_right _ (Alt.refs_subset he)
      · intro y hy hne
        simp [Expr.free, Alt.mem_free he hy hne]
  | cases _ hs halts => exact ⟨_, rfl, hs, halts⟩

end Forms

/-! ## Frames -/

theorem Expr.Twin.value?_eq_none {e e' : Expr} (h : Expr.Twin π env env' e e') (he : e.value? = none) :
    e'.value? = none := by
  cases h with
  | code _ => exact he
  | value _ => simp at he
  | _ => rfl

/-- The twin of a frame around a part is a frame around the twin of the part. Later in the evaluations
the two frames still make twins of twins. -/
theorem Expr.Twin.exists_of_fill {F : Frame} {e e₂ : Expr} (h : Expr.Twin π env env' (F.fill e) e₂)
    (he : e.value? = none) :
    ∃ (F' : Frame) (e' : Expr), e₂ = F'.fill e' ∧ e'.value? = none ∧ Expr.Twin π env env' e e' ∧
      ∀ π', π.Grows π' → ∀ a a', Expr.Twin π' env env' a a' →
        Expr.Twin π' env env' (F.fill a) (F'.fill a') := by
  cases F with
  | left p op r =>
      obtain ⟨l', r', rfl, hl, hr⟩ := h.of_binary
      exact ⟨.left p op r', l', rfl, hl.value?_eq_none he, hl, fun π' hπ a a' ha =>
        .binary p op ha (hr.mono hπ)⟩
  | right p op v =>
      obtain ⟨l', r', rfl, hl, hr⟩ := h.of_binary
      obtain ⟨v', rfl, hv⟩ := hl.of_value
      exact ⟨.right p op v', r', rfl, hr.value?_eq_none he, hr, fun π' hπ a a' ha =>
        .binary p op (.value (hv.mono hπ)) ha⟩
  | test p t f =>
      obtain ⟨c', rfl, hc, ht, hf⟩ := h.of_cond
      exact ⟨.test p t f, c', rfl, hc.value?_eq_none he, hc, fun π' hπ a a' ha =>
        .cond p ha (ht.mono hπ) (hf.mono hπ)⟩
  | arg p f rest =>
      obtain ⟨f', a', rfl, hf, ha, hrest⟩ := h.of_app
      exact ⟨.arg p f' rest, a', rfl, ha.value?_eq_none he, ha, fun π' hπ a a' ha =>
        .app p (hf.mono hπ) ha fun e he => (hrest e he).mono hπ⟩
  | callee p v rest =>
      obtain ⟨f', a', rfl, hf, ha, hrest⟩ := h.of_app
      obtain ⟨v', rfl, hv⟩ := ha.of_value
      exact ⟨.callee p v' rest, f', rfl, hf.value?_eq_none he, hf, fun π' hπ a a' ha =>
        .app p ha (.value (hv.mono hπ)) fun e he => (hrest e he).mono hπ⟩
  | bound x k body =>
      obtain ⟨k', b', rfl, hk, hb, hbody⟩ := h.of_tying
      exact ⟨.bound x k' body, b', rfl, hb.value?_eq_none he, hb, fun π' hπ a a' ha =>
        .tying x (hπ.knots _ _ hk) ha (hbody.mono hπ)⟩
  | scrutinee p alts =>
      obtain ⟨s', rfl, hs, halts⟩ := h.of_cases
      exact ⟨.scrutinee p alts, s', rfl, hs.value?_eq_none he, hs, fun π' hπ a a' ha =>
        .cases p ha fun p pat e he => (halts p pat e he).mono hπ⟩

end FunLang
