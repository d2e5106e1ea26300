import FunLang.Proofs.Application.Arguments
import FunLang.Proofs.Twins.Sharing

set_option autoImplicit false

/-!
# Currying

An application to several arguments does the same as the application of an application: the first
arguments may be given apart from the others.

The two do their work in different orders. The flat application feeds the first arguments to the
function and then evaluates the first of the others, whereas the nested one begins with that argument. So
the argument and the feeding change places, and the rest of the evaluation is the same.
-/

namespace FunLang

section Applications

variable {pl : Place} {σ τ : Store} {env : Env} {p q r : Pos} {f b : Expr} {as bs : List Expr} {n : Nat}
  {w : Value}

/-! ## The two orders -/

/-- The flat application: first the feeding, and then the argument. -/
theorem evaluates_flat_iff :
    Evaluates pl σ env (.app p f (as ++ b :: bs)) n (.value w τ) ↔
      ∃ n₁ n₂ n₃ σ₁ σ₂ g v, Feeds env σ f as n₁ σ₁ g ∧ Evaluates .part σ₁ env b n₂ (.value v σ₂) ∧
        Evaluates pl σ₂ env (.app p g (.value v :: bs)) n₃ (.value w τ) ∧ n = n₁ + n₂ + n₃ := by
  constructor
  · intro h
    obtain ⟨n₁, n₂, σ₃, e, hall, he, rfl⟩ := h.exists_feeds (by simp)
    obtain ⟨m₁, m₂, σ₁, g, hfirst, hothers, rfl⟩ := feeds_append_iff.mp hall
    cases hothers with
    | cons hb hg happ hrest =>
        -- in the place of the argument stands its value, which costs nothing
        have hv := (Feeds.cons .value_part hg happ hrest).evaluates pl p (by simp) he
        exact ⟨_, _, _, _, _, _, _, hfirst, hb, hv, by omega⟩
  · rintro ⟨n₁, n₂, n₃, σ₁, σ₂, g, v, hfirst, hb, h, rfl⟩
    obtain ⟨m₁, m₂, σ₃, e, hothers, he, rfl⟩ := h.exists_feeds (by simp)
    cases hothers with
    | cons hv hg happ hrest =>
        cases hv
        have hall := feeds_append_iff.mpr ⟨_, _, _, _, hfirst, .cons hb hg happ hrest, rfl⟩
        have hflat := hall.evaluates pl p (by simp) he
        exact hflat.of_cost (by omega)

/-- The nested application: first the argument, and then the feeding. -/
theorem evaluates_nested_iff (has : as ≠ []) :
    Evaluates pl σ env (.app q (.app r f as) (b :: bs)) n (.value w τ) ↔
      ∃ n₁ n₂ n₃ σ₁ σ₂ g v, Evaluates .part σ env b n₁ (.value v σ₁) ∧ Feeds env σ₁ f as n₂ σ₂ g ∧
        Evaluates pl σ₂ env (.app q g (.value v :: bs)) n₃ (.value w τ) ∧ n = n₁ + n₂ + n₃ := by
  constructor
  · intro h
    obtain ⟨n₁, n₂, σ₃, e, hothers, he, rfl⟩ := h.exists_feeds (by simp)
    cases hothers with
    | cons hb hcallee happ hrest =>
        obtain ⟨m₁, m₂, σ₂, g, hfirst, hg, rfl⟩ := hcallee.exists_feeds has
        have hv := (Feeds.cons .value_part hg happ hrest).evaluates pl q (by simp) he
        exact ⟨_, _, _, _, _, _, _, hb, hfirst, hv, by omega⟩
  · rintro ⟨n₁, n₂, n₃, σ₁, σ₂, g, v, hb, hfirst, h, rfl⟩
    obtain ⟨m₁, m₂, σ₃, e, hothers, he, rfl⟩ := h.exists_feeds (by simp)
    cases hothers with
    | cons hv hg happ hrest =>
        cases hv
        have hcallee := hfirst.evaluates .part r has hg
        have hnested := (Feeds.cons hb hcallee happ hrest).evaluates pl q (by simp) he
        exact hnested.of_cost (by omega)

/-! ## The two orders lead to twins -/

theorem Settled.func (h : Settled σ env (.app p f as)) : Settled σ env f :=
  h.part (by simp [Expr.refs])

theorem Settled.arg (h : Settled σ env (.app p f as)) {a : Expr} (ha : a ∈ as) : Settled σ env a :=
  h.part (List.subset_append_of_subset_right _ (Expr.refs_subset_refsAll ha))

theorem Settled.isLocal_argument (hb : Settled σ env b) :
    IsLocal env σ.knots.size fun τ n τ' e => ∃ v, e = .value v ∧ Evaluates .part τ env b n (.value v τ') := by
  constructor
  · rintro π n σ' e hπ hshares ⟨v, rfl, h⟩
    obtain ⟨o, h', ho⟩ := h.twin hπ (.code (hshares.code hb))
    cases ho with
    | @value π' _ v' hgrows hlinked hv =>
        exact ⟨π', .value v', hgrows, hlinked, rfl, ⟨v', rfl, h'⟩, .value hv⟩
  · rintro τ n τ' e hτ hsize ⟨v, rfl, h⟩
    have hs := h.settles ⟨hτ, hb.env.mono hsize, hb.expr.mono hsize⟩
    exact ⟨hs.keeps, hs.store⟩

theorem Settled.isLocal_feeding (hf : Settled σ env f) (has : ∀ a ∈ as, Settled σ env a) :
    IsLocal env σ.knots.size fun τ n τ' e => Feeds env τ f as n τ' e := by
  constructor
  · intro π n σ' e hπ hshares h
    exact h.twin hπ (.code (hshares.code hf)) fun a ha => hshares.code (has a ha)
  · intro τ n τ' e hτ hsize h
    have hlater : ∀ {a : Expr}, Settled σ env a → Settled τ env a := fun ha =>
      ⟨hτ, ha.env.mono hsize, ha.expr.mono hsize⟩
    obtain ⟨hkeeps, hs⟩ := h.settles (hlater hf) fun a ha => hlater (has a ha)
    exact ⟨hkeeps, hs.store⟩

/-- What is left to do once the argument has been evaluated and the first arguments have been fed. -/
theorem Pairing.Shares.exists_rest {π : Pairing} (hshares : π.Shares σ.knots.size) (hπ : π.Linked)
    (hbs : ∀ e ∈ bs, Settled σ env e) {g g' : Expr} {v v' : Value} (hg : Expr.Twin π env env g g')
    (hv : Expr.Twin π env env (.value v) (.value v'))
    (h : Evaluates pl π.left env (.app p g (.value v :: bs)) n (.value w τ)) (q : Pos) :
    ∃ w' τ', Evaluates pl π.right env (.app q g' (.value v' :: bs)) n (.value w' τ') ∧ w.Same w' := by
  obtain ⟨o, h', ho⟩ := h.twin hπ (.app p hg hv fun e he => hshares.code (hbs e he))
  cases ho with
  | @value π' _ w' _ _ hw => exact ⟨w', π'.right, h'.app_at (by simp) q, hw.same⟩

section Orders

variable (has : as ≠ []) (hs : Settled σ env (.app p f (as ++ b :: bs)))
include has hs

theorem Evaluates.exists_nested (h : Evaluates pl σ env (.app p f (as ++ b :: bs)) n (.value w τ)) :
    ∃ w' τ', Evaluates pl σ env (.app q (.app r f as) (b :: bs)) n (.value w' τ') ∧ w.Same w' := by
  have hbs : ∀ e ∈ bs, Settled σ env e := fun e he => hs.arg (by simp [he])
  have harg := (hs.arg (a := b) (by simp)).isLocal_argument
  have hfeeding := hs.func.isLocal_feeding fun a ha => hs.arg (List.mem_append_left _ ha)
  obtain ⟨n₁, n₂, n₃, σ₁, σ₂, g, v, hfeeds, hb, hrest, rfl⟩ := evaluates_flat_iff.mp h
  -- the argument and the feeding change places
  obtain ⟨π, τ₁, g', e, ⟨v', rfl, hb'⟩, hfeeds', rfl, hπ, hshares, hg, hv⟩ :=
    hfeeding.commute harg hs.store hfeeds ⟨v, rfl, hb⟩
  obtain ⟨w', τ', hrest', hw⟩ := hshares.exists_rest hπ hbs hg hv hrest q
  have hnested := (evaluates_nested_iff (r := r) has).mpr ⟨_, _, _, _, _, _, _, hb', hfeeds', hrest', rfl⟩
  exact ⟨w', τ', hnested.of_cost (by omega), hw⟩

theorem Evaluates.exists_flat (h : Evaluates pl σ env (.app q (.app r f as) (b :: bs)) n (.value w τ)) :
    ∃ w' τ', Evaluates pl σ env (.app p f (as ++ b :: bs)) n (.value w' τ') ∧ w.Same w' := by
  have hbs : ∀ e ∈ bs, Settled σ env e := fun e he => hs.arg (by simp [he])
  have harg := (hs.arg (a := b) (by simp)).isLocal_argument
  have hfeeding := hs.func.isLocal_feeding fun a ha => hs.arg (List.mem_append_left _ ha)
  obtain ⟨n₁, n₂, n₃, σ₁, σ₂, g, v, hb, hfeeds, hrest, rfl⟩ := (evaluates_nested_iff has).mp h
  -- and back again
  obtain ⟨π, τ₁, e, g', hfeeds', ⟨v', rfl, hb'⟩, rfl, hπ, hshares, hv, hg⟩ :=
    harg.commute hfeeding hs.store ⟨v, rfl, hb⟩ hfeeds
  obtain ⟨w', τ', hrest', hw⟩ := hshares.exists_rest hπ hbs hg hv hrest p
  have hflat := evaluates_flat_iff.mpr ⟨_, _, _, _, _, _, _, hfeeds', hb', hrest', rfl⟩
  exact ⟨w', τ', hflat.of_cost (by omega), hw⟩

end Orders

end Applications

/-! ## Runs -/

namespace Machine

/-- The run from a state ends with a value after `n` steps. -/
def State.Yields (s : State) (n : Nat) (v : Value) : Prop := ∃ τ, run 0 quiet s = some ⟨.ok v, n, τ⟩

theorem State.yields_iff {σ : Store} {env : Env} {e : Expr} {n : Nat} {v : Value} :
    State.Yields ⟨σ, env, e⟩ n v ↔ ∃ τ, Evaluates .whole σ env e n (.value v τ) := by
  constructor
  · rintro ⟨τ, h⟩
    exact ⟨τ, evaluates_of_run_eq le_rfl h⟩
  · rintro ⟨τ, h⟩
    exact ⟨τ, run_eq_of_evaluates le_rfl h⟩

theorem State.Yields.unique {s : State} {n n' : Nat} {v v' : Value} (h : s.Yields n v)
    (h' : s.Yields n' v') : n = n' ∧ v = v' := by
  obtain ⟨τ, h⟩ := h
  obtain ⟨τ', h'⟩ := h'
  cases h.symm.trans h'
  exact ⟨rfl, rfl⟩

/-- **Currying.** An application to several arguments yields a value exactly if the application of an
application to the first of them does. The two values are then equal as far as they are shown, and the
two runs take the same number of steps. -/
theorem yields_app_append_iff {σ : Store} {env : Env} {f : Expr} {as bs : List Expr} {p : Pos}
    (has : as ≠ []) (hbs : bs ≠ []) (hs : Settled σ env (.app p f (as ++ bs))) (q r : Pos) :
    ((∃ n v, State.Yields ⟨σ, env, .app p f (as ++ bs)⟩ n v) ↔
      ∃ n v, State.Yields ⟨σ, env, .app q (.app r f as) bs⟩ n v) ∧
    ∀ n n' v v', State.Yields ⟨σ, env, .app p f (as ++ bs)⟩ n v →
      State.Yields ⟨σ, env, .app q (.app r f as) bs⟩ n' v' → n = n' ∧ v.Same v' := by
  obtain ⟨b, bs, rfl⟩ := List.exists_cons_of_ne_nil hbs
  have hnested : ∀ n v, State.Yields ⟨σ, env, .app p f (as ++ b :: bs)⟩ n v →
      ∃ v', State.Yields ⟨σ, env, .app q (.app r f as) (b :: bs)⟩ n v' ∧ v.Same v' := by
    intro n v hflat
    obtain ⟨τ, h⟩ := State.yields_iff.mp hflat
    obtain ⟨v', τ', h', hv⟩ := h.exists_nested (q := q) (r := r) has hs
    exact ⟨v', State.yields_iff.mpr ⟨τ', h'⟩, hv⟩
  refine ⟨⟨?_, ?_⟩, ?_⟩
  · rintro ⟨n, v, hflat⟩
    obtain ⟨v', h', -⟩ := hnested n v hflat
    exact ⟨n, v', h'⟩
  · rintro ⟨n, v, h⟩
    obtain ⟨τ, h⟩ := State.yields_iff.mp h
    obtain ⟨v', τ', hflat, -⟩ := h.exists_flat has hs
    exact ⟨n, v', State.yields_iff.mpr ⟨τ', hflat⟩⟩
  · intro n n' v v' hflat h
    obtain ⟨v'', h', hv⟩ := hnested n v hflat
    obtain ⟨rfl, rfl⟩ := h.unique h'
    exact ⟨rfl, hv⟩

/-- `(fun x -> let z = x in Box) 1 d`, where `d` is bound by a knot: the function is given one argument
more than it takes, and given them one after the other it yields the same after as many steps. -/
theorem yields_app_append_iff_let :
    ∃ v, State.Yields ⟨⟨#[⟨"d", some (.int 4)⟩], 0⟩, .bindKnot .empty "d" 0,
      .app ⟨1, 1⟩ (.app ⟨1, 1⟩ (.fn ⟨1, 2⟩ "x" (.letIn ⟨1, 11⟩ "z" (.var ⟨1, 19⟩ "x")
        (.ctor ⟨1, 24⟩ ⟨"Box", [.name ⟨1, 16⟩ "Int"], "B", ⟨1, 12⟩⟩))) [.int ⟨1, 29⟩ 1])
        [.var ⟨1, 31⟩ "d"]⟩ 9 v ∧
      (Value.data ⟨"Box", [.name ⟨1, 16⟩ "Int"], "B", ⟨1, 12⟩⟩ [.int 4]).Same v := by
  have hs : Settled ⟨#[⟨"d", some (.int 4)⟩], 0⟩ (.bindKnot .empty "d" 0)
      (.app ⟨1, 1⟩ (.fn ⟨1, 2⟩ "x" (.letIn ⟨1, 11⟩ "z" (.var ⟨1, 19⟩ "x")
        (.ctor ⟨1, 24⟩ ⟨"Box", [.name ⟨1, 16⟩ "Int"], "B", ⟨1, 12⟩⟩)))
        ([.int ⟨1, 29⟩ 1] ++ [.var ⟨1, 31⟩ "d"])) := by
    refine settled_of_isSource ?_ ?_ rfl
    · intro k v hk
      obtain rfl : k = 0 := by simpa using Store.lt_size_of_knotValue? hk
      obtain rfl : Value.int 4 = v := by simpa [Store.knotValue?] using hk
      exact Store.covers_nil _
    · intro r hr
      obtain rfl : r = .name 0 := by simpa [Env.refs] using hr
      exact ⟨0, by simp, rfl⟩
  have hflat : Evaluates .whole ⟨#[⟨"d", some (.int 4)⟩], 0⟩ (.bindKnot .empty "d" 0)
      (.app ⟨1, 1⟩ (.fn ⟨1, 2⟩ "x" (.letIn ⟨1, 11⟩ "z" (.var ⟨1, 19⟩ "x")
        (.ctor ⟨1, 24⟩ ⟨"Box", [.name ⟨1, 16⟩ "Int"], "B", ⟨1, 12⟩⟩)))
        ([.int ⟨1, 29⟩ 1] ++ [.var ⟨1, 31⟩ "d"])) 9 _ :=
    (Evaluates.app_closure .int .fn (.app_data_last (.var rfl (by simp))
      (.within (.letIn (.var rfl (by simp)) .ctor)))).of_cost rfl
  have hflat := State.yields_iff.mpr ⟨_, hflat⟩
  obtain ⟨hiff, hsame⟩ := yields_app_append_iff (by simp) (by simp) hs ⟨1, 1⟩ ⟨1, 1⟩
  obtain ⟨n, v, h⟩ := hiff.mp ⟨9, _, hflat⟩
  obtain ⟨rfl, hv⟩ := hsame _ _ _ _ hflat h
  exact ⟨v, h, hv⟩

end Machine

end FunLang
