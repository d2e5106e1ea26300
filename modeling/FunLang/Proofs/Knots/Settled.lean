import FunLang.Proofs.BigStep
import FunLang.Proofs.Knots.References
import FunLang.Proofs.Knots.Store

set_option autoImplicit false

/-!
# Evaluations that leave knots alone

An expression under an environment is settled if the knots that it refers to are in the store and no
`let` is under way in it (`Settled`). Names may well be bound to knots that have no value yet.

The evaluation of such an expression makes knots and resolves those that it has made, and leaves all
the others alone (`Evaluates.settles`). What it leads to refers only to knots that are in the store
then, and is settled again.
-/

namespace FunLang

/-! ## The store -/

/-- All knots that were in the store are as they were. -/
structure Store.Keeps (σ σ' : Store) : Prop where
  size : σ.knots.size ≤ σ'.knots.size
  values : ∀ k, k < σ.knots.size → σ'.knotValue? k = σ.knotValue? k

/-- All references are by names and to knots in the store. -/
def Store.Covers (σ : Store) (refs : List KnotRef) : Prop :=
  ∀ r ∈ refs, ∃ k, k < σ.knots.size ∧ r = .name k

section Stores

variable {σ σ' σ'' : Store}

theorem Store.Keeps.refl (σ : Store) : σ.Keeps σ := ⟨le_rfl, fun _ _ => rfl⟩

theorem Store.Keeps.trans (h : σ.Keeps σ') (h' : σ'.Keeps σ'') : σ.Keeps σ'' := by
  refine ⟨h.size.trans h'.size, fun k hk => ?_⟩
  calc σ''.knotValue? k = σ'.knotValue? k := h'.values k (Nat.lt_of_lt_of_le hk h.size)
    _ = σ.knotValue? k := h.values k hk

theorem Store.Keeps.of_some (h : σ.Keeps σ') {k : Nat} {v : Value} (hk : σ.knotValue? k = some v) :
    σ'.knotValue? k = some v := by
  rw [h.values k (Store.lt_size_of_knotValue? hk), hk]

theorem Store.keeps_addKnot (σ : Store) (x : String) : σ.Keeps (σ.addKnot x) := by
  have hsize := σ.size_addKnot x
  exact ⟨by omega, fun k _ => Store.knotValue?_addKnot σ x k⟩

/-- A knot that has been made in the meantime may be resolved. -/
theorem Store.Keeps.resolve (h : σ.Keeps σ') {k : Nat} (hk : σ.knots.size ≤ k) (v : Value) :
    σ.Keeps (σ'.resolve k v) := by
  refine ⟨?_, fun l hl => ?_⟩
  · rw [Store.size_resolve]
    exact h.size
  · have hne : l ≠ k := by omega
    rw [Store.knotValue?_resolve_of_ne σ' v hne, h.values l hl]

theorem Store.Covers.part {refs refs' : List KnotRef} (h : σ.Covers refs) (hrefs : refs' ⊆ refs) :
    σ.Covers refs' :=
  fun r hr => h r (hrefs hr)

theorem Store.Covers.mono {refs : List KnotRef} (h : σ.Covers refs)
    (hsize : σ.knots.size ≤ σ'.knots.size) : σ'.Covers refs := by
  intro r hr
  obtain ⟨k, hk, rfl⟩ := h r hr
  exact ⟨k, Nat.lt_of_lt_of_le hk hsize, rfl⟩

theorem Store.covers_nil (σ : Store) : σ.Covers [] := by
  intro r hr
  cases hr

theorem Store.Covers.append {refs refs' : List KnotRef} (h : σ.Covers refs) (h' : σ.Covers refs') :
    σ.Covers (refs ++ refs') := by
  intro r hr
  rcases List.mem_append.mp hr with hr | hr
  · exact h r hr
  · exact h' r hr

end Stores

/-! ## Settled expressions -/

/-- A store in which knots refer only to knots that are there. -/
def Store.Settled (σ : Store) : Prop := ∀ k v, σ.knotValue? k = some v → σ.Covers v.refs

/-- An expression that refers only to knots in the store, under an environment that does so too, with
no `let` under way. -/
structure Settled (σ : Store) (env : Env) (e : Expr) : Prop where
  store : σ.Settled
  env : σ.Covers env.refs
  expr : σ.Covers e.refs

/-- What comes of a settled expression: a value that refers only to knots in the store at the end,
where all the knots of the store at the beginning are as they were. -/
structure Settles (σ : Store) (v : Value) (σ' : Store) : Prop where
  keeps : σ.Keeps σ'
  store : σ'.Settled
  value : σ'.Covers v.refs

section Expressions

variable {σ σ₁ σ₂ : Store} {env env' : Env} {e a : Expr} {v w : Value}

/-- Source text may be evaluated under any environment whose knots are in the store. -/
theorem settled_of_isSource (hσ : σ.Settled) (henv : σ.Covers env.refs) (he : e.isSource = true) :
    Settled σ env e :=
  ⟨hσ, henv, Expr.refs_of_isSource he ▸ σ.covers_nil⟩

theorem Settled.part (h : Settled σ env e) (ha : a.refs ⊆ e.refs) : Settled σ env a :=
  ⟨h.store, h.env, h.expr.part ha⟩

theorem Settled.after (h : Settled σ env e) (hv : Settles σ v σ₁) : Settled σ₁ env e :=
  ⟨hv.store, h.env.mono hv.keeps.size, h.expr.mono hv.keeps.size⟩

theorem Settles.trans (hv : Settles σ v σ₁) (hw : Settles σ₁ w σ₂) : Settles σ w σ₂ :=
  ⟨hv.keeps.trans hw.keeps, hw.store, hw.value⟩

theorem Settled.settles_of_nil (h : Settled σ env e) (hv : v.refs = []) : Settles σ v σ :=
  ⟨.refl σ, h.store, hv ▸ σ.covers_nil⟩

theorem Settled.settles_lookup (h : Settled σ env e) {x : String} (hx : env.lookup σ x = .found v) :
    Settles σ v σ := by
  refine ⟨.refl σ, h.store, ?_⟩
  rcases Env.refs_of_lookup hx with hrefs | ⟨k, -, hk⟩
  · exact h.env.part hrefs
  · exact h.store k v hk

theorem Settles.settled_bind {x : String} (hv : Settles σ v σ₁) (henv : σ₁.Covers env.refs)
    (he : σ₁.Covers e.refs) : Settled σ₁ (.bind env x v) e :=
  ⟨hv.store, henv.append hv.value, he⟩

/-- The body of a function, once its argument is bound. -/
theorem Settles.settled_body {label : Nat} {x : String} {body : Expr}
    (hf : Settles σ (.closure label x body env) σ₁) (hv : σ₁.Covers v.refs) :
    Settled σ₁ (.bind env x v) body :=
  ⟨hf.store, (hf.value.part (List.subset_append_right _ _)).append hv,
    hf.value.part (List.subset_append_left _ _)⟩

theorem Settles.addField {c : Constructor} {fields : List Value} (hf : Settles σ (.data c fields) σ₁)
    (hv : σ₁.Covers v.refs) : Settles σ (.data c (fields ++ [v])) σ₁ := by
  refine ⟨hf.keeps, hf.store, ?_⟩
  have hfields : (Value.data c (fields ++ [v])).refs = (Value.data c fields).refs ++ v.refs := by
    simp [Value.refs, Value.refsAll_append, Value.refsAll]
  rw [hfields]
  exact hf.value.append hv

/-- An application that goes on with what the first argument has led to. -/
theorem Settled.app_rest {p : Pos} {f g b : Expr} {rest : List Expr}
    (h : Settled σ env (.app p f (a :: b :: rest))) (hg : Settled σ₁ env' g)
    (hsize : σ.knots.size ≤ σ₁.knots.size) : Settled σ₁ env (.app p g (b :: rest)) := by
  refine ⟨hg.store, h.env.mono hsize, hg.expr.append ((h.expr.part ?_).mono hsize)⟩
  simp [Expr.refs, Expr.refsAll]

theorem Settles.settled_select {p : Pos} {s : Expr} {alts : List Alt} {bs : List (String × Value)}
    (h : Settled σ env (.cases p s alts)) (hv : Settles σ v σ₁)
    (hselect : Alt.select? alts v = some (e, bs)) : Settled σ₁ (env.bindAll bs) e := by
  obtain ⟨he, hbs⟩ := Alt.refs_of_select? hselect
  have halts : σ₁.Covers (Alt.refs alts) := by
    refine (h.after hv).expr.part ?_
    simp [Expr.refs]
  refine ⟨hv.store, fun r hr => ?_, halts.part he⟩
  rcases Env.refs_bindAll hr with hr | ⟨b, hb, hr⟩
  · exact (h.after hv).env r hr
  · exact hv.value r (hbs b hb hr)

/-- The knot of a `let` is made. -/
theorem Settled.bound {p : Pos} {x : String} {bound body : Expr}
    (h : Settled σ env (.letIn p x bound body)) :
    Settled (σ.addKnot x) (.bindKnot env x σ.knots.size) bound := by
  have hsize := σ.size_addKnot x
  have hle : σ.knots.size ≤ (σ.addKnot x).knots.size := by omega
  refine ⟨?_, ?_, ?_⟩
  · intro k v hk
    rw [Store.knotValue?_addKnot] at hk
    exact (h.store k v hk).mono hle
  · intro r hr
    rcases List.mem_cons.mp hr with rfl | hr
    · exact ⟨σ.knots.size, by omega, rfl⟩
    · exact h.env.mono hle r hr
  · exact (h.expr.part (List.subset_append_left _ _)).mono hle

/-- The knot of a `let` is resolved. -/
theorem Settles.resolve {x : String} (hv : Settles (σ.addKnot x) v σ₁) :
    Settles σ v (σ₁.resolve σ.knots.size v) := by
  have hkeeps := (σ.keeps_addKnot x).trans hv.keeps
  have hle : σ₁.knots.size ≤ (σ₁.resolve σ.knots.size v).knots.size := (Store.size_resolve _ _ v).ge
  have hstore := Store.forall_knotValue?_resolve (fun k w hk => (hv.store k w hk).mono hle)
    σ.knots.size (hv.value.mono hle)
  exact ⟨hkeeps.resolve le_rfl v, hstore, hv.value.mono hle⟩

end Expressions

/-! ## Evaluations -/

/-- **A settled expression leaves the knots of the store alone.** The induction is on the evaluation:
what is evaluated later is settled in the store that the earlier parts have left. -/
theorem Evaluates.settles {pl : Place} {σ σ' : Store} {env : Env} {e : Expr} {n : Nat} {v : Value}
    (h : Evaluates pl σ env e n (.value v σ')) (hs : Settled σ env e) : Settles σ v σ' := by
  generalize ho : Outcome.value v σ' = o at h
  induction h generalizing v σ' with
  | value_part | value_whole =>
      cases ho
      exact ⟨.refl _, hs.store, hs.expr⟩
  | var hx _ =>
      cases ho
      exact hs.settles_lookup hx
  | int | bool | ctor =>
      cases ho
      exact hs.settles_of_nil rfl
  | fn =>
      cases ho
      exact ⟨⟨le_rfl, fun _ _ => rfl⟩, hs.store, hs.expr.append hs.env⟩
  | @binary _ _ _ _ _ p op l r _ _ a b _ _ ihl ihr =>
      have hl := ihl (hs.part (by simp [Expr.refs])) rfl
      have hr := ihr ((hs.after hl).part (by simp [Expr.refs])) rfl
      unfold BinOp.outcome at ho
      cases hv : op.eval? a b with
      | none => simp [hv] at ho
      | some w =>
          simp only [hv] at ho
          cases ho
          have hs₂ := (hs.after hl).after hr
          exact (hl.trans hr).trans (hs₂.settles_of_nil (BinOp.refs_of_eval? hv))
  | cond_yes _ _ ihc iht =>
      have hc := ihc (hs.part (by simp [Expr.refs])) rfl
      exact hc.trans (iht ((hs.after hc).part (by simp [Expr.refs])) ho)
  | cond_no _ _ ihc ihe =>
      have hc := ihc (hs.part (by simp [Expr.refs])) rfl
      exact hc.trans (ihe ((hs.after hc).part (by simp [Expr.refs])) ho)
  | app_nil _ ihf => exact ihf (hs.part (by simp [Expr.refs])) ho
  | app_closure_last _ _ _ iha ihf ihb =>
      have ha := iha (hs.part (by simp [Expr.refs, Expr.refsAll])) rfl
      have hf := ihf ((hs.after ha).part (by simp [Expr.refs])) rfl
      have hbody := hf.settled_body (ha.value.mono hf.keeps.size)
      exact (ha.trans hf).trans (ihb hbody ho)
  | app_closure _ _ _ iha ihf ihb =>
      have ha := iha (hs.part (by simp [Expr.refs, Expr.refsAll])) rfl
      have hf := ihf ((hs.after ha).part (by simp [Expr.refs])) rfl
      have hbody := hf.settled_body (ha.value.mono hf.keeps.size)
      -- the body waits in the place of the function for the next argument
      have hgo : Settled _ _ (.within _ _) := ⟨hbody.store, hbody.env, hbody.env.append hbody.expr⟩
      exact (ha.trans hf).trans (ihb (hs.app_rest hgo (ha.trans hf).keeps.size) ho)
  | app_data_last _ _ iha ihf =>
      cases ho
      have ha := iha (hs.part (by simp [Expr.refs, Expr.refsAll])) rfl
      have hf := ihf ((hs.after ha).part (by simp [Expr.refs])) rfl
      exact ha.trans (hf.addField (ha.value.mono hf.keeps.size))
  | app_data _ _ _ iha ihf ihb =>
      have ha := iha (hs.part (by simp [Expr.refs, Expr.refsAll])) rfl
      have hf := ihf ((hs.after ha).part (by simp [Expr.refs])) rfl
      have hdata := hf.addField (ha.value.mono hf.keeps.size)
      have hgo : Settled _ _ (.value _) := ⟨hdata.store, ((hs.after ha).after hf).env, hdata.value⟩
      exact (ha.trans hf).trans (ihb (hs.app_rest hgo (ha.trans hf).keeps.size) ho)
  | letIn _ _ ihb ihe =>
      have hb := (ihb hs.bound rfl).resolve
      have hs₁ := hs.after hb
      exact hb.trans (ihe (hb.settled_bind hs₁.env (hs₁.expr.part (by simp [Expr.refs]))) ho)
  | annot _ ih => exact ih (hs.part (by simp [Expr.refs])) ho
  | cases_bare _ ha _ ihs ihe =>
      have hv := ihs (hs.part (by simp [Expr.refs])) rfl
      exact hv.trans (ihe (hv.settled_select hs ha) ho)
  | cases_bind _ ha _ ihs ihe =>
      have hv := ihs (hs.part (by simp [Expr.refs])) rfl
      exact hv.trans (ihe (hv.settled_select hs ha) ho)
  | within _ ih =>
      have hexpr := hs.expr
      rw [Expr.refs] at hexpr
      exact ih ⟨hs.store, hexpr.part (List.subset_append_left _ _),
        hexpr.part (List.subset_append_right _ _)⟩ ho
  | tying _ _ _ _ =>
      -- no `let` is under way
      obtain ⟨k, -, hk⟩ := hs.expr (.tie _) List.mem_cons_self
      cases hk
  | _ => cases ho

end FunLang
