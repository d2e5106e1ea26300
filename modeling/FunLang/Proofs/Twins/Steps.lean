import FunLang.Proofs.Twins.Exprs

set_option autoImplicit false

/-!
# Steps of two evaluations

Twins make their steps together (`step_twin`): both fail, in the same way, or both lead to twins. This
is shown for the expressions that make a step by themselves, form by form, and then goes over to
frames and to expressions under an environment of their own.
-/

namespace FunLang

/-- Steps to twins. -/
inductive Step.Twin (π : Pairing) (env env' : Env) : Step → Step → Prop where
  | done {v v' : Value} (h : v.Twin π v') : Step.Twin π env env' (.done v) (.done v')
  | stay {e e' : Expr} (h : Expr.Twin π env env' e e') : Step.Twin π env env' (.stay e) (.stay e')
  | move {e e' : Expr} {env₁ env₁' : Env} (h : Expr.Twin π env₁ env₁' e e') :
      Step.Twin π env env' (.move e env₁) (.move e' env₁')

/-- What comes of steps that two evaluations make together: the same failure, or twins with the stores
of a later pairing. A name is unbound only if the pairing admits it. -/
inductive Together (π : Pairing) (env env' : Env) :
    Except Failure (Store × Step) → Except Failure (Store × Step) → Prop where
  | failure {f : Failure} (h : f.reason = .unboundVariable → π.loose) :
      Together π env env' (.error f) (.error f)
  | step {π' : Pairing} {s s' : Step} (hgrows : π.Grows π') (hlinked : π'.Linked)
      (h : Step.Twin π' env env' s s') : Together π env env' (.ok (π'.left, s)) (.ok (π'.right, s'))

variable {π : Pairing} {env env' : Env}

theorem Step.Twin.inPlace {s s' : Step} (h : Step.Twin π env env' s s') :
    Expr.Twin π env env' s.inPlace s'.inPlace := by
  cases h with
  | done hv => exact .value hv
  | stay he => exact he
  | move he => exact .within he

theorem Step.Twin.leaving {env₁ env₁' : Env} {s s' : Step} (h : Step.Twin π env₁ env₁' s s') :
    Step.Twin π env env' (s.leaving env₁) (s'.leaving env₁') := by
  cases h with
  | done hv => exact .done hv
  | stay he => exact .move he
  | move he => exact .move he

/-! ## Expressions that make a step by themselves -/

section Redexes

variable {p : Pos} (hπ : π.Linked)
include hπ

/-- A step that leaves the stores as they are. -/
theorem Step.Twin.together {s s' : Step} (h : Step.Twin π env env' s s') :
    Together π env env' (.ok (π.left, s)) (.ok (π.right, s')) :=
  .step (.refl π) hπ h

omit hπ in
theorem Step.twin_ofValue {v v' : Value} (h : v.Twin π v') :
    Step.Twin π env env' (.ofValue v) (.ofValue v') := by
  cases h with
  | absent => exact .move (.code ⟨Or.inl rfl, by simp [Expr.free]⟩)
  | int n => exact .done (.int n)
  | bool b => exact .done (.bool b)
  | closure hbody henv => exact .done (.closure hbody henv)
  | data c h => exact .done (.data c h)

theorem step_var_twin {x : String} (h : π.Code env env' (.var p x)) :
    Together π env env' (step π.left env (.var p x)) (step π.right env' (.var p x)) := by
  have hx := (h.free x (by simp [Expr.free])).lookup hπ
  rw [step, step]
  generalize env.lookup π.left x = r, env'.lookup π.right x = r' at hx ⊢
  cases hx with
  | unbound hloose => exact .failure fun _ => hloose
  | unresolved => exact (Step.Twin.stay (.code h)).together hπ
  | found hv => exact (Step.twin_ofValue hv).together hπ

omit hπ in
theorem BinOp.eval?_twin (op : BinOp) {a a' b b' : Value} (ha : a.Twin π a') (hb : b.Twin π b') :
    op.eval? a' b' = op.eval? a b := by
  cases ha with
  | int m =>
      cases hb with
      | int n => rfl
      | _ => cases op <;> rfl
  | _ => cases op <;> rfl

omit hπ in
/-- The result of an operator is a number or a truth value, which is its own twin. -/
theorem BinOp.twin_of_eval? {op : BinOp} {a b v : Value} (h : op.eval? a b = some v) : v.Twin π v := by
  unfold BinOp.eval? at h
  split at h <;> simp only [Option.some.injEq, reduceCtorEq] at h <;> subst h
  all_goals
    first
    | exact .int _
    | exact .bool _

theorem step_binary_twin {op : BinOp} {a a' b b' : Value} (ha : a.Twin π a') (hb : b.Twin π b') :
    Together π env env' (step π.left env (.binary p op (.value a) (.value b)))
      (step π.right env' (.binary p op (.value a') (.value b'))) := by
  simp only [step, Expr.value?_value, op.eval?_twin ha hb]
  cases hv : op.eval? a b with
  | none =>
      have hf : Failure.operands p op a' b' = Failure.operands p op a b := by
        simp [Failure.operands, ha.render_eq, hb.render_eq]
      rw [hf]
      exact .failure fun h => by simp [Failure.operands] at h
  | some v => exact (Step.Twin.done (BinOp.twin_of_eval? hv)).together hπ

theorem step_cond_twin {v v' : Value} {t e : Expr} (hv : v.Twin π v') (ht : π.Code env env' t)
    (he : π.Code env env' e) :
    Together π env env' (step π.left env (.cond p (.value v) t e))
      (step π.right env' (.cond p (.value v') t e)) := by
  have hf : Failure.condition p v' = Failure.condition p v := by
    simp [Failure.condition, hv.kind_eq, hv.render_eq]
  have hfail : (Failure.condition p v).reason = .unboundVariable → π.loose := fun h => by
    simp [Failure.condition] at h
  cases hv with
  | bool b =>
      cases b with
      | true => exact (Step.Twin.stay (.code ht)).together hπ
      | false => exact (Step.Twin.stay (.code he)).together hπ
  | _ =>
      simp only [step, Expr.value?_value, hf]
      exact .failure hfail

theorem step_fn_twin {x : String} {body : Expr} (h : π.Code env env' (.fn p x body)) :
    Together π env env' (step π.left env (.fn p x body)) (step π.right env' (.fn p x body)) := by
  have hbody : π.CodeUnder [x] env env' body := by
    refine h.partUnder ?_ ?_ ?_ <;> simp +contextual [Expr.isSource, Expr.refs, Expr.free]
  have hbody := hbody.mono π.grows_addLabel
  exact .step π.grows_addLabel hπ.addLabel
    (.done (.closure hbody.admits fun y hy hne => hbody.free y hy (by simpa using hne)))

/-- A function is applied to its argument in the environment in which it was made. -/
theorem applyValue_twin {g g' v v' : Value} {rest : List Expr} (hg : g.Twin π g') (hv : v.Twin π v')
    (hrest : ∀ e ∈ rest, π.Code env env' e) :
    Together π env env' ((applyValue p g v rest).map fun s => (π.left, s))
      ((applyValue p g' v' rest).map fun s => (π.right, s)) := by
  have hf : Failure.callee p g' = Failure.callee p g := by
    simp [Failure.callee, hg.kind_eq, hg.render_eq]
  have hfail : (Failure.callee p g).reason = .unboundVariable → π.loose := fun h => by
    simp [Failure.callee] at h
  cases hg with
  | closure hbody henv =>
      have hcode : π.CodeUnder [_] _ _ _ := ⟨hbody, fun y hy hne => henv y hy (by simpa using hne)⟩
      have hbody := Expr.Twin.code (hcode.bind hv)
      cases rest with
      | nil => exact (Step.Twin.move hbody).together hπ
      | cons a rest =>
          exact (Step.Twin.stay (.app p (.within hbody) (.code (hrest a (by simp)))
            fun e he => hrest e (by simp [he]))).together hπ
  | data c hs =>
      have hdata := Value.Twin.data c (hs.concat hv)
      cases rest with
      | nil => exact (Step.Twin.done hdata).together hπ
      | cons a rest =>
          exact (Step.Twin.stay (.app p (.value hdata) (.code (hrest a (by simp)))
            fun e he => hrest e (by simp [he]))).together hπ
  | _ =>
      simp only [applyValue]
      rw [hf]
      exact .failure hfail

theorem step_app_twin {g g' v v' : Value} {rest : List Expr} (hg : g.Twin π g') (hv : v.Twin π v')
    (hrest : ∀ e ∈ rest, π.Code env env' e) :
    Together π env env' (step π.left env (.app p (.value g) (.value v :: rest)))
      (step π.right env' (.app p (.value g') (.value v' :: rest))) := by
  exact applyValue_twin hπ hg hv hrest

/-- Both evaluations make a knot, and the two correspond to each other. -/
theorem step_letIn_twin {x : String} {bound body : Expr} (h : π.Code env env' (.letIn p x bound body)) :
    Together π env env' (step π.left env (.letIn p x bound body))
      (step π.right env' (.letIn p x bound body)) := by
  have hgrows := π.grows_addKnot x
  have hbound : π.CodeUnder [x] env env' bound := by
    refine h.partUnder ?_ ?_ ?_ <;> simp +contextual [Expr.isSource, Expr.refs, Expr.free]
  have hbody : π.CodeUnder [x] env env' body := by
    refine h.partUnder ?_ ?_ ?_ <;> simp +contextual [Expr.isSource, Expr.refs, Expr.free]
  have hk : (π.addKnot x).knots π.left.knots.size π.right.knots.size := Or.inr ⟨rfl, rfl⟩
  exact .step hgrows (hπ.addKnot x)
    (.stay (.tying x hk (.within (.code ((hbound.mono hgrows).bindKnot hk))) (hbody.mono hgrows)))

theorem step_tying_twin {x : String} {k k' : Nat} {v v' : Value} {body : Expr} (hk : π.knots k k')
    (hv : v.Twin π v') (hbody : π.CodeUnder [x] env env' body) :
    Together π env env' (step π.left env (.tying x k (.value v) body))
      (step π.right env' (.tying x k' (.value v') body)) := by
  have hgrows := π.grows_resolve k k' v v'
  exact .step hgrows (hπ.resolve hk hv) (.move (.code ((hbody.mono hgrows).bind (hv.mono hgrows))))

theorem step_cases_twin {v v' : Value} {alts : List Alt} (hv : v.Twin π v')
    (halts : π.AltsCode env env' alts) :
    Together π env env' (step π.left env (.cases p (.value v) alts))
      (step π.right env' (.cases p (.value v') alts)) := by
  have hselect := Alt.select?_twin hv alts
  simp only [step, Expr.value?_value]
  cases hs : Alt.select? alts v with
  | none =>
      have hs' : Alt.select? alts v' = none := by
        rw [hs] at hselect
        generalize Alt.select? alts v' = r' at hselect
        cases hselect
        rfl
      have hf : Failure.unmatched p v' = Failure.unmatched p v := by
        simp [Failure.unmatched, hv.render_eq]
      rw [hs', hf]
      exact .failure fun h => by simp [Failure.unmatched] at h
  | some taken =>
      obtain ⟨e, bs⟩ := taken
      obtain ⟨q, pat, hmem, hbs⟩ := Alt.exists_of_select? hs
      have hcode := halts q pat e hmem
      rw [← Pattern.names_of_bindings? hbs] at hcode
      rw [hs] at hselect
      generalize Alt.select? alts v' = r' at hselect ⊢
      cases hselect with
      | @some _ taken' htaken =>
          obtain ⟨e', bs'⟩ := taken'
          obtain ⟨rfl, hbs'⟩ : e' = e ∧ BindingsTwin π bs bs' := htaken
          have hcode := hcode.bindAll hbs'
          -- the machine moves to another environment only if the pattern binds a name
          cases hbs' with
          | nil => exact (Step.Twin.stay (.code hcode)).together hπ
          | cons hb hbs' => exact (Step.Twin.move (.code hcode)).together hπ

/-- Twins make their steps together, if the first makes its step by itself. -/
theorem Redex.step_twin {e e' : Expr} (he : Redex e) (h : Expr.Twin π env env' e e') :
    Together π env env' (step π.left env e) (step π.right env' e') := by
  -- the operands of a redex are values, so that those of its twin are values too
  cases he with
  | value v =>
      obtain ⟨v', rfl, hv⟩ := h.of_value
      exact (Step.twin_ofValue hv).together hπ
  | var p x =>
      cases h with
      | code h => exact step_var_twin hπ h
  | int p n =>
      cases h with
      | code h => exact (Step.Twin.done (.int n)).together hπ
  | bool p b =>
      cases h with
      | code h => exact (Step.Twin.done (.bool b)).together hπ
  | binary p op a b =>
      obtain ⟨l, r, rfl, hl, hr⟩ := h.of_binary
      obtain ⟨a', rfl, ha⟩ := hl.of_value
      obtain ⟨b', rfl, hb⟩ := hr.of_value
      exact step_binary_twin hπ ha hb
  | cond p v t f =>
      obtain ⟨c, rfl, hc, ht, hf⟩ := h.of_cond
      obtain ⟨v', rfl, hv⟩ := hc.of_value
      exact step_cond_twin hπ hv ht hf
  | fn p x body =>
      cases h with
      | code h => exact step_fn_twin hπ h
  | app_nil p f =>
      cases h with
      | code h =>
          have hf : π.Code env env' f := by
            refine h.part ?_ ?_ ?_ <;> simp +contextual [Expr.isSource, Expr.refs, Expr.free]
          exact (Step.Twin.stay (.code hf)).together hπ
  | app p g v rest =>
      obtain ⟨f, a, rfl, hf, ha, hrest⟩ := h.of_app
      obtain ⟨g', rfl, hg⟩ := hf.of_value
      obtain ⟨v', rfl, hv⟩ := ha.of_value
      exact step_app_twin hπ hg hv hrest
  | letIn p x bound body =>
      cases h with
      | code h => exact step_letIn_twin hπ h
  | tying x k v body =>
      obtain ⟨k', b, rfl, hk, hb, hbody⟩ := h.of_tying
      obtain ⟨v', rfl, hv⟩ := hb.of_value
      exact step_tying_twin hπ hk hv hbody
  | annot p a t =>
      cases h with
      | code h =>
          have ha : π.Code env env' a := by
            refine h.part ?_ ?_ ?_ <;> simp +contextual [Expr.isSource, Expr.refs, Expr.free]
          exact (Step.Twin.stay (.code ha)).together hπ
  | ctor p c =>
      cases h with
      | code h => exact (Step.Twin.done (.data c .nil)).together hπ
  | cases p v alts =>
      obtain ⟨s, rfl, hs, halts⟩ := h.of_cases
      obtain ⟨v', rfl, hv⟩ := hs.of_value
      exact step_cases_twin hπ hv halts
  | missing =>
      cases h with
      | code h => exact .failure fun h => by simp [Failure.missing] at h
  | custom form text =>
      cases h with
      | code h => exact .failure fun h => by simp [Failure.malformed] at h
  | wrapped form a =>
      cases h with
      | code h => exact .failure fun h => by simp [Failure.malformed] at h

end Redexes

/-! ## Every expression -/

/-- **Twins make their steps together.** The induction follows the part that makes the step: a frame
hands the two steps of its part on, and so does an environment of its own. -/
theorem step_twin (hπ : π.Linked) {e e' : Expr} (h : Expr.Twin π env env' e e') :
    Together π env env' (step π.left env e) (step π.right env' e') := by
  induction env, e using Expr.focus_induction generalizing env' e' with
  | redex env e he => exact he.step_twin hπ h
  | within env env₁ e ih =>
      obtain ⟨env₁', a', rfl, ha⟩ := h.of_within
      have ih := ih ha
      rw [step_within, step_within]
      generalize step π.left env₁ e = r, step π.right env₁' a' = r' at ih ⊢
      cases ih with
      | failure hf => exact .failure hf
      | step hgrows hlinked hs => exact .step hgrows hlinked hs.leaving
  | frame env K e he ih =>
      obtain ⟨K', a', rfl, ha', ha, hfill⟩ := h.exists_of_fill he
      have ih := ih ha
      rw [step_fill _ _ _ he, step_fill _ _ _ ha']
      generalize step π.left env e = r, step π.right env' a' = r' at ih ⊢
      cases ih with
      | failure hf => exact .failure hf
      | step hgrows hlinked hs =>
          exact .step hgrows hlinked (.stay (hfill _ hgrows _ _ hs.inPlace))

end FunLang
