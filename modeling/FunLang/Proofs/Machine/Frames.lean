import FunLang.Machine.Step
import Mathlib.Tactic

set_option autoImplicit false

/-!
# Frames

Most expressions wait for the value of one of their parts before they do anything themselves. The rest
of such an expression is a frame: `K.fill e` is the frame `K` around the part `e`. A step of the
part is a step of the whole (`step_fill`), and there is nothing else that happens inside an
expression.

Every expression is therefore of one of three kinds: it makes its step by itself (`Redex`), it is
under an environment of its own (`within`), or it is a frame around a part that is no value yet. The
induction over the part that makes the step is `Expr.focus_induction`, and what the part itself may do
is listed in `Reduces`.
-/

namespace FunLang

/-- An expression without the part whose value it waits for. -/
inductive Frame where
  | left (p : Pos) (op : BinOp) (r : Expr)
  | right (p : Pos) (op : BinOp) (a : Value)
  | test (p : Pos) (t e : Expr)
  | arg (p : Pos) (f : Expr) (rest : List Expr)
  | callee (p : Pos) (v : Value) (rest : List Expr)
  | bound (x : String) (k : Nat) (body : Expr)
  | scrutinee (p : Pos) (alts : List Alt)

/-- The expression with its part. -/
def Frame.fill : Frame → Expr → Expr
  | left p op r, e => .binary p op e r
  | right p op a, e => .binary p op (.value a) e
  | test p t f, e => .cond p e t f
  | arg p f rest, e => .app p f (e :: rest)
  | callee p v rest, e => .app p e (.value v :: rest)
  | bound x k body, e => .tying x k e body
  | scrutinee p alts, e => .cases p e alts

/-- The expressions that make a step by themselves. -/
inductive Redex : Expr → Prop where
  | value (v : Value) : Redex (.value v)
  | var (p : Pos) (x : String) : Redex (.var p x)
  | int (p : Pos) (n : Int64) : Redex (.int p n)
  | bool (p : Pos) (b : Bool) : Redex (.bool p b)
  | binary (p : Pos) (op : BinOp) (a b : Value) : Redex (.binary p op (.value a) (.value b))
  | cond (p : Pos) (v : Value) (t e : Expr) : Redex (.cond p (.value v) t e)
  | fn (p : Pos) (x : String) (body : Expr) : Redex (.fn p x body)
  | app_nil (p : Pos) (f : Expr) : Redex (.app p f [])
  | app (p : Pos) (g v : Value) (rest : List Expr) : Redex (.app p (.value g) (.value v :: rest))
  | letIn (p : Pos) (x : String) (bound body : Expr) : Redex (.letIn p x bound body)
  | tying (x : String) (k : Nat) (v : Value) (body : Expr) : Redex (.tying x k (.value v) body)
  | annot (p : Pos) (e : Expr) (t : Ty) : Redex (.annot p e t)
  | ctor (p : Pos) (c : Constructor) : Redex (.ctor p c)
  | cases (p : Pos) (v : Value) (alts : List Alt) : Redex (.cases p (.value v) alts)
  | missing : Redex .missing
  | custom (form : String) (text : Option String) : Redex (.custom form text)
  | wrapped (form : String) (e : Expr) : Redex (.wrapped form e)

@[simp] theorem Expr.value?_value (v : Value) : (Expr.value v).value? = some v := rfl

theorem Expr.eq_value_of_value? {e : Expr} {v : Value} (h : e.value? = some v) : e = .value v := by
  cases e with
  | value w =>
      simp only [Expr.value?, Option.some.injEq] at h
      rw [h]
  | _ => simp [Expr.value?] at h

/-- An expression is handled by the part that makes its step. -/
theorem Expr.focus_induction {motive : Env → Expr → Prop}
    (redex : ∀ env e, Redex e → motive env e)
    (within : ∀ env env' e, motive env' e → motive env (.within env' e))
    (frame : ∀ env K e, e.value? = none → motive env e → motive env (Frame.fill K e)) :
    ∀ env e, motive env e := by
  intro env e
  -- the cases of a step, with the name of the frame or of the redex in each
  induction env, e using step.induct default with
  | case1 env v => exact redex env _ (.value v)
  | case2 env env' e ih => exact within env env' e ih
  | case3 env p x v h => exact redex env _ (.var p x)
  | case4 env p x h => exact redex env _ (.var p x)
  | case5 env p x h => exact redex env _ (.var p x)
  | case6 env p n => exact redex env _ (.int p n)
  | case7 env p b => exact redex env _ (.bool p b)
  | case8 env p op l r hl ih => exact frame env (.left p op r) l hl ih
  | case9 env p op l r a hl hr ih =>
      rw [Expr.eq_value_of_value? hl]
      exact frame env (.right p op a) r hr ih
  | case10 env p op l r a hl b hr v hv =>
      rw [Expr.eq_value_of_value? hl, Expr.eq_value_of_value? hr]
      exact redex env _ (.binary p op a b)
  | case11 env p op l r a hl b hr hv =>
      rw [Expr.eq_value_of_value? hl, Expr.eq_value_of_value? hr]
      exact redex env _ (.binary p op a b)
  | case12 env p c t e hc ih => exact frame env (.test p t e) c hc ih
  | case13 env p c t e hc =>
      rw [Expr.eq_value_of_value? hc]
      exact redex env _ (.cond p _ t e)
  | case14 env p c t e hc =>
      rw [Expr.eq_value_of_value? hc]
      exact redex env _ (.cond p _ t e)
  | case15 env p c t e v _ _ hc =>
      rw [Expr.eq_value_of_value? hc]
      exact redex env _ (.cond p v t e)
  | case16 env p x body => exact redex env _ (.fn p x body)
  | case17 env p f => exact redex env _ (.app_nil p f)
  | case18 env p f a rest ha ih => exact frame env (.arg p f rest) a ha ih
  | case19 env p f a rest v ha hf ih =>
      rw [Expr.eq_value_of_value? ha]
      exact frame env (.callee p v rest) f hf ih
  | case20 env p f a rest v ha g hf =>
      rw [Expr.eq_value_of_value? ha, Expr.eq_value_of_value? hf]
      exact redex env _ (.app p g v rest)
  | case21 env p x bound body => exact redex env _ (.letIn p x bound body)
  | case22 env x k bound body v hb =>
      rw [Expr.eq_value_of_value? hb]
      exact redex env _ (.tying x k v body)
  | case23 env x k bound body hb ih => exact frame env (.bound x k body) bound hb ih
  | case24 env p e t => exact redex env _ (.annot p e t)
  | case25 env p c => exact redex env _ (.ctor p c)
  | case26 env p s alts hs ih => exact frame env (.scrutinee p alts) s hs ih
  | case27 env p s alts v hs e ha =>
      rw [Expr.eq_value_of_value? hs]
      exact redex env _ (.cases p v alts)
  | case28 env p s alts v hs e b bs ha =>
      rw [Expr.eq_value_of_value? hs]
      exact redex env _ (.cases p v alts)
  | case29 env p s alts v hs ha =>
      rw [Expr.eq_value_of_value? hs]
      exact redex env _ (.cases p v alts)
  | case30 env => exact redex env _ .missing
  | case31 env form text => exact redex env _ (.custom form text)
  | case32 env form e => exact redex env _ (.wrapped form e)

/-- A part that is no value yet makes the step of the whole, in its place. -/
theorem step_fill (σ : Store) (env : Env) (K : Frame) {e : Expr} (he : e.value? = none) :
    step σ env (K.fill e)
      = (step σ env e).map fun r => (r.1, Step.stay (K.fill r.2.inPlace)) := by
  cases K with
  | left p op r =>
      simp only [Frame.fill, step, he]
      cases step σ env e <;> rfl
  | right p op a =>
      simp only [Frame.fill, step, he]
      cases step σ env e <;> rfl
  | test p t f =>
      simp only [Frame.fill, step, he]
      cases step σ env e <;> rfl
  | arg p f rest =>
      simp only [Frame.fill, step, he]
      cases step σ env e <;> rfl
  | callee p v rest =>
      simp only [Frame.fill, step, he]
      cases step σ env e <;> rfl
  | bound x k body =>
      simp only [Frame.fill, step, he]
      cases step σ env e <;> rfl
  | scrutinee p alts =>
      simp only [Frame.fill, step, he]
      cases step σ env e <;> rfl

/-- An expression under an environment of its own makes its step there. -/
theorem step_within (σ : Store) (env env' : Env) (e : Expr) :
    step σ env (.within env' e) = (step σ env' e).map fun r => (r.1, r.2.leaving env') := by
  rw [step]
  cases step σ env' e <;> rfl

theorem exists_of_step_fill {σ σ' : Store} {env : Env} {K : Frame} {e : Expr} {r : Step}
    (he : e.value? = none) (h : step σ env (K.fill e) = .ok (σ', r)) :
    ∃ s, step σ env e = .ok (σ', s) ∧ r = .stay (K.fill s.inPlace) := by
  rw [step_fill σ env K he] at h
  cases hs : step σ env e with
  | error f => simp [hs, Except.map] at h
  | ok result =>
      simp only [hs, Except.map, Except.ok.injEq, Prod.mk.injEq] at h
      exact ⟨result.2, by rw [← h.1], h.2.symm⟩

theorem exists_of_step_within {σ σ' : Store} {env env' : Env} {e : Expr} {r : Step}
    (h : step σ env (.within env' e) = .ok (σ', r)) :
    ∃ s, step σ env' e = .ok (σ', s) ∧ r = s.leaving env' := by
  rw [step_within] at h
  cases hs : step σ env' e with
  | error f => simp [hs, Except.map] at h
  | ok result =>
      simp only [hs, Except.map, Except.ok.injEq, Prod.mk.injEq] at h
      exact ⟨result.2, by rw [← h.1], h.2.symm⟩

/-! ## Reductions -/

section Reductions

variable {σ σ' : Store} {env : Env}

/-- What becomes of an expression that makes a step by itself and does not fail. -/
inductive Reduces (σ : Store) (env : Env) : Expr → Store → Step → Prop where
  | value (v : Value) : Reduces σ env (.value v) σ (.ofValue v)
  | found {p : Pos} {x : String} {v : Value} (h : env.lookup σ x = .found v) :
      Reduces σ env (.var p x) σ (.ofValue v)
  | unresolved {p : Pos} {x : String} (h : env.lookup σ x = .unresolved) :
      Reduces σ env (.var p x) σ (.stay (.var p x))
  | int (p : Pos) (n : Int64) : Reduces σ env (.int p n) σ (.done (.int n))
  | bool (p : Pos) (b : Bool) : Reduces σ env (.bool p b) σ (.done (.bool b))
  | binary {p : Pos} {op : BinOp} {a b v : Value} (h : op.eval? a b = some v) :
      Reduces σ env (.binary p op (.value a) (.value b)) σ (.done v)
  | yes (p : Pos) (t e : Expr) : Reduces σ env (.cond p (.value (.bool true)) t e) σ (.stay t)
  | no (p : Pos) (t e : Expr) : Reduces σ env (.cond p (.value (.bool false)) t e) σ (.stay e)
  | fn (p : Pos) (x : String) (body : Expr) :
      Reduces σ env (.fn p x body) σ.addLabel (.done (.closure σ.labels x body env))
  | app_nil (p : Pos) (f : Expr) : Reduces σ env (.app p f []) σ (.stay f)
  | app {p : Pos} {g v : Value} {rest : List Expr} {r : Step} (h : applyValue p g v rest = .ok r) :
      Reduces σ env (.app p (.value g) (.value v :: rest)) σ r
  | letIn (p : Pos) (x : String) (bound body : Expr) :
      Reduces σ env (.letIn p x bound body) (σ.addKnot x)
        (.stay (.tying x σ.knots.size (.within (.bindKnot env x σ.knots.size) bound) body))
  | tying (x : String) (k : Nat) (v : Value) (body : Expr) :
      Reduces σ env (.tying x k (.value v) body) (σ.resolve k v) (.move body (.bind env x v))
  | annot (p : Pos) (e : Expr) (t : Ty) : Reduces σ env (.annot p e t) σ (.stay e)
  | ctor (p : Pos) (c : Constructor) : Reduces σ env (.ctor p c) σ (.done (.data c []))
  | bare {p : Pos} {v : Value} {alts : List Alt} {e : Expr} (h : Alt.select? alts v = some (e, [])) :
      Reduces σ env (.cases p (.value v) alts) σ (.stay e)
  | bind {p : Pos} {v : Value} {alts : List Alt} {e : Expr} {b : String × Value}
      {bs : List (String × Value)} (h : Alt.select? alts v = some (e, b :: bs)) :
      Reduces σ env (.cases p (.value v) alts) σ (.move e (env.bindAll (b :: bs)))

/-- Invariants of steps look at the cases of `Reduces` and never at the function `step` itself. -/
theorem Redex.reduces {e : Expr} (he : Redex e) {r : Step} (h : step σ env e = .ok (σ', r)) :
    Reduces σ env e σ' r := by
  cases he with
  | value v => cases h; exact .value v
  | var p x =>
      cases hx : env.lookup σ x with
      | found v =>
          simp only [step, hx] at h
          cases h
          exact .found hx
      | unresolved =>
          simp only [step, hx] at h
          cases h
          exact .unresolved hx
      | unbound => simp [step, hx] at h
  | int p n => cases h; exact .int p n
  | bool p b => cases h; exact .bool p b
  | binary p op a b =>
      cases hv : op.eval? a b with
      | none => simp [step, hv] at h
      | some v =>
          simp only [step, Expr.value?_value, hv] at h
          cases h
          exact .binary hv
  | cond p v t e =>
      cases v with
      | bool b =>
          cases b with
          | true => cases h; exact .yes p t e
          | false => cases h; exact .no p t e
      | _ => simp [step] at h
  | fn p x body => cases h; exact .fn p x body
  | app_nil p f => cases h; exact .app_nil p f
  | app p g v rest =>
      cases hg : applyValue p g v rest with
      | error f => simp [step, hg, Bind.bind, Except.bind] at h
      | ok s =>
          simp only [step, Expr.value?_value, hg] at h
          cases h
          exact .app hg
  | letIn p x bound body => cases h; exact .letIn p x bound body
  | tying x k v body => cases h; exact .tying x k v body
  | annot p e t => cases h; exact .annot p e t
  | ctor p c => cases h; exact .ctor p c
  | cases p v alts =>
      cases ha : Alt.select? alts v with
      | none => simp [step, ha] at h
      | some taken =>
          obtain ⟨e, bs⟩ := taken
          simp only [step, Expr.value?_value, ha] at h
          cases bs with
          | nil => cases h; exact .bare ha
          | cons b bs => cases h; exact .bind ha
  | missing => simp [step] at h
  | custom form text => simp [step] at h
  | wrapped form e => simp [step] at h

end Reductions

/-! ## The focus

The part of an expression that makes its step, with the environment it is under. -/

def Expr.focus (env : Env) : Expr → Env × Expr
  | .within env' e => e.focus env'
  | .binary p op l r =>
    match l.value?, r.value? with
    | none, _ => l.focus env
    | some _, none => r.focus env
    | some _, some _ => (env, .binary p op l r)
  | .cond p c t e =>
    match c.value? with
    | none => c.focus env
    | some _ => (env, .cond p c t e)
  | .app p f [] => (env, .app p f [])
  | .app p f (a :: rest) =>
    match a.value?, f.value? with
    | none, _ => a.focus env
    | some _, none => f.focus env
    | some _, some _ => (env, .app p f (a :: rest))
  | .tying x k bound body =>
    match bound.value? with
    | none => bound.focus env
    | some _ => (env, .tying x k bound body)
  | .cases p s alts =>
    match s.value? with
    | none => s.focus env
    | some _ => (env, .cases p s alts)
  | e => (env, e)

theorem Redex.focus_eq {e : Expr} (h : Redex e) (env : Env) : e.focus env = (env, e) := by
  cases h <;> rfl

theorem Frame.focus_fill (K : Frame) (env : Env) {e : Expr} (he : e.value? = none) :
    (K.fill e).focus env = e.focus env := by
  cases K <;> simp [Frame.fill, Expr.focus, he]

theorem Step.ofValue_of_ne {v : Value} (hv : v ≠ .absent) : Step.ofValue v = .done v := by
  cases v with
  | absent => exact absurd rfl hv
  | _ => rfl

end FunLang
