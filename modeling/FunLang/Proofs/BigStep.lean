import FunLang.Proofs.Machine.Frames

set_option autoImplicit false

/-!
# Big-step evaluation

`Evaluates pl σ env e n o` says that `e`, evaluated under `env` with the knots of `σ`, has the outcome
`o` at the cost of `n`. The rules know no intermediate states: they say what the parts of an
expression evaluate to, in which order and under which environments.

The cost is one for every literal, variable, function, constructor, operator, branch taken,
application, annotation, application to no argument, and two for a `let`: one to make its knot and one to
resolve it. A failure is counted like the result that it stands in for. A name that is bound to no
value costs one more, since what fails is the expression that is missing there.

A value may stand in an expression as one of its parts. There it costs nothing, and only a value that
is all there is to evaluate has to be handed over. That is what the place `pl` is for; for an
expression of source text it makes no difference.
-/

namespace FunLang

/-- How an evaluation ends: with a value and the knots at that time, or with a failure. -/
inductive Outcome where
  | value (v : Value) (store : Store)
  | failure (f : Failure)

/-- Where an expression stands: it is all there is to evaluate, or a part of it whose value another
expression waits for. -/
inductive Place where
  | whole
  | part

/-- The outcome of an operator on the values of its operands. -/
def BinOp.outcome (p : Pos) (op : BinOp) (a b : Value) (σ : Store) : Outcome :=
  match op.eval? a b with
  | some v => .value v σ
  | none => .failure (.operands p op a b)

/-- Whether a value takes an argument. -/
def Value.isCallable : Value → Bool
  | .closure .. | .data .. => true
  | _ => false

/-- Whether a value decides a condition. -/
def Value.isTruth : Value → Bool
  | .bool _ => true
  | _ => false

inductive Evaluates : Place → Store → Env → Expr → Nat → Outcome → Prop where
  /-- A part that is a value already is used as it is, and a value by itself is handed over. -/
  | value_part {σ env v} : Evaluates .part σ env (.value v) 0 (.value v σ)
  | value_whole {σ env v} (hv : v ≠ .absent) : Evaluates .whole σ env (.value v) 1 (.value v σ)
  | value_absent {σ env} : Evaluates .whole σ env (.value .absent) 2 (.failure .missing)
  | var {pl σ env p x v} (h : env.lookup σ x = .found v) (hv : v ≠ .absent) :
      Evaluates pl σ env (.var p x) 1 (.value v σ)
  | var_absent {pl σ env p x} (h : env.lookup σ x = .found .absent) :
      Evaluates pl σ env (.var p x) 2 (.failure .missing)
  | var_unbound {pl σ env p x} (h : env.lookup σ x = .unbound) :
      Evaluates pl σ env (.var p x) 1 (.failure (.unbound p x))
  | int {pl σ env p n} : Evaluates pl σ env (.int p n) 1 (.value (.int n) σ)
  | bool {pl σ env p b} : Evaluates pl σ env (.bool p b) 1 (.value (.bool b) σ)
  | fn {pl σ env p x body} :
      Evaluates pl σ env (.fn p x body) 1 (.value (.closure σ.labels x body env) σ.addLabel)
  | ctor {pl σ env p c} : Evaluates pl σ env (.ctor p c) 1 (.value (.data c []) σ)
  /-- Operands are evaluated from left to right. -/
  | binary {pl σ σ₁ σ₂ env p op l r n₁ n₂ a b}
      (hl : Evaluates .part σ env l n₁ (.value a σ₁)) (hr : Evaluates .part σ₁ env r n₂ (.value b σ₂)) :
      Evaluates pl σ env (.binary p op l r) (n₁ + (n₂ + 1)) (op.outcome p a b σ₂)
  | binary_left {pl σ env p op l r n f} (hl : Evaluates .part σ env l n (.failure f)) :
      Evaluates pl σ env (.binary p op l r) n (.failure f)
  | binary_right {pl σ σ₁ env p op l r n₁ n₂ a f}
      (hl : Evaluates .part σ env l n₁ (.value a σ₁)) (hr : Evaluates .part σ₁ env r n₂ (.failure f)) :
      Evaluates pl σ env (.binary p op l r) (n₁ + n₂) (.failure f)
  /-- The condition is evaluated, and then one of the branches. -/
  | cond_yes {pl σ σ₁ env p c t e n₁ n₂ o} (hc : Evaluates .part σ env c n₁ (.value (.bool true) σ₁))
      (ht : Evaluates pl σ₁ env t n₂ o) : Evaluates pl σ env (.cond p c t e) (n₁ + (n₂ + 1)) o
  | cond_no {pl σ σ₁ env p c t e n₁ n₂ o} (hc : Evaluates .part σ env c n₁ (.value (.bool false) σ₁))
      (he : Evaluates pl σ₁ env e n₂ o) : Evaluates pl σ env (.cond p c t e) (n₁ + (n₂ + 1)) o
  | cond_test {pl σ env p c t e n f} (hc : Evaluates .part σ env c n (.failure f)) :
      Evaluates pl σ env (.cond p c t e) n (.failure f)
  | cond_other {pl σ σ₁ env p c t e n v} (hc : Evaluates .part σ env c n (.value v σ₁))
      (hv : v.isTruth = false) : Evaluates pl σ env (.cond p c t e) (n + 1) (.failure (.condition p v))
  /-- The first argument is evaluated, then the function, and then the one is applied to the
  other. The other arguments are evaluated under the environment of the application. -/
  | app_nil {pl σ env p f n o} (hf : Evaluates pl σ env f n o) :
      Evaluates pl σ env (.app p f []) (n + 1) o
  | app_arg {pl σ env p f a rest n g} (ha : Evaluates .part σ env a n (.failure g)) :
      Evaluates pl σ env (.app p f (a :: rest)) n (.failure g)
  | app_callee {pl σ σ₁ env p f a rest n₁ n₂ v g} (ha : Evaluates .part σ env a n₁ (.value v σ₁))
      (hf : Evaluates .part σ₁ env f n₂ (.failure g)) :
      Evaluates pl σ env (.app p f (a :: rest)) (n₁ + n₂) (.failure g)
  | app_closure_last {pl σ σ₁ σ₂ env env' p f a n₁ n₂ n₃ v label x body o}
      (ha : Evaluates .part σ env a n₁ (.value v σ₁))
      (hf : Evaluates .part σ₁ env f n₂ (.value (.closure label x body env') σ₂))
      (hb : Evaluates .whole σ₂ (.bind env' x v) body n₃ o) :
      Evaluates pl σ env (.app p f [a]) (n₁ + (n₂ + (n₃ + 1))) o
  | app_closure {pl σ σ₁ σ₂ env env' p f a b rest n₁ n₂ n₃ v label x body o}
      (ha : Evaluates .part σ env a n₁ (.value v σ₁))
      (hf : Evaluates .part σ₁ env f n₂ (.value (.closure label x body env') σ₂))
      (hb : Evaluates pl σ₂ env (.app p (.within (.bind env' x v) body) (b :: rest)) n₃ o) :
      Evaluates pl σ env (.app p f (a :: b :: rest)) (n₁ + (n₂ + (n₃ + 1))) o
  | app_data_last {pl σ σ₁ σ₂ env p f a n₁ n₂ v c fields}
      (ha : Evaluates .part σ env a n₁ (.value v σ₁))
      (hf : Evaluates .part σ₁ env f n₂ (.value (.data c fields) σ₂)) :
      Evaluates pl σ env (.app p f [a]) (n₁ + (n₂ + 1)) (.value (.data c (fields ++ [v])) σ₂)
  | app_data {pl σ σ₁ σ₂ env p f a b rest n₁ n₂ n₃ v c fields o}
      (ha : Evaluates .part σ env a n₁ (.value v σ₁))
      (hf : Evaluates .part σ₁ env f n₂ (.value (.data c fields) σ₂))
      (hb : Evaluates pl σ₂ env (.app p (.value (.data c (fields ++ [v]))) (b :: rest)) n₃ o) :
      Evaluates pl σ env (.app p f (a :: b :: rest)) (n₁ + (n₂ + (n₃ + 1))) o
  | app_other {pl σ σ₁ σ₂ env p f a rest n₁ n₂ v g}
      (ha : Evaluates .part σ env a n₁ (.value v σ₁)) (hf : Evaluates .part σ₁ env f n₂ (.value g σ₂))
      (hg : g.isCallable = false) :
      Evaluates pl σ env (.app p f (a :: rest)) (n₁ + (n₂ + 1)) (.failure (.callee p g))
  /-- The bound expression is evaluated under a fresh knot, which its value resolves. -/
  | letIn {pl σ σ₁ env p x bound body n₁ n₂ v o}
      (hb : Evaluates .whole (σ.addKnot x) (.bindKnot env x σ.knots.size) bound n₁ (.value v σ₁))
      (he : Evaluates .whole (σ₁.resolve σ.knots.size v) (.bind env x v) body n₂ o) :
      Evaluates pl σ env (.letIn p x bound body) (n₁ + (n₂ + 1) + 1) o
  | letIn_bound {pl σ env p x bound body n f}
      (hb : Evaluates .whole (σ.addKnot x) (.bindKnot env x σ.knots.size) bound n (.failure f)) :
      Evaluates pl σ env (.letIn p x bound body) (n + 1) (.failure f)
  | annot {pl σ env p e t n o} (he : Evaluates pl σ env e n o) :
      Evaluates pl σ env (.annot p e t) (n + 1) o
  /-- The first alternative that matches is taken. -/
  | cases_bare {pl σ σ₁ env p s alts e n₁ n₂ v o} (hs : Evaluates .part σ env s n₁ (.value v σ₁))
      (ha : Alt.select? alts v = some (e, [])) (he : Evaluates pl σ₁ env e n₂ o) :
      Evaluates pl σ env (.cases p s alts) (n₁ + (n₂ + 1)) o
  | cases_bind {pl σ σ₁ env p s alts e b bs n₁ n₂ v o} (hs : Evaluates .part σ env s n₁ (.value v σ₁))
      (ha : Alt.select? alts v = some (e, b :: bs))
      (he : Evaluates .whole σ₁ (env.bindAll (b :: bs)) e n₂ o) :
      Evaluates pl σ env (.cases p s alts) (n₁ + (n₂ + 1)) o
  | cases_scrutinee {pl σ env p s alts n f} (hs : Evaluates .part σ env s n (.failure f)) :
      Evaluates pl σ env (.cases p s alts) n (.failure f)
  | cases_unmatched {pl σ σ₁ env p s alts n v} (hs : Evaluates .part σ env s n (.value v σ₁))
      (ha : Alt.select? alts v = none) :
      Evaluates pl σ env (.cases p s alts) (n + 1) (.failure (.unmatched p v))
  | missing {pl σ env} : Evaluates pl σ env .missing 1 (.failure .missing)
  | custom {pl σ env form text} :
      Evaluates pl σ env (.custom form text) 1 (.failure (.malformed form))
  | wrapped {pl σ env form e} :
      Evaluates pl σ env (.wrapped form e) 1 (.failure (.malformed form))
  /-- An expression with an environment of its own does not see the one around it. -/
  | within {pl σ env env' e n o} (he : Evaluates .whole σ env' e n o) :
      Evaluates pl σ env (.within env' e) n o
  /-- A `let` whose knot has been made. -/
  | tying {pl σ σ₁ env x k bound body n₁ n₂ v o} (hb : Evaluates .part σ env bound n₁ (.value v σ₁))
      (he : Evaluates .whole (σ₁.resolve k v) (.bind env x v) body n₂ o) :
      Evaluates pl σ env (.tying x k bound body) (n₁ + (n₂ + 1)) o
  | tying_bound {pl σ env x k bound body n f} (hb : Evaluates .part σ env bound n (.failure f)) :
      Evaluates pl σ env (.tying x k bound body) n (.failure f)

/-! ## Operands

A frame waits for the value of its part. A failure of the part is the failure of the whole, and with
a value the frame is evaluated around it. -/

/-- What comes after a part with outcome `o₁`: with a value it is what `K` says. It costs `n` and ends
with `o`. -/
def Outcome.Then (o₁ : Outcome) (K : Value → Store → Nat → Outcome → Prop) (n : Nat) (o : Outcome) :
    Prop :=
  match o₁ with
  | .failure f => n = 0 ∧ o = .failure f
  | .value v σ => K v σ n o

/-- The part `e` is evaluated, and then comes what `K` says about its value. -/
def Operand (σ : Store) (env : Env) (e : Expr) (K : Value → Store → Nat → Outcome → Prop) (n : Nat)
    (o : Outcome) : Prop :=
  ∃ n₁ n₂ o₁, Evaluates .part σ env e n₁ o₁ ∧ o₁.Then K n₂ o ∧ n = n₁ + n₂

section Inversion

variable {pl : Place} {σ : Store} {env : Env} {n : Nat} {o : Outcome}

theorem Operand.of_value {e : Expr} {K : Value → Store → Nat → Outcome → Prop} {n₁ n₂ : Nat} {v : Value}
    {σ₁ : Store} (h : Evaluates .part σ env e n₁ (.value v σ₁)) (hK : K v σ₁ n₂ o) :
    Operand σ env e K (n₁ + n₂) o :=
  ⟨n₁, n₂, _, h, hK, rfl⟩

theorem Operand.of_failure {e : Expr} {K : Value → Store → Nat → Outcome → Prop} {f : Failure}
    (h : Evaluates .part σ env e n (.failure f)) : Operand σ env e K n (.failure f) :=
  ⟨n, 0, _, h, ⟨rfl, rfl⟩, rfl⟩

theorem evaluates_part_value_iff {v : Value} :
    Evaluates .part σ env (.value v) n o ↔ n = 0 ∧ o = .value v σ := by
  constructor
  · intro h
    cases h
    exact ⟨rfl, rfl⟩
  · rintro ⟨rfl, rfl⟩
    exact .value_part

theorem Evaluates.of_cost {e : Expr} {m : Nat} (h : Evaluates pl σ env e m o) (hcost : m = n) :
    Evaluates pl σ env e n o := by
  rwa [hcost] at h

/-- The cost of a rule for a frame around a value, with the cost of the value left out. -/
theorem Evaluates.of_zero_add {e : Expr} (h : Evaluates pl σ env e (0 + n) o) :
    Evaluates pl σ env e n o :=
  h.of_cost (Nat.zero_add n)

/-- An expression in a frame is evaluated first, and then the frame around its value. -/
theorem Evaluates.operand_of_fill {K : Frame} {e : Expr} (h : Evaluates pl σ env (K.fill e) n o) :
    Operand σ env e (fun v σ₁ => Evaluates pl σ₁ env (K.fill (.value v))) n o := by
  cases K with
  | left p op r =>
      cases h with
      | binary hl hr => exact .of_value hl (of_zero_add (.binary .value_part hr))
      | binary_left hl => exact .of_failure hl
      | binary_right hl hr => exact .of_value hl (of_zero_add (.binary_right .value_part hr))
  | right p op a =>
      -- the left operand is a value already
      cases h with
      | binary hl hr =>
          cases hl
          rw [Nat.zero_add]
          exact .of_value hr (of_zero_add (of_zero_add (.binary .value_part .value_part)))
      | binary_left hl => cases hl
      | binary_right hl hr =>
          cases hl
          rw [Nat.zero_add]
          exact .of_failure hr
  | test p t f =>
      cases h with
      | cond_yes hc ht => exact .of_value hc (of_zero_add (.cond_yes .value_part ht))
      | cond_no hc hf => exact .of_value hc (of_zero_add (.cond_no .value_part hf))
      | cond_test hc => exact .of_failure hc
      | cond_other hc hv => exact .of_value hc (of_zero_add (.cond_other .value_part hv))
  | arg p f rest =>
      cases h with
      | app_arg ha => exact .of_failure ha
      | app_callee ha hf => exact .of_value ha (of_zero_add (.app_callee .value_part hf))
      | app_closure_last ha hf hb =>
          exact .of_value ha (of_zero_add (.app_closure_last .value_part hf hb))
      | app_closure ha hf hb => exact .of_value ha (of_zero_add (.app_closure .value_part hf hb))
      | app_data_last ha hf => exact .of_value ha (of_zero_add (.app_data_last .value_part hf))
      | app_data ha hf hb => exact .of_value ha (of_zero_add (.app_data .value_part hf hb))
      | app_other ha hf hg => exact .of_value ha (of_zero_add (.app_other .value_part hf hg))
  | callee p v rest =>
      -- the argument is a value already
      cases h with
      | app_arg ha => cases ha
      | app_callee ha hf =>
          cases ha
          rw [Nat.zero_add]
          exact .of_failure hf
      | app_closure_last ha hf hb =>
          cases ha
          rw [Nat.zero_add]
          exact .of_value hf (of_zero_add (of_zero_add (.app_closure_last .value_part .value_part hb)))
      | app_closure ha hf hb =>
          cases ha
          rw [Nat.zero_add]
          exact .of_value hf (of_zero_add (of_zero_add (.app_closure .value_part .value_part hb)))
      | app_data_last ha hf =>
          cases ha
          rw [Nat.zero_add]
          exact .of_value hf (of_zero_add (of_zero_add (.app_data_last .value_part .value_part)))
      | app_data ha hf hb =>
          cases ha
          rw [Nat.zero_add]
          exact .of_value hf (of_zero_add (of_zero_add (.app_data .value_part .value_part hb)))
      | app_other ha hf hg =>
          cases ha
          rw [Nat.zero_add]
          exact .of_value hf (of_zero_add (of_zero_add (.app_other .value_part .value_part hg)))
  | bound x k body =>
      cases h with
      | tying hb he => exact .of_value hb (of_zero_add (.tying .value_part he))
      | tying_bound hb => exact .of_failure hb
  | scrutinee p alts =>
      cases h with
      | cases_bare hs ha he => exact .of_value hs (of_zero_add (.cases_bare .value_part ha he))
      | cases_bind hs ha he => exact .of_value hs (of_zero_add (.cases_bind .value_part ha he))
      | cases_scrutinee hs => exact .of_failure hs
      | cases_unmatched hs ha => exact .of_value hs (of_zero_add (.cases_unmatched .value_part ha))

/-- A failure in a frame is the failure of the whole. -/
theorem Evaluates.fill_failure (K : Frame) {e : Expr} {f : Failure}
    (h : Evaluates .part σ env e n (.failure f)) : Evaluates pl σ env (K.fill e) n (.failure f) := by
  cases K with
  | left p op r => exact .binary_left h
  | right p op a => exact of_zero_add (.binary_right .value_part h)
  | test p t e => exact .cond_test h
  | arg p f rest => exact .app_arg h
  | callee p v rest => exact of_zero_add (.app_callee .value_part h)
  | bound x k body => exact .tying_bound h
  | scrutinee p alts => exact .cases_scrutinee h

/-- A value in a frame leaves the frame around it to be evaluated. -/
theorem Evaluates.fill_value {K : Frame} {e : Expr} {n₁ n₂ : Nat} {v : Value} {σ₁ : Store}
    (h : Evaluates .part σ env e n₁ (.value v σ₁))
    (hK : Evaluates pl σ₁ env (K.fill (.value v)) n₂ o) : Evaluates pl σ env (K.fill e) (n₁ + n₂) o := by
  -- a value as a part has one rule, which costs nothing and cannot fail; `h` takes its place
  cases K with
  | left p op r =>
      cases hK with
      | binary hl hr => cases hl; rw [Nat.zero_add]; exact .binary h hr
      | binary_left hl => cases hl
      | binary_right hl hr => cases hl; rw [Nat.zero_add]; exact .binary_right h hr
  | right p op a =>
      cases hK with
      | binary hl hr =>
          cases hl; cases hr
          rw [Nat.zero_add, Nat.zero_add]
          exact of_zero_add (.binary .value_part h)
      | binary_left hl => cases hl
      | binary_right hl hr => cases hr
  | test p t e =>
      cases hK with
      | cond_yes hc ht => cases hc; rw [Nat.zero_add]; exact .cond_yes h ht
      | cond_no hc he => cases hc; rw [Nat.zero_add]; exact .cond_no h he
      | cond_test hc => cases hc
      | cond_other hc hv => cases hc; rw [Nat.zero_add]; exact .cond_other h hv
  | arg p f rest =>
      cases hK with
      | app_arg ha => cases ha
      | app_callee ha hf => cases ha; rw [Nat.zero_add]; exact .app_callee h hf
      | app_closure_last ha hf hb => cases ha; rw [Nat.zero_add]; exact .app_closure_last h hf hb
      | app_closure ha hf hb => cases ha; rw [Nat.zero_add]; exact .app_closure h hf hb
      | app_data_last ha hf => cases ha; rw [Nat.zero_add]; exact .app_data_last h hf
      | app_data ha hf hb => cases ha; rw [Nat.zero_add]; exact .app_data h hf hb
      | app_other ha hf hg => cases ha; rw [Nat.zero_add]; exact .app_other h hf hg
  | callee p w rest =>
      cases hK with
      | app_arg ha => cases ha
      | app_callee ha hf => cases hf
      | app_closure_last ha hf hb =>
          cases ha; cases hf
          rw [Nat.zero_add, Nat.zero_add]
          exact of_zero_add (.app_closure_last .value_part h hb)
      | app_closure ha hf hb =>
          cases ha; cases hf
          rw [Nat.zero_add, Nat.zero_add]
          exact of_zero_add (.app_closure .value_part h hb)
      | app_data_last ha hf =>
          cases ha; cases hf
          rw [Nat.zero_add, Nat.zero_add]
          exact of_zero_add (.app_data_last .value_part h)
      | app_data ha hf hb =>
          cases ha; cases hf
          rw [Nat.zero_add, Nat.zero_add]
          exact of_zero_add (.app_data .value_part h hb)
      | app_other ha hf hg =>
          cases ha; cases hf
          rw [Nat.zero_add, Nat.zero_add]
          exact of_zero_add (.app_other .value_part h hg)
  | bound x k body =>
      cases hK with
      | tying hb he => cases hb; rw [Nat.zero_add]; exact .tying h he
      | tying_bound hb => cases hb
  | scrutinee p alts =>
      cases hK with
      | cases_bare hs ha he => cases hs; rw [Nat.zero_add]; exact .cases_bare h ha he
      | cases_bind hs ha he => cases hs; rw [Nat.zero_add]; exact .cases_bind h ha he
      | cases_scrutinee hs => cases hs
      | cases_unmatched hs ha => cases hs; rw [Nat.zero_add]; exact .cases_unmatched h ha

/-- An expression in a frame is evaluated first, and then the frame around its value. -/
theorem evaluates_fill_iff (K : Frame) {e : Expr} :
    Evaluates pl σ env (K.fill e) n o ↔
      Operand σ env e (fun v σ₁ => Evaluates pl σ₁ env (K.fill (.value v))) n o := by
  constructor
  · exact Evaluates.operand_of_fill
  · rintro ⟨n₁, n₂, o₁, h, hK, rfl⟩
    cases o₁ with
    | failure f =>
        obtain ⟨rfl, rfl⟩ := hK
        exact .fill_failure K h
    | value v σ₁ => exact .fill_value h hK

end Inversion

/-! ## Values -/

/-- What an expression by itself evaluates to is not absent. -/
theorem Evaluates.ne_absent {σ σ' : Store} {env : Env} {e : Expr} {n : Nat} {v : Value}
    (h : Evaluates .whole σ env e n (.value v σ')) : v ≠ .absent := by
  generalize hpl : Place.whole = pl at h
  generalize ho : Outcome.value v σ' = o at h
  induction h with
  | value_part => cases hpl
  | value_whole hv | var _ hv =>
      cases ho
      exact hv
  | int | bool | fn | ctor | app_data_last =>
      cases ho
      simp
  | @binary _ _ _ _ _ p op _ _ _ _ a b _ _ _ _ =>
      unfold BinOp.outcome at ho
      cases hv : op.eval? a b with
      | none => simp [hv] at ho
      | some w =>
          simp only [hv] at ho
          cases ho
          unfold BinOp.eval? at hv
          split at hv <;> cases hv <;> simp
  | cond_yes _ _ _ ih | cond_no _ _ _ ih => exact ih hpl ho
  | app_nil _ ih | annot _ ih => exact ih hpl ho
  | within _ ih => exact ih rfl ho
  | app_closure_last _ _ _ _ _ ih => exact ih rfl ho
  | app_closure _ _ _ _ _ ih | app_data _ _ _ _ _ ih => exact ih hpl ho
  | letIn _ _ _ ih | tying _ _ _ ih => exact ih rfl ho
  | cases_bare _ _ _ _ ih => exact ih hpl ho
  | cases_bind _ _ _ _ ih => exact ih rfl ho
  | _ => cases ho

end FunLang
