import FunLang.Env
import FunLang.Machine.Failure
import FunLang.Machine.Matching

set_option autoImplicit false

/-!
# One step

`step` reduces an expression under an environment by one step. A step ends with a value, leaves
another expression under the same environment, or moves on to an expression under a new one. Only the
part of an expression that is evaluated next takes the step; the rest stays as it is.

Operands are evaluated from left to right. An application evaluates its first argument, then the
function, then applies the one to the other; the other arguments wait for the result. The bound
expression of a `let` is evaluated under an environment in which its name refers to a knot, and
the knot is resolved with its value.
-/

namespace FunLang

/-- What a step leads to. -/
inductive Step where
  | done (v : Value)
  | stay (e : Expr)
  | move (e : Expr) (env : Env)

namespace Step

/-- An evaluation that ends with `v`. An absent value is no end: what goes on is the evaluation of
an expression that is missing. -/
def ofValue : Value → Step
  | .absent => .move .missing .empty
  | v => .done v

/-- The expression that takes the place of the one that made the step. -/
def inPlace : Step → Expr
  | done v => .value v
  | stay e => e
  | move e env => .within env e

/-- A step that was made under `env`, seen from outside of it. -/
def leaving (env : Env) : Step → Step
  | done v => .done v
  | stay e => .move e env
  | move e env' => .move e env'

end Step

/-- The value of an operator on two integers. Arithmetic wraps around at 64 bits. -/
def BinOp.eval? : BinOp → Value → Value → Option Value
  | .add, .int a, .int b => some (.int (a + b))
  | .sub, .int a, .int b => some (.int (a - b))
  | .mul, .int a, .int b => some (.int (a * b))
  | .lt, .int a, .int b => some (.bool (a < b))
  | .gt, .int a, .int b => some (.bool (b < a))
  | .le, .int a, .int b => some (.bool (a ≤ b))
  | .ge, .int a, .int b => some (.bool (b ≤ a))
  | _, _, _ => none

/-- The application of `f` to `v`, with the arguments `rest` still to come. -/
def applyValue (pos : Pos) (f v : Value) (rest : List Expr) : Except Failure Step :=
  match f, rest with
  | .closure _ x body env, [] => .ok (.move body (.bind env x v))
  | .closure _ x body env, rest => .ok (.stay (.app pos (.within (.bind env x v) body) rest))
  | .data c fields, [] => .ok (.done (.data c (fields ++ [v])))
  | .data c fields, rest => .ok (.stay (.app pos (.value (.data c (fields ++ [v]))) rest))
  | f, _ => .error (.callee pos f)

/-- One step of `e` under `env`. -/
def step (σ : Store) (env : Env) : Expr → Except Failure (Store × Step)
  | .value v => .ok (σ, .ofValue v)
  | .within env' e => do
    let (σ', r) ← step σ env' e
    return (σ', r.leaving env')
  | .var p x =>
    match env.lookup σ x with
    | .found v => .ok (σ, .ofValue v)
    | .unresolved => .ok (σ, .stay (.var p x))
    | .unbound => .error (.unbound p x)
  | .int _ n => .ok (σ, .done (.int n))
  | .bool _ b => .ok (σ, .done (.bool b))
  | .binary p op l r =>
    match l.value? with
    | none => do
      let (σ', s) ← step σ env l
      return (σ', .stay (.binary p op s.inPlace r))
    | some a =>
      match r.value? with
      | none => do
        let (σ', s) ← step σ env r
        return (σ', .stay (.binary p op l s.inPlace))
      | some b =>
        match op.eval? a b with
        | some v => .ok (σ, .done v)
        | none => .error (.operands p op a b)
  | .cond p c t e =>
    match c.value? with
    | none => do
      let (σ', s) ← step σ env c
      return (σ', .stay (.cond p s.inPlace t e))
    | some (.bool true) => .ok (σ, .stay t)
    | some (.bool false) => .ok (σ, .stay e)
    | some v => .error (.condition p v)
  | .fn _ x body => .ok (σ.addLabel, .done (.closure σ.labels x body env))
  | .app _ f [] => .ok (σ, .stay f)
  | .app p f (a :: rest) =>
    match a.value? with
    | none => do
      let (σ', s) ← step σ env a
      return (σ', .stay (.app p f (s.inPlace :: rest)))
    | some v =>
      match f.value? with
      | none => do
        let (σ', s) ← step σ env f
        return (σ', .stay (.app p s.inPlace (a :: rest)))
      | some g => do
        let s ← applyValue p g v rest
        return (σ, s)
  | .letIn _ x bound body =>
    .ok (σ.addKnot x, .stay (.tying x σ.knots.size (.within (.bindKnot env x σ.knots.size) bound) body))
  | .tying x k bound body =>
    match bound.value? with
    | some v => .ok (σ.resolve k v, .move body (.bind env x v))
    | none => do
      let (σ', s) ← step σ env bound
      return (σ', .stay (.tying x k s.inPlace body))
  | .annot _ e _ => .ok (σ, .stay e)
  | .ctor _ c => .ok (σ, .done (.data c []))
  | .cases p s alts =>
    match s.value? with
    | none => do
      let (σ', r) ← step σ env s
      return (σ', .stay (.cases p r.inPlace alts))
    | some v =>
      match Alt.select? alts v with
      | some (e, []) => .ok (σ, .stay e)
      | some (e, b :: bs) => .ok (σ, .move e (env.bindAll (b :: bs)))
      | none => .error (.unmatched p v)
  | .missing => .error .missing
  | .custom form _ => .error (.malformed form)
  | .wrapped form _ => .error (.malformed form)

end FunLang
