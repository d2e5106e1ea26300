import FunLang.Machine.Run
import FunLang.Parser.Programs

set_option autoImplicit false

/-!
# Sessions

A session reads one line after the other. Definitions and data declarations of one line are visible
on the lines after it. A line that does not parse, or whose evaluation does not end with a value,
leaves the definitions and declarations as they were.
-/

namespace FunLang

structure Session where
  env : Env
  /-- The knots that the bound values refer to. -/
  store : Store
  ctors : CtorTable
  data : List DataDecl
  /-- The number of steps of the latest evaluation. -/
  lastSteps : Nat
deriving Inhabited

namespace Session

/-- A session in which nothing has been entered. -/
def empty : Session := ⟨.empty, .empty, [], [], 0⟩

/-- What a line has achieved: the data it declared, the name it defined, the value it computed
(absent if there was nothing to evaluate) and the steps this took. -/
structure Reply where
  data : List DataDecl
  name : Option String
  value : Value
  steps : Nat

/-- How a line ended. -/
inductive Answer where
  /-- The line has errors. -/
  | rejected
  /-- The evaluation of the line did not end with a value. -/
  | failed (e : EvalError)
  | replied (r : Reply)

/-- Whether an expression is a function, under any number of annotations. -/
def isFunction : Expr → Bool
  | .fn .. => true
  | .annot _ e _ => isFunction e
  | _ => false

/-- What is evaluated for a line. The definition of a function may refer to itself; any other
definition sees the value that its name had before. -/
def subject (line : Parser.Line) : Expr :=
  match line.name with
  | some x =>
    if isFunction line.expr then .letIn .unknown x line.expr (.var .unknown x) else line.expr
  | none => line.expr

/-- The session with the data of a line declared. -/
def declare (s : Session) (data : List DataDecl) : Session :=
  { s with
    data := s.data ++ data
    ctors := (data.flatMap (·.ctors)).foldl CtorTable.insert s.ctors }

/-- The session with a value bound to the name of a line, if it has one. -/
def define (s : Session) (name : Option String) (v : Value) (σ : Store) : Session :=
  match name with
  | some x => { s with env := .bind s.env x v, store := σ }
  | none => { s with store := σ }

/-- Reads and evaluates a line. The result holds the messages about the line, how it ended, and
what was logged; there is none if the evaluation never stops. -/
def eval (o : Machine.Options) (s : Session) (source : List UInt8) :
    Option (Session × Answer × List Diagnostic × List Log.Record) :=
  let (line, p) := Parser.parseLine source s.ctors
  if Diagnostic.hasErrors p.diags then some (s, .rejected, p.diags, [])
  else if line.expr.isMissing then
    some (s.declare line.data, .replied ⟨line.data, line.name, .absent, 0⟩, p.diags, [])
  else do
    let (r, log) ← Machine.runLogged o ⟨s.store, s.env, subject line⟩
    let s := { s with lastSteps := r.steps }
    match r.outcome with
    | .error e => return (s, .failed e, p.diags, log)
    | .ok v =>
      return ((s.define line.name v r.store).declare line.data,
        .replied ⟨line.data, line.name, v, r.steps⟩, p.diags, log)

end Session

end FunLang
