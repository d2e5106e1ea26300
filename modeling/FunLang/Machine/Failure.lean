import FunLang.Diagnostic
import FunLang.Value

set_option autoImplicit false

/-!
# Failures

Why an evaluation did not end with a value. A failure is about the evaluated expression: a reason, a
text for the construct at fault and its place. Other errors stop an evaluation from outside: the
step budget, a cancelled or expired context. An error may be wrapped in the text of the caller that
passes it on.
-/

namespace FunLang

/-- The reasons for a failure; `other` is for a number that stands for no reason. -/
inductive Reason where
  | unboundVariable
  | invalidOperator
  | notApplicable
  | noMatchingCase
  | other (number : Int)
deriving DecidableEq, Repr, Inhabited

namespace Reason

/-- The reason with the given number. -/
def ofNumber (n : Int) : Reason :=
  if n = 1 then unboundVariable
  else if n = 2 then invalidOperator
  else if n = 3 then notApplicable
  else if n = 4 then noMatchingCase
  else other n

def name : Reason → String
  | unboundVariable => "UnboundVariable"
  | invalidOperator => "InvalidOperator"
  | notApplicable => "NotApplicable"
  | noMatchingCase => "NoMatchingCase"
  | other n => s!"Reason({n})"

/-- What might help against a failure. -/
def hint : Reason → String
  | unboundVariable => "bind the name with let, a function parameter or a case pattern"
  | invalidOperator => "arithmetic needs two Ints; comparisons too; if needs a Bool"
  | notApplicable => "only functions and constructors can be applied"
  | noMatchingCase => "add an alternative, or end with a variable pattern"
  | other _ => ""

end Reason

structure Failure where
  reason : Reason
  construct : String
  pos : Pos
deriving DecidableEq, Repr, Inhabited

namespace Failure

def message (f : Failure) : String :=
  if f.construct.isEmpty then f.reason.name else f.reason.name ++ ": " ++ f.construct

/-- A variable without a binding. -/
def unbound (pos : Pos) (name : String) : Failure := ⟨.unboundVariable, name, pos⟩

/-- A condition that is not a truth value. -/
def condition (pos : Pos) (v : Value) : Failure :=
  ⟨.invalidOperator, s!"if condition is {v.kind} {v.render}, not Bool", pos⟩

/-- An operator that is not defined on its operands. -/
def operands (pos : Pos) (op : BinOp) (l r : Value) : Failure :=
  ⟨.invalidOperator, s!"{l.render} {op.symbol} {r.render}", pos⟩

/-- The application of something that takes no argument. -/
def callee (pos : Pos) (v : Value) : Failure :=
  ⟨.notApplicable, s!"{v.kind} {v.render} is not a function", pos⟩

/-- A value that no alternative matches. -/
def unmatched (pos : Pos) (v : Value) : Failure :=
  ⟨.noMatchingCase, s!"no alternative matches {v.render}", pos⟩

/-- Nothing where an expression is needed. -/
def missing : Failure := ⟨.notApplicable, "missing expression", .unknown⟩

/-- A form that the language does not know. -/
def malformed (form : String) : Failure :=
  ⟨.notApplicable, s!"malformed expression {form}", .unknown⟩

end Failure

/-- Signals that stop an evaluation from outside. -/
inductive Interrupt where
  | canceled
  | expired
deriving DecidableEq, Repr, Inhabited

def Interrupt.message : Interrupt → String
  | .canceled => "context canceled"
  | .expired => "context deadline exceeded"

inductive EvalError where
  | failure (f : Failure)
  | stepLimit
  | interrupted (i : Interrupt)
  | other (text : String)
  /-- An error with text before and after it. -/
  | wrapped (before : String) (cause : EvalError) (after : String)
deriving DecidableEq, Repr, Inhabited

namespace EvalError

def message : EvalError → String
  | failure f => f.message
  | stepLimit => "step limit exceeded"
  | interrupted i => i.message
  | other text => text
  | wrapped before cause after => before ++ cause.message ++ after

/-- The error inside all wrapping. -/
def root : EvalError → EvalError
  | wrapped _ cause _ => cause.root
  | e => e

/-- The step budget of `n` is spent. -/
def overBudget (n : Nat) : EvalError := .wrapped "" .stepLimit s!": {n} steps"

/-- An interrupt was seen after `n` steps. -/
def stoppedAfter (n : Nat) (i : Interrupt) : EvalError :=
  .wrapped s!"evaluation stopped after {n} steps: " (.interrupted i) ""

/-- Whether an error is a failure for the given reason. -/
def isFailure (e : EvalError) (r : Reason) : Bool :=
  match e.root with
  | failure f => f.reason == r
  | _ => false

/-- Whether an error is about the step budget. -/
def isStepLimit (e : EvalError) : Bool := e.root == .stepLimit

/-- The message about an error in a file. A failure is reported at its place and without wrapping. -/
def diagnostic (e : EvalError) (file : String) : Diagnostic :=
  match e.root with
  | failure f =>
    { severity := .error, message := "evaluation failed: " ++ f.message, pos := f.pos, file,
      hint := f.reason.hint }
  | stepLimit =>
    { severity := .error, message := e.message, pos := .unknown, file,
      hint := "raise the budget with -max-steps or FUN_MAX_STEPS" }
  | interrupted .expired =>
    { severity := .error, message := e.message, pos := .unknown, file,
      hint := "raise the deadline with -timeout or FUN_TIMEOUT" }
  | _ => { severity := .error, message := e.message, pos := .unknown, file }

end EvalError

end FunLang
