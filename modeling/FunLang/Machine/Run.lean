import FunLang.Layout
import FunLang.Log
import FunLang.Machine.Step

set_option autoImplicit false

/-!
# Runs

A run makes step after step until the expression is a value or fails, the step budget is spent, or
an interrupt is seen. An interrupt is looked for before each step, and before the budget. Whoever
wants to follow a run sees the state before each step.

Without a budget and without an interrupt a run may go on for ever: it then has no result, which is
what `none` stands for.

The number of steps is the mathematical one and has no bound. A signed counter of 64 bits has the same
numbers up to 2^63 - 1, and wraps around to negative ones beyond. Budgets are numbers of this kind
themselves, so that only a run without a budget gets there.
-/

namespace FunLang

namespace Machine

/-- What is being evaluated, and under what. -/
structure State where
  store : Store
  env : Env
  expr : Expr
deriving Inhabited

/-- How a single step from a state ends. -/
inductive Next where
  | value (v : Value) (store : Store)
  | failure (f : Failure)
  | state (s : State)

/-- The step from a state. -/
def State.next (s : State) : Next :=
  match step s.store s.env s.expr with
  | .error f => .failure f
  | .ok (σ, .done v) => .value v σ
  | .ok (σ, .stay e) => .state ⟨σ, s.env, e⟩
  | .ok (σ, .move e env) => .state ⟨σ, env, e⟩

/-- How a run ended: with a value or an error, after so many steps. The store is that of the value, or of
the state in which the run ended without one. -/
structure Result where
  outcome : Except EvalError Value
  steps : Nat
  store : Store

section Loop

variable {α : Type} (maxSteps : Int) (signal : Nat → Option Interrupt) (observe : α → Nat → State → α)

/-- A run that has made `made` steps; a budget of zero or less is none. The observer is shown the
number of each step and the state before it. -/
def State.loop (made : Nat) (a : α) (s : State) : Option (Result × α) :=
  match signal made with
  | some i => some (⟨.error (.stoppedAfter made i), made, s.store⟩, a)
  | none =>
    if 0 < maxSteps ∧ maxSteps ≤ made then some (⟨.error (.overBudget made), made, s.store⟩, a)
    else
      match s.next with
      | .failure f => some (⟨.error (.failure f), made + 1, s.store⟩, observe a made s)
      | .value v σ => some (⟨.ok v, made + 1, σ⟩, observe a made s)
      | .state s' => s' |>.loop (made + 1) (observe a made s)
partial_fixpoint

end Loop

/-- A run with a budget, shown to an observer. -/
def runWith {α : Type} (maxSteps : Int) (signal : Nat → Option Interrupt)
    (observe : α → Nat → State → α) (a : α) (s : State) : Option (Result × α) :=
  s.loop maxSteps signal observe 0 a

/-- A run with a budget. -/
def run (maxSteps : Int) (signal : Nat → Option Interrupt) (s : State) : Option Result :=
  Prod.fst <$> runWith maxSteps signal (fun _ _ _ => ()) () s

/-! ## Interrupts -/

/-- No interrupt at all. -/
def quiet : Nat → Option Interrupt := fun _ => none

/-- An interrupt that is there from the start. -/
def stopped (i : Interrupt) : Nat → Option Interrupt := fun _ => some i

/-- A time limit in nanoseconds, none if it is zero or less. A limit below a microsecond is over
before the first step, and a longer one is not reached. -/
def limitedTo (timeout : Int) : Nat → Option Interrupt :=
  if 0 < timeout ∧ timeout < 1000 then stopped .expired else quiet

/-- A cancellation that is made while step `n` is looked at, and so is seen after it. -/
def canceledAt (n : Nat) : Nat → Option Interrupt :=
  fun made => if n < made then some .canceled else none

/-! ## The log of a run -/

/-- The time a run takes, as the log shows it. -/
def elapsed : String := "Less than a second"

/-- The record of a step. -/
def stepRecord (n : Nat) (s : State) : Log.Record :=
  ⟨Log.debug, "step", [("n", toString n), ("expr", Layout.expr s.expr)]⟩

/-- The records at the end of a run: a run that was stopped from outside has none. -/
def Result.records (r : Result) : List Log.Record :=
  match r.outcome with
  | .ok v =>
    [⟨Log.info, "evaluation finished",
      [("steps", toString r.steps), ("elapsed", elapsed), ("kind", v.kind)]⟩]
  | .error (.failure f) =>
    [⟨Log.info, "evaluation failed",
      [("steps", toString r.steps), ("elapsed", elapsed), ("error", f.message)]⟩]
  | .error _ => []

/-- How a run is made: its budget, what may stop it, and the level from which on it is logged. -/
structure Options where
  maxSteps : Int
  signal : Nat → Option Interrupt
  level : Log.Level

/-- A run with its log, shown to an observer. Steps are recorded only where the level asks for
them. -/
def runLoggedWith {α : Type} (o : Options) (observe : α → Nat → State → α) (a : α) (s : State) :
    Option (Result × List Log.Record × α) := do
  let both (seen : List Log.Record × α) (n : Nat) (s : State) : List Log.Record × α :=
    (if o.level ≤ Log.debug then stepRecord n s :: seen.1 else seen.1, observe seen.2 n s)
  let (r, seen, a) ← runWith o.maxSteps o.signal both ([], a) s
  return (r, seen.reverse ++ r.records, a)

/-- A run with its log. -/
def runLogged (o : Options) (s : State) : Option (Result × List Log.Record) := do
  let (r, log, _) ← runLoggedWith o (fun _ _ _ => ()) () s
  return (r, log)

end Machine

end FunLang
