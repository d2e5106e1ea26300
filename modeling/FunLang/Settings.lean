import FunLang.Path
import FunLang.Settings.Duration
import FunLang.Settings.Flags
import FunLang.Settings.Level
import FunLang.Settings.Steps

set_option autoImplicit false

/-!
# Settings

What commands that evaluate have in common: the step budget, the time limit, the history file and the
log level. Environment variables go before the defaults, and flags before both.
-/

namespace FunLang

structure Settings where
  /-- The step budget; zero is none. -/
  maxSteps : Int64
  /-- The time limit in nanoseconds; zero is none. -/
  timeout : Int
  /-- The history file of the interactive loop; an empty name is none. -/
  history : String
  level : Log.Level
deriving DecidableEq, Repr, Inhabited

namespace Settings

/-- The settings where nothing is asked for. The history is kept in the home directory. -/
def default (home : Option String) : Settings :=
  { maxSteps := 10000000
    timeout := 0
    history := home.elim "" fun dir => ((Path.ofString dir).push (Text.encode ".fun_history")).render
    level := Log.warn }

/-! ## Single settings -/

/-- Takes in a step budget, unless it cannot be read. -/
def setMaxSteps (value : String) (s : Settings) : Settings × Option String :=
  match Steps.read value with
  | .ok n => ({ s with maxSteps := n }, none)
  | .error e => (s, some (e.message value))

/-- Takes in a log level, unless it cannot be read. -/
def setLevel (value : String) (s : Settings) : Settings × Option String :=
  match Log.Level.read value with
  | .ok l => ({ s with level := l }, none)
  | .error e => (s, some (e.message value))

/-- Takes in a time limit from a flag. What cannot be read takes the limit away. -/
def setTimeout (value : String) (s : Settings) : Settings × Option String :=
  match Duration.read value with
  | .ok d => ({ s with timeout := d }, none)
  | .error _ => ({ s with timeout := 0 }, some "parse error")

/-- Takes in a time limit from the environment, unless it cannot be read or is negative. -/
def setLimit (value : String) (s : Settings) : Settings × Option String :=
  match Duration.read value with
  | .ok d => if d < 0 then (s, some "negative duration") else ({ s with timeout := d }, none)
  | .error e => (s, some (e.message value))

def setHistory (value : String) (s : Settings) : Settings × Option String :=
  ({ s with history := value }, none)

/-! ## The environment -/

/-- The variables that are looked at, in order. -/
def envVars : List (String × (String → Settings → Settings × Option String)) :=
  [("FUN_MAX_STEPS", setMaxSteps), ("FUN_TIMEOUT", setLimit), ("FUN_HISTORY", setHistory),
    ("FUN_LOG_LEVEL", setLevel)]

/-- The settings after the environment, and what is wrong with it. -/
def applyEnv (lookup : String → Option String) (s : Settings) : Settings × List String :=
  envVars.foldl (fun (s, errors) (name, set) =>
    match lookup name with
    | none => (s, errors)
    | some value =>
      match set value s with
      | (s, none) => (s, errors)
      | (s, some e) => (s, errors ++ [name ++ ": " ++ e])) (s, [])

/-- All that is wrong with the environment as one text. -/
def envError? (errors : List String) : Option String :=
  if errors.isEmpty then none else some ("\n".intercalate errors)

/-! ## Flags -/

/-- A default that is shown unless it is the given one. -/
def shownUnless (trivial value : String) : Option String :=
  if value = trivial then none else some value

/-- The flags of commands that evaluate, for the given defaults. -/
def flags (s : Settings) : List (Flag Settings) :=
  [{ name := "max-steps", operand := "value", isSwitch := false
     help := "step budget per evaluation, e.g. 500, 10k, 5M (0 = unbounded)"
     default := shownUnless "0" (Steps.render s.maxSteps), set := setMaxSteps },
    { name := "timeout", operand := "duration", isSwitch := false
      help := "wall-clock limit per evaluation (0 = none)"
      default := shownUnless "0s" (Duration.render s.timeout), set := setTimeout },
    { name := "log-level", operand := "value", isSwitch := false
      help := "log level: debug, info, warn or error"
      default := shownUnless "INFO" (Log.Level.render s.level), set := setLevel }]

/-- The flag of the interactive loop. -/
def historyFlag (s : Settings) : Flag Settings :=
  { name := "history", operand := "string", isSwitch := false
    help := "REPL history file (empty disables history)"
    default := (shownUnless "" s.history).map Text.quote, set := setHistory }

/-- Why settings could not be made, and what was printed about it. -/
structure LoadError where
  message : String
  usage : String
deriving DecidableEq, Repr, Inhabited

/-- The settings that the environment and the flags of a command make, and the other arguments. -/
def load (home : Option String) (lookup : String → Option String) (command : String)
    (args : List String) : Except LoadError (Settings × List String) :=
  let (s, errors) := (default home).applyEnv lookup
  match envError? errors with
  | some e => .error ⟨e, ""⟩
  | none =>
    let p := Flags.parse s.flags s args
    match p.error with
    | some e => .error ⟨e.message, Flags.complaint command s.flags e⟩
    | none => .ok (p.settings, p.rest)

end Settings

end FunLang
