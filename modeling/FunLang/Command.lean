import FunLang.Lint
import FunLang.Random.Programs
import FunLang.Repl
import FunLang.Runner
import FunLang.Settings
import FunLang.Syntax.Outline

set_option autoImplicit false

/-!
# The command line

A command line is a command with flags and files. What a command does depends on the files, the
environment and the typed input, and consists of an exit code, output and files that are written.
A command that evaluates may never end.
-/

namespace FunLang.Command

def usage : String :=
  "fun - a small functional language\n"
  ++ "\n"
  ++ "Usage:\n"
  ++ "  fun run [flags] <file.fun>...     Evaluate files and print their values\n"
  ++ "  fun check <file.fun>              Parse (with imports) and report diagnostics\n"
  ++ "  fun fmt [-w] <file.fun>           Print canonical source (or rewrite the file)\n"
  ++ "  fun lint <file.fun>               Run lint checks for style/best practices\n"
  ++ "  fun ast <file.fun>                Dump the syntax tree\n"
  ++ "  fun trace [flags] <file.fun>      Print every intermediate evaluation state\n"
  ++ "  fun watch [flags] <file.fun>      Re-run whenever a .fun file in its directory changes\n"
  ++ "  fun repl [flags]                  Start an interactive session\n"
  ++ "  fun gen [flags]                   Print random programs\n"
  ++ "\n"
  ++ "Evaluation flags (run, trace, watch, repl):\n"
  ++ "  -max-steps N     step budget, e.g. 500, 10k, 5M (0 = unbounded)\n"
  ++ "  -timeout D       wall-clock limit per evaluation, e.g. 2s\n"
  ++ "  -log-level L     debug, info, warn or error\n"
  ++ "\n"
  ++ "Environment:\n"
  ++ "  FUN_MAX_STEPS, FUN_TIMEOUT, FUN_LOG_LEVEL, FUN_HISTORY (REPL history file)\n"
  ++ "\n"
  ++ "Exit status: 0 on success, 1 on parse or evaluation errors, 2 on usage errors.\n"

/-- What a command sees of the world around it. -/
structure World where
  files : FileSystem
  /-- The environment variables. -/
  lookup : String → Option String
  home : Option String
  /-- What is typed. -/
  input : String
  /-- An interrupt that is there from the start. -/
  interrupt : Option Interrupt
  /-- A seed for those who give none. -/
  clock : UInt64

/-- What a command does to the world around it. -/
structure Outcome where
  code : Nat
  output : Output
  /-- Files with their new contents. -/
  writes : List (Path × String) := []

/-- The exit codes. -/
def exitOk : Nat := 0

def exitError : Nat := 1

def exitUsage : Nat := 2

/-- An outcome with no files written. -/
def done (code : Nat) (output : Output) : Outcome := { code, output }

/-- A command that is refused with a line about the reason. -/
def refuse (code : Nat) (reason : String) : Outcome := done code (.errLine ("Error: " ++ reason))

/-- A command is refused with an outcome, or goes on. -/
abbrev Attempt := Except Outcome

/-- A command that evaluates. It is refused, goes on, or never ends. -/
abbrev Evaluation := ExceptT Outcome Option

/-- The outcome of a command, whether it was refused or not. -/
def Evaluation.outcome (c : Evaluation Outcome) : Option Outcome := do
  match ← c.run with
  | .ok o => return o
  | .error o => return o

/-! ## Arguments -/

/-- The settings that the flags of a command make, and the other arguments. -/
def readFlags {σ : Type} (command : String) (flags : List (Flag σ)) (s : σ) (args : List String) :
    Attempt (σ × List String) :=
  let p := Flags.parse flags s args
  match p.error with
  | some e => throw (done exitUsage (.err (Flags.complaint command flags e)))
  | none => return (p.settings, p.rest)

/-- The arguments of a command without flags. -/
def noFlags (command : String) (args : List String) : Attempt (List String) :=
  (·.2) <$> readFlags command ([] : List (Flag Unit)) () args

/-- The settings that the environment makes. -/
def World.settings (w : World) : Attempt Settings :=
  let (s, errors) := (Settings.default w.home).applyEnv w.lookup
  match Settings.envError? errors with
  | some e => throw (refuse exitUsage e)
  | none => return s

/-- The only argument. -/
def soleFile : List String → Attempt String
  | [file] => return file
  | _ => throw (refuse exitUsage "expected exactly one input file")

/-- How an evaluation is made under the given settings. -/
def World.options (w : World) (s : Settings) : Machine.Options :=
  { maxSteps := s.maxSteps.toInt
    signal := (w.interrupt.map Machine.stopped).getD (Machine.limitedTo s.timeout)
    level := s.level }

/-! ## Commands that evaluate -/

/-- What is printed about a run. The value follows the name of its file if there are several. -/
def report (r : Runner.Result) (named : Bool) : Output :=
  let messages : Output := if r.diags.isEmpty then {} else .errLine r.render
  messages ++
    if !r.isOk then {}
    else
      match r.value with
      | .absent => {}
      | v => .outLine (if named then r.file ++ ": " ++ v.render else v.render)

def runFiles (w : World) (args : List String) : Evaluation Outcome := do
  let s ← w.settings
  let (s, files) ← readFlags "run" s.flags s args
  if files.isEmpty then throw (refuse exitUsage "no input file specified")
  match ← Runner.runAll w.files w.interrupt (w.options s) files with
  | .error i => throw (refuse exitError i.message)
  | .ok results =>
    let log := String.join (results.map fun (_, log) => Log.lines s.level log)
    let reports := results.map fun (r, _) => report r (1 < results.length)
    return done (if results.all (·.1.isOk) then exitOk else exitError)
      (reports.foldl Output.append (.err log))

/-- The line about a state before a step. -/
def traceLine (n : Nat) (e : Expr) : String :=
  let number := toString n
  "".pushn ' ' (6 - number.length) ++ number ++ "  " ++ Layout.expr e ++ "\n"

/-- The line about the names bound at a state, if there are any. -/
def namesLine (env : Env) : String :=
  if env.names.isEmpty then "" else "        env: [" ++ " ".intercalate env.names ++ "]\n"

def trace (w : World) (args : List String) : Evaluation Outcome := do
  let s ← w.settings
  let flags := Flag.switch "env" "print the names bound at each step" (fun b p => (p.1, b))
    :: s.flags.map (Flag.within Prod.fst fun s p => (s, p.2))
  let ((s, showEnv), rest) ← readFlags "trace" flags (s, false) args
  let file ← soleFile rest
  let note (lines : List String) (n : Nat) (m : Machine.State) : List String :=
    (traceLine n m.expr ++ if showEnv then namesLine m.env else "") :: lines
  let (r, log, lines) ← Runner.runWith w.files (w.options s) note [] file
  let shown := Output.out (String.join lines.reverse) ++ .err (Log.lines s.level log)
    ++ report r false
  if r.isOk then return done exitOk (shown ++ .outLine s!"{r.steps} step(s) in {Machine.elapsed}")
  else return done exitError shown

/-- The settings and the file of a watch. The directory of the file must exist. -/
def watchTarget (w : World) (args : List String) : Attempt (Settings × String) := do
  let s ← w.settings
  let (s, rest) ← readFlags "watch" s.flags s args
  let file ← soleFile rest
  let dir := (Path.directoryOf file).render
  match w.files.find dir with
  | .error e => throw (refuse exitError s!"cannot watch {dir}: {e.message}")
  | .ok _ => return (s, file)

/-- One run of a watched file, and the line that says what is being watched. -/
def watchRun (w : World) (s : Settings) (file : String) : Option Output := do
  let (r, log) ← Runner.run w.files (w.options s) file
  return Output.err (Log.lines s.level log) ++ report r false
    ++ .errLine s!"-- watching {Path.display (Path.directoryOf file).render} (Ctrl-C to stop)"

/-- A watch that ends after its first run. -/
def watch (w : World) (args : List String) : Evaluation Outcome := do
  let (s, file) ← watchTarget w args
  return done exitOk (← watchRun w s file)

/-- The settings of an interactive loop. -/
def replSettings (w : World) (args : List String) : Attempt Settings := do
  let s ← w.settings
  let (s, rest) ← readFlags "repl" (s.historyFlag :: s.flags) s args
  if !rest.isEmpty then throw (refuse exitUsage "repl takes no arguments")
  return s

def repl (w : World) (args : List String) : Evaluation Outcome := do
  let s ← replSettings w args
  return done exitOk (← Repl.run (w.options s) w.input)

/-! ## Commands that look at source text -/

def check (w : World) (args : List String) : Attempt Outcome := do
  let file ← soleFile (← noFlags "check" args)
  let ds := (Runner.load w.files file).diags
  let messages : Output := if ds.isEmpty then {} else .errLine (Diagnostic.renderAll file ds)
  if Diagnostic.hasErrors ds then return done exitError messages
  else return done exitOk (messages ++ .outLine "No errors found.")

/-- The program of a file, unless it has errors. -/
def loadProgram (w : World) (file : String) : Attempt Program :=
  let l := Runner.load w.files file
  if Diagnostic.hasErrors l.diags then
    throw (done exitError (.errLine (Diagnostic.renderAll file l.diags)))
  else return l.program.getD ⟨[], [], .missing⟩

def format (w : World) (args : List String) : Attempt Outcome := do
  let flags := [Flag.switch "w" "write the result back to the file" fun b _ => b]
  let (write, rest) ← readFlags "fmt" flags false args
  let file ← soleFile rest
  let text := Layout.program (← loadProgram w file)
  if !write then return done exitOk (.out text)
  match w.files.find file with
  | .error e => throw (refuse exitError s!"stat {file}: {e.message}")
  | .ok _ => return { code := exitOk, output := {}, writes := [(w.files.absolute file, text)] }

def lint (w : World) (args : List String) : Attempt Outcome := do
  let file ← soleFile (← noFlags "lint" args)
  let ds := Lint.program (← loadProgram w file)
  if ds.isEmpty then return done exitOk (.outLine "No lint warnings.")
  else
    return done exitOk (.outLine (Diagnostic.renderAll file ds)
      ++ .outLine s!"{ds.length} warning(s) found.")

def outline (w : World) (args : List String) : Attempt Outcome := do
  let file ← soleFile (← noFlags "ast" args)
  return done exitOk (.out (Outline.program (← loadProgram w file)))

/-! ## Random programs -/

/-- What random programs are asked for. -/
structure Sample where
  seed : UInt64
  count : Int64
  constraints : Random.Constraints

def sampleFlags (clock : UInt64) : List (Flag Sample) :=
  let c := Random.Constraints.default
  let int (name help : String) (default : Int64) (put : Int64 → Random.Constraints → Random.Constraints) :=
    Flag.int name help default fun n (s : Sample) => { s with constraints := put n s.constraints }
  [Flag.uint "seed" "random seed" clock fun n s => { s with seed := n },
    Flag.int "count" "number of programs" 1 fun n s => { s with count := n },
    int "depth" "maximum expression depth" (.ofInt c.maxDepth) fun n c => { c with maxDepth := n.toInt },
    int "lower" "smallest integer literal" c.lower fun n c => { c with lower := n },
    int "upper" "largest integer literal" c.upper fun n c => { c with upper := n },
    int "data" "number of data declarations" (.ofInt c.data) fun n c => { c with data := n.toInt },
    Flag.switch "open" "allow free variables" fun b s =>
      { s with constraints := { s.constraints with closed := !b } }]

/-- The program of a seed under a line that names the seed. -/
def sampleText (c : Random.Constraints) (seed : UInt64) : String :=
  s!"// seed {seed.toNat}\n" ++ Layout.program (Random.program c (Random.spread seed)).1

def generate (w : World) (args : List String) : Attempt Outcome := do
  let (s, rest) ← readFlags "gen" (sampleFlags w.clock) ⟨w.clock, 1, .default⟩ args
  if !rest.isEmpty || s.count < 1 then
    throw (refuse exitUsage "gen takes no arguments and -count must be positive")
  let texts := (List.range s.count.toInt.toNat).map fun i =>
    sampleText s.constraints (s.seed + i.toUInt64)
  return done exitOk (.out ("\n".intercalate texts))

/-! ## All commands -/

/-- The commands by name. -/
def named? : String → Option (World → List String → Evaluation Outcome)
  | "run" => some runFiles
  | "check" => some fun w args => check w args
  | "fmt" => some fun w args => format w args
  | "lint" => some fun w args => lint w args
  | "ast" => some fun w args => outline w args
  | "trace" => some trace
  | "watch" => some watch
  | "repl" => some repl
  | "gen" => some fun w args => generate w args
  | "help" | "--help" | "-h" => some fun _ _ => return done exitOk (.out usage)
  | _ => none

/-- What a command line does. -/
def run (w : World) : List String → Option Outcome
  | [] => some (done exitUsage (.err usage))
  | name :: args =>
    match named? name with
    | some command => (command w args).outcome
    | none => some (done exitUsage (.err (s!"Unknown command: {name}\n\n" ++ usage)))

end FunLang.Command
