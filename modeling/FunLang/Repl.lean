import FunLang.Output
import FunLang.Repl.Keys
import FunLang.Session
import FunLang.Text.Blank
import FunLang.Text.Part

set_option autoImplicit false

/-!
# The interactive loop

The loop reads lines, evaluates them in a session and prints what comes of it. An input that stops in
the middle of a construct is continued on the next line. A line that begins with a colon is a
command about the session.
-/

namespace FunLang.Repl

def banner : String := "fun REPL. Type :help for help.\n"

def help : String :=
  "Enter an expression to evaluate it.\n"
  ++ "  data T = C Int | D;     declare constructors for the rest of the session\n"
  ++ "  let name = expr         bind name for the rest of the session\n"
  ++ ":env      list session bindings\n"
  ++ ":data     list data declarations\n"
  ++ ":steps    show the step count of the last evaluation\n"
  ++ ":help     show this message\n"
  ++ ":quit     leave (Ctrl-D works too)\n"

/-- The name under which messages about typed input are shown. -/
def fileName : String := "repl"

/-- Whether every error is about the end of the input, so that more input may mend it. -/
def isIncomplete (ds : List Diagnostic) : Bool :=
  (Diagnostic.errors ds).all fun d => Text.occursIn "end of input" d.message

/-- The line that shows a data declaration. -/
def showData (d : DataDecl) : String :=
  "data " ++ d.name ++ ": " ++ ", ".intercalate (d.ctors.map (·.name)) ++ "\n"

/-- The line that shows a value, with the name that it was given. -/
def showValue (name : Option String) : Value → String
  | .absent => ""
  | v =>
    match name with
    | some x => x ++ " = " ++ v.render ++ "\n"
    | none => v.render ++ "\n"

def showReply (r : Session.Reply) : String :=
  String.join (r.data.map showData) ++ showValue r.name r.value

/-- Evaluates an input and prints the outcome. If the input has to be continued, nothing is printed
and the answer is true. -/
def eval (o : Machine.Options) (s : Session) (input : List UInt8) :
    Option (Session × Bool × Output) := do
  let (s, answer, ds, log) ← s.eval o input
  let stderr := Log.lines o.level log
  match answer with
  | .rejected =>
    if isIncomplete ds then return (s, true, ⟨"", stderr⟩)
    else return (s, false, ⟨Diagnostic.renderAll fileName ds ++ "\n", stderr⟩)
  | .failed e => return (s, false, ⟨(e.diagnostic fileName).render fileName ++ "\n", stderr⟩)
  | .replied r => return (s, false, ⟨showReply r, stderr⟩)

/-- The bindings of a session, one on a line. -/
def showBindings (s : Session) : String :=
  if s.env.size = 0 then "(no bindings)\n"
  else String.join ((s.env.entries s.store).map fun (x, l) =>
    match l with
    | .found v => x ++ " = " ++ v.render ++ "\n"
    | _ => x ++ " = " ++ Value.absent.render ++ "\n")

/-- Runs a command: whether the loop ends, and what is printed. -/
def command (s : Session) (line : String) : Bool × String :=
  match Text.firstWord line with
  | ":quit" | ":q" => (true, "")
  | ":help" | ":h" => (false, help)
  | ":env" => (false, showBindings s)
  | ":data" =>
    (false, if s.data.isEmpty then "(no data declarations)\n"
      else Layout.program ⟨[], s.data, .missing⟩)
  | ":steps" => (false, s!"{s.lastSteps} step(s)\n")
  | _ => (false, "unknown command " ++ line ++ "; try :help\n")

/-- A session and the input that waits for its continuation. -/
structure State where
  session : Session
  pending : String

/-- The loop before the first line. -/
def State.start : State := ⟨.empty, ""⟩

/-- What is shown to someone who is about to type a line. -/
def State.prompt (s : State) : String :=
  if s.pending.isEmpty then "\x1b[32mfun>\x1b[0m " else "\x1b[32m  .\x1b[0m "

/-- What an event leads to: what is printed and, unless the loop ends, the next state. -/
def respond (o : Machine.Options) (s : State) : Event → Option (Output × Option State)
  | .stop => some ({}, none)
  | .bell => some (.out "\x07", some s)
  | .interrupt text =>
    some ({}, if s.pending.isEmpty && text.isEmpty then none else some { s with pending := "" })
  | .line text =>
    let input := s.pending ++ text
    if Text.allBlank input then some ({}, some s)
    else if s.pending.isEmpty && Text.beginsWith ":" (Text.trim text) then
      let (quit, out) := command s.session (Text.trim text)
      some (.out out, if quit then none else some s)
    else do
      let (session, more, out) ← eval o s.session (Text.encode input)
      return (out, some ⟨session, if more then input ++ "\n" else ""⟩)

/-- The loop over some events: what is printed and, unless the loop ends, the state after them. -/
def loop (o : Machine.Options) (s : State) : List Event → Option (Output × Option State)
  | [] => some ({}, some s)
  | e :: es => do
    match ← respond o s e with
    | (out, none) => return (out, none)
    | (out, some s) =>
      let (more, s) ← loop o s es
      return (out ++ more, s)

/-- A whole interactive session on typed text. -/
def run (o : Machine.Options) (keys : String) : Option Output := do
  let (out, _) ← loop o .start (events keys)
  return .out banner ++ out

end FunLang.Repl
