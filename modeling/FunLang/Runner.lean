import FunLang.Import.Loading
import FunLang.Machine.Run

set_option autoImplicit false

/-!
# Running files

A file is loaded with its imports, and its expression is evaluated. Whatever goes wrong is reported
as messages.
-/

namespace FunLang.Runner

/-- A loaded program, if loading came that far, and the messages about it. -/
structure Loaded where
  program : Option Program
  diags : List Diagnostic

/-- A message about a whole file. -/
def about (file message : String) : Diagnostic := (Diagnostic.error .unknown message).inFile file

/-- Loads a file with its imports. Files are looked at only if all imports lead somewhere and there
is no cycle among them. -/
def load (fs : FileSystem) (file : String) : Loaded :=
  let entry := fs.absolute file
  let d := Import.discover fs entry
  match d.failure? with
  | some text => ⟨none, d.diags ++ [about file text]⟩
  | none =>
    if Diagnostic.hasErrors d.diags then ⟨none, d.diags⟩
    else
      match d.graph.order entry with
      | .error cycle => ⟨none, d.diags ++ [about file (Import.cycleMessage cycle)]⟩
      | .ok order =>
        let (modules, diags) := Import.load entry (d.inOrder order)
        ⟨(modules.find? (·.path == entry)).map (·.program), d.diags ++ diags⟩

/-- What came of running a file. The value is absent if there was none to compute, or if the
evaluation did not end with one; the error then says why. -/
structure Result where
  file : String
  program : Option Program
  value : Value
  steps : Nat
  diags : List Diagnostic
  error : Option EvalError

namespace Result

/-- Whether there was no error. -/
def isOk (r : Result) : Bool := !Diagnostic.hasErrors r.diags

def render (r : Result) : String := Diagnostic.renderAll r.file r.diags

end Result

/-- Runs a file. The observer is shown each state. There is no result if the run never stops. -/
def runWith {α : Type} (fs : FileSystem) (o : Machine.Options) (observe : α → Nat → Machine.State → α)
    (a : α) (file : String) : Option (Result × List Log.Record × α) :=
  let l := load fs file
  let idle : Result := ⟨file, l.program, .absent, 0, l.diags, none⟩
  match l.program with
  | none => some (idle, [], a)
  | some p =>
    if Diagnostic.hasErrors l.diags || p.body.isMissing then some (idle, [], a)
    else do
      let (r, log, a) ← Machine.runLoggedWith o observe a ⟨.empty, .empty, p.body⟩
      match r.outcome with
      | .ok v => return ({ idle with value := v, steps := r.steps }, log, a)
      | .error e =>
        return ({ idle with
            steps := r.steps
            diags := l.diags ++ [e.diagnostic file]
            error := some e }, log, a)

/-- Runs a file and logs it. -/
def run (fs : FileSystem) (o : Machine.Options) (file : String) :
    Option (Result × List Log.Record) := do
  let (r, log, _) ← runWith fs o (fun _ _ _ => ()) () file
  return (r, log)

/-- Runs files one after the other. An interrupt that is there before the first of them stops all. -/
def runAll (fs : FileSystem) (interrupt : Option Interrupt) (o : Machine.Options)
    (files : List String) : Option (Except Interrupt (List (Result × List Log.Record))) :=
  match interrupt, files with
  | some i, _ :: _ => some (.error i)
  | _, _ => .ok <$> files.mapM (run fs o)

end FunLang.Runner
