import FunLang.Command
import FunLang.Watch

set_option autoImplicit false

/-!
# The program

The commands themselves are functions. Here the files that a command line is about are read, the
command is run, and its output and files are written. The interactive loop and the watch go on, line
by line and change by change.
-/

namespace FunLang.Shell

/-- Looks at what is found at a path and adds it to a file system, with all that it imports. -/
partial def addPath (fs : FileSystem) (p : Path) : IO FileSystem := do
  if fs.contains p then return fs
  let file := (← IO.currentDir) / p.render
  if ← file.isDir then return { fs with directories := p :: fs.directories }
  try
    let source := (← IO.FS.readBinFile file).toList
    let fs := { fs with files := (p, source) :: fs.files }
    let imports := (Parser.parseImports source).1
    imports.foldlM (fun fs i => addPath fs (p.parent.resolve i.path)) fs
  catch _ => return fs

/-- The paths on the way to what a text stands for, the last one included. -/
def pathsOf (start : Path) (s : String) : List Path :=
  let name := Text.encode s
  let dir : Path := if Path.isRooted name then ⟨true, []⟩ else start
  (Path.pieces name).foldl (fun ps piece => (ps.headD dir).push piece :: ps) [dir]

/-- The files that some arguments and their imports lead to. -/
def filesOf (args : List String) : IO FileSystem := do
  let workDir := Path.ofString (← IO.currentDir).toString
  args.foldlM (fun fs arg => (pathsOf workDir arg).foldlM addPath fs) ⟨workDir, [], []⟩

/-- The world around a command line. -/
def worldOf (args : List String) : IO Command.World := do
  let names := Settings.envVars.map (·.1)
  let values ← names.mapM fun name => return (name, ← IO.getEnv name)
  return {
    files := ← filesOf args
    lookup := fun name => (values.lookup name).join
    home := ← IO.getEnv "HOME"
    input := ""
    interrupt := none
    clock := (← IO.monoNanosNow).toUInt64 }

def emit (o : Output) : IO Unit := do
  IO.eprint o.stderr
  IO.print o.stdout
  (← IO.getStdout).flush

/-- Makes the outcome of a command happen. -/
def finish (o : Command.Outcome) : IO UInt32 := do
  emit o.output
  let here ← IO.currentDir
  for (p, text) in o.writes do
    IO.FS.writeFile (here / p.render) text
  return o.code.toUInt32

/-- The interactive loop from a state on. Lines are added to the history. -/
partial def interact (o : Machine.Options) (history : String) (s : Repl.State) : IO Unit := do
  let stdin ← IO.getStdin
  if ← stdin.isTty then emit (.out s.prompt)
  let line ← stdin.getLine
  if line.isEmpty then return
  if !history.isEmpty then
    try IO.FS.withFile ((← IO.currentDir) / history) .append fun h => h.putStr line
    catch _ => pure ()
  match Repl.loop o s (Repl.events line) with
  | some (out, some s) =>
    emit out
    interact o history s
  | some (out, none) => emit out
  | none => return

/-- The source files of a directory with the times of their latest change. -/
def sources (dir : String) : IO (List (String × IO.FS.SystemTime)) := do
  let entries ← ((← IO.currentDir) / dir).readDir
  let names := entries.toList.filter fun e =>
    Watch.Change.isRelevant ⟨e.fileName, false, true, false, false, false⟩
  names.mapM fun e => return (e.fileName, (← e.path.metadata).modified)

/-- Waits for a change of the source files in a directory and runs a watched file again. -/
partial def follow (w : Command.World) (s : Settings) (file : String)
    (seen : List (String × IO.FS.SystemTime)) : IO Unit := do
  IO.sleep 200
  let now ← try sources (Path.directoryOf file).render catch _ => pure seen
  if now != seen then
    let w := { w with files := ← filesOf [file] }
    (Command.watchRun w s file).forM emit
  follow w s file now

def run (args : List String) : IO UInt32 := do
  let w ← worldOf args
  match args with
  | "repl" :: rest =>
    match Command.replSettings w rest with
    | .error o => finish o
    | .ok s =>
      emit (.out Repl.banner)
      interact (w.options s) s.history .start
      return 0
  | "watch" :: rest =>
    match Command.watchTarget w rest with
    | .error o => finish o
    | .ok (s, file) =>
      (Command.watchRun w s file).forM emit
      follow w s file (← try sources (Path.directoryOf file).render catch _ => pure [])
      return 0
  | _ =>
    match Command.run w args with
    | some o => finish o
    | none => return 0

end FunLang.Shell

def main (args : List String) : IO UInt32 := FunLang.Shell.run args
