/-
The program on a real machine.

Everything the program does is decided by `Command.run`.  What is left here is to
collect its setting (the files it may look at, the folder for traces, the input of
the prompt) and to carry its result out: output, new files and the exit code.  While
it watches scripts, it looks at them several times a second and runs a round for
those whose content has changed.

Here is also where the program gets what it leaves to others: sizes, a watcher, the
encoding of traces and a clock.  It is evaluated before anything of it is written, so
its clock counts the events instead of the microseconds.
-/
import TinyLisp.Command.Run
import TinyLisp.Command.Size

namespace TinyLisp.Program

/-- Bytes as a text of the operating system. -/
def asString (s : Bytes) : String := (String.fromUTF8? ⟨s.toArray⟩).getD ""

/-- What a path names, if anything. -/
def look (path : Bytes) : IO (Option Node) := do
  try
    return some (.file (← IO.FS.readBinFile (asString path)).toList)
  catch _ =>
    try
      let real ← IO.FS.realPath (asString path)
      return if ← real.isDir then some .folder else none
    catch _ => return none

/-- The files that have one of the given paths. -/
def collect (paths : List Bytes) : IO Files := do
  let mut files : Files := []
  for path in paths do
    if let some node ← look path then files := files.plant path node
  return files

/-- A name that no other trace has. -/
def newTraceName : IO Bytes := do
  let mut name : Bytes := []
  for i in List.range 32 do
    if i = 8 || i = 12 || i = 16 || i = 20 then name := name ++ [Byte.minus]
    name := name ++ [Byte.hexDigit (← IO.rand 0 15)]
  return name

/-- Everything on the standard input. -/
def readInput : IO Bytes := do
  let bytes ← (← IO.getStdin).readBinToEnd
  return bytes.toList

/-- Writes what a sink has taken. -/
def emit (stream : IO.FS.Stream) (s : Sink) : IO Unit := do
  stream.write ⟨s.output.toArray⟩
  stream.flush

/-- Writes the output of a machine and returns the machine without it. -/
def flush (m : Machine) : IO Machine := do
  emit (← IO.getStdout) m.out
  emit (← IO.getStderr) m.diagnostics
  return { m with out := m.out.drained, diagnostics := m.diagnostics.drained }

/-- Writes the files that were not there before or have changed. -/
def store (before after : Files) : IO Unit := do
  for (parts, node) in after do
    let path := asString (Files.pathOf parts)
    match node, before.get? parts with
    | .folder, some .folder => pure ()
    | .folder, _ => IO.FS.createDirAll path
    | .file content, some (.file old) =>
      if content ≠ old then IO.FS.writeBinFile path ⟨content.toArray⟩
    | .file content, _ => IO.FS.writeBinFile path ⟨content.toArray⟩

/-- Sizes, where the file system gives every folder one block. -/
def host : Command.Host := ⟨fun _ _ => 4096, Command.Size.read, Command.Size.write⟩

/-- What watches files by looking at them, so that it refuses only what is not there. -/
def watcher (files : Files) : Command.Watcher where
  refuses _ path :=
    match files.stat path with
    | .ok _ => none
    | .error fault => some fault.message
  calls := 0

/-- The setting of a program that is started with some arguments. -/
def setting (args : List Bytes) : IO Command.Setting := do
  let traceFolder := utf8 ((← IO.getEnv "MINILISP_TRACEDIR").getD "")
  let (paths, prompts) := match Command.readFlags {} args with
    | .ok o => (o.paths traceFolder, o.opensPrompt)
    | .error _ => ([], false)
  let files ← collect paths
  return {
    files := files
    traceFolder := traceFolder
    traceName := ← newTraceName
    input := ← if prompts then readInput else pure []
    host := host
    watcher := .ok (watcher files)
    style := ⟨false, true⟩
    clock := Int.ofNat
    stack := fun _ => [] }

/-- Runs scripts again for as long as the program is not stopped. -/
partial def watchLoop (i : Interpreter) (scripts : List Bytes) (limit : Int64)
    (w : Command.Watch) (before : Files) : IO Unit := do
  IO.sleep 200
  let after ← collect scripts
  let content (fs : Files) (script : Bytes) : Bytes :=
    match fs.stat script with
    | .ok (.file content) => content
    | _ => []
  let events := scripts.filter fun s => content before s ≠ content after s
  let current := { w with watcher := { watcher after with calls := w.watcher.calls } }
  let (w, _) := Command.watchRound i host (fun _ => after) limit scripts events current
  watchLoop i scripts limit { w with machine := ← flush w.machine } after

/-- Starts the program. -/
def start (args : List Bytes) : IO UInt32 := do
  let setting ← setting args
  let (s, ending) := Command.run args setting
  let m ← flush s.machine
  store setting.files s.files
  match ending with
  | .exit code => return UInt32.ofNat code
  | .watching scripts limit watcher =>
    let o := (Command.readFlags {} args).toOption.getD {}
    watchLoop (.new .builtins o.maxDepth o.debug) scripts limit ⟨m, o.log, watcher, 0⟩ s.files
    return 0

end TinyLisp.Program

/-- The command line program. -/
def main (args : List String) : IO UInt32 := TinyLisp.Program.start (args.map TinyLisp.utf8)
