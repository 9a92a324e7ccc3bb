/-
The command line program.

The program reads its flags and then does one thing after another: it writes the
documentation and ends, or runs the scripts, then the commands, and at last watches
the scripts or, if there was nothing to run, opens the prompt.  The first error ends
it, except that while watching a script that fails does not.

All of it is a function of the arguments and the setting: the files, the folder for
traces, the name for a new trace, the input of the prompt and what the system and the
libraries under the program would say.  What it returns is the state at the end, with
everything that was written.
-/
import TinyLisp.Command.Flags
import TinyLisp.Command.Watch
import TinyLisp.Registry.Builtins
import TinyLisp.Registry.Document
import TinyLisp.Session

namespace TinyLisp.Command

/-- What the program finds when it starts. -/
structure Setting where
  /-- The files below the working directory. -/
  files : Files
  /-- The folder for trace files. -/
  traceFolder : Bytes
  /-- What tells a new trace file from all others. -/
  traceName : Bytes
  /-- The input of the prompt. -/
  input : Bytes
  /-- Sizes, as the system and a library have them. -/
  host : Host
  /-- What can watch files, or why nothing can. -/
  watcher : Except Bytes Watcher
  /-- How traces encode texts. -/
  style : Text.JsonStyle
  /-- Microseconds since the trace was opened, by the number of the reading. -/
  clock : Nat → Int
  /-- What is said of the calls that were open at a crash. -/
  stack : Machine → Bytes

/-- How the program ends. -/
inductive Ending where
  /-- With an exit code. -/
  | exit (code : Nat)
  /-- Not by itself: it watches scripts of a limited size. -/
  | watching (scripts : List Bytes) (limit : Int64) (watcher : Watcher)

/-- The state of the program. -/
structure State where
  /-- The machine; its output and its diagnostic output are those of the program. -/
  machine : Machine
  /-- The files. -/
  files : Files

/-- The log that the options ask for, on the diagnostic output. -/
def Options.log (o : Options) : Log := ⟨if o.verbose then .debug else .warn, none⟩

/-- Writes a log line. -/
def State.log (s : State) (o : Options) (level : Log.Level) (message : String)
    (fields : List (String × Bytes)) : State :=
  { s with machine := (o.log.note level message fields s.machine).2 }

/-- Shows an error. -/
def State.complain (s : State) (message : Bytes) : State :=
  { s with machine := s.machine.complain message.line }

/-! ### Scripts and commands -/

/-- Runs scripts in order; the flag tells whether one of them ended the program. -/
def runScripts (i : Interpreter) (h : Host) (o : Options) (limit : Int64) (s : State) :
    List Bytes → State × Bool
  | [] => (s, false)
  | script :: rest =>
    let s := s.log o .debug "loading" [("script", script)]
    match runScript h i s.files s.files limit script s.machine with
    | (.ok (), m) => runScripts i h o limit { s with machine := m } rest
    | (.error stop, m) =>
      let s := State.complain { s with machine := m } stop.message
      if o.watch then runScripts i h o limit s rest else (s, true)

/-- Runs commands in order; the flag tells whether one of them ended the program. -/
def runCommands (i : Interpreter) (o : Options) (s : State) : List Bytes → State × Bool
  | [] => (s, false)
  | command :: rest =>
    let s := s.log o .debug "executing" [("command", command)]
    match runProgram i (utf8 "command line") command s.machine with
    | (.ok (), m) => runCommands i o { s with machine := m } rest
    | (.error stop, m) => (State.complain { s with machine := m } stop.message, true)

/-! ### The prompt -/

/-- What the prompt shows first. -/
def banner : Bytes := utf8 ("minilisp Copyright (C) 2023-2026   Carl-Philip Hänsch\n" ++
  "    This program comes with ABSOLUTELY NO WARRANTY;\n" ++
  "    This is free software, and you are welcome to redistribute it\n" ++
  "    under certain conditions;\n\n    Type (help) to show help\n\n")

/-- Opens the prompt. -/
def runPrompt (i : Interpreter) (setting : Setting) (m : Machine) : Machine :=
  Session.readAll setting.stack i setting.input (Session.write banner m)

/-! ### The program -/

/-- Watches the scripts, if they can be watched. -/
def startWatch (o : Options) (limit : Int64) (setting : Setting) (s : State) : State × Ending :=
  let failed (message : Bytes) := (s.log o .error "watch failed" [("err", message)], Ending.exit 1)
  if o.scripts.isEmpty then (s.log o .error "-watch needs at least one script" [], .exit 2)
  else match setting.watcher with
    | .error message => failed message
    | .ok watcher =>
      match watcher.addAll o.scripts with
      | (_, some message) => failed message
      | (watcher, none) => (s, .watching o.scripts limit watcher)

/-- Runs everything the options ask for, with a trace already open if there is to be one. -/
def execute (o : Options) (limit : Int64) (setting : Setting) (s : State) : State × Ending :=
  let i := Interpreter.new .builtins o.maxDepth o.debug
  match runScripts i setting.host o limit s o.scripts with
  | (s, true) => (s, .exit 1)
  | (s, false) =>
    match runCommands i o s o.commands with
    | (s, true) => (s, .exit 1)
    | (s, false) =>
      if o.watch then startWatch o limit setting s
      else if o.scripts.isEmpty && o.commands.isEmpty then
        ({ s with machine := runPrompt i setting s.machine }, .exit 0)
      else (s, .exit 0)

/-- Closes the trace and keeps what it holds as the file with the given parts. -/
def closeTrace (o : Options) (path : Bytes) (parts : List Bytes) (s : State) : State :=
  match s.machine.trace? with
  | none => s
  | some trace =>
    let (trace, err) := trace.close
    let s := { s with
      machine := { s.machine with trace? := none },
      files := s.files.put parts (.file trace.file.output) }
    match err with
    | none => s
    | some message => s.log o .error "trace file incomplete" [("file", path), ("err", message)]

/-- Runs everything the options ask for inside a trace. -/
def executeTraced (o : Options) (limit : Int64) (setting : Setting) (s : State) :
    State × Ending :=
  let path := Path.join setting.traceFolder
    (utf8 "trace_" ++ setting.traceName ++ utf8 ".json")
  match s.files.place path with
  | .error e => (s.log o .error "cannot create trace file" [("err", e.message)], .exit 1)
  | .ok parts =>
    let trace := Trace.start .reliable setting.style setting.clock none
    let s := { s with
      machine := { s.machine with trace? := some trace },
      files := s.files.put parts (.file []) }
    let s := s.log o .info "tracing" [("file", path)]
    let (s, ending) := execute o limit setting s
    match ending with
    | .exit _ => (closeTrace o path parts s, ending)
    | .watching _ _ _ => (s, ending)

/-- Writes the documentation. -/
def writeDocumentation (o : Options) (s : State) : State × Ending :=
  match Registry.builtins.document o.docs s.files with
  | (files, none) =>
    let s := { s with files := files }
    (s.log o .info "documentation written"
      [("folder", o.docs), ("functions", Numeral.decimal Registry.builtins.size)], .exit 0)
  | (files, some (.failure f)) =>
    (State.log { s with files := files } o .error "writing documentation failed"
      [("err", f.message)], .exit 1)
  | (files, some (.crash message)) =>
    (State.log { s with files := files } o .error "writing documentation failed"
      [("err", message)], .exit 1)

/-- The program with its flags read. -/
def runOptions (o : Options) (setting : Setting) (s : State) : State × Ending :=
  match setting.host.readSize o.maxSource with
  | .error message =>
    (s.log o .error "invalid -max-source" [("value", o.maxSource), ("err", message)], .exit 2)
  | .ok limit =>
    if !o.docs.isEmpty then writeDocumentation o s
    else if o.trace then executeTraced o limit setting s
    else execute o limit setting s

/-! ### The setting

What the program can look at is known from its options, so that whoever starts it has
to collect nothing else.
-/

/-- The paths that the program may look at. -/
def Options.paths (o : Options) (traceFolder : Bytes) : List Bytes :=
  let pages := match Registry.builtins.chapters with
    | .ok chapters => (Page.all chapters).map fun page => Path.join o.docs page.name
    | .error _ => []
  let files := o.scripts ++ (if o.docs.isEmpty then [] else pages)
  let folders := (if o.docs.isEmpty then [] else [o.docs]) ++ (if o.trace then [traceFolder] else [])
  (files ++ folders).flatMap Path.chain

/-- The program will open the prompt, unless something fails before. -/
def Options.opensPrompt (o : Options) : Bool :=
  o.scripts.isEmpty && o.commands.isEmpty && o.docs.isEmpty && !o.watch

/-! ### The program as a whole -/

/-- The state in which nothing has been done yet. -/
def State.initial (files : Files) : State := ⟨.idle .reliable .reliable none, files⟩

/-- The whole program. -/
def run (args : List Bytes) (setting : Setting) : State × Ending :=
  let s := State.initial setting.files
  match readFlags {} args with
  | .error fault => ({ s with machine := s.machine.complain fault.report }, .exit 2)
  | .ok o => runOptions o setting s

end TinyLisp.Command
