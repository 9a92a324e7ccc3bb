/-
Running scripts again when they change.

Each script is watched under its cleaned path.  Where several spellings of one path
are given, the path stands for the last of them, and only scripts spelled like that
are run again.  One round takes all paths that changed and runs the scripts they
stand for in the order of the command line, each as often as it was given; a script
that fails or cannot be watched again does not keep the others from running, and only
a crash would.

What is watched is up to the operating system, which may refuse a path for reasons
of its own, also one that is there.  Others write the files while a round is going
on, so every look at them may find something else.  What a look finds and which calls
are refused is fixed in advance by their numbers.
-/
import TinyLisp.Command.Log
import TinyLisp.Command.Script

namespace TinyLisp.Command

/-! ### What is due -/

/-- The script that a cleaned path stands for: the last one given with that path. -/
def watchedScript? (scripts : List Bytes) (path : Bytes) : Option Bytes :=
  (scripts.filter fun s => Path.clean s == path).getLast?

/-- The scripts that changed paths stand for. -/
def changedScripts (scripts : List Bytes) (events : List Bytes) : List Bytes :=
  events.filterMap fun event => watchedScript? scripts (Path.clean event)

/-- The scripts to run in a round, in order. -/
def dueScripts (scripts : List Bytes) (events : List Bytes) : List Bytes :=
  scripts.filter fun s => (changedScripts scripts events).contains s

/-! ### Watching -/

/-- What watches files. -/
structure Watcher where
  /-- The error with which the call of a given number to watch a path is refused. -/
  refuses : Nat → Bytes → Option Bytes
  /-- How many calls there have been. -/
  calls : Nat

namespace Watcher

/-- Watches a path: the watcher after the call, and the error if it was refused. -/
def add (w : Watcher) (path : Bytes) : Watcher × Option Bytes :=
  ({ w with calls := w.calls + 1 }, w.refuses w.calls path)

/-- Watches scripts up to the first that is refused. -/
def addAll (w : Watcher) : List Bytes → Watcher × Option Bytes
  | [] => (w, none)
  | script :: rest =>
    match w.add script with
    | (w, none) => addAll w rest
    | (w, some err) => (w, some (utf8 "watch " ++ script ++ utf8 ": " ++ err))

end Watcher

/-- What a round goes on with. -/
structure Watch where
  /-- The machine that scripts run on. -/
  machine : Machine
  /-- The log. -/
  log : Log
  /-- What watches the scripts. -/
  watcher : Watcher
  /-- How many looks at the files there have been. -/
  looks : Nat

namespace Watch

/-- Writes a log line. -/
def note (w : Watch) (level : Log.Level) (message : String) (fields : List (String × Bytes)) :
    Watch :=
  let (log, m) := w.log.note level message fields w.machine
  { w with log := log, machine := m }

@[simp] theorem note_watcher (w : Watch) (level : Log.Level) (message : String)
    (fields : List (String × Bytes)) : (w.note level message fields).watcher = w.watcher := rfl

@[simp] theorem note_looks (w : Watch) (level : Log.Level) (message : String)
    (fields : List (String × Bytes)) : (w.note level message fields).looks = w.looks := rfl

/-- Watches a script again, since a file that was replaced is no longer watched. -/
def rewatch (w : Watch) (script : Bytes) : Watch :=
  let (watcher, err) := w.watcher.add script
  let w := { w with watcher := watcher }
  match err with
  | none => w
  | some err => w.note .warn "cannot watch again" [("script", script), ("err", err)]

section

-- `disk` gives what the looks at the files find, by their numbers.
variable (i : Interpreter) (h : Host) (disk : Nat → Files) (limit : Int64)

/-- Runs one script again and watches it again, also if it failed: the watch after it, and the
message of the crash if it crashed. -/
def rerun (script : Bytes) (w : Watch) : Watch × Option Bytes :=
  let w := w.note .info "reloading" [("script", script)]
  let (outcome, m) := runScript h i (disk w.looks) (disk (w.looks + 1)) limit script w.machine
  let w := { w with machine := m, looks := w.looks + 2 }
  match outcome with
  | .ok () => (w.rewatch script, none)
  | .error (.failure f) =>
    let shown := { w with machine := w.machine.complain f.message.line }
    (shown.rewatch script, none)
  | .error (.crash message) => (w, some message)

/-- Runs scripts again, one after another up to the first that crashes. -/
def rerunAll : List Bytes → Watch → Watch × Option Bytes
  | [], w => (w, none)
  | script :: rest, w =>
    match rerun i h disk limit script w with
    | (w, none) => rerunAll rest w
    | (w, some message) => (w, some message)

end

end Watch

/-- One round: all events that were collected, and the scripts they make run. -/
def watchRound (i : Interpreter) (h : Host) (disk : Nat → Files) (limit : Int64)
    (scripts events : List Bytes) (w : Watch) : Watch × Option Bytes :=
  Watch.rerunAll i h disk limit (dueScripts scripts events) w

end TinyLisp.Command
