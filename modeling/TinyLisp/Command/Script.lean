/-
Running a script.

A script is a file with a program.  It is looked at before it is read: a file that
is too large is refused with both sizes.  Every result is written on a line of its
own.

How large a folder is and how sizes are read and written is not decided here.  The
first is up to the file system, the others to a library, and `Host` stands for what
they give.
-/
import TinyLisp.Eval.Program
import TinyLisp.Files.Basic

namespace TinyLisp.Command

/-- What the program is told by what it runs on. -/
structure Host where
  /-- The size that is reported for the folder a path names. -/
  folderSize : Files → Bytes → Int64
  /-- The number of bytes that a text stands for, or what is wrong with it. -/
  readSize : Bytes → Except Bytes Int64
  /-- A number of bytes as messages have it. -/
  writeSize : Float → Bytes

section

variable (h : Host)

/-- The size of what a path names. -/
def Host.size (fs : Files) (path : Bytes) : Node → Int64
  | .file content => Int64.ofNat content.length
  | .folder => h.folderSize fs path

/-- A script that is too large. -/
def tooLarge (name : Bytes) (size limit : Int64) : Bytes :=
  name ++ utf8 ": file is " ++ h.writeSize (Numeral.double size) ++ utf8 ", limit is " ++
    h.writeSize (Numeral.double limit)

/-- The program in a script, or why it cannot be run.  Between the look at the script and the
reading others may have written the files. -/
def loadScript (seen read : Files) (limit : Int64) (name : Bytes) : Except Bytes Bytes :=
  match seen.stat name with
  | .error fault => .error (FileError.message ⟨utf8 "stat", name, fault⟩)
  | .ok node =>
    let size := h.size seen name node
    if size > limit then .error (tooLarge h name size limit)
    else match read.read name with
      | .ok text => .ok text
      | .error e => .error e.message

/-- Runs a program and writes its results. -/
def runProgram (i : Interpreter) (source text : Bytes) : Action Unit := fun m =>
  let (delivery, m) := i.evalProgram source text Interpreter.report m
  (delivery.outcome, m)

/-- Runs a script. -/
def runScript (i : Interpreter) (seen read : Files) (limit : Int64) (name : Bytes) :
    Action Unit :=
  match loadScript h seen read limit name with
  | .ok text => runProgram i name text
  | .error message => .fail (.other message)

end

end TinyLisp.Command
