/-
Flags of the command line.

A flag starts with one dash or two.  A switch stands alone or takes a truth value
after an equals sign; every other flag takes its value there or from the next
argument.  The flags end at the first argument that is none, or behind a double
dash; what is left are scripts.  The first flag that cannot be understood ends the
reading with a message and the list of all flags.
-/
import TinyLisp.Numeral.Based
import TinyLisp.Text.Quoted

namespace TinyLisp.Command

/-- What the command line asks for. -/
structure Options where
  /-- Programs to execute, in order. -/
  commands : List Bytes := []
  /-- Announce every call. -/
  debug : Bool := false
  /-- Record a trace. -/
  trace : Bool := false
  /-- Run the scripts again whenever they change. -/
  watch : Bool := false
  /-- The depth limit. -/
  maxDepth : Int := 10000
  /-- The greatest size of a script. -/
  maxSource : Bytes := utf8 "4MiB"
  /-- The folder for the documentation; empty if none is to be written. -/
  docs : Bytes := []
  /-- The history file of the prompt. -/
  history : Bytes := utf8 ".minilisp-history.tmp"
  /-- Log everything. -/
  verbose : Bool := false
  /-- The scripts to run, in order. -/
  scripts : List Bytes := []

/-- The list of all flags. -/
def usage : Bytes := utf8 ("Usage of minilisp:\n" ++
  "  -c value\n    \tExecute lisp expression (repeatable)\n" ++
  "  -debug\n    \tPrint a line for every call before it is evaluated\n" ++
  "  -docs string\n    \tWrite Markdown documentation of all builtins into this folder and exit\n" ++
  "  -history string\n    \tHistory file of the interactive prompt (default \".minilisp-history.tmp\")\n" ++
  "  -max-depth int\n    \tMaximum nesting of calls during evaluation (default 10000)\n" ++
  "  -max-source string\n    \tMaximum size of a script file (default \"4MiB\")\n" ++
  "  -trace\n    \tWrite a chrome trace file to $MINILISP_TRACEDIR\n" ++
  "  -v\tVerbose logging\n" ++
  "  -watch\n    \tRun the scripts again whenever they change on disk\n")

/-! ### One flag -/

/-- What a flag does with the options. -/
inductive Flag where
  /-- A switch. -/
  | switch (set : Bool → Options → Options)
  /-- A flag with a value, which it may refuse. -/
  | valued (set : Bytes → Options → Except Bytes Options)

/-- The flag with a given name. -/
def flag? (name : Bytes) : Option Flag :=
  if name = utf8 "c" then
    some (.valued fun v o => .ok { o with commands := o.commands ++ [v] })
  else if name = utf8 "debug" then some (.switch fun b o => { o with debug := b })
  else if name = utf8 "docs" then some (.valued fun v o => .ok { o with docs := v })
  else if name = utf8 "history" then some (.valued fun v o => .ok { o with history := v })
  else if name = utf8 "max-depth" then
    some (.valued fun v o =>
      match Numeral.readBased v with
      | .ok n => .ok { o with maxDepth := n }
      | .error fault => .error fault.message)
  else if name = utf8 "max-source" then some (.valued fun v o => .ok { o with maxSource := v })
  else if name = utf8 "trace" then some (.switch fun b o => { o with trace := b })
  else if name = utf8 "v" then some (.switch fun b o => { o with verbose := b })
  else if name = utf8 "watch" then some (.switch fun b o => { o with watch := b })
  else none

/-- The truth value that the value of a switch stands for. -/
def truthValue? (s : Bytes) : Option Bool :=
  if ["1", "t", "T", "TRUE", "true", "True"].any (utf8 · = s) then some true
  else if ["0", "f", "F", "FALSE", "false", "False"].any (utf8 · = s) then some false
  else none

/-- What an argument is while flags are read. -/
inductive Argument where
  /-- No flag; this and all that follows are scripts. -/
  | script
  /-- The mark behind which the scripts start. -/
  | endOfFlags
  /-- Neither a flag nor a script. -/
  | malformed
  /-- A flag with the value given after an equals sign. -/
  | flag (name : Bytes) (value? : Option Bytes)

/-- The name of a flag and its value, split at the first equals sign behind the first byte. -/
def splitFlag (first : UInt8) (rest : Bytes) : Argument :=
  let name := first :: rest.takeWhile (· != Byte.equals)
  match rest.dropWhile (· != Byte.equals) with
  | [] => .flag name none
  | _ :: value => .flag name (some value)

/-- A flag without its dashes. -/
def nameArgument : Bytes → Argument
  | [] => .malformed
  | b :: rest => if b = Byte.minus || b = Byte.equals then .malformed else splitFlag b rest

/-- What an argument is. -/
def Argument.ofBytes : Bytes → Argument
  | a :: b :: rest =>
    if a ≠ Byte.minus then .script
    else if b ≠ Byte.minus then nameArgument (b :: rest)
    else if rest.isEmpty then .endOfFlags
    else nameArgument rest
  | _ => .script

/-! ### All flags -/

/-- Why flags cannot be read: a message, or nothing but the wish to see the list. -/
abbrev FlagFault := Option Bytes

/-- A refusal with its message. -/
def refuse {α : Type} (parts : List Bytes) : Except FlagFault α := .error (some parts.flatten)

/-- A value that a flag refuses. -/
def setValue (set : Bytes → Options → Except Bytes Options) (name value : Bytes) (o : Options) :
    Except FlagFault Options :=
  match set value o with
  | .ok o => .ok o
  | .error reason =>
    refuse [utf8 "invalid value ", Text.quoted value, utf8 " for flag -", name, utf8 ": ", reason]

/-- Sets a switch. -/
def setSwitch (set : Bool → Options → Options) (name : Bytes) (value? : Option Bytes) (o : Options) :
    Except FlagFault Options :=
  match value? with
  | none => .ok (set true o)
  | some value =>
    match truthValue? value with
    | some b => .ok (set b o)
    | none =>
      refuse [utf8 "invalid boolean value ", Text.quoted value, utf8 " for -", name,
        utf8 ": parse error"]

/-- A flag that is not known. -/
def unknownFlag {α : Type} (name : Bytes) : Except FlagFault α :=
  if name = utf8 "help" || name = utf8 "h" then .error none
  else refuse [utf8 "flag provided but not defined: -", name]

/-- Reads the arguments from left to right. -/
def readFlags (o : Options) : List Bytes → Except FlagFault Options
  | [] => .ok { o with scripts := [] }
  | arg :: rest =>
    match Argument.ofBytes arg with
    | .script => .ok { o with scripts := arg :: rest }
    | .endOfFlags => .ok { o with scripts := rest }
    | .malformed => refuse [utf8 "bad flag syntax: ", arg]
    | .flag name value? =>
      match flag? name, value?, rest with
      | none, _, _ => unknownFlag name
      | some (.switch set), value?, rest =>
        match setSwitch set name value? o with
        | .ok o => readFlags o rest
        | .error fault => .error fault
      | some (.valued set), some value, rest =>
        match setValue set name value o with
        | .ok o => readFlags o rest
        | .error fault => .error fault
      | some (.valued set), none, value :: rest =>
        match setValue set name value o with
        | .ok o => readFlags o rest
        | .error fault => .error fault
      | some (.valued _), none, [] => refuse [utf8 "flag needs an argument: -", name]

/-- What to write when flags cannot be read. -/
def FlagFault.report (fault : FlagFault) : Bytes :=
  match fault with
  | none => usage
  | some message => message.line ++ usage

end TinyLisp.Command
