/-
Declarations of functions.

A declaration names a function, describes it and says how many arguments of which
types it takes.  `check?` holds the arguments of a call against that before the
function sees them; the last parameter stands for all further arguments.
-/
import TinyLisp.Registry.Procedure

namespace TinyLisp

/-- A parameter of a function. -/
structure Parameter where
  /-- Its name. -/
  name : Bytes
  /-- The kinds it takes, alternatives separated by a bar. -/
  type : Bytes
  /-- What it is for. -/
  description : Bytes

/-- A function of the language, or a special form that evaluation knows itself. -/
structure Declaration where
  /-- The name it is called by. -/
  name : Bytes
  /-- What it does; the first line is a summary. -/
  description : Bytes
  /-- The least number of arguments. -/
  least : Int
  /-- The greatest number of arguments; none if there is no bound. -/
  greatest? : Option Int
  /-- Its parameters; the last one repeats. -/
  parameters : List Parameter
  /-- The kind of its result. -/
  returns : Bytes
  /-- What it does with its arguments; none for a special form. -/
  body? : Option (List Value → Procedure)

/-- The value is of the kind with the given name. -/
def Value.hasKind (v : Value) (kind : Bytes) : Bool :=
  if kind = utf8 "any" then true
  else if kind = utf8 "number" then v.isNumber
  else if kind = utf8 "list" then v.isList
  else if kind = utf8 "text" then v.isText
  else if kind = utf8 "bool" then v.isBool
  else if kind = utf8 "symbol" then v.isSymbol
  else if kind = utf8 "nil" then v.isNil
  else false

/-- The value is of one of the kinds that a type lists. -/
def Value.matchesType (v : Value) (type : Bytes) : Bool :=
  (Bytes.splitOn Byte.bar type).any v.hasKind

namespace Declaration

/-- The parameter that the argument with a given index is held against. -/
def parameterAt? (d : Declaration) (index : Nat) : Option Parameter :=
  d.parameters[min index (d.parameters.length - 1)]?

/-- A count in a message. -/
private def wrongCount (d : Declaration) (bound : Bytes) (limit : Int) (count : Nat) : Mismatch :=
  ⟨d.name, utf8 "expects " ++ bound ++ utf8 " " ++ Numeral.signed limit ++
    utf8 " parameters, got " ++ Numeral.decimal count⟩

/-- An argument of the wrong kind. -/
private def wrongKind (d : Declaration) (index : Nat) (p : Parameter) (v : Value) : Mismatch :=
  ⟨d.name, utf8 "expects parameter " ++ Numeral.decimal (index + 1) ++ utf8 " (" ++ p.name ++
    utf8 ") to be " ++ p.type ++ utf8 ", but found " ++ v.kindName⟩

/-- The first of the arguments from `index` on that is of the wrong kind. -/
def checkKinds? (d : Declaration) (index : Nat) : List Value → Option Mismatch
  | [] => none
  | v :: rest =>
    match d.parameterAt? index with
    | none => none
    | some p =>
      if v.matchesType p.type then checkKinds? d (index + 1) rest
      else some (d.wrongKind index p v)

/-- Why the arguments do not fit the declaration, if they do not. -/
def check? (d : Declaration) (args : List Value) : Option Mismatch :=
  if (args.length : Int) < d.least then
    some (d.wrongCount (utf8 "at least") d.least args.length)
  else match d.greatest? with
    | some greatest =>
      if greatest < args.length then some (d.wrongCount (utf8 "at most") greatest args.length)
      else d.checkKinds? 0 args
    | none => d.checkKinds? 0 args

/-- The allowed numbers of arguments. -/
def arity (d : Declaration) : Bytes :=
  Numeral.signed d.least ++ utf8 "-" ++
    (match d.greatest? with
      | some greatest => Numeral.signed greatest
      | none => utf8 "n")

/-- The same function under another name. -/
def aliased (d : Declaration) (name : Bytes) : Declaration :=
  { d with name := name, description := utf8 "alias of " ++ d.name ++ utf8 "\n" ++ d.description }

end Declaration

end TinyLisp
