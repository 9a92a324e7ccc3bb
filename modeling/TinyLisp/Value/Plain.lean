/-
Plain data from outside.

A host that embeds the language hands over plain data: absent values, truth
values, words, doubles, texts, finished values and sequences of these.  `toValue?`
turns such data into one value and refuses it as a whole if any part is of a kind
the language has no value for.
-/
import TinyLisp.Value.Basic

namespace TinyLisp

/-- Data as a host program holds it. -/
inductive Plain where
  /-- Nothing. -/
  | absent
  /-- A truth value. -/
  | bool (b : Bool)
  /-- A word. -/
  | word (n : Int64)
  /-- A double. -/
  | real (x : Float)
  /-- A text. -/
  | text (s : Bytes)
  /-- A value of the language. -/
  | value (v : Value)
  /-- Values of the language in a row. -/
  | values (vs : List Value)
  /-- Any data in a row. -/
  | sequence (parts : List Plain)
  /-- Data of some other kind. -/
  | unsupported

/-- The message for data of a kind the language has no value for. -/
def Plain.refusal : Bytes := utf8 "FromAny: unsupported type"

mutual

/-- The value that plain data stands for. -/
def Plain.toValue? : Plain → Option Value
  | .absent => some .nil
  | .bool b => some (.bool b)
  | .word n => some (.int n)
  | .real x => some (.float x)
  | .text s => some (.text s)
  | .value v => some v
  | .values vs => some (.list vs)
  | .sequence parts =>
    match Plain.toValues? parts with
    | some vs => some (.list vs)
    | none => none
  | .unsupported => none

/-- The values that several pieces of plain data stand for. -/
def Plain.toValues? : List Plain → Option (List Value)
  | [] => some []
  | p :: rest =>
    match Plain.toValue? p, Plain.toValues? rest with
    | some v, some vs => some (v :: vs)
    | _, _ => none

end

end TinyLisp
