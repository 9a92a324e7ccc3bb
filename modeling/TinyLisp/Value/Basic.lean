/-
Values.

One type serves parsed code and computed results: a list is a call or data
depending on where it is evaluated.  This file has the type, the names of its kinds
as messages use them, truth, the readings of a value as a number that some
operations take, its printed form, and equality.
-/
import TinyLisp.Numeral.Layout
import TinyLisp.Numeral.Real

namespace TinyLisp

/-- A value of the language. -/
inductive Value where
  /-- The absent value. -/
  | nil
  /-- A truth value. -/
  | bool (b : Bool)
  /-- An integer, held in a 64-bit word. -/
  | int (n : Int64)
  /-- A double-precision number. -/
  | float (x : Float)
  /-- A text. -/
  | text (s : Bytes)
  /-- A symbol with its name. -/
  | symbol (name : Bytes)
  /-- A list of values, possibly empty. -/
  | list (items : List Value)

instance : Inhabited Value := ⟨.nil⟩

namespace Value

/-! ### Kinds -/

/-- An integer. -/
def isInt : Value → Bool
  | .int _ => true
  | _ => false

/-- A double-precision number. -/
def isFloat : Value → Bool
  | .float _ => true
  | _ => false

/-- A number of either kind. -/
def isNumber (v : Value) : Bool := v.isInt || v.isFloat

/-- The absent value. -/
def isNil : Value → Bool
  | .nil => true
  | _ => false

/-- A truth value. -/
def isBool : Value → Bool
  | .bool _ => true
  | _ => false

/-- A text. -/
def isText : Value → Bool
  | .text _ => true
  | _ => false

/-- A symbol. -/
def isSymbol : Value → Bool
  | .symbol _ => true
  | _ => false

/-- A list. -/
def isList : Value → Bool
  | .list _ => true
  | _ => false

/-- The name of the kind of a value, as messages and descriptions use it. -/
def kindName : Value → Bytes
  | .nil => utf8 "nil"
  | .bool _ => utf8 "bool"
  | .int _ => utf8 "number"
  | .float _ => utf8 "number"
  | .text _ => utf8 "text"
  | .symbol _ => utf8 "symbol"
  | .list _ => utf8 "list"

/-- The name of a symbol. -/
def symbolName? : Value → Option Bytes
  | .symbol name => some name
  | _ => none

/-- The elements of a list. -/
def items? : Value → Option (List Value)
  | .list items => some items
  | _ => none

/-- The symbol with the given name. -/
def isSymbolNamed (name : Bytes) (v : Value) : Bool := v.symbolName? == some name

/-! ### Readings -/

/-- Only `nil`, `#f`, zero, the empty text and the empty list are false. -/
def truthy : Value → Bool
  | .nil => false
  | .bool b => b
  | .int n => n != 0
  | .float x => x != 0
  | .text s => !s.isEmpty
  | .symbol _ => true
  | .list items => !items.isEmpty

/-- The value as a word: a double loses its fraction, a text or symbol is read as a decimal
integer, and whatever has no such reading is zero. -/
def toInt : Value → Int64
  | .int n => n
  | .float x => Numeral.truncate x
  | .bool b => if b then 1 else 0
  | .text s => (Numeral.integer? s).getD 0
  | .symbol s => (Numeral.integer? s).getD 0
  | _ => 0

/-- The value as a double: an integer is rounded, a text or symbol is read as a number, and
whatever has no such reading is zero. -/
def toFloat : Value → Float
  | .int n => Numeral.double n
  | .float x => x
  | .bool b => if b then 1 else 0
  | .text s => (Numeral.real? s).getD 0
  | .symbol s => (Numeral.real? s).getD 0
  | _ => 0

/-! ### Printed form

Lists are written in parentheses with one space between the elements.  Texts and
symbols are written raw, so a printed text need not read back; everything else
does, apart from what the reader would take for something different. -/

mutual

/-- The printed form of a value. -/
def render : Value → Bytes
  | .nil => utf8 "nil"
  | .bool true => utf8 "#t"
  | .bool false => utf8 "#f"
  | .int n => Numeral.signed n.toInt
  | .float x => Numeral.Layout.value.write x
  | .text s => s
  | .symbol name => name
  | .list items => [Byte.leftParen] ++ renderItems items ++ [Byte.rightParen]

/-- The printed forms of several values, with one space between them. -/
def renderItems : List Value → Bytes
  | [] => []
  | [v] => render v
  | v :: w :: rest => render v ++ [Byte.space] ++ renderItems (w :: rest)

end

/-! ### Equality

Numbers are compared by what they stand for, so 1 and 1.0 are equal, and a truth
value equals the number 1 or 0 it is read as.  Lists are compared element by
element, everything else by kind and content.  Two integers are compared as
integers; where a double or a truth value takes part, both sides are doubles. -/

mutual

/-- The two values are equal. -/
def equal : Value → Value → Bool
  | .nil, .nil => true
  | .bool a, .bool b => a == b
  | .bool a, .int n => (if a then 1 else 0) == Numeral.double n
  | .bool a, .float x => (if a then 1 else 0) == x
  | .int n, .bool b => Numeral.double n == (if b then 1 else 0)
  | .float x, .bool b => x == (if b then 1 else 0)
  | .int m, .int n => m == n
  | .int m, .float y => Numeral.double m == y
  | .float x, .int n => x == Numeral.double n
  | .float x, .float y => x == y
  | .text s, .text t => s == t
  | .symbol s, .symbol t => s == t
  | .list xs, .list ys => equalItems xs ys
  | _, _ => false

/-- The two lists have the same length and equal elements. -/
def equalItems : List Value → List Value → Bool
  | [], [] => true
  | x :: xs, y :: ys => equal x y && equalItems xs ys
  | _, _ => false

end

end Value

end TinyLisp
