/-
Arithmetic on values.

Integer arithmetic stays integer as long as every operand is an integer and no
intermediate result leaves the range of a word; otherwise the whole operation is
done in doubles from the start.  Division is the exception: it goes step by step,
floors while both sides are integers, and a zero divisor ends it with a text.

Overflow is found on the words themselves, after the fact: a sum by its sign, a
product by dividing it back.
-/
import TinyLisp.Failure

namespace TinyLisp.Arithmetic

/-! ### Words -/

/-- The sum of two words, unless it overflows: two operands of one sign whose wrapped sum has
the other. -/
def add? (x y : Int64) : Option Int64 :=
  let s := x + y
  if (x > 0 && y > 0 && s < 0) || (x < 0 && y < 0 && s ≥ 0) then none else some s

/-- The product of two words, unless it overflows: dividing the wrapped product by one factor
has to give the other.  The least word times −1 would pass that test and is named. -/
def mul? (x y : Int64) : Option Int64 :=
  if x = 0 || y = 0 then some 0
  else if (x = -1 && y = Int64.minValue) || (y = -1 && x = Int64.minValue) then none
  else
    let p := x * y
    if p / y = x then some p else none

/-- The quotient of two words rounded down, unless it overflows.  Word division rounds toward
zero, so a remainder under different signs takes one off. -/
def floorDiv? (x y : Int64) : Option Int64 :=
  if x = Int64.minValue && y = -1 then none
  else
    let q := x / y
    if x % y ≠ 0 && (x < 0) != (y < 0) then some (q - 1) else some q

/-! ### Lists of values -/

/-- The words of a list that holds nothing but integers. -/
def ints? : List Value → Option (List Int64)
  | [] => some []
  | .int n :: rest => (ints? rest).map (n :: ·)
  | _ :: _ => none

/-- Combines words from the left as long as nothing overflows. -/
def foldWords? (op : Int64 → Int64 → Option Int64) (acc : Int64) : List Int64 → Option Int64
  | [] => some acc
  | n :: rest =>
    match op acc n with
    | some acc => foldWords? op acc rest
    | none => none

/-- The word result if all operands are integers and none of it overflows, else the double. -/
def wordsOr (words : List Int64 → Option Int64) (args : List Value) (double : Float) : Value :=
  match (ints? args).bind words with
  | some n => .int n
  | none => .float double

/-- The sum; that of nothing is zero. -/
def sum (args : List Value) : Value :=
  wordsOr (foldWords? add? 0) args (args.foldl (fun acc v => acc + v.toFloat) 0)

/-- The product. -/
def product (args : List Value) : Value :=
  wordsOr (foldWords? mul? 1) args (args.foldl (fun acc v => acc * v.toFloat) 1)

/-- The opposite number. -/
def negate : Value → Value
  | .int n => if n = Int64.minValue then .float (-Numeral.double n) else .int (-n)
  | v => .float (-v.toFloat)

/-- The difference of two words, unless it overflows.  The least word has no opposite and
never takes part as one that is subtracted. -/
def sub? (x y : Int64) : Option Int64 :=
  if y = Int64.minValue then none else add? x (-y)

/-- The first number less all further ones. -/
def difference (first : Value) (rest : List Value) : Value :=
  if rest.isEmpty then negate first
  else
    let words : List Int64 → Option Int64
      | [] => none
      | n :: ns => foldWords? sub? n ns
    wordsOr words (first :: rest) (rest.foldl (fun acc v => acc - v.toFloat) first.toFloat)

/-- The number is zero, as a double. -/
def isZero (v : Value) : Bool := v.toFloat == 0

/-- What a division by zero yields. -/
def undefinedText : Value := .text (utf8 "undefined")

/-- One step of a division: floored if both sides are integers and the result fits.  Words
cannot be divided by zero at all. -/
def divide (x y : Value) : Except Stop Value :=
  match x, y with
  | .int m, .int n =>
    if n = 0 then .error .divisionByZero
    else match floorDiv? m n with
      | some q => .ok (.int q)
      | none => .ok (.float (x.toFloat / y.toFloat))
  | _, _ => .ok (.float (x.toFloat / y.toFloat))

/-- The first number divided by all further ones, one after another.  A divisor is looked at
as a double before it divides anything. -/
def quotient (acc : Value) : List Value → Except Stop Value
  | [] => .ok acc
  | d :: rest =>
    if isZero d then .ok undefinedText
    else match divide acc d with
      | .ok q => quotient q rest
      | .error s => .error s

end TinyLisp.Arithmetic
