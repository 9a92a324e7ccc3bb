/-
The operations of the language.

Two special forms, which evaluation knows itself, and nineteen functions in four
chapters.  A function trusts the check of its declaration: it looks at arguments
that the check has counted and takes the elements of values that the check has
found to be lists.
-/
import TinyLisp.Arithmetic
import TinyLisp.Registry.Basic
import TinyLisp.Value.Basic

namespace TinyLisp.Builtins

open Procedure

/-- A parameter, spelled out. -/
def parameter (name type description : String) : Parameter :=
  ⟨utf8 name, utf8 type, utf8 description⟩

/-! ### Special forms -/

/-- The form that keeps its argument as it is. -/
def quote : Declaration where
  name := utf8 "quote"
  description := utf8 "returns its argument without evaluating it\n'(a b) is the same as (quote (a b))."
  least := 1
  greatest? := some 1
  parameters := [parameter "value" "any" "unevaluated value"]
  returns := utf8 "any"
  body? := none

/-- The form that binds a name. -/
def letForm : Declaration where
  name := utf8 "let"
  description := utf8 ("substitutes a binding into an expression and evaluates it\n" ++
    "(let ((x 5)) (+ x 1)) evaluates (+ 5 1). The value is inserted unevaluated. " ++
    "A nested let that rebinds the same name shadows the outer binding.")
  least := 1
  greatest? := some 2
  parameters := [
    parameter "binding" "list" "(name value) or ((name value))",
    parameter "body" "any" "expression to substitute into"]
  returns := utf8 "any"
  body? := none

/-! ### Logic -/

/-- Equality. -/
def eq : Declaration where
  name := utf8 "eq"
  description := utf8 "compares two values structurally"
  least := 2
  greatest? := some 2
  parameters := [parameter "a" "any" "first value", parameter "b" "any" "second value"]
  returns := utf8 "bool"
  body? := some (binary fun a b => value (.bool (a.equal b)))

/-- Conjunction: no value equals false. -/
def and : Declaration where
  name := utf8 "and"
  description := utf8 "returns #t unless one of the values is #f or 0"
  least := 0
  greatest? := none
  parameters := [parameter "value..." "any" "values to check"]
  returns := utf8 "bool"
  body? := some fun args => value (.bool (!args.any (·.equal (.bool false))))

/-- Disjunction: some value equals true. -/
def or : Declaration where
  name := utf8 "or"
  description := utf8 "returns #t if at least one of the values is #t or 1"
  least := 0
  greatest? := none
  parameters := [parameter "value..." "any" "values to check"]
  returns := utf8 "bool"
  body? := some fun args => value (.bool (args.any (·.equal (.bool true))))

/-- The conditional. -/
def cond : Declaration where
  name := utf8 "cond"
  description := utf8 ("returns the value if the condition is truthy, otherwise nil.\n" ++
    "nil, #f, 0, \"\" and () are falsy.")
  least := 2
  greatest? := some 2
  parameters := [
    parameter "condition" "any" "condition",
    parameter "value" "any" "result if the condition holds"]
  returns := utf8 "any"
  body? := some (binary fun a b => value (if a.truthy then b else .nil))

/-! ### Lists -/

/-- A list from its head and its tail. -/
def cons : Declaration where
  name := utf8 "cons"
  description := utf8 "constructs a list from a head and a tail list"
  least := 2
  greatest? := some 2
  parameters := [
    parameter "car" "any" "new head element",
    parameter "cdr" "list" "tail that is appended after car"]
  returns := utf8 "list"
  body? := some (binary fun a b => withItems b fun tail => value (.list (a :: tail)))

/-- Two lists in a row. -/
def concat : Declaration where
  name := utf8 "concat"
  description := utf8 "concatenates two lists.\nBoth inputs stay unharmed."
  least := 2
  greatest? := some 2
  parameters := [parameter "a" "list" "first part", parameter "b" "list" "second part"]
  returns := utf8 "list"
  body? := some (binary fun a b =>
    withItems a fun front => withItems b fun back => value (.list (front ++ back)))

/-- The arguments as a list. -/
def list : Declaration where
  name := utf8 "list"
  description := utf8 "returns its arguments as a list"
  least := 0
  greatest? := none
  parameters := [parameter "value..." "any" "list items"]
  returns := utf8 "list"
  body? := some fun args => value (.list args)

/-- The head of a list; an empty list has none. -/
def car : Declaration where
  name := utf8 "car"
  description := utf8 "extracts the head of a list"
  least := 1
  greatest? := some 1
  parameters := [parameter "list" "list" "non-empty list"]
  returns := utf8 "any"
  body? := some (unary fun a => withItems a fun
    | [] => fail (.mismatch ⟨utf8 "car", utf8 "empty list"⟩)
    | head :: _ => value head)

/-- The tail of a list; that of an empty list is empty. -/
def cdr : Declaration where
  name := utf8 "cdr"
  description := utf8 "extracts the tail of a list\nThe tail of an empty list is the empty list."
  least := 1
  greatest? := some 1
  parameters := [parameter "list" "list" "list"]
  returns := utf8 "list"
  body? := some (unary fun a => withItems a fun items => value (.list items.tail))

/-! ### Arithmetic -/

/-- The operands of an arithmetic function. -/
def operands : List Parameter := [parameter "value..." "number" "operand"]

/-- Addition. -/
def addition : Declaration where
  name := utf8 "+"
  description := utf8 "adds two or more numbers\nWithout arguments the sum is 0."
  least := 0
  greatest? := none
  parameters := operands
  returns := utf8 "number"
  body? := some fun args => value (Arithmetic.sum args)

/-- Negation and subtraction. -/
def subtraction : Declaration where
  name := utf8 "-"
  description := utf8 "negates a number or subtracts all further numbers from the first one"
  least := 1
  greatest? := none
  parameters := operands
  returns := utf8 "number"
  body? := some fun
    | [] => crash (.outOfRange 0 0)
    | first :: rest => value (Arithmetic.difference first rest)

/-- Multiplication. -/
def multiplication : Declaration where
  name := utf8 "*"
  description := utf8 "multiplies numbers"
  least := 1
  greatest? := none
  parameters := operands
  returns := utf8 "number"
  body? := some fun args => value (Arithmetic.product args)

/-- Division. -/
def division : Declaration where
  name := utf8 "/"
  description := utf8 ("divides the first number by all further numbers\n" ++
    "Two integers are divided with floor division. Division by zero returns \"undefined\".")
  least := 1
  greatest? := none
  parameters := operands
  returns := utf8 "number|text"
  body? := some fun
    | [] => crash (.outOfRange 0 0)
    | first :: rest => .done (Arithmetic.quotient first rest)

/-! ### Output -/

/-- Prints a value on a line of its own. -/
def print : Declaration where
  name := utf8 "print"
  description := utf8 "writes the rendered value and a newline to the output"
  least := 1
  greatest? := some 1
  parameters := [parameter "value" "any" "value to print"]
  returns := utf8 "nil"
  body? := some (unary fun a => Procedure.print a.render fun
    | none => value .nil
    | some err => fail (.output (utf8 "print: ") err))

/-! ### The table -/

/-- All operations, chapter by chapter. -/
def entries : List Registry.Entry := [
  .title (utf8 "Syntax"), .function quote, .function letForm,
  .title (utf8 "Logic"), .function eq, .function (eq.aliased (utf8 "=")), .function and,
  .function or, .function cond,
  .title (utf8 "Lists"), .function cons, .function concat, .function list, .function car,
  .function cdr,
  .title (utf8 "Arithmetic"), .function addition, .function (addition.aliased (utf8 "add")),
  .function subtraction, .function (subtraction.aliased (utf8 "minus")),
  .function multiplication, .function (multiplication.aliased (utf8 "multiply")),
  .function division, .function (division.aliased (utf8 "divide")),
  .title (utf8 "IO"), .function print]

end TinyLisp.Builtins

namespace TinyLisp

/-- The sealed registry of all operations of the language. -/
def Registry.builtins : Registry := (Registry.empty.declareAll Builtins.entries).1.closed

end TinyLisp
