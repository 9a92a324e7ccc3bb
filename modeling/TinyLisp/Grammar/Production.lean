/-
The productions of the grammar.

    exp         := atom | quoted_list | call
    quoted_list := QUOTE list
    list        := LPAREN items RPAREN
    items       := item items | ε
    item        := atom | list | quoted_list | call
    call        := LPAREN SYMBOL items RPAREN
    atom        := SYMBOL | bool | NUMBER | TEXT | NIL | ε
    bool        := TRUE | FALSE

A bare list is only an item: at the top level a group has to be a call or quoted.
The empty atom is the whole of an empty text.
-/
import TinyLisp.Text.Bytes

namespace TinyLisp

/-- One alternative of one rule of the grammar. -/
inductive Production where
  /-- An atom as an expression. -/
  | expAtom
  /-- A quoted list as an expression. -/
  | expQuoted
  /-- A call as an expression. -/
  | expCall
  /-- A quote and a list. -/
  | quotedList
  /-- Items in parentheses. -/
  | list
  /-- One item more. -/
  | itemsMore
  /-- No items. -/
  | itemsEmpty
  /-- An atom as an item. -/
  | itemAtom
  /-- A bare list as an item. -/
  | itemList
  /-- A quoted list as an item. -/
  | itemQuoted
  /-- A call as an item. -/
  | itemCall
  /-- A symbol and items in parentheses. -/
  | call
  /-- A symbol. -/
  | atomSymbol
  /-- A truth value. -/
  | atomBool
  /-- A number. -/
  | atomNumber
  /-- A text literal. -/
  | atomText
  /-- The absent value. -/
  | atomNil
  /-- An empty text. -/
  | atomEmpty
  /-- The constant true. -/
  | boolTrue
  /-- The constant false. -/
  | boolFalse
  deriving DecidableEq, Repr

namespace Production

/-- The productions in the order of their numbers. -/
def all : List Production :=
  [.expAtom, .expQuoted, .expCall, .quotedList, .list, .itemsMore, .itemsEmpty, .itemAtom,
    .itemList, .itemQuoted, .itemCall, .call, .atomSymbol, .atomBool, .atomNumber, .atomText,
    .atomNil, .atomEmpty, .boolTrue, .boolFalse]

/-- The production with a given number. -/
def ofNumber? (n : Nat) : Option Production := all[n]?

/-- A production as the grammar writes it. -/
def render : Production → Bytes
  | .expAtom => utf8 "exp := atom"
  | .expQuoted => utf8 "exp := quoted_list"
  | .expCall => utf8 "exp := call"
  | .quotedList => utf8 "quoted_list := QUOTE list"
  | .list => utf8 "list := LPAREN items RPAREN"
  | .itemsMore => utf8 "items := item items"
  | .itemsEmpty => utf8 "items := ε"
  | .itemAtom => utf8 "item := atom"
  | .itemList => utf8 "item := list"
  | .itemQuoted => utf8 "item := quoted_list"
  | .itemCall => utf8 "item := call"
  | .call => utf8 "call := LPAREN SYMBOL items RPAREN"
  | .atomSymbol => utf8 "atom := SYMBOL"
  | .atomBool => utf8 "atom := bool"
  | .atomNumber => utf8 "atom := NUMBER"
  | .atomText => utf8 "atom := TEXT"
  | .atomNil => utf8 "atom := NIL"
  | .atomEmpty => utf8 "atom := ε"
  | .boolTrue => utf8 "bool := TRUE"
  | .boolFalse => utf8 "bool := FALSE"

/-- The production with a given number as the grammar writes it, a question mark if there is
none. -/
def renderNumber (n : Nat) : Bytes :=
  match ofNumber? n with
  | some p => p.render
  | none => utf8 "?"

end Production

end TinyLisp
