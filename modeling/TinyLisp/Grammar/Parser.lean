/-
Parsing one expression.

The parser shifts tokens and keeps the groups whose closing parenthesis is still to
come on a stack.  When a parenthesis closes, its group is reduced to a list and
becomes an item of the group below it, so the tree is built bottom up and the
productions come out in that order.  One token of lookahead tells a call from a bare
list.

`parseFrom` recurses on the tokens.  What it returns is the list of productions that
are reduced from here on and the outcome; the productions reduced before an error
are part of the answer.
-/
import TinyLisp.Grammar.Production
import TinyLisp.Token.Lexer

namespace TinyLisp.Grammar

/-! ### Groups -/

/-- The three forms of a group in parentheses. -/
inductive Form where
  /-- A list without a quote whose first token is no symbol. -/
  | bare
  /-- A list without a quote whose first token is a symbol. -/
  | call
  /-- A list behind a quote. -/
  | quoted
  deriving DecidableEq, Repr

/-- A group whose closing parenthesis is still to come. -/
structure Group where
  /-- Where it was opened. -/
  opened : Place
  /-- Which form it has. -/
  form : Form
  /-- The items reduced so far, the last one first. -/
  reversed : List Value

/-- The items reduced so far, in order. -/
def Group.items (g : Group) : List Value := g.reversed.reverse

/-- The group with one more item. -/
def Group.push (g : Group) (v : Value) : Group := { g with reversed := v :: g.reversed }

/-- The symbol that a quote stands for. -/
def quoteName : Bytes := utf8 "quote"

/-- The productions that reduce a group, apart from those of its items. -/
def Form.reductions : Form → List Production
  | .bare => [.list]
  | .call => [.call]
  | .quoted => [.list, .quotedList]

/-- The value that a group's items make. -/
def Form.value (form : Form) (items : List Value) : Value :=
  match form with
  | .quoted => .list [.symbol quoteName, .list items]
  | _ => .list items

/-- The production that makes a group an item. -/
def Form.asItem : Form → Production
  | .bare => .itemList
  | .call => .itemCall
  | .quoted => .itemQuoted

/-- The production that makes a group an expression.  No bare list gets there. -/
def Form.asExpression : Form → Production
  | .bare => .expAtom
  | .call => .expCall
  | .quoted => .expQuoted

/-- The productions of a group that closes, innermost first. -/
def Group.reductions (g : Group) : List Production :=
  .itemsEmpty :: List.replicate g.items.length .itemsMore ++ g.form.reductions

/-- The productions that make a token an atom. -/
def atomReductions : TokenKind → List Production
  | .symbol => [.atomSymbol]
  | .number => [.atomNumber]
  | .text => [.atomText]
  | .true => [.boolTrue, .atomBool]
  | .false => [.boolFalse, .atomBool]
  | .nil => [.atomNil]
  | _ => []

/-! ### The automaton -/

/-- The productions of a parse, in the order they were reduced, and its outcome. -/
structure Parse where
  /-- The productions. -/
  reductions : List Production
  /-- The expression, or the error at which parsing stopped. -/
  outcome : Except SyntaxError Value

namespace Parse

/-- Parsing stops. -/
def reject (e : SyntaxError) : Parse := ⟨[], .error e⟩

/-- The same parse with productions reduced before it. -/
def after (reduced : List Production) (p : Parse) : Parse := { p with reductions := reduced ++ p.reductions }

/-- A whole expression has been reduced; nothing but the end may follow. -/
def finish (v : Value) (next : Token) : Parse :=
  if next.kind = .endOfInput then ⟨[], .ok v⟩
  else reject (.unexpected next (utf8 "end of input"))

end Parse

/-- The form of a group from the quote in front of it and the token behind its parenthesis. -/
def formOf (quoted : Bool) (next : Token) : Form :=
  if quoted then .quoted else if next.kind = .symbol then .call else .bare

/-- Parses the tokens that are left.  `final` stands for the end of the text where the tokens
run out, `stack` holds the open groups with the innermost first, and `quoted` tells that a
quote has just been shifted. -/
def parseFrom (final : Token) (stack : List Group) (quoted : Bool) : List Token → Parse
  | [] => stop final stack final
  | t :: rest =>
    let next := rest.headD final
    match t.kind with
    | .quote =>
      if next.kind = .leftParen then parseFrom final stack true rest
      else .reject (.unexpected next (utf8 "("))
    | .leftParen =>
      let form := formOf quoted next
      if stack.isEmpty && form = .bare then .reject (.unexpected next (utf8 "SYMBOL"))
      else parseFrom final (⟨t.place, form, []⟩ :: stack) false rest
    | .rightParen =>
      match stack with
      | [] => .reject (.unexpected t (utf8 "expression"))
      | g :: below =>
        let v := g.form.value g.items
        match below with
        | [] => (Parse.finish v next).after (g.reductions ++ [g.form.asExpression])
        | outer :: below =>
          (parseFrom final (outer.push v :: below) false rest).after
            (g.reductions ++ [g.form.asItem])
    | .endOfInput => stop t stack next
    | .invalid => .reject ⟨t, [], .invalidToken⟩
    | kind =>
      match stack with
      | [] => (Parse.finish t.value next).after (atomReductions kind ++ [.expAtom])
      | g :: below =>
        (parseFrom final (g.push t.value :: below) false rest).after
          (atomReductions kind ++ [.itemAtom])
where
  /-- The text ends at the token `t`. -/
  stop (t : Token) (stack : List Group) (next : Token) : Parse :=
    match stack with
    | [] => (Parse.finish .nil next).after [.atomEmpty, .expAtom]
    | g :: _ => .reject ⟨t, utf8 "matching ) for " ++ g.opened.render, .endOfInput⟩

/-- The end of a token stream that does not hold one: it is placed at the last token. -/
def streamEnd (tokens : List Token) : Token :=
  .endOfInput ((tokens.getLast?.map Token.place).getD .nowhere)

/-- Parses a token stream that holds exactly one expression. -/
def parse (tokens : List Token) : Parse := parseFrom (streamEnd tokens) [] false tokens

/-- Reads a text that holds exactly one expression. -/
def read (source text : Bytes) : Except SyntaxError Value :=
  match Token.tokenize source text with
  | .ok tokens => (parse tokens).outcome
  | .error e => .error e

end TinyLisp.Grammar
