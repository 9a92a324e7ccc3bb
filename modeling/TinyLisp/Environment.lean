/-
Environments and substitution.

An environment is a chain of frames, the innermost first.  A frame binds a name to
a value or hides it, in which case the bindings further out are not seen below it.

`substitute` puts the values of visible names in place of their symbols.  It is
capture-aware in one respect: a `let` inside the tree that binds a name keeps its
own body free of the outer value, while the expression it binds still sees it.  The
values themselves are inserted as they are and never looked into again.
-/
import TinyLisp.Value.Basic

namespace TinyLisp

/-- One frame of an environment. -/
structure Frame where
  /-- The name it is about. -/
  name : Bytes
  /-- The value bound to the name; none hides it. -/
  value? : Option Value

/-- A chain of frames, the innermost first. -/
abbrev Env := List Frame

namespace Env

/-- The environment with a name bound on the inside. -/
def bind (env : Env) (name : Bytes) (value : Value) : Env := ⟨name, some value⟩ :: env

/-- The environment with a name hidden on the inside. -/
def hide (env : Env) (name : Bytes) : Env := ⟨name, none⟩ :: env

/-- The value that a name has; the innermost frame about it decides. -/
def lookup? : Env → Bytes → Option Value
  | [], _ => none
  | frame :: outer, name => if frame.name = name then frame.value? else lookup? outer name

/-- The number of frames. -/
def depth (env : Env) : Nat := env.length

end Env

/-! ### The binding of a let

A binding is written `(name value)` or `((name value))`.
-/

/-- The name of the special form that binds. -/
def letName : Bytes := utf8 "let"

/-- The two elements of a binding, whether or not the first is a name. -/
def bindingPair? : Value → Option (Value × Value)
  | .list [.list [a, b]] => some (a, b)
  | .list [a, b] => some (a, b)
  | _ => none

/-- The name and the value of a binding. -/
def letBinding? (v : Value) : Option (Bytes × Value) :=
  match bindingPair? v with
  | some (.symbol name, value) => some (name, value)
  | _ => none

/-! ### Substitution -/

mutual

/-- The tree with the values of visible names in place of their symbols. -/
def substitute (env : Env) : Value → Value
  | .symbol name => (env.lookup? name).getD (.symbol name)
  | .list [.symbol head, .list [.symbol x, v], body] =>
    if head = letName then
      .list [.symbol head, .list [.symbol x, substitute env v], substitute (env.hide x) body]
    else .list (substituteItems env [.symbol head, .list [.symbol x, v], body])
  | .list [.symbol head, .list [.list [.symbol x, v]], body] =>
    if head = letName then
      .list [.symbol head, .list [.list [.symbol x, substitute env v]], substitute (env.hide x) body]
    else .list (substituteItems env [.symbol head, .list [.list [.symbol x, v]], body])
  | .list items => .list (substituteItems env items)
  | v => v

/-- Substitution in every element of a list. -/
def substituteItems (env : Env) : List Value → List Value
  | [] => []
  | v :: rest => substitute env v :: substituteItems env rest

end

end TinyLisp
