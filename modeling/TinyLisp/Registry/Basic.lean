/-
The table of functions.

A registry keeps its declarations in the order of their names and, beside them, an
outline: chapter titles and function names in the order they were declared.  A
sealed registry takes no more of either.

Declaring a name a second time is refused, but the new declaration has taken the
place of the old one by then.  In the outline a name that begins with the title
mark reads as a title, and an empty name is an entry of its own that no listing can
show.
-/
import TinyLisp.Registry.Declaration

namespace TinyLisp

/-- An entry of an outline. -/
inductive Heading where
  /-- The title of a chapter. -/
  | title (text : Bytes)
  /-- The name of a function. -/
  | function (name : Bytes)
  /-- An empty name. -/
  | nameless
  deriving DecidableEq, Repr

/-- The entry that a declared name makes. -/
def Heading.ofName : Bytes → Heading
  | [] => .nameless
  | b :: rest => if b = Byte.hash then .title rest else .function (b :: rest)

/-- A table of functions. -/
structure Registry where
  /-- The declarations, in the order of their names. -/
  entries : List Declaration
  /-- Titles and names in the order of declaration. -/
  outline : List Heading
  /-- No more declarations are taken. -/
  isSealed : Bool

namespace Registry

/-- The registry without declarations. -/
def empty : Registry := ⟨[], [], false⟩

/-- The declaration of a name. -/
def lookup? (r : Registry) (name : Bytes) : Option Declaration :=
  r.entries.find? (·.name == name)

/-- The number of declarations. -/
def size (r : Registry) : Nat := r.entries.length

/-- Puts a declaration at its place among entries ordered by name; an entry of the same name
gives way. -/
def insert (d : Declaration) : List Declaration → List Declaration
  | [] => [d]
  | e :: rest =>
    if d.name < e.name then d :: e :: rest
    else if d.name = e.name then d :: rest
    else e :: insert d rest

/-- Declares a function: the registry after it, and the crash if it was refused. -/
def declare (r : Registry) (d : Declaration) : Registry × Option Stop :=
  if r.isSealed then (r, some (.crash (utf8 "Declare on sealed registry: " ++ d.name)))
  else
    let entries := insert d r.entries
    match r.lookup? d.name with
    | some _ =>
      ({ r with entries := entries }, some (.crash (utf8 "duplicate declaration: " ++ d.name)))
    | none => ({ r with entries := entries, outline := r.outline ++ [.ofName d.name] }, none)

/-- Starts a chapter: the registry after it, and the crash if it was refused. -/
def declareTitle (r : Registry) (title : Bytes) : Registry × Option Stop :=
  if r.isSealed then (r, some (.crash (utf8 "DeclareTitle on sealed registry: " ++ title)))
  else ({ r with outline := r.outline ++ [.title title] }, none)

/-- Declares a function once more under another name. -/
def declareAlias (r : Registry) (d : Declaration) (name : Bytes) : Registry × Option Stop :=
  r.declare (d.aliased name)

/-- Takes no more declarations from now on. -/
def closed (r : Registry) : Registry := { r with isSealed := true }

/-! ### Declaring in a row -/

/-- One line of a chapter of declarations. -/
inductive Entry where
  /-- A chapter starts. -/
  | title (text : Bytes)
  /-- A function. -/
  | function (d : Declaration)

/-- Declares one entry. -/
def declareEntry (r : Registry) : Entry → Registry × Option Stop
  | .title text => r.declareTitle text
  | .function d => r.declare d

/-- Declares entries up to the first that is refused. -/
def declareAll (r : Registry) : List Entry → Registry × Option Stop
  | [] => (r, none)
  | e :: rest =>
    match r.declareEntry e with
    | (r, none) => declareAll r rest
    | (r, some stop) => (r, some stop)

end Registry

end TinyLisp
