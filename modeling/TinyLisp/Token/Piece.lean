/-
Cutting a text into pieces.

A text is a sequence of pieces: blanks and comments, parentheses and quotes, text
literals and words.  The first byte of a piece decides what it is and how far it
reaches, so the text is cut from left to right without looking back.  A word takes
every byte up to the next delimiter and a literal every byte up to the first double
quote that no backslash escapes.

Nothing is dropped: `scan` returns the pieces and the tail it could not cut, which
is empty unless a literal is left open.  All delimiters are ASCII, so cutting bytes
never cuts a character.
-/
import TinyLisp.Text.Bytes

namespace TinyLisp

/-- A piece of a program text. -/
inductive Piece where
  /-- One blank. -/
  | blank (b : UInt8)
  /-- A comment from its semicolon up to the end of the line, which is not part of it. -/
  | comment (body : Bytes)
  /-- An opening parenthesis. -/
  | leftParen
  /-- A closing parenthesis. -/
  | rightParen
  /-- A single quote. -/
  | quote
  /-- A text literal, without its double quotes. -/
  | literal (body : Bytes)
  /-- A symbol, a number or the name of a constant. -/
  | word (bytes : Bytes)
  deriving DecidableEq, Repr

namespace Piece

/-- A byte that is skipped between tokens. -/
def isBlank (b : UInt8) : Bool :=
  b == Byte.space || b == Byte.tab || b == Byte.carriageReturn || b == Byte.lineFeed

/-- A byte that ends a word. -/
def isDelimiter (b : UInt8) : Bool :=
  isBlank b || b == Byte.leftParen || b == Byte.rightParen || b == Byte.singleQuote ||
    b == Byte.doubleQuote || b == Byte.semicolon

/-- The bytes of a piece. -/
def bytes : Piece → Bytes
  | .blank b => [b]
  | .comment body => Byte.semicolon :: body
  | .leftParen => [Byte.leftParen]
  | .rightParen => [Byte.rightParen]
  | .quote => [Byte.singleQuote]
  | .literal body => Byte.doubleQuote :: body ++ [Byte.doubleQuote]
  | .word bytes => bytes

/-- The body of a literal and what follows its closing quote.  A backslash takes the next
byte with it, whatever that is. -/
def closeLiteral? : Bytes → Option (Bytes × Bytes)
  | [] => none
  | b :: rest =>
    if b = Byte.doubleQuote then some ([], rest)
    else if b = Byte.backslash then
      match rest with
      | [] => none
      | c :: rest => (closeLiteral? rest).map fun (body, after) => (b :: c :: body, after)
    else (closeLiteral? rest).map fun (body, after) => (b :: body, after)

/-- The piece that starts with `b` and what follows it; none if it is a literal left open. -/
def next? (b : UInt8) (rest : Bytes) : Option (Piece × Bytes) :=
  if isBlank b then some (.blank b, rest)
  else if b = Byte.leftParen then some (.leftParen, rest)
  else if b = Byte.rightParen then some (.rightParen, rest)
  else if b = Byte.singleQuote then some (.quote, rest)
  else if b = Byte.semicolon then
    some (.comment (rest.takeWhile (· != Byte.lineFeed)), rest.dropWhile (· != Byte.lineFeed))
  else if b = Byte.doubleQuote then
    (closeLiteral? rest).map fun (body, after) => (.literal body, after)
  else
    some (.word (b :: rest.takeWhile (!isDelimiter ·)), rest.dropWhile (!isDelimiter ·))

/-! ### A piece and its rest are the text

Closing a literal and taking a piece both split the bytes they are given, which is
all that the recursion of `scan` needs and the reason why it loses nothing.
-/

theorem closeLiteral?_eq {s body after : Bytes} (h : closeLiteral? s = some (body, after)) :
    s = body ++ Byte.doubleQuote :: after := by
  fun_induction closeLiteral? s generalizing body after with
  | case1 => simp at h
  | case2 rest => simp_all
  | case3 => simp at h
  | case4 c rest _ ih =>
    obtain ⟨⟨body', after'⟩, hr, he⟩ := Option.map_eq_some_iff.mp h
    obtain ⟨rfl, rfl⟩ := Prod.mk.injEq .. ▸ he
    simp [ih hr]
  | case5 b rest _ _ ih =>
    obtain ⟨⟨body', after'⟩, hr, he⟩ := Option.map_eq_some_iff.mp h
    obtain ⟨rfl, rfl⟩ := Prod.mk.injEq .. ▸ he
    simp [ih hr]

/-- A piece and what follows it make up the text. -/
theorem next?_eq {b : UInt8} {rest after : Bytes} {p : Piece} (h : next? b rest = some (p, after)) :
    b :: rest = p.bytes ++ after := by
  unfold next? at h
  (repeat' split at h) <;>
    simp only [Option.some.injEq, Prod.mk.injEq, Option.map_eq_some_iff, Prod.exists] at h
  case isFalse.isFalse.isFalse.isFalse.isFalse.isTrue hb =>
    obtain ⟨body, after', hr, rfl, rfl⟩ := h
    simp [bytes, closeLiteral?_eq hr, hb]
  all_goals
    obtain ⟨rfl, rfl⟩ := h
    simp_all [bytes]

/-- Every piece has bytes, so cutting one off leaves less. -/
theorem next?_length {b : UInt8} {rest after : Bytes} {p : Piece}
    (h : next? b rest = some (p, after)) : after.length < (b :: rest).length := by
  have hlen : p.bytes ≠ [] := by
    unfold next? at h
    cases p <;> simp [bytes]
    intro hw
    subst hw
    (repeat' split at h) <;> simp_all
  rw [next?_eq h, List.length_append]
  have := List.length_pos_iff.mpr hlen
  omega

/-- The pieces of a text, and the tail from a double quote on that is never closed. -/
def scan : Bytes → List Piece × Bytes
  | [] => ([], [])
  | b :: rest =>
    match _h : next? b rest with
    | none => ([], b :: rest)
    | some (p, after) =>
      let (pieces, tail) := scan after
      (p :: pieces, tail)
termination_by s => s.length
decreasing_by exact next?_length _h

end Piece

end TinyLisp
