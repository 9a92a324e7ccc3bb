/-
What a text literal stands for.

The end of a literal is found by one walk over its bytes, and its escapes are replaced by
another.  Nothing ties the two together but the bytes themselves, so they have to pair
every backslash with the same byte behind it, however many backslashes stand in a row.

Two relations say what a literal means without walking over it as either of them does.
`Encodes` is how a text may be written down: a double quote and a backslash need a
backslash in front, a line feed, a carriage return and a tab may have a letter instead,
and every byte but the first two may stand for itself.  `Decodes` is how a body is read
from left to right: a backslash and a letter it goes with are one byte, a backslash and
anything else are both kept.

A body that the first walk delimits has exactly one reading (`decodes_iff`), and what is
written down is such a body and reads as the text it was written for
(`Encodes.literalBody`, `Encodes.decodes`).  That the second walk is a plain replacement
in one pass is `unescape_eq_replaced`.
-/
import Mathlib
import TinyLisp.Proofs.Token.Lexemes
import TinyLisp.Proofs.Token.Order

namespace TinyLisp

/-! ### Replacement in one pass -/

namespace Bytes

/-- Replaces texts by others in one pass from left to right.  Where several of them begin, the
first in the list is replaced; what has been replaced is passed over, which `skip` counts, and
what has been put in its place is not looked at again. -/
def replaceFrom (pairs : List (Bytes × Bytes)) : (skip : Nat) → Bytes → Bytes
  | _, [] => []
  | skip + 1, _ :: rest => replaceFrom pairs skip rest
  | 0, b :: rest =>
    match pairs.find? (·.1.isPrefixOf (b :: rest)) with
    | some (old, new) => new ++ replaceFrom pairs (old.length - 1) rest
    | none => b :: replaceFrom pairs 0 rest

/-- The text with all replacements made. -/
def replaced (pairs : List (Bytes × Bytes)) (s : Bytes) : Bytes := replaceFrom pairs 0 s

end Bytes

/-! ### Writing and reading literals -/

namespace Literal

/-- The bytes that go with a backslash in front of them, each with the byte that both stand
for. -/
def escapes : List (UInt8 × UInt8) :=
  [(Byte.doubleQuote, Byte.doubleQuote), (Byte.backslash, Byte.backslash),
    (110, Byte.lineFeed), (114, Byte.carriageReturn), (116, Byte.tab)]

/-- The same as texts and what they are replaced by. -/
def replacements : List (Bytes × Bytes) :=
  escapes.map fun (c, d) => ([Byte.backslash, c], [d])

/-- The ways to write a byte down. -/
inductive Spelling : UInt8 → Bytes → Prop
  /-- It stands for itself. -/
  | raw {b : UInt8} (hquote : b ≠ Byte.doubleQuote) (hslash : b ≠ Byte.backslash) :
      Spelling b [b]
  /-- It has an escape. -/
  | escape {c d : UInt8} (h : (c, d) ∈ escapes) : Spelling d [Byte.backslash, c]

/-- The ways to write a text down, byte by byte. -/
inductive Encodes : Bytes → Bytes → Prop
  | nil : Encodes [] []
  | cons {b : UInt8} {x v e : Bytes} (hb : Spelling b x) (rest : Encodes v e) :
      Encodes (b :: v) (x ++ e)

/-- The reading of a body from left to right. -/
inductive Decodes : Bytes → Bytes → Prop
  | nil : Decodes [] []
  /-- Any byte but a backslash is what it is. -/
  | plain {b : UInt8} {body v : Bytes} (hb : b ≠ Byte.backslash) (rest : Decodes body v) :
      Decodes (b :: body) (b :: v)
  /-- A backslash and a byte it goes with are one byte. -/
  | escape {c d : UInt8} {body v : Bytes} (h : (c, d) ∈ escapes) (rest : Decodes body v) :
      Decodes (Byte.backslash :: c :: body) (d :: v)
  /-- A backslash and any other byte are both kept. -/
  | kept {c : UInt8} {body v : Bytes} (h : ∀ d, (c, d) ∉ escapes) (rest : Decodes body v) :
      Decodes (Byte.backslash :: c :: body) (Byte.backslash :: c :: v)

variable {b c d : UInt8} {body v e x : Bytes}

/-! ### The escapes -/

theorem escaped?_eq_some_iff : Piece.escaped? c = some d ↔ (c, d) ∈ escapes := by
  constructor
  · intro h
    unfold Piece.escaped? at h
    (repeat' split at h) <;> simp_all [escapes]
  · intro h
    simp only [escapes, List.mem_cons, Prod.mk.injEq, List.not_mem_nil, or_false] at h
    rcases h with ⟨rfl, rfl⟩ | ⟨rfl, rfl⟩ | ⟨rfl, rfl⟩ | ⟨rfl, rfl⟩ | ⟨rfl, rfl⟩ <;> rfl

theorem escaped?_eq_none_iff : Piece.escaped? c = none ↔ ∀ d, (c, d) ∉ escapes := by
  rw [Option.eq_none_iff_forall_ne_some]
  exact forall_congr' fun d => not_congr escaped?_eq_some_iff

theorem unescape_plain (hb : b ≠ Byte.backslash) (body : Bytes) :
    Piece.unescape (b :: body) = b :: Piece.unescape body := by
  cases body with
  | nil => rfl
  | cons c rest => exact if_neg hb

theorem unescape_slash (c : UInt8) (body : Bytes) :
    Piece.unescape (Byte.backslash :: c :: body) =
      match Piece.escaped? c with
      | some d => d :: Piece.unescape body
      | none => Byte.backslash :: c :: Piece.unescape body := by
  refine (if_pos rfl).trans ?_
  cases Piece.escaped? c with
  | none => rfl
  | some d => rfl

/-! ### A body has one reading -/

theorem Decodes.unescape_eq (h : Decodes body v) : Piece.unescape body = v := by
  induction h with
  | nil => rfl
  | plain hb _ ih => rw [unescape_plain hb, ih]
  | escape hc _ ih => rw [unescape_slash, escaped?_eq_some_iff.mpr hc, ih]
  | kept hc _ ih => rw [unescape_slash, escaped?_eq_none_iff.mpr hc, ih]

/-- **A body that is delimited has a reading**, since a backslash never stands at its end. -/
theorem decodes_of_literalBody (h : LiteralBody body) : Decodes body (Piece.unescape body) := by
  induction h with
  | nil => exact .nil
  | plain _ hslash _ ih =>
      rw [unescape_plain hslash]
      exact .plain hslash ih
  | @escape c body _ ih =>
      rw [unescape_slash]
      cases hc : Piece.escaped? c with
      | none => exact .kept (escaped?_eq_none_iff.mp hc) ih
      | some d => exact .escape (escaped?_eq_some_iff.mp hc) ih

theorem decodes_iff (h : LiteralBody body) : Decodes body v ↔ v = Piece.unescape body := by
  constructor
  · intro hv
    exact hv.unescape_eq.symm
  · rintro rfl
    exact decodes_of_literalBody h

/-! ### What is written down is read back -/

/-- What is written down has no double quote that a backslash does not escape. -/
theorem Encodes.literalBody (h : Encodes v e) : LiteralBody e := by
  induction h with
  | nil => exact .nil
  | cons hb _ ih =>
      cases hb with
      | raw hquote hslash => exact .plain hquote hslash ih
      | escape => exact .escape ih

theorem Encodes.decodes (h : Encodes v e) : Decodes e v := by
  induction h with
  | nil => exact .nil
  | cons hb _ ih =>
      cases hb with
      | raw _ hslash => exact .plain hslash ih
      | escape hc => exact .escape hc ih

/-! ### Reading is replacing -/

theorem replaceFrom_escape (h : (c, d) ∈ escapes) (rest : Bytes) :
    Bytes.replaceFrom replacements 0 (Byte.backslash :: c :: rest)
      = d :: Bytes.replaceFrom replacements 0 rest := by
  simp only [escapes, List.mem_cons, Prod.mk.injEq, List.not_mem_nil, or_false] at h
  rcases h with ⟨rfl, rfl⟩ | ⟨rfl, rfl⟩ | ⟨rfl, rfl⟩ | ⟨rfl, rfl⟩ | ⟨rfl, rfl⟩ <;> rfl

/-- Nothing is replaced where no escape begins. -/
theorem replaceFrom_other {rest : Bytes}
    (h : ∀ c d, (c, d) ∈ escapes → ¬ [Byte.backslash, c] <+: b :: rest) :
    Bytes.replaceFrom replacements 0 (b :: rest)
      = b :: Bytes.replaceFrom replacements 0 rest := by
  have hnone : replacements.find? (·.1.isPrefixOf (b :: rest)) = none := by
    rw [List.find?_eq_none]
    intro pair hpair
    obtain ⟨⟨c, d⟩, hc, rfl⟩ := List.mem_map.mp hpair
    simpa using h c d hc
  rw [Bytes.replaceFrom, hnone]

/-- **Escapes are replaced in one pass**, also in a body that ends with a backslash. -/
theorem unescape_eq_replaced (s : Bytes) : Piece.unescape s = s.replaced replacements := by
  unfold Bytes.replaced
  fun_induction Piece.unescape s with
  | case1 => rfl
  | case2 b =>
      rw [replaceFrom_other (by simp)]
      rfl
  | case3 c rest d hc ih =>
      rw [replaceFrom_escape (escaped?_eq_some_iff.mp hc), ih]
  | case4 c rest hc ih =>
      have hkept := escaped?_eq_none_iff.mp hc
      -- a byte that goes with no backslash is none itself, so no escape begins with it either
      have hslash : c ≠ Byte.backslash := by
        rintro rfl
        cases hc
      rw [replaceFrom_other, replaceFrom_other, ih]
      · intro c' d _ hstart
        exact hslash (List.cons_prefix_cons.mp hstart).1.symm
      · intro c' d hd hstart
        obtain ⟨-, hnext⟩ := List.cons_prefix_cons.mp hstart
        obtain ⟨rfl, -⟩ := List.cons_prefix_cons.mp hnext
        exact hkept d hd
  | case5 b c rest hb ih =>
      rw [replaceFrom_other, ih]
      intro c' d _ hstart
      exact hb (List.cons_prefix_cons.mp hstart).1.symm

end Literal

/-! ### The tokens of literals -/

namespace Token

open Literal

/-- A literal that makes up a whole text is its only token. -/
theorem tokenize_literal {body : Bytes} (h : LiteralBody body) (source : Bytes) :
    ∃ t place, tokenize source (Byte.doubleQuote :: body ++ [Byte.doubleQuote])
        = .ok [t, endOfInput place] ∧
      t.kind = .text ∧ t.value = .text (Piece.unescape body) := by
  have hyields : Yields (Byte.doubleQuote :: body ++ [Byte.doubleQuote]) []
      fun ts => ∃ t, ts = [t] ∧ t.kind = .text ∧ t.value = .text (Piece.unescape body) :=
    yields_token (Piece.scan_literal h []) rfl fun t hkind hvalue => ⟨t, rfl, hkind, hvalue⟩
  obtain ⟨_, place, ⟨t, rfl, hkind, hvalue⟩, htokens⟩ := hyields.tokenize source
  exact ⟨t, place, htokens, hkind, hvalue⟩

/-- Every literal that the scanner cuts off has a body. -/
theorem literalBody_of_mem_scan {s body : Bytes} (h : .literal body ∈ (Piece.scan s).1) :
    LiteralBody body := by
  fun_induction Piece.scan s with
  | case1 => simp at h
  | case2 => simp at h
  | case3 b rest p after hn pieces tail hs ih =>
      rw [hs] at ih
      rcases List.mem_cons.mp h with rfl | h
      · exact Piece.next?_fits hn
      · exact ih h

/-- Only a literal makes a token that is a text. -/
theorem literal_of_meaning? {p : Piece} {value : Value} (h : p.meaning? = some (.text, value)) :
    ∃ body, p = .literal body ∧ value = .text (Piece.unescape body) := by
  cases p with
  | literal body =>
      obtain ⟨-, rfl⟩ := Prod.mk.inj (Option.some.inj h)
      exact ⟨body, rfl, rfl⟩
  | word w =>
      have hkind := Piece.classify_kind w
      rw [Option.some.inj h] at hkind
      simp [Shape.kinds] at hkind
  | _ => cases h

theorem literal_of_mem_ofPieces {t : Token} (pieces : List Piece) (p : Place)
    (ht : t ∈ ofPieces p pieces) (hkind : t.kind = .text) :
    ∃ body, .literal body ∈ pieces ∧
      t.lexeme = Byte.doubleQuote :: body ++ [Byte.doubleQuote] ∧
      t.value = .text (Piece.unescape body) := by
  induction pieces generalizing p with
  | nil =>
      obtain rfl := List.mem_singleton.mp ht
      cases hkind
  | cons piece rest ih =>
      rcases mem_ofPieces_cons ht with ht | ht
      · obtain ⟨hmeaning, hlexeme, -⟩ := ofPiece?_eq ht
        rw [hkind] at hmeaning
        obtain ⟨body, rfl, hvalue⟩ := literal_of_meaning? hmeaning
        exact ⟨body, List.mem_cons_self, hlexeme, hvalue⟩
      · obtain ⟨body, hmem, hbody⟩ := ih _ ht
        exact ⟨body, List.mem_cons_of_mem piece hmem, hbody⟩

/-- **Text literals decode what was encoded.**  A text written down between two double quotes, in
any of the ways there are, is a single token that stands for that text.  And whatever literal is
cut off, it stands for the one reading of its body from left to right, which is the body with
all escapes replaced in one pass. -/
theorem tokenize_literal_decodes (source : Bytes) :
    (∀ v e, Encodes v e → ∃ t place,
      tokenize source (Byte.doubleQuote :: e ++ [Byte.doubleQuote])
          = .ok [t, endOfInput place] ∧
        t.kind = .text ∧ t.value = .text v) ∧
    ∀ s tokens, tokenize source s = .ok tokens → ∀ t ∈ tokens, t.kind = .text →
      ∃ body v : Bytes, t.lexeme = Byte.doubleQuote :: body ++ [Byte.doubleQuote] ∧
        t.value = .text v ∧ v = body.replaced replacements ∧ ∀ w, Decodes body w ↔ w = v := by
  refine ⟨?_, ?_⟩
  · intro v e h
    obtain ⟨t, place, htokens, hkind, hvalue⟩ := tokenize_literal h.literalBody source
    rw [h.decodes.unescape_eq] at hvalue
    exact ⟨t, place, htokens, hkind, hvalue⟩
  · intro s tokens h t ht hkind
    obtain ⟨-, rfl⟩ := tokenize_eq_ok.mp h
    obtain ⟨body, hmem, hlexeme, hvalue⟩ := literal_of_mem_ofPieces _ _ ht hkind
    exact ⟨body, _, hlexeme, hvalue, unescape_eq_replaced body,
      fun w => decodes_iff (literalBody_of_mem_scan hmem)⟩

/-- The literal `"\\\q"`: the first two backslashes are one, the third is kept with its letter. -/
def threeSlashes : Token := ⟨.text, utf8 "\"\\\\\\q\"", .text (utf8 "\\\\q"), .start []⟩

/-- A backslash and a double quote are written down as `\\\"` and come back; and of three
backslashes in front of a letter two are left. -/
theorem tokenize_literal_slashes :
    Encodes (utf8 "\\\"") (utf8 "\\\\\\\"") ∧
      (∃ t place, tokenize [] (utf8 "\"\\\\\\\"\"") = .ok [t, endOfInput place] ∧
        t.value = .text (utf8 "\\\"")) ∧
      tokenize [] threeSlashes.lexeme = .ok [threeSlashes, endOfInput ⟨[], 1, 7⟩] ∧
      ∀ w, Decodes (utf8 "\\\\\\q") w ↔ w = utf8 "\\\\q" := by
  have hencodes : Encodes (utf8 "\\\"") (utf8 "\\\\\\\"") :=
    .cons (.escape (by decide)) (.cons (.escape (by decide)) .nil)
  have htokens : tokenize [] threeSlashes.lexeme
      = .ok [threeSlashes, endOfInput ⟨[], 1, 7⟩] := by cbv
  obtain ⟨t, place, hone, -, hvalue⟩ := (tokenize_literal_decodes []).1 _ _ hencodes
  obtain ⟨body, v, hlexeme, hv, -, hreads⟩ :=
    (tokenize_literal_decodes []).2 _ _ htokens threeSlashes List.mem_cons_self rfl
  obtain rfl : body = utf8 "\\\\\\q" :=
    (List.append_cancel_right (List.cons.inj hlexeme).2).symm
  obtain rfl : v = utf8 "\\\\q" := (Value.text.inj hv).symm
  exact ⟨hencodes, ⟨t, place, hone, hvalue⟩, htokens, hreads⟩

end Token

end TinyLisp
