/-
How a text in front of another one is cut.

The scanner decides by the first byte what a piece is, and only a word has to look
further: it reaches up to the next delimiter.  So a text that is written piece by
piece is cut into just these pieces if every word in it is followed by a delimiter
or by the end, and the text behind it is cut as if nothing stood in front.

`Yields s rest D` says that of a text `s` in front of `rest`: it contributes tokens
of its own, which satisfy `D`, and then come the tokens of `rest`.  The places of
the tokens are left open.  They depend on all that stands in front, and no meaning
depends on them.
-/
import TinyLisp.Token.Lexer

namespace TinyLisp

namespace Piece

/-! ### One piece -/

theorem scan_cons {b : UInt8} {rest after : Bytes} {p : Piece}
    (h : next? b rest = some (p, after)) :
    scan (b :: rest) = (p :: (scan after).1, (scan after).2) := by
  rw [scan]
  split
  · rename_i hn
    rw [h] at hn
    simp at hn
  · rename_i q after' hn
    rw [h] at hn
    obtain ⟨rfl, rfl⟩ := Prod.mk.inj (Option.some.inj hn)
    rfl

theorem scan_nil : scan [] = ([], []) := by
  rw [scan]

theorem scan_of_none {b : UInt8} {rest : Bytes} (h : next? b rest = none) :
    scan (b :: rest) = ([], b :: rest) := by
  rw [scan]
  split
  · rfl
  · rename_i q after hn
    rw [h] at hn
    simp at hn

/-- A byte that is a piece by itself is cut off, whatever follows it. -/
theorem scan_single {b : UInt8} {p : Piece} (h : ∀ rest, next? b rest = some (p, rest))
    (rest : Bytes) : scan (b :: rest) = (p :: (scan rest).1, (scan rest).2) :=
  scan_cons (h rest)

/-! ### Words -/

/-- A text that a word in front of it does not reach into. -/
def EndsWord (rest : Bytes) : Prop := ∀ b ∈ rest.head?, isDelimiter b = true

theorem endsWord_nil : EndsWord [] := by
  intro b hb
  simp at hb

theorem endsWord_cons {b : UInt8} (h : isDelimiter b = true) (rest : Bytes) :
    EndsWord (b :: rest) := by
  intro c hc
  obtain rfl : b = c := by simpa using hc
  exact h

/-- A byte that ends no word starts one. -/
theorem next?_word {b : UInt8} (h : isDelimiter b = false) (rest : Bytes) :
    next? b rest
      = some (.word (b :: rest.takeWhile (!isDelimiter ·)), rest.dropWhile (!isDelimiter ·)) := by
  simp only [isDelimiter, Bool.or_eq_false_iff, beq_eq_false_iff_ne] at h
  obtain ⟨⟨⟨⟨⟨hblank, hleft⟩, hright⟩, hsingle⟩, hdouble⟩, hsemi⟩ := h
  rw [next?, if_neg (by simp [hblank]), if_neg hleft, if_neg hright, if_neg hsingle,
    if_neg hsemi, if_neg hdouble]

theorem takeWhile_endsWord {rest : Bytes} (h : EndsWord rest) :
    rest.takeWhile (!isDelimiter ·) = [] ∧ rest.dropWhile (!isDelimiter ·) = rest := by
  cases rest with
  | nil => exact ⟨rfl, rfl⟩
  | cons b rest =>
      have hb : isDelimiter b = true := h b (by simp)
      exact ⟨by simp [hb], by simp [hb]⟩

/-- A word is cut off whole in front of a delimiter or the end. -/
theorem scan_word {w rest : Bytes} (hne : w ≠ []) (hw : ∀ b ∈ w, isDelimiter b = false)
    (hrest : EndsWord rest) : scan (w ++ rest) = (.word w :: (scan rest).1, (scan rest).2) := by
  obtain ⟨b, w, rfl⟩ := List.exists_cons_of_ne_nil hne
  have hb : isDelimiter b = false := hw b (by simp)
  have hin : ∀ c ∈ w, (!isDelimiter c) = true := by
    intro c hc
    rw [hw c (by simp [hc])]
    rfl
  obtain ⟨htake, hdrop⟩ := takeWhile_endsWord hrest
  refine scan_cons ?_
  show next? b (w ++ rest) = _
  rw [next?_word hb, List.takeWhile_append_of_pos hin, List.dropWhile_append_of_pos hin, htake,
    hdrop, List.append_nil]

/-! ### The meaning of words -/

/-- Only a word that is no constant and no number is a symbol, and then it names itself. -/
theorem classify_symbol {w : Bytes} (h : (classify w).1 = .symbol) :
    classify w = (.symbol, .symbol w) := by
  unfold classify at h ⊢
  by_cases htrue : (w = utf8 "#t" || w = utf8 "true") = true
  · rw [if_pos htrue] at h
    cases h
  · rw [if_neg htrue] at h ⊢
    by_cases hfalse : (w = utf8 "#f" || w = utf8 "false") = true
    · rw [if_pos hfalse] at h
      cases h
    · rw [if_neg hfalse] at h ⊢
      by_cases hnil : w = utf8 "nil"
      · rw [if_pos hnil] at h
        cases h
      · rw [if_neg hnil] at h ⊢
        cases hn : number? w with
        | some v =>
            rw [hn] at h
            cases h
        | none => rfl

/-- A word that reads as a number is one: no constant begins like a number. -/
theorem classify_number {w : Bytes} {v : Value} (h : number? w = some v) :
    classify w = (.number, v) := by
  have hno : ∀ c : Bytes, looksNumeric c = false → w ≠ c := by
    rintro c hc rfl
    simp [number?, hc] at h
  have htrue : (w = utf8 "#t" || w = utf8 "true") = false := by
    simp [hno (utf8 "#t") (by decide), hno (utf8 "true") (by decide)]
  have hfalse : (w = utf8 "#f" || w = utf8 "false") = false := by
    simp [hno (utf8 "#f") (by decide), hno (utf8 "false") (by decide)]
  simp [classify, htrue, hfalse, hno (utf8 "nil") (by decide), h]

end Piece

namespace Token

/-! ### Tokens in front of tokens -/

/-- In front of `rest` the text `s` is cut off with tokens that satisfy `D`. -/
def Yields (s rest : Bytes) (D : List Token → Prop) : Prop :=
  (Piece.scan (s ++ rest)).2 = (Piece.scan rest).2 ∧
    ∀ place, ∃ ts place', D ts ∧
      ofPieces place (Piece.scan (s ++ rest)).1 = ts ++ ofPieces place' (Piece.scan rest).1

variable {s t rest : Bytes} {p : Piece} {D E F : List Token → Prop}

/-- A piece with a meaning is one token, and that has the bytes of the piece. -/
theorem yields_piece {kind : TokenKind} {value : Value}
    (h : Piece.scan (s ++ rest) = (p :: (Piece.scan rest).1, (Piece.scan rest).2))
    (hp : p.meaning? = some (kind, value)) (hD : ∀ place, D [⟨kind, p.bytes, value, place⟩]) :
    Yields s rest D := by
  rw [Yields, h]
  refine ⟨rfl, fun place => ⟨[⟨kind, p.bytes, value, place⟩], place.advance p.bytes, hD place, ?_⟩⟩
  rw [ofPieces, ofPiece?, hp]
  rfl

/-- Where only its kind and its value matter. -/
theorem yields_token {kind : TokenKind} {value : Value}
    (h : Piece.scan (s ++ rest) = (p :: (Piece.scan rest).1, (Piece.scan rest).2))
    (hp : p.meaning? = some (kind, value))
    (hD : ∀ t : Token, t.kind = kind → t.value = value → D [t]) : Yields s rest D :=
  yields_piece h hp fun _ => hD _ rfl rfl

/-- A byte that is a piece by itself is one token, if that has a meaning. -/
theorem yields_single {b : UInt8} {kind : TokenKind} {value : Value}
    (h : ∀ rest, Piece.next? b rest = some (p, rest)) (hp : p.meaning? = some (kind, value))
    (rest : Bytes) : Yields [b] rest fun ts => ∃ t : Token, ts = [t] ∧ t.kind = kind :=
  yields_token (Piece.scan_single h rest) hp fun t hk _ => ⟨t, rfl, hk⟩

/-- A piece without a meaning is no token. -/
theorem yields_nothing
    (h : Piece.scan (s ++ rest) = (p :: (Piece.scan rest).1, (Piece.scan rest).2))
    (hp : p.meaning? = none) (hD : D []) : Yields s rest D := by
  rw [Yields, h]
  refine ⟨rfl, fun place => ⟨[], place.advance p.bytes, hD, ?_⟩⟩
  rw [ofPieces, ofPiece?, hp]
  rfl

/-- Two texts in a row yield their tokens in a row. -/
theorem Yields.append (hs : Yields s (t ++ rest) D) (ht : Yields t rest E)
    (hF : ∀ ts us, D ts → E us → F (ts ++ us)) : Yields (s ++ t) rest F := by
  obtain ⟨htail, htokens⟩ := hs
  obtain ⟨htail', htokens'⟩ := ht
  rw [Yields, List.append_assoc]
  refine ⟨htail.trans htail', fun place => ?_⟩
  obtain ⟨ts, place', hts, heq⟩ := htokens place
  obtain ⟨us, place'', hus, heq'⟩ := htokens' place'
  exact ⟨ts ++ us, place'', hF ts us hts hus, by rw [heq, heq', List.append_assoc]⟩

theorem Yields.mono (h : Yields s rest D) (hE : ∀ ts, D ts → E ts) : Yields s rest E := by
  obtain ⟨htail, htokens⟩ := h
  refine ⟨htail, fun place => ?_⟩
  obtain ⟨ts, place', hts, heq⟩ := htokens place
  exact ⟨ts, place', hE ts hts, heq⟩

/-- A text that is cut off as a whole is tokenized with its tokens and its end. -/
theorem Yields.tokenize (h : Yields s [] D) (source : Bytes) :
    ∃ ts place, D ts ∧ Token.tokenize source s = .ok (ts ++ [endOfInput place]) := by
  obtain ⟨htail, htokens⟩ := h
  obtain ⟨ts, place, hts, heq⟩ := htokens (.start source)
  rw [List.append_nil, Piece.scan_nil] at htail heq
  refine ⟨ts, place, hts, ?_⟩
  simp only [Token.tokenize, htail, heq]
  rfl

end Token

end TinyLisp
