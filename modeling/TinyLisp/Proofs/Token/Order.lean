/-
Tokens stand one behind the other.

A place is found by walking over bytes, and every character that is passed leads to a
later place: further right, or on the next line.  A piece has bytes, so the places of
the tokens of a text strictly increase.  In particular no token stands twice in it, and a
token that an error names is one of them and no other.

The lines of a token are those of the text it was read from.  It begins no earlier than
the text does, and it ends no later.
-/
import TinyLisp.Proofs.Token.Lines

namespace TinyLisp

theorem Rune.decode_ne_nil {s : Bytes} (h : s ≠ []) : decode s ≠ [] := by
  obtain ⟨a, rest, rfl⟩ := List.exists_cons_of_ne_nil h
  unfold decode decodeAfter
  (repeat' split) <;> simp

theorem Piece.scan_bytes_ne_nil (s : Bytes) : ∀ p ∈ (scan s).1, p.bytes ≠ [] := by
  fun_induction scan s with
  | case1 => simp
  | case2 b rest hn => simp
  | case3 b rest p after hn pieces tail hs ih =>
      rw [hs] at ih
      intro q hq
      rcases List.mem_cons.mp hq with rfl | hq
      · intro hempty
        have hall := next?_eq hn
        have hless := next?_length hn
        rw [hempty, List.nil_append] at hall
        rw [hall] at hless
        exact Nat.lt_irrefl _ hless
      · exact ih q hq

/-! ### Later places -/

namespace Place

/-- The place is on an earlier line, or further left on the same one. -/
def Precedes (p q : Place) : Prop :=
  p.line < q.line ∨ p.line = q.line ∧ p.column < q.column

theorem not_precedes_self (p : Place) : ¬ p.Precedes p := by
  simp [Precedes]

theorem Precedes.trans {p q r : Place} (hpq : p.Precedes q) (hqr : q.Precedes r) :
    p.Precedes r := by
  unfold Precedes at *
  omega

theorem precedes_step (p : Place) (r : Rune) : p.Precedes (p.step r) := by
  by_cases h : r = Rune.newline
  · subst h
    rw [step_newline]
    left
    show p.line < p.line + 1
    omega
  · rw [step_of_ne p h]
    right
    show p.line = p.line ∧ p.column < p.column + 1
    omega

theorem eq_or_precedes_foldl (runes : List Rune) (p : Place) :
    runes.foldl step p = p ∨ p.Precedes (runes.foldl step p) := by
  induction runes generalizing p with
  | nil => exact .inl rfl
  | cons r rest ih =>
      right
      rw [List.foldl_cons]
      rcases ih (p.step r) with heq | hlater
      · rw [heq]
        exact precedes_step p r
      · exact (precedes_step p r).trans hlater

theorem precedes_advance {s : Bytes} (hs : s ≠ []) (p : Place) : p.Precedes (p.advance s) := by
  obtain ⟨r, rest, hr⟩ := List.exists_cons_of_ne_nil (Rune.decode_ne_nil hs)
  unfold advance
  rw [hr, List.foldl_cons]
  rcases eq_or_precedes_foldl rest (p.step r) with heq | hlater
  · rw [heq]
    exact precedes_step p r
  · exact (precedes_step p r).trans hlater

theorem line_le_advance (p : Place) (s : Bytes) : p.line ≤ (p.advance s).line := by
  unfold advance
  rw [(foldl_step (Rune.decode s) p).2]
  omega

theorem line_le_past (p : Place) (pieces : List Piece) : p.line ≤ (p.past pieces).line := by
  rw [(past_line pieces p).2]
  omega

end Place

/-! ### Later tokens -/

namespace Token

/-- The place behind the last character of a token. -/
def finish (t : Token) : Place := t.place.advance t.lexeme

/-- The tokens of a piece and of what follows it. -/
theorem mem_ofPieces_cons {t : Token} {p : Place} {piece : Piece} {rest : List Piece}
    (h : t ∈ ofPieces p (piece :: rest)) :
    ofPiece? p piece = some t ∨ t ∈ ofPieces (p.advance piece.bytes) rest := by
  unfold ofPieces at h
  split at h
  · rename_i u hu
    rcases List.mem_cons.mp h with rfl | h
    · exact .inl hu
    · exact .inr h
  · exact .inr h

theorem ofPiece?_eq {t : Token} {p : Place} {piece : Piece} (h : ofPiece? p piece = some t) :
    piece.meaning? = some (t.kind, t.value) ∧ t.lexeme = piece.bytes ∧ t.place = p := by
  unfold ofPiece? at h
  obtain ⟨⟨kind, value⟩, hm, rfl⟩ := Option.map_eq_some_iff.mp h
  exact ⟨hm, rfl, rfl⟩

theorem meaning?_ne_invalid {p : Piece} {kind : TokenKind} {value : Value}
    (h : p.meaning? = some (kind, value)) : kind ≠ .invalid := by
  rintro rfl
  cases p with
  | word w =>
      have hw : (Piece.classify w).1 = .invalid := by rw [Option.some.inj h]
      unfold Piece.classify at hw
      (repeat' split at hw) <;> cases hw
  | _ => cases h

theorem ofPieces_ne_invalid (pieces : List Piece) (p : Place) :
    ∀ t ∈ ofPieces p pieces, t.kind ≠ .invalid := by
  induction pieces generalizing p with
  | nil =>
      intro t ht
      obtain rfl := List.mem_singleton.mp ht
      show TokenKind.endOfInput ≠ .invalid
      decide
  | cons piece rest ih =>
      intro t ht
      rcases mem_ofPieces_cons ht with ht | ht
      · exact meaning?_ne_invalid (ofPiece?_eq ht).1
      · exact ih _ t ht

theorem ofPieces_later (pieces : List Piece) (p : Place) :
    ∀ t ∈ ofPieces p pieces, t.place = p ∨ p.Precedes t.place := by
  induction pieces generalizing p with
  | nil =>
      intro t ht
      obtain rfl := List.mem_singleton.mp ht
      exact .inl rfl
  | cons piece rest ih =>
      intro t ht
      rcases mem_ofPieces_cons ht with ht | ht
      · exact .inl (ofPiece?_eq ht).2.2
      · have hnext := Place.eq_or_precedes_foldl (Rune.decode piece.bytes) p
        rcases ih _ t ht with heq | hlater
        · rw [heq]
          exact hnext
        · right
          rcases hnext with hsame | hbehind
          · unfold Place.advance at hlater
            rwa [hsame] at hlater
          · exact hbehind.trans hlater

theorem ofPieces_increasing {pieces : List Piece} (h : ∀ p ∈ pieces, p.bytes ≠ [])
    (p : Place) : (ofPieces p pieces).Pairwise fun t u => t.place.Precedes u.place := by
  induction pieces generalizing p with
  | nil => exact List.pairwise_singleton _ _
  | cons piece rest ih =>
      have hrest := ih (fun q hq => h q (by simp [hq])) (p.advance piece.bytes)
      unfold ofPieces
      split
      · rename_i t ht
        refine List.pairwise_cons.mpr ⟨?_, hrest⟩
        intro u hu
        rw [(ofPiece?_eq ht).2.2]
        have hbehind := Place.precedes_advance (h piece (by simp)) p
        rcases ofPieces_later rest _ u hu with heq | hlater
        · rw [heq]
          exact hbehind
        · exact hbehind.trans hlater
      · exact hrest

/-- **The tokens of a text stand one behind the other.** -/
theorem tokenize_increasing {source text : Bytes} {tokens : List Token}
    (h : tokenize source text = .ok tokens) :
    tokens.Pairwise fun t u => t.place.Precedes u.place := by
  obtain ⟨-, rfl⟩ := tokenize_eq_ok.mp h
  exact ofPieces_increasing (Piece.scan_bytes_ne_nil text) _

/-- A token stands at one index only. -/
theorem tokenize_index {source text : Bytes} {tokens : List Token} {t : Token} {j k : Nat}
    (h : tokenize source text = .ok tokens) (hj : tokens[j]? = some t)
    (hk : tokens[k]? = some t) : j = k := by
  have hnodup : tokens.Nodup := by
    refine (tokenize_increasing h).imp ?_
    rintro t u htu rfl
    exact t.place.not_precedes_self htu
  obtain ⟨hlt, -⟩ := List.getElem?_eq_some_iff.mp hj
  exact (List.getElem?_inj hlt hnodup).mp (hj.trans hk.symm)

theorem tokenize_ne_invalid {source text : Bytes} {tokens : List Token}
    (h : tokenize source text = .ok tokens) : ∀ t ∈ tokens, t.kind ≠ .invalid := by
  obtain ⟨-, rfl⟩ := tokenize_eq_ok.mp h
  exact ofPieces_ne_invalid _ _

/-! ### The lines of a token -/

theorem ofPieces_lines (pieces : List Piece) (p : Place) :
    ∀ t ∈ ofPieces p pieces,
      p.line ≤ t.place.line ∧ t.finish.line ≤ (p.past pieces).line := by
  induction pieces generalizing p with
  | nil =>
      intro t ht
      obtain rfl := List.mem_singleton.mp ht
      exact ⟨Int.le_refl _, Int.le_refl _⟩
  | cons piece rest ih =>
      intro t ht
      rcases mem_ofPieces_cons ht with ht | ht
      · obtain ⟨-, hlexeme, hplace⟩ := ofPiece?_eq ht
        unfold finish
        rw [hlexeme, hplace]
        exact ⟨Int.le_refl _, Place.line_le_past _ rest⟩
      · obtain ⟨hbegin, hend⟩ := ih _ t ht
        exact ⟨Int.le_trans (p.line_le_advance piece.bytes) hbegin, hend⟩

/-- A token begins on the first line or below it, and ends on the last line or above it. -/
theorem tokenize_lines {source text : Bytes} {tokens : List Token}
    (h : tokenize source text = .ok tokens) :
    ∀ t ∈ tokens, 1 ≤ t.place.line ∧ t.finish.line ≤ text.line.count Byte.lineFeed := by
  obtain ⟨hclosed, rfl⟩ := tokenize_eq_ok.mp h
  intro t ht
  obtain ⟨hbegin, hend⟩ := ofPieces_lines _ _ t ht
  refine ⟨hbegin, Int.le_trans hend ?_⟩
  have hall := Piece.scan_bytes text
  rw [hclosed, List.append_nil] at hall
  rw [(Place.past_line _ _).2, hall]
  simp only [Place.start, Bytes.line, List.count_append, List.count_singleton_self]
  omega

end Token

end TinyLisp
