/-
A text that follows another one on a new line.

A line feed ends whatever can be open in front of it except a literal: a word, since it
is a delimiter, and a comment, since that reaches up to it.  So if the text in front is
cut to its end, the line feed is a blank of its own, the pieces in front of it stay as
they are and the pieces behind it are those of the second text alone (`scan_line`).

Places are found by walking over the pieces.  A walk keeps the name of the text, moves
down once for every line feed it passes and is at column one right behind one.  Hence
the tokens of the second text are those it has alone, as many lines further down as the
text in front has, the line feed between the two included (`tokenize_line`).
-/
import TinyLisp.Proofs.Text.Rune
import TinyLisp.Proofs.Token.Scanning

namespace TinyLisp

/-! ### Cutting -/

namespace Piece

theorem takeWhile_append_stop {p : UInt8 → Bool} {b : UInt8} (hb : p b = false)
    (s t : Bytes) : (s ++ b :: t).takeWhile p = s.takeWhile p ∧
      (s ++ b :: t).dropWhile p = s.dropWhile p ++ b :: t := by
  induction s with
  | nil => simp [hb]
  | cons c s ih =>
      by_cases hc : p c = true
      · simp [hc, ih]
      · simp [hc]

theorem closeLiteral?_append {s body after : Bytes} (t : Bytes)
    (h : closeLiteral? s = some (body, after)) :
    closeLiteral? (s ++ t) = some (body, after ++ t) := by
  fun_induction closeLiteral? s generalizing body after with
  | case1 => simp at h
  | case2 rest =>
      obtain ⟨rfl, rfl⟩ := Prod.mk.inj (Option.some.inj h)
      rw [List.cons_append, closeLiteral?.eq_def]
      simp
  | case3 => simp at h
  | case4 c rest hquote ih =>
      obtain ⟨⟨body', after'⟩, hr, he⟩ := Option.map_eq_some_iff.mp h
      obtain ⟨rfl, rfl⟩ := Prod.mk.inj he
      rw [List.cons_append, List.cons_append, closeLiteral?.eq_def]
      simp [hquote, ih hr]
  | case5 b rest hquote hslash ih =>
      obtain ⟨⟨body', after'⟩, hr, he⟩ := Option.map_eq_some_iff.mp h
      obtain ⟨rfl, rfl⟩ := Prod.mk.inj he
      rw [List.cons_append, closeLiteral?.eq_def]
      simp [hquote, hslash, ih hr]

/-- A piece that ends within a line does so whatever the next line holds. -/
theorem next?_line {b : UInt8} {rest after : Bytes} {p : Piece} (t : Bytes)
    (h : next? b rest = some (p, after)) :
    next? b (rest ++ Byte.lineFeed :: t) = some (p, after ++ Byte.lineFeed :: t) := by
  obtain ⟨hbody, hbehind⟩ := takeWhile_append_stop
    (p := (· != Byte.lineFeed)) (b := Byte.lineFeed) (by decide) rest t
  obtain ⟨hword, hafter⟩ := takeWhile_append_stop
    (p := (!isDelimiter ·)) (b := Byte.lineFeed) (by decide) rest t
  unfold next? at h ⊢
  rw [hbody, hbehind, hword, hafter]
  by_cases hliteral : b = Byte.doubleQuote
  · subst hliteral
    obtain ⟨⟨body, behind⟩, hr, he⟩ := Option.map_eq_some_iff.mp h
    obtain ⟨rfl, rfl⟩ := Prod.mk.inj he
    exact Option.map_eq_some_iff.mpr ⟨_, closeLiteral?_append _ hr, rfl⟩
  · -- every other piece is there whatever follows, and it is the same one
    rw [if_neg hliteral] at h ⊢
    (repeat' split at h) <;>
      (obtain ⟨rfl, rfl⟩ := Prod.mk.inj (Option.some.inj h); simp_all)

/-- **Behind a text without an open literal the next line is cut as if it stood alone.** -/
theorem scan_line (s t : Bytes) (h : (scan s).2 = []) :
    scan (s.line ++ t) = ((scan s).1 ++ .blank Byte.lineFeed :: (scan t).1, (scan t).2) := by
  have happend : s.line ++ t = s ++ Byte.lineFeed :: t := by simp [Bytes.line]
  rw [happend]
  clear happend
  fun_induction scan s with
  | case1 => exact scan_cons rfl
  | case2 b rest hn => cases h
  | case3 b rest p after hn pieces tail hs ih =>
      rw [hs] at ih
      rw [List.cons_append, scan_cons (next?_line t hn), ih h]
      rfl

/-- Cutting loses nothing. -/
theorem scan_bytes (s : Bytes) : (scan s).1.flatMap bytes ++ (scan s).2 = s := by
  fun_induction scan s with
  | case1 => rfl
  | case2 b rest hn => rfl
  | case3 b rest p after hn pieces tail hs ih =>
      rw [hs] at ih
      rw [List.flatMap_cons, List.append_assoc, ih, ← next?_eq hn]

end Piece

/-! ### Walking -/

namespace Place

/-- The place as many lines further down. -/
def below (lines : Nat) (p : Place) : Place := { p with line := p.line + lines }

theorem step_newline (p : Place) :
    p.step Rune.newline = { p with line := p.line + 1, column := 1 } := rfl

theorem step_of_ne (p : Place) {r : Rune} (h : r ≠ Rune.newline) :
    p.step r = { p with column := p.column + 1 } := by
  unfold step
  split
  · exact absurd rfl h
  · rfl

theorem step_below (lines : Nat) (p : Place) (r : Rune) :
    (p.below lines).step r = (p.step r).below lines := by
  by_cases h : r = Rune.newline
  · subst h
    simp only [step_newline, below, Place.mk.injEq, true_and, and_true]
    omega
  · rw [step_of_ne _ h, step_of_ne _ h]
    rfl

theorem advance_below (lines : Nat) (p : Place) (s : Bytes) :
    (p.below lines).advance s = (p.advance s).below lines := by
  unfold advance
  induction Rune.decode s generalizing p with
  | nil => rfl
  | cons r rest ih => rw [List.foldl_cons, step_below, ih, List.foldl_cons]

theorem foldl_step (runes : List Rune) (p : Place) :
    (runes.foldl step p).source = p.source ∧
      (runes.foldl step p).line = p.line + runes.count Rune.newline := by
  induction runes generalizing p with
  | nil => simp
  | cons r rest ih =>
      obtain ⟨hsource, hline⟩ := ih (p.step r)
      rw [List.foldl_cons, hsource, hline, List.count_cons]
      by_cases h : r = Rune.newline
      · subst h
        rw [step_newline]
        simp
        omega
      · rw [step_of_ne _ h]
        simp [h]

/-- The place behind some pieces. -/
def past (p : Place) (pieces : List Piece) : Place :=
  pieces.foldl (fun p piece => p.advance piece.bytes) p

/-- A walk moves down once for every line feed it passes. -/
theorem past_line (pieces : List Piece) (p : Place) :
    (p.past pieces).source = p.source ∧
      (p.past pieces).line = p.line + (pieces.flatMap Piece.bytes).count Byte.lineFeed := by
  induction pieces generalizing p with
  | nil => simp [past]
  | cons piece rest ih =>
      obtain ⟨hsource, hline⟩ := ih (p.advance piece.bytes)
      obtain ⟨hsource', hline'⟩ := foldl_step (Rune.decode piece.bytes) p
      refine ⟨hsource.trans hsource', hline.trans ?_⟩
      unfold advance
      rw [hline', Rune.count_decode, List.flatMap_cons, List.count_append]
      omega

/-- Where the next line begins, behind a text that is cut to its end. -/
theorem past_text {s : Bytes} (h : (Piece.scan s).2 = []) (source : Bytes) :
    ((start source).past (Piece.scan s).1).advance [Byte.lineFeed]
      = (start source).below (s.line.count Byte.lineFeed) := by
  have hall : (Piece.scan s).1.flatMap Piece.bytes = s := by
    have hbytes := Piece.scan_bytes s
    rwa [h, List.append_nil] at hbytes
  obtain ⟨hsource, hline⟩ := past_line (Piece.scan s).1 (start source)
  rw [hall] at hline
  have hfeed : ∀ p : Place, p.advance [Byte.lineFeed] = p.step Rune.newline := fun _ => rfl
  rw [hfeed, step_newline, hsource, hline]
  simp [below, start, Bytes.line]
  omega

end Place

/-! ### Tokens -/

namespace Token

/-- The token as many lines further down. -/
def below (lines : Nat) (t : Token) : Token := { t with place := t.place.below lines }

theorem ofPiece?_below (lines : Nat) (p : Place) (piece : Piece) :
    ofPiece? (p.below lines) piece = (ofPiece? p piece).map (below lines) := by
  unfold ofPiece?
  rw [Option.map_map]
  rfl

theorem ofPieces_below (lines : Nat) (pieces : List Piece) (p : Place) :
    ofPieces (p.below lines) pieces = (ofPieces p pieces).map (below lines) := by
  induction pieces generalizing p with
  | nil => rfl
  | cons piece rest ih =>
      rw [ofPieces, ofPieces, ofPiece?_below, Place.advance_below, ih]
      cases ofPiece? p piece with
      | none => rfl
      | some t => rfl

/-- No piece is the end of the text. -/
theorem meaning?_ne_end {p : Piece} {kind : TokenKind} {value : Value}
    (h : p.meaning? = some (kind, value)) : kind ≠ .endOfInput := by
  rintro rfl
  cases p with
  | word w =>
      have hw : (Piece.classify w).1 = .endOfInput := by rw [Option.some.inj h]
      unfold Piece.classify at hw
      (repeat' split at hw) <;> cases hw
  | _ => cases h

/-- Pieces in front of others make tokens in front of theirs, none of them an end. -/
theorem ofPieces_append (pieces : List Piece) (p : Place) :
    ∃ ts : List Token, (∀ t ∈ ts, t.kind ≠ .endOfInput) ∧
      ∀ others, ofPieces p (pieces ++ others) = ts ++ ofPieces (p.past pieces) others := by
  induction pieces generalizing p with
  | nil => exact ⟨[], by simp, fun _ => rfl⟩
  | cons piece rest ih =>
      obtain ⟨ts, hts, happend⟩ := ih (p.advance piece.bytes)
      cases hm : piece.meaning? with
      | none =>
          refine ⟨ts, hts, fun others => ?_⟩
          rw [List.cons_append, ofPieces, ofPiece?, hm]
          exact happend others
      | some meaning =>
          obtain ⟨kind, value⟩ := meaning
          refine ⟨⟨kind, piece.bytes, value, p⟩ :: ts, ?_, fun others => ?_⟩
          · intro t ht
            rcases List.mem_cons.mp ht with rfl | ht
            · exact meaning?_ne_end hm
            · exact hts t ht
          · rw [List.cons_append, ofPieces, ofPiece?, hm]
            exact congrArg _ (happend others)

theorem tokenize_eq_ok {source text : Bytes} {tokens : List Token} :
    tokenize source text = .ok tokens ↔
      (Piece.scan text).2 = [] ∧ tokens = ofPieces (.start source) (Piece.scan text).1 := by
  unfold tokenize
  rcases Piece.scan text with ⟨pieces, tail⟩
  cases tail with
  | nil => simp [eq_comm]
  | cons b tail => simp

/-- The tokens of a text are some that are no end, and then its end. -/
theorem tokenize_ends {source text : Bytes} {tokens : List Token}
    (h : tokenize source text = .ok tokens) :
    ∃ ts e, tokens = ts ++ [e] ∧ e.kind = .endOfInput ∧ ∀ t ∈ ts, t.kind ≠ .endOfInput := by
  obtain ⟨-, rfl⟩ := tokenize_eq_ok.mp h
  obtain ⟨ts, hts, happend⟩ := ofPieces_append (Piece.scan text).1 (.start source)
  have halone := happend []
  rw [List.append_nil] at halone
  exact ⟨ts, _, halone, rfl, hts⟩

/-- **A text on a new line behind another one has its tokens behind those of the other, as many
lines further down as the other has.** -/
theorem tokenize_line {source s t : Bytes} {ts us : List Token} {e : Token}
    (hs : tokenize source s = .ok (ts ++ [e])) (ht : tokenize source t = .ok us) :
    tokenize source (s.line ++ t)
      = .ok (ts ++ us.map (below (s.line.count Byte.lineFeed))) := by
  obtain ⟨hclosed, htokens⟩ := tokenize_eq_ok.mp hs
  obtain ⟨hclosed', rfl⟩ := tokenize_eq_ok.mp ht
  obtain ⟨ts', -, happend⟩ := ofPieces_append (Piece.scan s).1 (.start source)
  have halone := happend []
  rw [List.append_nil, ← htokens] at halone
  obtain ⟨rfl, -⟩ := List.append_inj' halone rfl
  rw [tokenize_eq_ok, Piece.scan_line s t hclosed]
  refine ⟨hclosed', ?_⟩
  have hblank : ∀ p others, ofPieces p (.blank Byte.lineFeed :: others)
      = ofPieces (p.advance [Byte.lineFeed]) others := fun _ _ => rfl
  rw [happend, hblank, Place.past_text hclosed, ofPieces_below]

end Token

end TinyLisp
