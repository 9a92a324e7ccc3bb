/-
Where the tokens of a text begin.

A place is found by walking over the pieces in front of it, one after the other, and
every piece is read as characters on its own.  `Place.behind` says instead what the place
behind some bytes is: one line for every line feed among them, and one column for every
rune behind the last of these.  The two agree for two reasons.  A piece ends with a
delimiter or one follows it, and delimiters are ASCII, so pieces are cut where no
character goes on and the walk is one walk over all their bytes (`past_eq_advance`).  And
such a walk counts lines and columns as the rule does (`advance_start`).

A token does not say where in the text it stands.  `Begins` does, in terms of the text
alone: the bytes in front of the token are the lexemes of the tokens before it with gaps
around them, and its own lexeme comes next.
-/
import Mathlib
import TinyLisp.Proofs.Token.Lexemes
import TinyLisp.Proofs.Token.Order

namespace TinyLisp

/-! ### Lines and columns -/

/-- The bytes behind the last line feed, all of them if there is none. -/
def Bytes.lastLine (s : Bytes) : Bytes := s.rtakeWhile (· != Byte.lineFeed)

/-- The place behind some bytes of a text. -/
def Place.behind (source front : Bytes) : Place where
  source := source
  line := 1 + front.count Byte.lineFeed
  column := 1 + (Rune.decode front.lastLine).length

theorem Bytes.lastLine_concat (s : Bytes) (b : UInt8) :
    lastLine (s ++ [b]) = if b = Byte.lineFeed then [] else s.lastLine ++ [b] := by
  unfold lastLine
  rw [List.rtakeWhile_concat]
  by_cases hb : b = Byte.lineFeed <;> simp [hb]

/-- A text is its last line, or that stands behind a line feed. -/
theorem Bytes.lastLine_cases (s : Bytes) :
    s.lastLine = s ∨ ∃ above, s = above ++ Byte.lineFeed :: s.lastLine := by
  induction s using List.reverseRecOn with
  | nil => exact .inl rfl
  | append_singleton s b ih =>
      rw [lastLine_concat]
      by_cases hb : b = Byte.lineFeed
      · right
        rw [if_pos hb, hb]
        exact ⟨s, rfl⟩
      · rw [if_neg hb]
        rcases ih with hall | ⟨above, hs⟩
        · left
          rw [hall]
        · right
          refine ⟨above, ?_⟩
          rw [← List.cons_append, ← List.append_assoc, ← hs]

theorem Bytes.count_lastLine (s : Bytes) : s.lastLine.count Byte.lineFeed = 0 := by
  rw [List.count_eq_zero]
  intro hmem
  simpa using List.mem_rtakeWhile_imp hmem

namespace Place

theorem advance_line (p : Place) (s : Bytes) :
    (p.advance s).source = p.source ∧ (p.advance s).line = p.line + s.count Byte.lineFeed := by
  unfold advance
  rw [← Rune.count_decode]
  exact foldl_step (Rune.decode s) p

theorem foldl_step_column {runes : List Rune} (h : runes.count Rune.newline = 0) (p : Place) :
    (runes.foldl step p).column = p.column + runes.length := by
  induction runes generalizing p with
  | nil => simp
  | cons r rest ih =>
      have hr : r ≠ Rune.newline := by
        rintro rfl
        simp at h
      rw [List.count_cons_of_ne hr] at h
      rw [List.foldl_cons, ih h, step_of_ne p hr, List.length_cons]
      show p.column + 1 + (rest.length : Int) = p.column + ((rest.length + 1 : Nat) : Int)
      omega

/-- Within a line every rune is a column. -/
theorem advance_column {s : Bytes} (h : s.count Byte.lineFeed = 0) (p : Place) :
    (p.advance s).column = p.column + (Rune.decode s).length :=
  foldl_step_column ((Rune.count_decode s).trans h) p

/-- A line feed leads to the first column, whatever stands in front of it. -/
theorem advance_lineFeed (p : Place) (s t : Bytes) :
    p.advance (s ++ Byte.lineFeed :: t) = ((p.advance s).step Rune.newline).advance t := by
  have hfeed : Byte.lineFeed < 0x80 := by decide
  unfold advance
  rw [Rune.decode_append (Rune.boundary_cons hfeed t), Rune.decode_ascii hfeed, List.foldl_append]
  rfl

/-- **A walk over bytes counts the line feeds it passes, and the runes behind the last one.** -/
theorem advance_start (source front : Bytes) :
    (start source).advance front = behind source front := by
  have hcolumn : ((start source).advance front).column
      = 1 + (Rune.decode front.lastLine).length := by
    have hwithin := advance_column front.count_lastLine
    rcases front.lastLine_cases with hall | ⟨above, hfront⟩
    · rw [hall] at hwithin ⊢
      exact hwithin (start source)
    · have hcut := advance_lineFeed (start source) above front.lastLine
      rw [← hfront] at hcut
      rw [hcut]
      exact hwithin _
  obtain ⟨hsource, hline⟩ := advance_line (start source) front
  generalize (start source).advance front = p at hsource hline hcolumn ⊢
  rcases p with ⟨source', line, column⟩
  obtain rfl : source' = source := hsource
  obtain rfl : line = 1 + (front.count Byte.lineFeed : Int) := hline
  obtain rfl : column = 1 + ((Rune.decode front.lastLine).length : Int) := hcolumn
  rfl

end Place

/-! ### Walking over pieces -/

theorem Piece.ascii_of_isDelimiter {b : UInt8} (h : isDelimiter b = true) : b < 0x80 := by
  simp only [isDelimiter, isBlank, Bool.or_eq_true, beq_iff_eq] at h
  rcases h with (((((((rfl | rfl) | rfl) | rfl) | rfl) | rfl) | rfl) | rfl) | rfl <;> decide

/-- A text can be cut in front of a delimiter and behind one, since delimiters are ASCII. -/
theorem Rune.decode_append_of_delimiter {s t : Bytes} (h : StartsWord s ∨ Piece.EndsWord t) :
    decode (s ++ t) = decode s ++ decode t := by
  rcases h with hbehind | hfront
  · rcases List.eq_nil_or_concat s with rfl | ⟨s, b, rfl⟩
    · rfl
    · have hb : b < 0x80 := Piece.ascii_of_isDelimiter (hbehind b (by simp))
      rw [List.concat_eq_append, List.append_assoc, List.singleton_append,
        decode_append (boundary_cons hb t), decode_append (boundary_cons hb []), decode_ascii hb,
        decode_ascii hb]
      simp [decode, decodeAfter]
  · cases t with
    | nil => simp [decode, decodeAfter]
    | cons b t =>
        have hb : b < 0x80 := Piece.ascii_of_isDelimiter (hfront b (by simp))
        exact decode_append (boundary_cons hb t) s

theorem Piece.endsWord_of_append {s t : Bytes} (h : EndsWord (s ++ t)) : EndsWord s := by
  cases s with
  | nil => exact endsWord_nil
  | cons b s => exact h

/-- **A walk over the first pieces of a text is one walk over their bytes.** -/
theorem Place.past_eq_advance (s : Bytes) : ∀ (p : Place) (front others : List Piece),
    (Piece.scan s).1 = front ++ others → p.past front = p.advance (front.flatMap Piece.bytes) := by
  fun_induction Piece.scan s with
  | case1 =>
      intro p front others h
      obtain rfl : front = [] := by simp_all
      rfl
  | case2 b rest hn =>
      intro p front others h
      obtain rfl : front = [] := by simp_all
      rfl
  | case3 b rest piece after hn pieces tail hs ih =>
      intro p front others h
      rw [hs] at ih
      cases front with
      | nil => rfl
      | cons q front =>
          obtain ⟨rfl, rfl⟩ : piece = q ∧ pieces = front ++ others := by simpa using h
          have hall := Piece.scan_bytes after
          simp only [hs, List.flatMap_append, List.append_assoc] at hall
          -- what follows the piece may be more than the pieces walked over
          have hcut : StartsWord piece.bytes ∨ Piece.EndsWord (front.flatMap Piece.bytes) := by
            rcases (Piece.next?_fits hn).startsWord [] with hbehind | hnext
            · exact .inl hbehind
            · rw [← hall] at hnext
              exact .inr (Piece.endsWord_of_append hnext)
          show (p.advance piece.bytes).past front = _
          rw [ih _ front others rfl, List.flatMap_cons]
          unfold advance
          rw [Rune.decode_append_of_delimiter hcut, List.foldl_append]

/-! ### Tokens behind lexemes and gaps

How lexemes and gaps are cut off is known already, but without the places (`Yields`).  Here
the pieces themselves are kept, since the place behind them is a walk over their bytes.
-/

/-- In front of `rest` the text is cut off as pieces of its own, `count` of which are tokens. -/
def Piece.CutsOff (s rest : Bytes) (count : Nat) : Prop :=
  ∃ pieces, scan (s ++ rest) = (pieces ++ (scan rest).1, (scan rest).2) ∧
    pieces.flatMap bytes = s ∧ (pieces.filterMap meaning?).length = count

section CutsOff

variable {s t rest before after tail gap x : Bytes} {shape : Shape} {xs : List (Shape × Bytes)}

theorem Piece.cutsOff_piece {p : Piece} {count : Nat}
    (h : scan (p.bytes ++ rest) = (p :: (scan rest).1, (scan rest).2))
    (hcount : ([p].filterMap meaning?).length = count) : CutsOff p.bytes rest count :=
  ⟨[p], h, by simp, hcount⟩

theorem Piece.CutsOff.append {m n : Nat} (hs : CutsOff s (t ++ rest) m) (ht : CutsOff t rest n) :
    CutsOff (s ++ t) rest (m + n) := by
  obtain ⟨front, hscan, hbytes, hcount⟩ := hs
  obtain ⟨front', hscan', hbytes', hcount'⟩ := ht
  refine ⟨front ++ front', ?_, ?_, ?_⟩
  · rw [List.append_assoc, hscan, hscan', List.append_assoc]
  · rw [List.flatMap_append, hbytes, hbytes']
  · rw [List.filterMap_append, List.length_append, hcount, hcount']

theorem Gap.cutsOff (h : Gap after gap) : Piece.CutsOff gap after 0 := by
  induction h with
  | nothing => exact ⟨[], rfl, rfl, rfl⟩
  | @blank b gap hb _ ih =>
      have hone : Piece.CutsOff [b] (gap ++ after) 0 := by
        refine Piece.cutsOff_piece (p := .blank b) (Piece.scan_cons ?_) rfl
        show Piece.next? b (gap ++ after) = _
        rw [Piece.next?, if_pos hb]
      exact hone.append ih
  | @comment body gap hbody hend _ ih =>
      have hone : Piece.CutsOff (Byte.semicolon :: body) (gap ++ after) 0 :=
        Piece.cutsOff_piece (p := .comment body) (Piece.scan_comment hbody hend) rfl
      exact hone.append ih

/-- A lexeme is one piece, and that is a token. -/
theorem Lexeme.scan (h : Lexeme before after shape x) :
    ∃ p kind value, p.bytes = x ∧ p.meaning? = some (kind, value) ∧
      Piece.scan (x ++ after) = (p :: (Piece.scan after).1, (Piece.scan after).2) := by
  cases h with
  | leftParen => exact ⟨.leftParen, _, _, rfl, rfl, Piece.scan_single (fun _ => rfl) after⟩
  | rightParen => exact ⟨.rightParen, _, _, rfl, rfl, Piece.scan_single (fun _ => rfl) after⟩
  | quote => exact ⟨.quote, _, _, rfl, rfl, Piece.scan_single (fun _ => rfl) after⟩
  | @literal body hbody => exact ⟨.literal body, _, _, rfl, rfl, Piece.scan_literal hbody after⟩
  | word hne hw _ hend => exact ⟨.word x, _, _, rfl, rfl, Piece.scan_word hne hw hend⟩

theorem Lexeme.cutsOff (h : Lexeme before after shape x) : Piece.CutsOff x after 1 := by
  obtain ⟨p, kind, value, rfl, hmeaning, hscan⟩ := h.scan
  exact Piece.cutsOff_piece hscan (by simp [hmeaning])

theorem Cut.cutsOff (h : Cut tail before xs s) : Piece.CutsOff s tail xs.length := by
  induction h with
  | last h => exact h.cutsOff
  | @more before gap x rest shape xs hgap hx _ ih =>
      rw [List.append_assoc] at hgap
      have hall := (hgap.cutsOff.append hx.cutsOff).append ih
      rwa [Nat.zero_add, Nat.add_comm] at hall

theorem Token.length_ofPieces (pieces : List Piece) (p : Place) :
    (ofPieces p pieces).length = (pieces.filterMap Piece.meaning?).length + 1 := by
  induction pieces generalizing p with
  | nil => rfl
  | cons piece rest ih =>
      rw [ofPieces, ofPiece?, List.filterMap_cons]
      cases piece.meaning? with
      | none => exact ih _
      | some meaning => simp [ih]

/-- Behind a text that is cut off, the tokens go on at the place behind its bytes. -/
theorem Token.ofPieces_cutsOff {count : Nat} (h : Piece.CutsOff s rest count) (p : Place) :
    ∃ ts : List Token, ts.length = count ∧
      ofPieces p (Piece.scan (s ++ rest)).1 = ts ++ ofPieces (p.advance s) (Piece.scan rest).1 := by
  obtain ⟨pieces, hscan, rfl, rfl⟩ := h
  obtain ⟨ts, -, happend⟩ := ofPieces_append pieces p
  refine ⟨ts, ?_, ?_⟩
  · have hlength := congrArg List.length (happend [])
    rw [List.append_nil, length_ofPieces, List.length_append, length_ofPieces] at hlength
    simpa using hlength.symm
  · rw [← Place.past_eq_advance _ p pieces (Piece.scan rest).1 (by rw [hscan]), ← happend, hscan]

end CutsOff

/-! ### The place of a token -/

/-- A lexeme with all that stands around it. -/
theorem Cut.split {tail before s : Bytes} {xs ys : List (Shape × Bytes)} {x : Shape × Bytes}
    (h : Cut tail before (xs ++ x :: ys) s) :
    ∃ front rest, s = front ++ (x.2 ++ rest) ∧ Cut (x.2 ++ (rest ++ tail)) before xs front ∧
      Lexeme (before ++ front) (rest ++ tail) x.1 x.2 := by
  induction xs generalizing before s with
  | nil =>
      cases h with
      | @more _ gap x rest _ _ hgap hx hrest =>
          refine ⟨gap, rest, by simp, .last ?_, hx⟩
          simpa using hgap
  | cons y xs ih =>
      cases h with
      | @more _ gap y rest shape _ hgap hy hrest =>
          obtain ⟨front, rest', rfl, hcut, hx⟩ := ih hrest
          refine ⟨gap ++ y ++ front, rest', by simp, .more ?_ ?_ hcut, ?_⟩
          · simpa using hgap
          · simpa using hy
          · simpa using hx

namespace Token

/-- The token begins in the text `s` right behind these bytes, and `ts` are the tokens before
it. -/
inductive Begins (s : Bytes) (ts : List Token) (t : Token) : Bytes → Prop
  /-- The bytes are the lexemes of the tokens before it, with gaps around them, and its own
  lexeme comes next. -/
  | lexeme {front after : Bytes} {xs : List (Shape × Bytes)} {shape : Shape}
      (hs : s = front ++ (t.lexeme ++ after)) (hfront : Cut (t.lexeme ++ after) [] xs front)
      (hts : List.Forall₂ IsOf xs ts) (ht : Lexeme front after shape t.lexeme) : Begins s ts t front
  /-- The end of the text has all of it in front. -/
  | ending {xs : List (Shape × Bytes)} (hs : Written xs s) (hts : List.Forall₂ IsOf xs ts)
      (ht : t.kind = .endOfInput) : Begins s ts t s

theorem place_of_begins {source s front : Bytes} {tokens ts us : List Token} {t : Token}
    (h : tokenize source s = .ok tokens) (hsplit : tokens = ts ++ t :: us)
    (hfront : Begins s ts t front) : t.place = .behind source front := by
  obtain ⟨-, htokens⟩ := tokenize_eq_ok.mp h
  rw [hsplit] at htokens
  rw [← Place.advance_start]
  cases hfront with
  | @lexeme _ after xs shape hs hcut hts ht =>
      obtain ⟨ts', hlength, hbehind⟩ := ofPieces_cutsOff hcut.cutsOff (.start source)
      rw [← hs, ← htokens] at hbehind
      obtain ⟨-, hnext⟩ := List.append_inj hbehind (by rw [hlength, hts.length_eq])
      obtain ⟨p, kind, value, -, hmeaning, hscan⟩ := ht.scan
      rw [hscan, ofPieces, ofPiece?, hmeaning] at hnext
      rw [(List.cons.inj hnext).1]
  | @ending xs hs hts ht =>
      obtain ⟨ts', hlength, hbehind⟩ := ofPieces_cutsOff (Cut.cutsOff hs) (.start source)
      rw [List.append_nil, ← htokens] at hbehind
      obtain ⟨-, hnext⟩ := List.append_inj hbehind (by rw [hlength, hts.length_eq])
      rw [Piece.scan_nil] at hnext
      rw [(List.cons.inj hnext).1]
      rfl

theorem written_of_tokenize {source s : Bytes} {tokens : List Token}
    (h : tokenize source s = .ok tokens) : ∃ xs, Written xs s := by
  rcases written_or_leftOpen s with hwritten | ⟨rest, hopen⟩
  · exact hwritten
  · obtain ⟨err, herr, -⟩ := tokenize_of_leftOpen hopen source
    rw [h] at herr
    cases herr

/-- Every token of a text begins somewhere in it. -/
theorem exists_begins {source s : Bytes} {tokens ts us : List Token} {t : Token}
    (h : tokenize source s = .ok tokens) (hsplit : tokens = ts ++ t :: us) :
    ∃ front, Begins s ts t front := by
  obtain ⟨xs, hwritten⟩ := written_of_tokenize h
  obtain ⟨lexemes, e, htokens, he, hxs⟩ := tokenize_of_written hwritten source
  rw [h, hsplit] at htokens
  have hall : ts ++ t :: us = lexemes ++ [e] := Except.ok.inj htokens
  rcases List.eq_nil_or_concat us with rfl | ⟨us, u, rfl⟩
  · -- nothing follows, so it is the end
    obtain ⟨rfl, hlast⟩ := List.append_inj' hall rfl
    obtain rfl := (List.cons.inj hlast).1
    exact ⟨s, .ending hwritten hxs he⟩
  · have hlexemes : ts ++ t :: us = lexemes := by
      rw [List.concat_eq_append, ← List.cons_append, ← List.append_assoc] at hall
      exact (List.append_inj' hall rfl).1
    rw [← hlexemes] at hxs
    obtain ⟨xs₁, xs₂, hxs₁, hxs₂, rfl⟩ : ∃ xs₁ xs₂, List.Forall₂ IsOf xs₁ ts ∧
        List.Forall₂ IsOf xs₂ (t :: us) ∧ xs = xs₁ ++ xs₂ :=
      ⟨_, _, List.forall₂_take_append _ _ _ hxs, List.forall₂_drop_append _ _ _ hxs, by simp⟩
    obtain ⟨x, ys, hx, -, rfl⟩ := List.forall₂_cons_right_iff.mp hxs₂
    obtain ⟨front, after, hs, hcut, hlexeme⟩ := hwritten.split
    rw [← hx.1] at hs hcut hlexeme
    rw [List.append_nil] at hcut hlexeme
    exact ⟨front, .lexeme hs hcut hxs₁ hlexeme⟩

theorem tokenize_eq_error {source text : Bytes} {err : SyntaxError}
    (h : tokenize source text = .error err) :
    err.token.lexeme = (Piece.scan text).2 ∧
      err.token.place = (Place.start source).advance ((Piece.scan text).1.flatMap Piece.bytes) := by
  unfold tokenize at h
  generalize Piece.scan text = cut at h ⊢
  obtain ⟨pieces, tail⟩ := cut
  cases tail with
  | nil => cases h
  | cons b tail =>
      obtain rfl := Except.error.inj h
      exact ⟨rfl, rfl⟩

/-- A literal that is left open is reported where it begins. -/
theorem place_of_leftOpen {source s : Bytes} {err : SyntaxError}
    (h : tokenize source s = .error err) :
    ∃ front rest xs, s = front ++ Byte.doubleQuote :: rest ∧
      Cut (Byte.doubleQuote :: rest) [] xs front ∧ NeverClosed rest ∧
      err.token.lexeme = Byte.doubleQuote :: rest ∧ err.token.place = .behind source front := by
  rcases written_or_leftOpen s with ⟨xs, hwritten⟩ | ⟨rest, hopen⟩
  · obtain ⟨ts, e, hok, -⟩ := tokenize_of_written hwritten source
    rw [h] at hok
    cases hok
  · obtain ⟨err', herr, -, -, hlexeme⟩ := tokenize_of_leftOpen hopen source
    obtain rfl : err = err' := by
      rw [h] at herr
      exact Except.error.inj herr
    obtain ⟨front, xs, hs, hcut, hnever⟩ := hopen
    obtain ⟨htail, hplace⟩ := tokenize_eq_error h
    have hbytes := Piece.scan_bytes s
    rw [← htail, hlexeme] at hbytes
    have hfront : (Piece.scan s).1.flatMap Piece.bytes = front :=
      List.append_cancel_right (hbytes.trans hs)
    rw [hfront, Place.advance_start] at hplace
    exact ⟨front, rest, xs, hs, hcut, hnever, hlexeme, hplace⟩

/-- **The places of tokens are exact.**  Every token begins somewhere in the text, the end of the
text behind all of it; its line is one more than the line feeds in front of it and its column one
more than the runes between the last of these and its first byte.  So the places increase along
the tokens.  A literal that is never closed is reported at its opening quote by the same rule. -/
theorem tokenize_places_exact (source s : Bytes) :
    (∀ tokens, tokenize source s = .ok tokens →
      (∀ ts t us, tokens = ts ++ t :: us → (∃ front, Begins s ts t front) ∧
        ∀ front, Begins s ts t front → t.place = .behind source front) ∧
      tokens.Pairwise fun t u => t.place.Precedes u.place) ∧
    ∀ err, tokenize source s = .error err →
      ∃ front rest xs, s = front ++ Byte.doubleQuote :: rest ∧
        Cut (Byte.doubleQuote :: rest) [] xs front ∧ NeverClosed rest ∧
        err.token.lexeme = Byte.doubleQuote :: rest ∧ err.token.place = .behind source front := by
  refine ⟨?_, fun err h => place_of_leftOpen h⟩
  intro tokens h
  refine ⟨?_, tokenize_increasing h⟩
  intro ts t us hsplit
  exact ⟨exists_begins h hsplit, fun front hfront => place_of_begins h hsplit hfront⟩

/-- A literal over two lines, with a byte in it that is no character. -/
def literalToken : Token :=
  ⟨.text, Byte.doubleQuote :: (utf8 "a\né" ++ [0xFF]) ++ [Byte.doubleQuote],
    .text (utf8 "a\né" ++ [0xFF]), ⟨[], 2, 1⟩⟩

/-- A word behind it. -/
def wordToken : Token := ⟨.symbol, utf8 "x", .symbol (utf8 "x"), ⟨[], 3, 5⟩⟩

/-- A comment, the literal and a space: on the third line the word has four runes in front, the
stray byte one of them. -/
def beforeWord : Bytes :=
  (Byte.semicolon :: utf8 " é" ++ [Byte.lineFeed]) ++ literalToken.lexeme ++ [Byte.space]

theorem begins_wordToken : Begins (beforeWord ++ utf8 "x") [literalToken] wordToken beforeWord := by
  have hbody : LiteralBody (utf8 "a\né" ++ [0xFF]) :=
    Piece.literalBody_of_closeLiteral?
      (rfl : Piece.closeLiteral? (utf8 "a\né" ++ [0xFF] ++ [Byte.doubleQuote]) = some (_, []))
  have hcomment : Gap (literalToken.lexeme ++ [Byte.space] ++ utf8 "x")
      (Byte.semicolon :: utf8 " é" ++ [Byte.lineFeed]) := by
    refine .comment ?_ ?_ (.blank rfl .nothing)
    · rintro b hb rfl
      exact absurd hb (by decide)
    · intro b hb
      exact (Option.some.inj hb).symm
  have hcut : Cut (utf8 "x") [] [(.literal, literalToken.lexeme)] beforeWord :=
    .more hcomment (.literal hbody) (.last (.blank rfl .nothing))
  have hword : Lexeme beforeWord [] .word (utf8 "x") :=
    .letter rfl (startsWord_concat (b := Byte.space) _ rfl) Piece.endsWord_nil
  exact .lexeme rfl hcut (.cons ⟨rfl, by decide, nofun⟩ .nil) hword

/-- The word is found where it stands, and so is a literal in its place that is left open. -/
theorem tokenize_places_beforeWord :
    (tokenize [] (beforeWord ++ utf8 "x")
        = .ok [literalToken, wordToken, .endOfInput ⟨[], 3, 6⟩] ∧
      wordToken.place = .behind [] beforeWord ∧
      literalToken.place.Precedes wordToken.place) ∧
    tokenize [] (beforeWord ++ [Byte.doubleQuote])
        = .error (openLiteral ⟨[], 3, 5⟩ [Byte.doubleQuote]) ∧
      ∃ front rest, beforeWord ++ [Byte.doubleQuote] = front ++ Byte.doubleQuote :: rest ∧
        NeverClosed rest ∧ ⟨[], 3, 5⟩ = Place.behind [] front := by
  have hok : tokenize [] (beforeWord ++ utf8 "x")
      = .ok [literalToken, wordToken, .endOfInput ⟨[], 3, 6⟩] := by cbv
  have herr : tokenize [] (beforeWord ++ [Byte.doubleQuote])
      = .error (openLiteral ⟨[], 3, 5⟩ [Byte.doubleQuote]) := by cbv
  obtain ⟨hplaces, hincreasing⟩ := (tokenize_places_exact [] (beforeWord ++ utf8 "x")).1 _ hok
  have hword := (hplaces [literalToken] wordToken _ rfl).2 beforeWord begins_wordToken
  have hlater := (List.pairwise_cons.mp hincreasing).1 wordToken (by simp)
  obtain ⟨front, rest, -, hs, -, hnever, -, hplace⟩ :=
    (tokenize_places_exact [] (beforeWord ++ [Byte.doubleQuote])).2 _ herr
  exact ⟨⟨hok, hword, hlater⟩, herr, front, rest, hs, hnever, hplace⟩

end Token

end TinyLisp
