/-
A text is its lexemes and the gaps between them.

`Cut` says how a text may be taken apart, without saying how to do it:

    gap lexeme gap lexeme ... gap

A gap is any number of blanks and comments, and a comment reaches up to the next line
feed or the end.  A lexeme is a parenthesis, a quote, a literal up to the first double
quote that no backslash escapes, or a word, which is a run of bytes that are no
delimiters and cannot be made longer on either side.  What a comment or a word is depends
on what stands around it, so all of these are relative to the text before and after.

A text that can be taken apart in this way is tokenized into exactly these lexemes, hence
there is only one way; and where there is none, some literal is never closed.  One
direction goes along the parts: in front of what follows them they are cut off as they
are (`Cut.yields`).  The other goes along the scanner, whose pieces are such parts
(`exists_cut_scan`).
-/
import Mathlib.Data.List.Forall2
import Mathlib.Data.List.TakeWhile
import TinyLisp.Proofs.Token.Lines

namespace TinyLisp

/-! ### Literals -/

/-- The body of a literal.  A backslash takes the next byte with it, whatever that is, and no
other byte is a double quote. -/
inductive LiteralBody : Bytes → Prop
  | nil : LiteralBody []
  | plain {b : UInt8} {body : Bytes} (hquote : b ≠ Byte.doubleQuote)
      (hslash : b ≠ Byte.backslash) (rest : LiteralBody body) : LiteralBody (b :: body)
  | escape {b : UInt8} {body : Bytes} (rest : LiteralBody body) :
      LiteralBody (Byte.backslash :: b :: body)

/-- A literal that is open in front of this text is never closed. -/
def NeverClosed (s : Bytes) : Prop :=
  ∀ body after, LiteralBody body → s ≠ body ++ Byte.doubleQuote :: after

namespace Piece

theorem literalBody_of_closeLiteral? {s body after : Bytes}
    (h : closeLiteral? s = some (body, after)) : LiteralBody body := by
  fun_induction closeLiteral? s generalizing body after with
  | case1 => simp at h
  | case2 rest =>
      obtain ⟨rfl, -⟩ := Prod.mk.inj (Option.some.inj h)
      exact .nil
  | case3 => simp at h
  | case4 c rest hquote ih =>
      obtain ⟨⟨body', after'⟩, hr, he⟩ := Option.map_eq_some_iff.mp h
      obtain ⟨rfl, rfl⟩ := Prod.mk.inj he
      exact .escape (ih hr)
  | case5 b rest hquote hslash ih =>
      obtain ⟨⟨body', after'⟩, hr, he⟩ := Option.map_eq_some_iff.mp h
      obtain ⟨rfl, rfl⟩ := Prod.mk.inj he
      exact .plain hquote hslash (ih hr)

theorem closeLiteral?_of_literalBody {body : Bytes} (h : LiteralBody body) (after : Bytes) :
    closeLiteral? (body ++ Byte.doubleQuote :: after) = some (body, after) := by
  induction h with
  | nil =>
      rw [List.nil_append, closeLiteral?.eq_def]
      simp
  | plain hquote hslash _ ih =>
      rw [List.cons_append, closeLiteral?.eq_def]
      simp [hquote, hslash, ih]
  | escape _ ih =>
      have hslash : Byte.backslash ≠ Byte.doubleQuote := by decide
      rw [List.cons_append, List.cons_append, closeLiteral?.eq_def]
      simp [hslash, ih]

theorem closeLiteral?_eq_none_iff {s : Bytes} : closeLiteral? s = none ↔ NeverClosed s := by
  constructor
  · rintro h body after hbody rfl
    rw [closeLiteral?_of_literalBody hbody] at h
    simp at h
  · intro h
    rcases hc : closeLiteral? s with _ | ⟨body, after⟩
    · rfl
    · exact absurd (closeLiteral?_eq hc) (h body after (literalBody_of_closeLiteral? hc))

end Piece

/-! ### Gaps and lexemes -/

/-- Nothing or a new line follows. -/
def EndsLine (after : Bytes) : Prop := ∀ b ∈ after.head?, b = Byte.lineFeed

/-- Nothing that belongs to a word stands right in front. -/
def StartsWord (before : Bytes) : Prop := ∀ b ∈ before.getLast?, Piece.isDelimiter b = true

theorem startsWord_concat {b : UInt8} (before : Bytes) (hb : Piece.isDelimiter b = true) :
    StartsWord (before ++ [b]) := by
  intro c hc
  obtain rfl : b = c := by simpa using hc
  exact hb

/-- Blanks and comments in front of `after`. -/
inductive Gap (after : Bytes) : Bytes → Prop
  | nothing : Gap after []
  | blank {b : UInt8} {gap : Bytes} (hb : Piece.isBlank b = true) (rest : Gap after gap) :
      Gap after (b :: gap)
  | comment {body gap : Bytes} (hbody : ∀ b ∈ body, b ≠ Byte.lineFeed)
      (hend : EndsLine (gap ++ after)) (rest : Gap after gap) :
      Gap after (Byte.semicolon :: body ++ gap)

/-- What a lexeme looks like. -/
inductive Shape where
  | leftParen
  | rightParen
  | quote
  | literal
  | word
  deriving DecidableEq, Repr

/-- The kinds of token that a lexeme can be. -/
def Shape.kinds : Shape → List TokenKind
  | .leftParen => [.leftParen]
  | .rightParen => [.rightParen]
  | .quote => [.quote]
  | .literal => [.text]
  | .word => [.symbol, .number, .true, .false, .nil]

/-- A lexeme between `before` and `after`. -/
inductive Lexeme (before after : Bytes) : Shape → Bytes → Prop
  | leftParen : Lexeme before after .leftParen [Byte.leftParen]
  | rightParen : Lexeme before after .rightParen [Byte.rightParen]
  | quote : Lexeme before after .quote [Byte.singleQuote]
  | literal {body : Bytes} (h : LiteralBody body) :
      Lexeme before after .literal (Byte.doubleQuote :: body ++ [Byte.doubleQuote])
  | word {w : Bytes} (hne : w ≠ []) (hw : ∀ b ∈ w, Piece.isDelimiter b = false)
      (hstart : StartsWord before) (hend : Piece.EndsWord after) : Lexeme before after .word w

theorem Lexeme.letter {before after : Bytes} {b : UInt8} (hb : Piece.isDelimiter b = false)
    (hstart : StartsWord before) (hend : Piece.EndsWord after) :
    Lexeme before after .word [b] := by
  refine .word (by simp) ?_ hstart hend
  intro c hc
  rwa [List.mem_singleton.mp hc]

/-- Behind `before` and in front of `tail` the text is these lexemes with gaps around them. -/
inductive Cut (tail : Bytes) : Bytes → List (Shape × Bytes) → Bytes → Prop
  | last {before gap : Bytes} (h : Gap tail gap) : Cut tail before [] gap
  | more {before gap x rest : Bytes} {shape : Shape} {xs : List (Shape × Bytes)}
      (hgap : Gap (x ++ rest ++ tail) gap) (hx : Lexeme (before ++ gap) (rest ++ tail) shape x)
      (hrest : Cut tail (before ++ gap ++ x) xs rest) :
      Cut tail before ((shape, x) :: xs) (gap ++ x ++ rest)

/-- The whole text is these lexemes with gaps around them. -/
def Written (xs : List (Shape × Bytes)) (s : Bytes) : Prop := Cut [] [] xs s

/-- The text is lexemes and gaps up to a literal that is never closed. -/
def LeftOpen (rest s : Bytes) : Prop :=
  ∃ front xs, s = front ++ Byte.doubleQuote :: rest ∧
    Cut (Byte.doubleQuote :: rest) [] xs front ∧ NeverClosed rest

/-- The token is this lexeme.  A word is a constant, a number or a symbol as it is classified. -/
def Token.IsOf (x : Shape × Bytes) (t : Token) : Prop :=
  t.lexeme = x.2 ∧ t.kind ∈ x.1.kinds ∧ (x.1 = .word → t.kind = (Piece.classify x.2).1)

/-! ### What is written is cut off as it is -/

section Forward

variable {before after tail s x gap : Bytes} {shape : Shape} {xs : List (Shape × Bytes)}

theorem Piece.classify_kind (w : Bytes) : (classify w).1 ∈ Shape.word.kinds := by
  unfold classify
  (repeat' split) <;> simp [Shape.kinds]

theorem Piece.scan_comment {body : Bytes} (hbody : ∀ b ∈ body, b ≠ Byte.lineFeed)
    (hend : EndsLine after) :
    scan (Byte.semicolon :: body ++ after)
      = (.comment body :: (scan after).1, (scan after).2) := by
  have hin : ∀ b ∈ body, (b != Byte.lineFeed) = true := fun b hb => by simpa using hbody b hb
  have hout : after.takeWhile (· != Byte.lineFeed) = [] ∧
      after.dropWhile (· != Byte.lineFeed) = after := by
    cases after with
    | nil => exact ⟨rfl, rfl⟩
    | cons b after =>
        obtain rfl : b = Byte.lineFeed := hend b (by simp)
        exact ⟨rfl, rfl⟩
  refine scan_cons ?_
  show some (Piece.comment ((body ++ after).takeWhile (· != Byte.lineFeed)),
    (body ++ after).dropWhile (· != Byte.lineFeed)) = _
  rw [List.takeWhile_append_of_pos hin, List.dropWhile_append_of_pos hin, hout.1, hout.2,
    List.append_nil]

theorem Piece.scan_literal {body : Bytes} (h : LiteralBody body) (after : Bytes) :
    scan (Byte.doubleQuote :: body ++ [Byte.doubleQuote] ++ after)
      = (.literal body :: (scan after).1, (scan after).2) := by
  have hsplit : Byte.doubleQuote :: body ++ [Byte.doubleQuote] ++ after
      = Byte.doubleQuote :: (body ++ Byte.doubleQuote :: after) := by simp
  rw [hsplit]
  refine scan_cons ?_
  show (closeLiteral? (body ++ Byte.doubleQuote :: after)).map _ = _
  rw [closeLiteral?_of_literalBody h]
  rfl

theorem Gap.yields (h : Gap after gap) : Token.Yields gap after (· = []) := by
  induction h with
  | nothing => exact ⟨rfl, fun place => ⟨[], place, rfl, rfl⟩⟩
  | @blank b gap hb _ ih =>
      have hone : Token.Yields [b] (gap ++ after) (· = []) := by
        refine Token.yields_nothing (p := .blank b) (Piece.scan_cons ?_) rfl rfl
        show Piece.next? b (gap ++ after) = _
        rw [Piece.next?, if_pos hb]
      exact hone.append ih (by rintro _ _ rfl rfl; rfl)
  | @comment body gap hbody hend _ ih =>
      have hone : Token.Yields (Byte.semicolon :: body) (gap ++ after) (· = []) :=
        Token.yields_nothing (Piece.scan_comment hbody hend) rfl rfl
      exact hone.append ih (by rintro _ _ rfl rfl; rfl)

theorem Lexeme.yields (h : Lexeme before after shape x) :
    Token.Yields x after fun ts => List.Forall₂ Token.IsOf [(shape, x)] ts := by
  have hone : ∀ {p : Piece} {kind : TokenKind} {value : Value},
      Piece.scan (x ++ after) = (p :: (Piece.scan after).1, (Piece.scan after).2) →
      p.meaning? = some (kind, value) → p.bytes = x → kind ∈ shape.kinds →
      (shape = .word → kind = (Piece.classify x).1) →
      Token.Yields x after fun ts => List.Forall₂ Token.IsOf [(shape, x)] ts := by
    rintro p kind value hscan hmeaning rfl hkind hword
    refine Token.yields_piece hscan hmeaning fun place => ?_
    exact .cons ⟨rfl, hkind, hword⟩ .nil
  cases h with
  | leftParen => exact hone (Piece.scan_single (fun _ => rfl) after) rfl rfl (by decide) nofun
  | rightParen => exact hone (Piece.scan_single (fun _ => rfl) after) rfl rfl (by decide) nofun
  | quote => exact hone (Piece.scan_single (fun _ => rfl) after) rfl rfl (by decide) nofun
  | literal hbody => exact hone (Piece.scan_literal hbody after) rfl rfl (by decide) nofun
  | word hne hw _ hend =>
      exact hone (Piece.scan_word hne hw hend) rfl rfl (Piece.classify_kind x) fun _ => rfl

/-- **Lexemes and gaps are cut off as they are**, whatever follows them. -/
theorem Cut.yields (h : Cut tail before xs s) :
    Token.Yields s tail fun ts => List.Forall₂ Token.IsOf xs ts := by
  induction h with
  | last h => exact h.yields.mono (by rintro _ rfl; exact .nil)
  | @more before gap x rest shape xs hgap hx _ ih =>
      have hlexeme : Token.Yields (gap ++ x) (rest ++ tail)
          fun ts => List.Forall₂ Token.IsOf [(shape, x)] ts := by
        rw [List.append_assoc] at hgap
        exact hgap.yields.append hx.yields (by rintro _ ts rfl hts; exact hts)
      refine hlexeme.append ih ?_
      intro ts us hts hus
      exact List.rel_append hts hus

end Forward

/-! ### What is cut off is written -/

namespace Piece

/-- What a piece is in front of what follows it. -/
def Fits (after : Bytes) : Piece → Prop
  | .blank b => isBlank b = true
  | .comment body => (∀ b ∈ body, b ≠ Byte.lineFeed) ∧ EndsLine after
  | .literal body => LiteralBody body
  | .word w => w ≠ [] ∧ (∀ b ∈ w, isDelimiter b = false) ∧ EndsWord after
  | _ => True

theorem head?_dropWhile {p : UInt8 → Bool} {s : Bytes} {b : UInt8}
    (h : b ∈ (s.dropWhile p).head?) : p b = false := by
  have hhead := List.head?_dropWhile_not p s
  rw [Option.mem_def.mp h] at hhead
  simpa using hhead

theorem next?_fits {b : UInt8} {rest after : Bytes} {p : Piece}
    (h : next? b rest = some (p, after)) : p.Fits after := by
  by_cases hword : isDelimiter b = false
  · rw [next?_word hword] at h
    obtain ⟨rfl, rfl⟩ := Prod.mk.inj (Option.some.inj h)
    refine ⟨by simp, ?_, ?_⟩
    · intro c hc
      rcases List.mem_cons.mp hc with rfl | hc
      · exact hword
      · simpa using List.mem_takeWhile_imp hc
    · intro c hc
      simpa using head?_dropWhile hc
  · unfold next? at h
    (repeat' split at h) <;>
      simp only [Option.some.injEq, Prod.mk.injEq, Option.map_eq_some_iff, Prod.exists] at h
    case isTrue hb =>
      obtain ⟨rfl, rfl⟩ := h
      exact hb
    case isFalse.isFalse.isFalse.isFalse.isTrue =>
      obtain ⟨rfl, rfl⟩ := h
      refine ⟨?_, ?_⟩
      · intro c hc
        simpa using List.mem_takeWhile_imp hc
      · intro c hc
        simpa using head?_dropWhile hc
    case isFalse.isFalse.isFalse.isFalse.isFalse.isTrue =>
      obtain ⟨body, after', hr, rfl, rfl⟩ := h
      exact literalBody_of_closeLiteral? hr
    case isFalse.isFalse.isFalse.isFalse.isFalse.isFalse =>
      simp_all [isDelimiter]
    all_goals
      obtain ⟨rfl, rfl⟩ := h
      trivial

theorem next?_eq_none {b : UInt8} {rest : Bytes} (h : next? b rest = none) :
    b = Byte.doubleQuote ∧ NeverClosed rest := by
  unfold next? at h
  (repeat' split at h) <;> simp only [reduceCtorEq, Option.map_eq_none_iff] at h
  rename_i hb
  exact ⟨hb, closeLiteral?_eq_none_iff.mp h⟩

/-- A piece ends with a delimiter, or one follows it. -/
theorem Fits.startsWord {p : Piece} {after : Bytes} (h : p.Fits after) (before : Bytes) :
    StartsWord (before ++ p.bytes) ∨ EndsWord after := by
  cases p with
  | blank b =>
      have hb : isBlank b = true := h
      exact .inl (startsWord_concat before (by simp [isDelimiter, hb]))
  | comment body =>
      refine .inr fun b hb => ?_
      obtain rfl : b = Byte.lineFeed := h.2 b hb
      rfl
  | leftParen => exact .inl (startsWord_concat before rfl)
  | rightParen => exact .inl (startsWord_concat before rfl)
  | quote => exact .inl (startsWord_concat before rfl)
  | literal body =>
      have hsplit : before ++ bytes (.literal body)
          = (before ++ Byte.doubleQuote :: body) ++ [Byte.doubleQuote] := by simp [bytes]
      rw [hsplit]
      exact .inl (startsWord_concat _ rfl)
  | word w => exact .inr h.2.2

end Piece

section Backward

variable {before tail s x : Bytes} {shape : Shape} {xs : List (Shape × Bytes)}

theorem Cut.blank {b : UInt8} (hb : Piece.isBlank b = true) (h : Cut tail (before ++ [b]) xs s) :
    Cut tail before xs (b :: s) := by
  cases h with
  | last h => exact .last (.blank hb h)
  | more hgap hx hrest =>
      rw [List.append_assoc before [b]] at hx hrest
      exact .more (.blank hb hgap) hx hrest

theorem Cut.comment {body : Bytes} (hbody : ∀ b ∈ body, b ≠ Byte.lineFeed)
    (hend : EndsLine (s ++ tail)) (h : Cut tail (before ++ Byte.semicolon :: body) xs s) :
    Cut tail before xs (Byte.semicolon :: body ++ s) := by
  cases h with
  | last h => exact .last (.comment hbody hend h)
  | @more _ gap x rest _ _ hgap hx hrest =>
      rw [List.append_assoc before (Byte.semicolon :: body)] at hx hrest
      have hall : gap ++ (x ++ rest ++ tail) = gap ++ x ++ rest ++ tail := by simp
      have hsplit : Byte.semicolon :: body ++ (gap ++ x ++ rest)
          = (Byte.semicolon :: body ++ gap) ++ x ++ rest := by simp
      rw [hsplit]
      exact .more (.comment hbody (hall ▸ hend) hgap) hx hrest

theorem Cut.lexeme (hx : Lexeme before (s ++ tail) shape x) (h : Cut tail (before ++ x) xs s) :
    Cut tail before ((shape, x) :: xs) (x ++ s) :=
  .more .nothing (by rwa [List.append_nil]) (by rwa [List.append_nil])

/-- A piece in front of lexemes and gaps is one more of them. -/
theorem Cut.piece {p : Piece} (hp : p.Fits (s ++ tail))
    (hfree : StartsWord before ∨ Piece.EndsWord (p.bytes ++ (s ++ tail)))
    (h : Cut tail (before ++ p.bytes) xs s) : ∃ ys, Cut tail before ys (p.bytes ++ s) := by
  cases p with
  | blank b => exact ⟨_, h.blank hp⟩
  | comment body => exact ⟨_, h.comment hp.1 hp.2⟩
  | leftParen => exact ⟨_, h.lexeme .leftParen⟩
  | rightParen => exact ⟨_, h.lexeme .rightParen⟩
  | quote => exact ⟨_, h.lexeme .quote⟩
  | literal body => exact ⟨_, h.lexeme (.literal hp)⟩
  | word w =>
      obtain ⟨hne, hw, hend⟩ := hp
      have hstart : StartsWord before := by
        refine hfree.resolve_right fun hdelimiter => ?_
        obtain ⟨b, w, rfl⟩ := List.exists_cons_of_ne_nil hne
        have hb : Piece.isDelimiter b = true := hdelimiter b rfl
        rw [hw b (by simp)] at hb
        cases hb
      exact ⟨_, h.lexeme (.word hne hw hstart hend)⟩

/-- **The scanner takes a text apart into lexemes and gaps**, up to a literal that is never
closed.  The induction is the scanner's own; what stands in front lets no word go on. -/
theorem exists_cut_scan (s : Bytes) : ∀ before, (StartsWord before ∨ Piece.EndsWord s) →
    ∃ front xs, s = front ++ (Piece.scan s).2 ∧ Cut (Piece.scan s).2 before xs front ∧
      ((Piece.scan s).2 = [] ∨
        ∃ rest, (Piece.scan s).2 = Byte.doubleQuote :: rest ∧ NeverClosed rest) := by
  fun_induction Piece.scan s with
  | case1 =>
      intro before _
      exact ⟨[], [], rfl, .last .nothing, .inl rfl⟩
  | case2 b rest hn =>
      intro before _
      obtain ⟨rfl, hopen⟩ := Piece.next?_eq_none hn
      exact ⟨[], [], rfl, .last .nothing, .inr ⟨rest, rfl, hopen⟩⟩
  | case3 b rest p after hn pieces tail hs ih =>
      intro before hfree
      rw [hs] at ih
      have hfits := Piece.next?_fits hn
      obtain ⟨front, xs, hafter, hcut, hend⟩ := ih _ (hfits.startsWord before)
      simp only at hafter hcut hend
      rw [Piece.next?_eq hn, hafter] at hfree
      rw [hafter] at hfits
      obtain ⟨ys, hys⟩ := hcut.piece hfits hfree
      refine ⟨p.bytes ++ front, ys, ?_, hys, hend⟩
      rw [Piece.next?_eq hn, hafter, List.append_assoc]

end Backward

/-! ### Tokens are lexemes -/

namespace Token

theorem tokenize_of_written {xs : List (Shape × Bytes)} {s : Bytes} (h : Written xs s)
    (source : Bytes) :
    ∃ ts e, tokenize source s = .ok (ts ++ [e]) ∧ e.kind = .endOfInput ∧
      List.Forall₂ IsOf xs ts := by
  obtain ⟨ts, place, hts, htokens⟩ := h.yields.tokenize source
  exact ⟨ts, _, htokens, rfl, hts⟩

theorem tokenize_of_leftOpen {rest s : Bytes} (h : LeftOpen rest s) (source : Bytes) :
    ∃ err, tokenize source s = .error err ∧ err.cause = .endOfInput ∧
      err.token.kind = .invalid ∧ err.token.lexeme = Byte.doubleQuote :: rest := by
  obtain ⟨front, xs, rfl, hcut, hopen⟩ := h
  have hnone : Piece.next? Byte.doubleQuote rest = none := by
    show (Piece.closeLiteral? rest).map _ = none
    rw [Piece.closeLiteral?_eq_none_iff.mpr hopen]
    rfl
  have htail : (Piece.scan (front ++ Byte.doubleQuote :: rest)).2 = Byte.doubleQuote :: rest := by
    rw [hcut.yields.1, Piece.scan_of_none hnone]
  unfold tokenize
  rcases hscan : Piece.scan (front ++ Byte.doubleQuote :: rest) with ⟨pieces, tail⟩
  rw [hscan] at htail
  obtain rfl : tail = Byte.doubleQuote :: rest := htail
  exact ⟨_, rfl, rfl, rfl, rfl⟩

theorem written_or_leftOpen (s : Bytes) : (∃ xs, Written xs s) ∨ ∃ rest, LeftOpen rest s := by
  have hstart : StartsWord [] := by simp [StartsWord]
  obtain ⟨front, xs, hs, hcut, hend⟩ := exists_cut_scan s [] (.inl hstart)
  rcases hend with htail | ⟨rest, htail, hopen⟩
  · rw [htail, List.append_nil] at hs
    rw [htail, ← hs] at hcut
    exact .inl ⟨xs, hcut⟩
  · rw [htail] at hs hcut
    exact .inr ⟨rest, front, xs, hs, hcut, hopen⟩

/-- **Tokenizing loses nothing and cuts words as long as they are.**  It succeeds exactly if the
text is lexemes with gaps around them, and then the tokens are these lexemes in order, each of
a kind that it can be, and the end; it fails exactly if a literal is left open, and then the
error is an early end and holds the text from that literal on. -/
theorem tokenize_lossless (source s : Bytes) :
    ((∃ tokens, tokenize source s = .ok tokens) ↔ ∃ xs, Written xs s) ∧
      (∀ xs, Written xs s → ∃ ts e, tokenize source s = .ok (ts ++ [e]) ∧
        e.kind = .endOfInput ∧ List.Forall₂ IsOf xs ts) ∧
      ((∃ err, tokenize source s = .error err) ↔ ∃ rest, LeftOpen rest s) ∧
      (∀ rest, LeftOpen rest s → ∃ err, tokenize source s = .error err ∧
        err.cause = .endOfInput ∧ err.token.kind = .invalid ∧
        err.token.lexeme = Byte.doubleQuote :: rest) := by
  have hok_of : (∃ xs, Written xs s) → ∃ tokens, tokenize source s = .ok tokens := by
    rintro ⟨xs, h⟩
    obtain ⟨ts, e, hok, -⟩ := tokenize_of_written h source
    exact ⟨_, hok⟩
  have herr_of : (∃ rest, LeftOpen rest s) → ∃ err, tokenize source s = .error err := by
    rintro ⟨rest, h⟩
    obtain ⟨err, herr, -⟩ := tokenize_of_leftOpen h source
    exact ⟨err, herr⟩
  have honce : ∀ tokens err, tokenize source s = .ok tokens → tokenize source s ≠ .error err := by
    intro tokens err hok herr
    rw [hok] at herr
    cases herr
  refine ⟨⟨?_, hok_of⟩, fun xs h => tokenize_of_written h source, ⟨?_, herr_of⟩,
    fun rest h => tokenize_of_leftOpen h source⟩
  · rintro ⟨tokens, hok⟩
    refine (written_or_leftOpen s).resolve_right fun hopen => ?_
    obtain ⟨err, herr⟩ := herr_of hopen
    exact honce tokens err hok herr
  · rintro ⟨err, herr⟩
    refine (written_or_leftOpen s).resolve_left fun hwritten => ?_
    obtain ⟨tokens, hok⟩ := hok_of hwritten
    exact honce tokens err hok herr

/-- Two words, the second one behind a comment and a literal that it touches. -/
def touching : Bytes := utf8 "(f;c\n\"\\\"\"x )"

/-- The lexemes. -/
def lexemesOfTouching : List (Shape × Bytes) :=
  [(.leftParen, utf8 "("), (.word, utf8 "f"), (.literal, utf8 "\"\\\"\""), (.word, utf8 "x"),
    (.rightParen, utf8 ")")]

theorem written_touching : Written lexemesOfTouching touching := by
  have hclose : Cut [] (utf8 "(f;c\n\"\\\"\"x") (lexemesOfTouching.drop 4) (utf8 " )") :=
    .blank rfl (.lexeme .rightParen (.last .nothing))
  have hx : Lexeme (utf8 "(f;c\n\"\\\"\"") (utf8 " )") .word (utf8 "x") :=
    .letter rfl (startsWord_concat (b := Byte.doubleQuote) (utf8 "(f;c\n\"\\\"") rfl)
      (Piece.endsWord_cons rfl _)
  have hliteral : Cut [] (utf8 "(f;c\n") (lexemesOfTouching.drop 2) (utf8 "\"\\\"\"x )") :=
    .lexeme (.literal (.escape .nil)) (.lexeme hx hclose)
  have hbody : ∀ b ∈ utf8 "c", b ≠ Byte.lineFeed := by
    rintro b hb rfl
    exact absurd hb (by decide)
  have hcomment : Cut [] (utf8 "(f") (lexemesOfTouching.drop 2) (utf8 ";c\n\"\\\"\"x )") :=
    .comment hbody (fun b hb => (Option.some.inj hb).symm) (.blank rfl hliteral)
  have hf : Lexeme (utf8 "(") (utf8 ";c\n\"\\\"\"x )") .word (utf8 "f") :=
    .letter rfl (startsWord_concat (b := Byte.leftParen) [] rfl) (Piece.endsWord_cons rfl _)
  exact .lexeme .leftParen (.lexeme hf hcomment)

/-- The comment and the escaped quote are no lexemes of their own.  Behind a word the literal may
also be left open, and then the rest is not looked at. -/
theorem tokenize_lossless_touching :
    (Written lexemesOfTouching touching ∧
      ∃ ts e, tokenize [] touching = .ok (ts ++ [e]) ∧ e.kind = .endOfInput ∧
        List.Forall₂ IsOf lexemesOfTouching ts) ∧
    LeftOpen (utf8 "x )") (utf8 "f\"x )") ∧
      ∃ err, tokenize [] (utf8 "f\"x )") = .error err ∧ err.cause = .endOfInput ∧
        err.token.lexeme = utf8 "\"x )" := by
  obtain ⟨-, hwritten, -⟩ := tokenize_lossless [] touching
  obtain ⟨-, -, -, hopen⟩ := tokenize_lossless [] (utf8 "f\"x )")
  have hleft : LeftOpen (utf8 "x )") (utf8 "f\"x )") := by
    have hf : Lexeme [] (utf8 "\"x )") .word (utf8 "f") :=
      .letter rfl nofun (Piece.endsWord_cons rfl _)
    have hnever : NeverClosed (utf8 "x )") := Piece.closeLiteral?_eq_none_iff.mp rfl
    exact ⟨utf8 "f", [(.word, utf8 "f")], rfl, .lexeme hf (.last .nothing), hnever⟩
  obtain ⟨err, herr, hcause, -, hlexeme⟩ := hopen _ hleft
  exact ⟨⟨written_touching, hwritten _ written_touching⟩, hleft, err, herr, hcause, hlexeme⟩

end Token

end TinyLisp
