/-
An expression typed on several lines.

A session collects lines as long as their text is rejected for ending too early.  Cut an
expression behind any of its lines: if the cut goes through a literal, that is left open;
if not, the line feed ends whatever stands in front of it, so the tokens in front of the cut
and those behind it are the tokens of the two texts.  There are some on both sides when the
first token begins on the first line and the last one ends on the last, and tokens that a
whole expression goes on from are rejected for no other reason than that they end.

So every line but the last is taken without a word, and the last one is answered like the
whole text fed at once.
-/
import TinyLisp.Proofs.Grammar.Rejection
import TinyLisp.Registry.Builtins
import TinyLisp.Session

namespace TinyLisp

/-! ### Lines -/

namespace Bytes

/-- Lines with a line feed between them. -/
def joined (lines : List Bytes) : Bytes := List.intercalate [Byte.lineFeed] lines

/-- Lines with a line feed behind each of them. -/
def terminated (lines : List Bytes) : Bytes := lines.flatMap line

theorem joined_cons_cons (a b : Bytes) (lines : List Bytes) :
    joined (a :: b :: lines) = a.line ++ joined (b :: lines) := by
  simp [joined, line, List.intercalate]

theorem joined_append (front : List Bytes) {back : List Bytes} (h : back ≠ []) :
    joined (front ++ back) = terminated front ++ joined back := by
  obtain ⟨b, back, rfl⟩ := List.exists_cons_of_ne_nil h
  induction front with
  | nil => rfl
  | cons a front ih =>
      obtain ⟨c, rest, hc⟩ : ∃ c rest, front ++ b :: back = c :: rest :=
        List.exists_cons_of_ne_nil (by simp)
      rw [List.cons_append, hc, joined_cons_cons, ← hc, ih, ← List.append_assoc]
      rfl

theorem joined_concat (front : List Bytes) (l : Bytes) :
    joined (front ++ [l]) = terminated front ++ l := by
  rw [joined_append front (List.cons_ne_nil l [])]
  simp [joined]

theorem terminated_concat (front : List Bytes) (l : Bytes) :
    terminated (front ++ [l]) = (joined (front ++ [l])).line := by
  rw [joined_concat]
  simp [terminated, line]

theorem terminated_eq_line {front : List Bytes} (h : front ≠ []) :
    terminated front = (joined front).line := by
  rw [← List.dropLast_append_getLast h, terminated_concat]

theorem count_terminated {front : List Bytes} (h : ∀ l ∈ front, Byte.lineFeed ∉ l) :
    (terminated front).count Byte.lineFeed = front.length := by
  induction front with
  | nil => rfl
  | cons a front ih =>
      have ha : a.count Byte.lineFeed = 0 := List.count_eq_zero.mpr (h a (by simp))
      have hrest := ih fun l hl => h l (by simp [hl])
      have hsplit : terminated (a :: front) = a ++ Byte.lineFeed :: terminated front := by
        simp [terminated, line]
      rw [hsplit, List.count_append, List.count_cons_self, ha, hrest, List.length_cons]
      omega

end Bytes

/-! ### A text cut behind a line -/

/-- If the line in front can be tokenized, so can what follows it, and the tokens are those of
the two. -/
theorem Token.tokenize_cut {source s t : Bytes} {ts tokens : List Token} {e : Token}
    (hs : tokenize source s = .ok (ts ++ [e])) (h : tokenize source (s.line ++ t) = .ok tokens) :
    ∃ us, tokenize source t = .ok us ∧
      tokens = ts ++ us.map (below (s.line.count Byte.lineFeed)) := by
  obtain ⟨hclosed, -⟩ := tokenize_eq_ok.mp hs
  obtain ⟨hall, -⟩ := tokenize_eq_ok.mp h
  rw [Piece.scan_line s t hclosed] at hall
  have ht : tokenize source t = .ok _ := tokenize_eq_ok.mpr ⟨hall, rfl⟩
  rw [tokenize_line hs ht] at h
  exact ⟨_, ht, (Except.ok.inj h).symm⟩

theorem Token.cause_of_tokenize {source text : Bytes} {e : SyntaxError}
    (h : tokenize source text = .error e) : e.cause = .endOfInput := by
  unfold tokenize at h
  rcases hscan : Piece.scan text with ⟨pieces, tail⟩
  rw [hscan] at h
  cases tail with
  | nil => cases h
  | cons b tail =>
      obtain rfl := Except.error.inj h
      rfl

namespace Grammar

theorem read_eq_parse {source text : Bytes} {tokens : List Token}
    (h : Token.tokenize source text = .ok tokens) : read source text = (parse tokens).outcome := by
  rw [read, h]

theorem accepted_of_read {source text : Bytes} {tokens : List Token} {expr : Value}
    (htokens : Token.tokenize source text = .ok tokens) (h : read source text = .ok expr) :
    Accepted tokens.dropLast := by
  rw [read_eq_parse htokens] at h
  obtain ⟨ts, e, rfl, he, hts⟩ := Token.tokenize_ends htokens
  rw [parse, parseFrom_append_end (streamEnd_kind _) he] at h
  rw [List.dropLast_concat]
  exact (accepted_iff he).mpr ⟨hts, expr, h⟩

/-- **An expression cut behind a line is unfinished**, if its first token begins in front of the
cut and its last token ends behind it. -/
theorem read_unfinished {source s t : Bytes} {tokens : List Token} {expr : Value}
    (htokens : Token.tokenize source (s.line ++ t) = .ok tokens)
    (hread : read source (s.line ++ t) = .ok expr)
    (hfirst : ∀ first ∈ tokens.head?, first.place.line ≤ s.line.count Byte.lineFeed)
    (hlast : ∀ last ∈ tokens.dropLast.getLast?,
      s.line.count Byte.lineFeed < last.finish.line) :
    ∃ e, read source s = .error e ∧ e.cause = .endOfInput := by
  cases hs : Token.tokenize source s with
  | error e =>
      -- the cut goes through a literal
      refine ⟨e, ?_, Token.cause_of_tokenize hs⟩
      rw [read, hs]
  | ok ts =>
      have hexp := accepted_of_read htokens hread
      have hvalid := Token.tokenize_ne_invalid hs
      have hinside := Token.tokenize_lines hs
      rw [read_eq_parse hs]
      obtain ⟨ts, e, rfl, he, -⟩ := Token.tokenize_ends hs
      obtain ⟨us, ht, rfl⟩ := Token.tokenize_cut hs htokens
      obtain ⟨vs, e', rfl, -⟩ := Token.tokenize_ends ht
      have hts : ts ≠ [] := by
        rintro rfl
        obtain ⟨u, hu⟩ : ∃ u, (vs ++ [e']).head? = some u := by simp [List.head?_append]
        have hline := (Token.tokenize_lines ht u (List.mem_of_mem_head? hu)).1
        have hbegins := hfirst _ (by rw [List.nil_append, List.head?_map, hu]; rfl)
        simp only [Token.below, Place.below] at hbegins
        omega
      rw [List.map_append, ← List.append_assoc, List.map_singleton, List.dropLast_concat]
        at hexp hlast
      refine parse_unfinished he hts ?_ (fun u hu => hvalid u (by simp [hu])) hexp
      intro hnone
      rw [hnone, List.append_nil, List.getLast?_eq_some_getLast hts] at hlast
      have hline := (hinside (ts.getLast hts) (by simp)).2
      have hends := hlast _ rfl
      omega

end Grammar

/-! ### Feeding lines -/

namespace Session

open Bytes (joined terminated)

/-- Takes lines one after another: the session after them, and what it waited for after each. -/
def feedAll (stack : Machine → Bytes) (i : Interpreter) (s : Session) :
    List Bytes → Session × List Prompt
  | [] => (s, [])
  | l :: rest =>
    let (s, prompt) := s.feed stack i l
    let (s, prompts) := feedAll stack i s rest
    (s, prompt :: prompts)

section

variable {stack : Machine → Bytes} {i : Interpreter} {s : Session} {m : Machine}
  {lines : List Bytes}

theorem feedAll_cons (s : Session) (l : Bytes) (rest : List Bytes) :
    feedAll stack i s (l :: rest) =
      ((feedAll stack i (s.feed stack i l).1 rest).1,
        (s.feed stack i l).2 :: (feedAll stack i (s.feed stack i l).1 rest).2) :=
  rfl

theorem feedAll_concat (l : Bytes) (front : List Bytes) : ∀ s : Session,
    feedAll stack i s (front ++ [l]) =
      (((feedAll stack i s front).1.feed stack i l).1,
        (feedAll stack i s front).2 ++ [((feedAll stack i s front).1.feed stack i l).2]) := by
  induction front with
  | nil => intro s; rfl
  | cons a front ih =>
      intro s
      rw [List.cons_append, feedAll_cons, feedAll_cons, ih]
      rfl

theorem feed_unfinished {l : Bytes} {e : SyntaxError}
    (h : Grammar.read source (s.pending ++ l) = .error e) (hcause : e.cause = .endOfInput) :
    s.feed stack i l = (⟨s.machine, (s.pending ++ l).line⟩, .continued) := by
  have hnot : ¬ (s.pending.isEmpty && l.isEmpty) = true := by
    intro hempty
    have hnothing : s.pending ++ l = [] := by simpa using hempty
    have hok : Grammar.read source [] = .ok .nil := by cbv
    rw [hnothing, hok] at h
    cases h
  rw [feed, if_neg hnot]
  simp only [h, hcause, if_true]

/-- Behind a whole expression nothing is pending. -/
theorem feed_finished {l : Bytes} {expr : Value}
    (h : Grammar.read source (s.pending ++ l) = .ok expr) :
    (s.feed stack i l).1.pending = [] ∧ (s.feed stack i l).2 = .fresh := by
  unfold feed
  split
  · rename_i hempty
    have hpending : s.pending = [] := by simpa using (Bool.and_eq_true_iff.mp hempty).1
    exact ⟨hpending, rfl⟩
  · simp only [h, and_self]

/-- How the text is spread over what is pending and the new line makes no difference. -/
theorem feed_pending (m : Machine) (pending l : Bytes) :
    feed stack i ⟨m, pending⟩ l = feed stack i ⟨m, []⟩ (pending ++ l) := by
  cases pending with
  | nil => rfl
  | cons b pending => rfl

/-- Lines are collected as long as their text is unfinished. -/
theorem feedAll_unfinished
    (hcut : ∀ front back, lines = front ++ back → front ≠ [] → back ≠ [] →
      ∃ e, Grammar.read source (joined front) = .error e ∧ e.cause = .endOfInput)
    (front : List Bytes) : ∀ fed back, lines = fed ++ (front ++ back) → back ≠ [] →
      feedAll stack i ⟨m, terminated fed⟩ front =
        (⟨m, terminated (fed ++ front)⟩, List.replicate front.length .continued) := by
  induction front with
  | nil =>
      intro fed back _ _
      rw [List.append_nil]
      rfl
  | cons l front ih =>
      intro fed back hlines hback
      have hlines' : lines = (fed ++ [l]) ++ (front ++ back) := by rw [hlines]; simp
      obtain ⟨e, he, hcause⟩ :=
        hcut (fed ++ [l]) (front ++ back) hlines' (by simp) (by simp [hback])
      rw [Bytes.joined_concat] at he
      have hfeed : feed stack i ⟨m, terminated fed⟩ l
          = (⟨m, terminated (fed ++ [l])⟩, .continued) := by
        rw [feed_unfinished he hcause, Bytes.terminated_concat, Bytes.joined_concat]
      have hrest := ih (fed ++ [l]) back hlines' hback
      rw [List.append_assoc] at hrest
      rw [feedAll_cons, hfeed, hrest]
      rfl

end

/--
**Line breaks do not matter at the prompt.**  If lines make up an expression whose first token
begins on the first line and whose last token ends on the last, a session on which nothing is
pending takes all but the last of them without output, each time waiting for more, and is then
where it would be after the whole text at once.  A single line may also hold no token but the
end of the text, which then is the first.
-/
theorem feedAll_joined (stack : Machine → Bytes) (i : Interpreter) (m : Machine)
    {lines : List Bytes} {expr : Value} {tokens : List Token} (hsome : lines ≠ [])
    (hlines : ∀ l ∈ lines, Byte.lineFeed ∉ l)
    (hread : Grammar.read source (joined lines) = .ok expr)
    (htokens : Token.tokenize source (joined lines) = .ok tokens)
    (hfirst : ∀ first ∈ tokens.head?, first.place.line = 1)
    (hlast : ∀ last ∈ tokens.dropLast.getLast?, last.finish.line = lines.length) :
    let whole := feed stack i ⟨m, []⟩ (joined lines)
    (∀ front back, lines = front ++ back → back ≠ [] →
        feedAll stack i ⟨m, []⟩ front =
          (⟨m, terminated front⟩, List.replicate front.length .continued)) ∧
      feedAll stack i ⟨m, []⟩ lines =
        (whole.1, List.replicate (lines.length - 1) .continued ++ [.fresh]) ∧
      whole.1.pending = [] ∧ whole.2 = .fresh := by
  intro whole
  have hcut : ∀ front back, lines = front ++ back → front ≠ [] → back ≠ [] →
      ∃ e, Grammar.read source (joined front) = .error e ∧ e.cause = .endOfInput := by
    rintro front back rfl hfront hback
    have hcount := Bytes.count_terminated fun l hl => hlines l (List.mem_append_left back hl)
    have hlength : 0 < front.length := List.length_pos_iff.mpr hfront
    have hlength' : 0 < back.length := List.length_pos_iff.mpr hback
    rw [Bytes.joined_append front hback, Bytes.terminated_eq_line hfront] at hread htokens
    rw [Bytes.terminated_eq_line hfront] at hcount
    refine Grammar.read_unfinished htokens hread ?_ ?_
    · intro first hmem
      have hline := hfirst first hmem
      omega
    · intro last hmem
      have hline := hlast last hmem
      rw [List.length_append] at hline
      omega
  have hfront : ∀ front back, lines = front ++ back → back ≠ [] → feedAll stack i ⟨m, []⟩ front =
      (⟨m, terminated front⟩, List.replicate front.length .continued) :=
    fun front back => feedAll_unfinished hcut front [] back
  obtain ⟨hpending, hprompt⟩ : whole.1.pending = [] ∧ whole.2 = .fresh := feed_finished hread
  refine ⟨hfront, ?_, hpending, hprompt⟩
  obtain ⟨front, l, rfl⟩ : ∃ front l, lines = front ++ [l] :=
    ⟨_, _, (List.dropLast_append_getLast hsome).symm⟩
  have hend : feed stack i ⟨m, terminated front⟩ l = whole := by
    rw [feed_pending, ← Bytes.joined_concat]
  rw [feedAll_concat, hfront front [l] rfl (by simp), hend, hprompt]
  simp only [List.length_append, List.length_singleton, Nat.add_sub_cancel]

/-- A call on four lines: the first cut goes through a literal, the second is behind a comment,
and the third is between a quote and its list. -/
def callOnFourLines : List Bytes :=
  [utf8 "(list \"a", utf8 "b\" ; c", utf8 "'", utf8 "(x))"]

/-- Its tokens. -/
def tokensOfCall : List Token :=
  [⟨.leftParen, utf8 "(", .nil, ⟨source, 1, 1⟩⟩,
    ⟨.symbol, utf8 "list", .symbol (utf8 "list"), ⟨source, 1, 2⟩⟩,
    ⟨.text, utf8 "\"a\nb\"", .text (utf8 "a\nb"), ⟨source, 1, 7⟩⟩,
    ⟨.quote, utf8 "'", .nil, ⟨source, 3, 1⟩⟩, ⟨.leftParen, utf8 "(", .nil, ⟨source, 4, 1⟩⟩,
    ⟨.symbol, utf8 "x", .symbol (utf8 "x"), ⟨source, 4, 2⟩⟩,
    ⟨.rightParen, utf8 ")", .nil, ⟨source, 4, 3⟩⟩, ⟨.rightParen, utf8 ")", .nil, ⟨source, 4, 4⟩⟩,
    .endOfInput ⟨source, 4, 5⟩]

/-- A session over the builtin functions takes these lines. -/
def feedCall (lines : List Bytes) : Session × List Prompt :=
  feedAll (fun _ => []) (Interpreter.new Registry.builtins 0 false)
    ⟨.idle .reliable .reliable none, []⟩ lines

theorem feedAll_callOnFourLines :
    (∀ l ∈ callOnFourLines, Byte.lineFeed ∉ l) ∧
      Token.tokenize source (joined callOnFourLines) = .ok tokensOfCall ∧
      (Grammar.read source (joined callOnFourLines)).isOk = true ∧
      (feedCall callOnFourLines).2 = [.continued, .continued, .continued, .fresh] ∧
      (feedCall callOnFourLines).1 = (feedCall [joined callOnFourLines]).1 := by
  have hlines : ∀ l ∈ callOnFourLines, Byte.lineFeed ∉ l := by decide
  have htokens : Token.tokenize source (joined callOnFourLines) = .ok tokensOfCall := by cbv
  have hread : Grammar.read source (joined callOnFourLines) = .ok _ :=
    Grammar.read_eq_parse htokens
  obtain ⟨-, hall, -, -⟩ := feedAll_joined (fun _ => [])
    (Interpreter.new Registry.builtins 0 false) (.idle .reliable .reliable none) (by decide)
    hlines hread htokens (by rintro _ ⟨⟩; rfl) (by rintro _ ⟨⟩; rfl)
  have hboth : feedCall callOnFourLines
      = ((feedCall [joined callOnFourLines]).1, [.continued, .continued, .continued, .fresh]) :=
    hall
  rw [hread, hboth]
  exact ⟨hlines, htokens, rfl, rfl, rfl⟩

end Session

end TinyLisp
