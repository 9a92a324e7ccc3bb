/-
Printing and reading.

A value that holds neither doubles nor texts, and whose symbols are spelled like
symbols, is printed in a form that the reader takes for the same value.  A list has
to be quoted for that, or to begin with a symbol, because no bare list is an
expression of its own.

The argument goes through all four parts.  The printer puts a blank or a parenthesis
behind every word, so the scanner cuts the text at the boundaries of the elements;
every word is classified as the atom it was printed from; hence the tokens of a
printed value are derived as an item with that value (`yields_render`); and what the
grammar derives, the parser accepts.  The places of the tokens never matter.
-/
import TinyLisp.Eval.Evaluate
import TinyLisp.Proofs.Grammar.Parsing
import TinyLisp.Proofs.Numeral.Decimal
import TinyLisp.Proofs.Token.Scanning

namespace TinyLisp

open Grammar Token

/-! ### Values that read back -/

/-- The name is spelled like a symbol: a word that stands for no constant and no number. -/
structure ReadableName (name : Bytes) : Prop where
  /-- The name is a word, not nothing. -/
  nonempty : name ≠ []
  /-- No byte of it ends a word. -/
  undelimited : ∀ b ∈ name, Piece.isDelimiter b = false
  /-- As a word it stands for a symbol. -/
  symbol : (Piece.classify name).1 = .symbol

/-- The value is built from `nil`, truth values, integers and symbols that are spelled like
symbols, by any nesting of lists. -/
inductive Readable : Value → Prop
  | nil : Readable .nil
  | bool (b : Bool) : Readable (.bool b)
  | int (n : Int64) : Readable (.int n)
  | symbol {name : Bytes} (h : ReadableName name) : Readable (.symbol name)
  | list {items : List Value} (h : ∀ v ∈ items, Readable v) : Readable (.list items)

/-! ### Atoms are words -/

/-- The word is cut off whole and stands for the value. -/
structure Spells (w : Bytes) (kind : TokenKind) (v : Value) : Prop where
  nonempty : w ≠ []
  undelimited : ∀ b ∈ w, Piece.isDelimiter b = false
  meaning : Piece.classify w = (kind, v)

theorem undelimited_of_all {w : Bytes} (h : (w.all fun b => !Piece.isDelimiter b) = true) :
    ∀ b ∈ w, Piece.isDelimiter b = false := by
  intro b hb
  have hd := List.all_eq_true.mp h b hb
  rw [Bool.not_eq_true'] at hd
  exact hd

theorem isDelimiter_of_isDigit {b : UInt8} (h : Byte.isDigit b = true) :
    Piece.isDelimiter b = false := by
  rw [Bool.eq_false_iff]
  intro hd
  simp only [Piece.isDelimiter, Piece.isBlank, Bool.or_eq_true, beq_iff_eq] at hd
  rcases hd with (((((((rfl | rfl) | rfl) | rfl) | rfl) | rfl) | rfl) | rfl) | rfl <;>
    exact absurd h (by decide)

theorem spells_symbol {name : Bytes} (h : ReadableName name) :
    Spells name .symbol (.symbol name) :=
  ⟨h.nonempty, h.undelimited, Piece.classify_symbol h.symbol⟩

theorem spells_int (n : Int64) : Spells (Numeral.signed n.toInt) .number (.int n) := by
  refine ⟨Numeral.signed_ne_nil _, fun b hb => ?_, Piece.classify_number ?_⟩
  · rcases Numeral.mem_signed hb with rfl | hdigit
    · decide
    · exact isDelimiter_of_isDigit hdigit
  · rw [Piece.number?, if_pos (Numeral.looksNumeric_signed _), Numeral.integer?_signed]

/-- A readable value that is no list is printed as a word that stands for it. -/
theorem Readable.spells {v : Value} (h : Readable v) (hv : v.isList = false) :
    ∃ kind, kind.isAtom = true ∧ Spells v.render kind v := by
  cases h with
  | nil => exact ⟨.nil, rfl, by decide, undelimited_of_all (by decide), rfl⟩
  | bool b =>
      cases b with
      | true => exact ⟨.true, rfl, by decide, undelimited_of_all (by decide), rfl⟩
      | false => exact ⟨.false, rfl, by decide, undelimited_of_all (by decide), rfl⟩
  | int n => exact ⟨.number, rfl, by simpa [Value.render] using spells_int n⟩
  | symbol h => exact ⟨.symbol, rfl, by simpa [Value.render] using spells_symbol h⟩
  | list h => simp [Value.isList] at hv

theorem Spells.yields {w rest : Bytes} {kind : TokenKind} {v : Value}
    {D : List Token → Prop} (h : Spells w kind v) (hrest : Piece.EndsWord rest)
    (hD : ∀ t : Token, t.kind = kind → t.value = v → D [t]) : Yields w rest D := by
  refine yields_token (Piece.scan_word h.nonempty h.undelimited hrest) ?_ hD
  rw [Piece.meaning?, h.meaning]

/-! ### Lists are groups

A list is printed as its first element and, for each further one, a blank and the
element.  `renderTail` is what follows the first element, so that the induction has
one element to treat at a time.
-/

/-- What is printed behind the first element of a list. -/
def renderTail : List Value → Bytes
  | [] => []
  | v :: vs => Byte.space :: (v.render ++ renderTail vs)

theorem renderItems_cons (v : Value) (vs : List Value) :
    Value.renderItems (v :: vs) = v.render ++ renderTail vs := by
  induction vs generalizing v with
  | nil => simp [Value.renderItems, renderTail]
  | cons w vs ih =>
      rw [Value.renderItems, ih, renderTail]
      simp

theorem render_list_cons (v : Value) (vs : List Value) :
    (Value.list (v :: vs)).render
      = Byte.leftParen :: (v.render ++ (renderTail vs ++ [Byte.rightParen])) := by
  rw [Value.render, renderItems_cons]
  simp

theorem endsWord_renderTail (vs : List Value) (rest : Bytes) (hrest : Piece.EndsWord rest) :
    Piece.EndsWord (renderTail vs ++ rest) := by
  cases vs with
  | nil => exact hrest
  | cons v vs => exact Piece.endsWord_cons (by decide) _

/-- The blank between two elements is no token. -/
theorem yields_space (rest : Bytes) : Yields [Byte.space] rest (· = []) :=
  yields_nothing (Piece.scan_single (fun _ => rfl) rest) rfl rfl

/-- A printed value yields tokens that are derived as an item with that value, in front of
anything that does not go on with its last word. -/
def PrintsItem (v : Value) : Prop :=
  ∀ rest, Piece.EndsWord rest → Yields v.render rest (DerivesItem · v)

theorem yields_renderTail {vs : List Value} (hvs : ∀ v ∈ vs, PrintsItem v) {rest : Bytes}
    (hrest : Piece.EndsWord rest) : Yields (renderTail vs) rest (DerivesItems · vs) := by
  induction vs with
  | nil => exact ⟨rfl, fun place => ⟨[], place, .empty, rfl⟩⟩
  | cons v vs ih =>
      have htail := ih fun w hw => hvs w (by simp [hw])
      have hv := hvs v (by simp) _ (endsWord_renderTail vs rest hrest)
      have helem : Yields (v.render ++ renderTail vs) rest (DerivesItems · (v :: vs)) :=
        hv.append htail fun ts us hts hus => .more hts hus
      refine Yields.append (s := [Byte.space]) (yields_space _) helem ?_
      rintro ts us rfl hus
      exact hus

/-- What is printed behind the first element closes the group. -/
theorem yields_renderTail_close {vs : List Value} (hvs : ∀ v ∈ vs, PrintsItem v) (rest : Bytes) :
    Yields (renderTail vs ++ [Byte.rightParen]) rest fun ts =>
      ∃ us r, ts = us ++ [r] ∧ DerivesItems us vs ∧ r.kind = .rightParen := by
  have hclose : Piece.EndsWord ([Byte.rightParen] ++ rest) := Piece.endsWord_cons (by decide) _
  have hparen := yields_single (b := Byte.rightParen) (p := .rightParen) (fun _ => rfl) rfl rest
  refine (yields_renderTail hvs hclose).append hparen ?_
  rintro us _ hus ⟨r, rfl, hr⟩
  exact ⟨us, r, rfl, hus, hr⟩

/-- What a first element yields and what is printed behind it make up a group. -/
theorem yields_group {v : Value} {vs : List Value} {rest : Bytes} {D E : List Token → Prop}
    (hv : ∀ rest, Piece.EndsWord rest → Yields v.render rest D)
    (hvs : ∀ w ∈ vs, PrintsItem w)
    (hE : ∀ l ts us r, l.kind = .leftParen → D ts → DerivesItems us vs →
      r.kind = .rightParen → E (l :: (ts ++ (us ++ [r])))) :
    Yields (Value.list (v :: vs)).render rest E := by
  have hend : Piece.EndsWord ((renderTail vs ++ [Byte.rightParen]) ++ rest) := by
    rw [List.append_assoc]
    exact endsWord_renderTail vs _ (Piece.endsWord_cons (by decide) _)
  have hinside := (hv _ hend).append (yields_renderTail_close hvs rest)
    (F := fun ts => ∃ us ws r, ts = us ++ (ws ++ [r]) ∧ D us ∧ DerivesItems ws vs ∧
      r.kind = .rightParen)
    (by
      rintro ts _ hts ⟨us, r, rfl, hus, hr⟩
      exact ⟨ts, us, r, rfl, hts, hus, hr⟩)
  rw [render_list_cons]
  refine Yields.append (s := [Byte.leftParen])
    (yields_single (p := .leftParen) (fun _ => rfl) rfl _) hinside ?_
  rintro _ _ ⟨l, rfl, hl⟩ ⟨ts, us, r, rfl, hts, hus, hr⟩
  exact hE l ts us r hl hts hus hr

/-- A printed list yields a group, whatever follows it. -/
theorem yields_render_list {items : List Value} (h : ∀ v ∈ items, PrintsItem v) (rest : Bytes) :
    Yields (Value.list items).render rest (DerivesList · (.list items)) := by
  cases items with
  | nil =>
      refine Yields.append (s := [Byte.leftParen]) (t := [Byte.rightParen])
        (yields_single (p := .leftParen) (fun _ => rfl) rfl _)
        (yields_single (p := .rightParen) (fun _ => rfl) rfl rest) ?_
      rintro _ _ ⟨l, rfl, hl⟩ ⟨r, rfl, hr⟩
      exact DerivesList.group hl .empty hr
  | cons v vs =>
      refine yields_group (h v (by simp)) (fun w hw => h w (by simp [hw])) ?_
      intro l ts us r hl hts hus hr
      simpa using DerivesList.group hl (.more hts hus) hr

/-- A printed list that begins with a symbol yields a call. -/
theorem yields_render_call {name : Bytes} {vs : List Value} (hname : ReadableName name)
    (h : ∀ v ∈ vs, PrintsItem v) (rest : Bytes) :
    Yields (Value.list (.symbol name :: vs)).render rest
      (DerivesCall · (.list (.symbol name :: vs))) := by
  have hsym : ∀ rest, Piece.EndsWord rest → Yields (Value.symbol name).render rest fun ts =>
      ∃ s : Token, ts = [s] ∧ s.kind = .symbol ∧ s.value = .symbol name := by
    intro rest hrest
    rw [Value.render]
    exact (spells_symbol hname).yields hrest fun t hk hv => ⟨t, rfl, hk, hv⟩
  refine yields_group hsym h ?_
  rintro l _ us r hl ⟨s, rfl, hk, hv⟩ hus hr
  rw [← hv]
  exact DerivesCall.call hl hk hus hr

/-- **A readable value is printed as an item with that value.**  The induction follows the
nesting of the lists. -/
theorem Readable.printsItem {v : Value} (h : Readable v) : PrintsItem v := by
  have hatom : ∀ {w : Value}, Readable w → w.isList = false → PrintsItem w := by
    intro w hw hlist rest hrest
    obtain ⟨kind, hkind, hspells⟩ := hw.spells hlist
    refine hspells.yields hrest ?_
    rintro t rfl rfl
    exact .atom (.token hkind)
  induction h with
  | nil => exact hatom .nil rfl
  | bool b => exact hatom (.bool b) rfl
  | int n => exact hatom (.int n) rfl
  | symbol h => exact hatom (.symbol h) rfl
  | list _ ih =>
      intro rest _
      exact (yields_render_list ih rest).mono fun ts hts => .list hts

/-! ### Reading a printed value -/

/-- A text whose tokens are derived as an expression is read as that expression. -/
theorem read_of_yields {s : Bytes} {v : Value} (h : Yields s [] (DerivesExp · v))
    (source : Bytes) : read source s = .ok v := by
  obtain ⟨ts, place, hts, htok⟩ := h.tokenize source
  rw [Grammar.read, htok]
  show (parse (ts ++ [endOfInput place])).outcome = .ok v
  rw [parse, parseFrom_append_end (streamEnd_kind _) rfl]
  exact parseFrom_of_derivesExp rfl hts

theorem read_quoted {items : List Value} (h : Readable (.list items)) (source : Bytes) :
    read source (Byte.singleQuote :: (Value.list items).render)
      = .ok (.list [.symbol quoteName, .list items]) := by
  cases h with
  | list h =>
      refine read_of_yields ?_ source
      have hlist := yields_render_list (fun v hv => (h v hv).printsItem) []
      refine Yields.append (s := [Byte.singleQuote])
        (yields_single (p := .quote) (fun _ => rfl) rfl _) hlist ?_
      rintro _ ts ⟨q, rfl, hq⟩ hts
      exact .quoted (.quote hq hts)

theorem read_atom {v : Value} (h : Readable v) (hv : v.isList = false) (source : Bytes) :
    read source v.render = .ok v := by
  obtain ⟨kind, hkind, hspells⟩ := h.spells hv
  refine read_of_yields (hspells.yields Piece.endsWord_nil ?_) source
  rintro t rfl rfl
  exact .atom (.token hkind)

theorem read_call {name : Bytes} {items : List Value}
    (h : Readable (.list (.symbol name :: items))) (source : Bytes) :
    read source (Value.list (.symbol name :: items)).render
      = .ok (.list (.symbol name :: items)) := by
  cases h with
  | list h =>
      have hname : ReadableName name := by
        cases h (.symbol name) (by simp) with
        | symbol hname => exact hname
      have hitems : ∀ v ∈ items, PrintsItem v := fun v hv => (h v (by simp [hv])).printsItem
      have hcall := yields_render_call hname hitems []
      exact read_of_yields (hcall.mono fun ts hts => .call hts) source

/-! ### Evaluating a quoted value -/

/-- A quoted value evaluates to itself on any interpreter on which nothing runs. -/
theorem eval_quote (registry : Registry) (limit : Int) (debug : Bool) (v : Value) (env : Env)
    (out diagnostics : Sink) (trace? : Option Trace) :
    ((Interpreter.new registry limit debug).eval (.list [.symbol quoteName, v]) env
      (.idle out diagnostics trace?)).1 = .ok v := by
  have hlevels : ∃ n, (Interpreter.new registry limit debug).limit = n + 1 := by
    refine Nat.exists_eq_succ_of_ne_zero ?_
    simp only [Interpreter.new, Interpreter.defaultLimit]
    split <;> omega
  obtain ⟨n, hn⟩ := hlevels
  simp only [Interpreter.eval, Eval.expression, Eval.available, hn, Machine.idle, Nat.sub_zero]
  cases debug with
  | true => rfl
  | false => rfl

/--
**Printing and reading are inverse on readable values.**  A readable list reads back from its
printed form behind a quote, as the quotation of that list, and evaluating the quotation gives
the list; a readable atom, and a readable list that begins with a symbol, read back from the
printed form itself.
-/
theorem read_render_roundtrip {v : Value} (hv : Readable v) (source : Bytes) :
    (v.isList = true →
      read source (Byte.singleQuote :: v.render) = .ok (.list [.symbol quoteName, v]) ∧
      ∀ registry limit debug env out diagnostics trace?,
        ((Interpreter.new registry limit debug).eval (.list [.symbol quoteName, v]) env
          (.idle out diagnostics trace?)).1 = .ok v) ∧
    ((v.isList = false ∨ ∃ name items, v = .list (.symbol name :: items)) →
      read source v.render = .ok v) := by
  refine ⟨fun hlist => ⟨?_, ?_⟩, ?_⟩
  · cases v with
    | list items => exact read_quoted hv source
    | _ => simp [Value.isList] at hlist
  · intro registry limit debug env out diagnostics trace?
    exact eval_quote registry limit debug v env out diagnostics trace?
  · rintro (hatom | ⟨name, items, rfl⟩)
    · exact read_atom hv hatom source
    · exact read_call hv source

/-- The list `(f (-7 #t) ())`. -/
def nestedData : Value :=
  .list [.symbol (utf8 "f"), .list [.int (-7), .bool true], .list []]

theorem readable_nestedData : Readable nestedData := by
  have hf : ReadableName (utf8 "f") := ⟨by decide, undelimited_of_all (by decide), rfl⟩
  have hpair : Readable (.list [.int (-7), .bool true]) := by
    refine .list fun v hv => ?_
    simp only [List.mem_cons, List.not_mem_nil, or_false] at hv
    rcases hv with rfl | rfl
    · exact .int _
    · exact .bool _
  have hempty : Readable (.list []) := .list fun v hv => by simp at hv
  refine .list fun v hv => ?_
  simp only [List.mem_cons, List.not_mem_nil, or_false] at hv
  rcases hv with rfl | rfl | rfl
  · exact .symbol hf
  · exact hpair
  · exact hempty

/-- The list `(f (-7 #t) ())` reads back from `(f (-7 #t) ())` and from its quotation. -/
theorem read_render_nestedData :
    Readable nestedData ∧ nestedData.isList = true ∧
      read [] (Byte.singleQuote :: nestedData.render)
        = .ok (.list [.symbol quoteName, nestedData]) ∧
      read [] nestedData.render = .ok nestedData := by
  have hround := read_render_roundtrip readable_nestedData []
  exact ⟨readable_nestedData, rfl, (hround.1 rfl).1, hround.2 (Or.inr ⟨_, _, rfl⟩)⟩

end TinyLisp
