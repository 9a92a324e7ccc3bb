/-
What an evaluation writes and how it ends, apart from where it runs.

A transcript is a list of lines, each for the output or for the diagnostic output,
and the result at the end of them, which is missing where calls were nested too deep.
Playing a transcript on two sinks writes its lines until the output refuses one.  An
action that follows a transcript does the same on every machine, so whatever is shown
of transcripts holds for good and for failing sinks alike.

One action is cut off another if both follow transcripts and the first one's are the
same or break off early.  This is what a smaller number of levels does to an
evaluation, and an action that is cut off itself simply follows a transcript.  The
relation is closed under everything that evaluation is made of, and the rest of this
file shows that, one construction at a time.
-/
import TinyLisp.Eval.Evaluate
import TinyLisp.Proofs.Output.Sink
import TinyLisp.Proofs.Registry.Builtins

namespace TinyLisp

/-- A line that is written. -/
inductive Event where
  /-- A line of the output. -/
  | print (line : Bytes)
  /-- A line of the diagnostic output. -/
  | note (line : Bytes)

/-- The lines that are written, in order, and the result after them.  Without a result calls
were nested too deep. -/
structure Transcript (α : Type) where
  /-- The lines. -/
  events : List Event
  /-- The result. -/
  value? : Option α

/-- The output and the diagnostic output of a machine. -/
def Machine.sinks (m : Machine) : Sink × Sink := (m.out, m.diagnostics)

/-! ### Playing a transcript -/

/-- Writes lines up to the first that the output refuses: its error, and the sinks after it. -/
def deliver : List Event → Sink × Sink → Option Bytes × Sink × Sink
  | [], p => (none, p)
  | .print line :: rest, p =>
    match p.1.writeLine line with
    | (out, none) => deliver rest (out, p.2)
    | (out, some err) => (some err, out, p.2)
  | .note line :: rest, p => deliver rest (p.1, (p.2.writeLine line).1)

theorem deliver_append (a b : List Event) :
    ∀ p, deliver (a ++ b) p =
      match deliver a p with
      | (none, q) => deliver b q
      | (some err, q) => (some err, q) := by
  induction a with
  | nil =>
      intro p
      rfl
  | cons event rest ih =>
      intro p
      cases event with
      | print line =>
          rw [List.cons_append, deliver, deliver]
          rcases p.1.writeLine line with ⟨out, _ | err⟩
          · exact ih (out, p.2)
          · rfl
      | note line => exact ih (p.1, (p.2.writeLine line).1)

/-- Diagnostic lines leave the output alone. -/
theorem deliver_notes (notes : List Bytes) (events : List Event) :
    ∀ p : Sink × Sink, ∃ q : Sink,
      deliver (notes.map Event.note ++ events) p = deliver events (p.1, q) := by
  induction notes with
  | nil =>
      intro p
      exact ⟨p.2, rfl⟩
  | cons line rest ih =>
      intro p
      exact ih (p.1, (p.2.writeLine line).1)

/-- The output after a delivery does not depend on the diagnostic output. -/
theorem deliver_out (events : List Event) :
    ∀ out d d', (deliver events (out, d)).2.1 = (deliver events (out, d')).2.1 := by
  induction events with
  | nil =>
      intro out d d'
      rfl
  | cons event rest ih =>
      intro out d d'
      cases event with
      | print line =>
          rw [deliver, deliver]
          rcases out.writeLine line with ⟨out', _ | err⟩
          · exact ih out' d d'
          · rfl
      | note line => exact ih out _ _

/-! ### A refusal comes from the sink -/

theorem Sink.writeLine_refuses (s : Sink) (line : Bytes) :
    (s.writeLine line).1.refuses = s.refuses ∧ (s.writeLine line).1.calls = s.calls + 1 := by
  unfold Sink.writeLine Sink.write
  split
  · exact ⟨rfl, rfl⟩
  · exact ⟨rfl, rfl⟩

theorem Sink.refuses_of_writeLine {s s' : Sink} {line err : Bytes}
    (h : s.writeLine line = (s', some err)) : s.refuses s.calls = some err := by
  unfold Sink.writeLine Sink.write at h
  split at h
  · rename_i e he
    obtain ⟨-, hs⟩ := Prod.mk.inj h
    rw [he, hs]
  · cases h

/-- The error that stops a delivery is the one with which the sink refuses a later call. -/
theorem refuses_of_deliver {err : Bytes} {q : Sink × Sink} (events : List Event) :
    ∀ {p : Sink × Sink}, deliver events p = (some err, q) →
      ∃ n, p.1.calls ≤ n ∧ p.1.refuses n = some err := by
  induction events with
  | nil =>
      intro p h
      cases h
  | cons event rest ih =>
      intro p h
      cases event with
      | print line =>
          rw [deliver] at h
          rcases hw : p.1.writeLine line with ⟨out, _ | e⟩
          · rw [hw] at h
            obtain ⟨n, hn, hr⟩ := ih h
            have hout := p.1.writeLine_refuses line
            rw [hw] at hout
            obtain ⟨hrefuses, hcalls⟩ := hout
            simp only at hn hr hrefuses hcalls
            rw [hrefuses] at hr
            exact ⟨n, by omega, hr⟩
          · rw [hw] at h
            obtain ⟨he, -⟩ := Prod.mk.inj h
            obtain rfl := Option.some.inj he
            exact ⟨p.1.calls, Nat.le_refl _, Sink.refuses_of_writeLine hw⟩
      | note line => exact ih (p := (p.1, (p.2.writeLine line).1)) h

theorem deliver_of_reliable {p : Sink × Sink} (hp : ∀ n, p.1.refuses n = none)
    (events : List Event) : (deliver events p).1 = none := by
  rcases hd : deliver events p with ⟨_ | err, q⟩
  · rfl
  · obtain ⟨n, -, hn⟩ := refuses_of_deliver events hd
    rw [hp n] at hn
    cases hn

/-! ### What reaches the output -/

/-- The chunks that events write to the output. -/
def printed : List Event → List Bytes
  | [] => []
  | .print line :: rest => line.line :: printed rest
  | .note _ :: rest => printed rest

theorem printed_append (a b : List Event) : printed (a ++ b) = printed a ++ printed b := by
  induction a with
  | nil => rfl
  | cons event rest ih =>
      cases event with
      | print line => exact congrArg (line.line :: ·) ih
      | note line => exact ih

theorem printed_mono {a b : List Event} (h : a <+: b) : printed a <+: printed b := by
  obtain ⟨rest, rfl⟩ := h
  exact ⟨printed rest, (printed_append a rest).symm⟩

/-- As far as the output is concerned, a delivery pours the printed chunks into it. -/
theorem deliver_printed (events : List Event) :
    ∀ p : Sink × Sink, ((deliver events p).1, (deliver events p).2.1) = p.1.pour (printed events) := by
  induction events with
  | nil =>
      intro p
      rfl
  | cons event rest ih =>
      intro p
      cases event with
      | print line =>
          rw [deliver, printed, Sink.pour]
          show _ = match p.1.writeLine line with
            | (s, none) => s.pour (printed rest)
            | (s, some err) => (some err, s)
          rcases p.1.writeLine line with ⟨out, _ | err⟩
          · exact ih (out, p.2)
          · rfl
      | note line => exact ih (p.1, (p.2.writeLine line).1)

/-! ### Transcripts one after another -/

namespace Transcript

variable {α β : Type}

/-- A result without a line. -/
def pure (a : α) : Transcript α := ⟨[], some a⟩

/-- Calls nested too deep, without a line. -/
def tooDeep : Transcript α := ⟨[], none⟩

/-- One transcript and then, if it has a result, another. -/
def bind (t : Transcript α) (f : α → Transcript β) : Transcript β :=
  match t.value? with
  | some a => ⟨t.events ++ (f a).events, (f a).value?⟩
  | none => ⟨t.events, none⟩

/-- How a transcript ends that could be written in full. -/
def ending (limit : Nat) (t : Transcript α) : Except Stop α :=
  match t.value? with
  | some a => .ok a
  | none => .error (.failure (.tooDeep limit))

/-- Writes a transcript: how that ends, and the sinks after it. -/
def play (limit : Nat) (t : Transcript α) (p : Sink × Sink) : Except Stop α × Sink × Sink :=
  match deliver t.events p with
  | (none, q) => (t.ending limit, q)
  | (some err, q) => (.error (.failure (.output (utf8 "print: ") err)), q)

theorem play_of_reliable {p : Sink × Sink} (hp : ∀ n, p.1.refuses n = none)
    (limit : Nat) (t : Transcript α) :
    t.play limit p = (t.ending limit, (deliver t.events p).2) := by
  have h := deliver_of_reliable hp t.events
  unfold play
  rcases hd : deliver t.events p with ⟨_ | err, q⟩
  · rfl
  · rw [hd] at h
    cases h

/-- The transcript breaks off another one, or is the same. -/
inductive CutOf : Transcript α → Transcript α → Prop where
  /-- It is the same. -/
  | same (t : Transcript α) : CutOf t t
  /-- It has no result, and its lines are the first ones of the other. -/
  | early {events : List Event} {u : Transcript α} (h : events <+: u.events) :
      CutOf ⟨events, none⟩ u

theorem prefix_bind (u : Transcript α) (g : α → Transcript β) : u.events <+: (u.bind g).events := by
  unfold bind
  cases u.value? with
  | none => exact List.prefix_refl u.events
  | some a => exact List.prefix_append u.events (g a).events

theorem CutOf.after (events : List Event) {t u : Transcript α} (h : t.CutOf u) :
    CutOf ⟨events ++ t.events, t.value?⟩ ⟨events ++ u.events, u.value?⟩ := by
  cases h with
  | same => exact .same _
  | early h => exact .early ((List.prefix_append_right_inj events).mpr h)

theorem CutOf.bind {t u : Transcript α} {f g : α → Transcript β} (h : t.CutOf u)
    (hf : ∀ a, (f a).CutOf (g a)) : (t.bind f).CutOf (u.bind g) := by
  cases h with
  | same =>
      unfold Transcript.bind
      cases t.value? with
      | none => exact .same _
      | some a => exact (hf a).after t.events
  | early h => exact .early (h.trans (prefix_bind u g))

end Transcript

/-! ### Following a transcript -/

namespace Action

open Transcript

variable {α β : Type} {limit limit' : Nat}

/-- On every machine the action writes and ends as the transcript does. -/
def Follows (limit : Nat) (x : Action α) (t : Transcript α) : Prop :=
  ∀ m, ((x m).1, (x m).2.sinks) = t.play limit m.sinks

theorem Follows.bind {x : Action α} {t : Transcript α} {f : α → Action β} {g : α → Transcript β}
    (hx : Follows limit x t) (hf : ∀ a, Follows limit (f a) (g a)) :
    Follows limit (x >>= f) (t.bind g) := by
  intro m
  have h := hx m
  show ((Action.bind x f m).1, (Action.bind x f m).2.sinks) = _
  unfold Action.bind
  rcases hm : x m with ⟨r, m₁⟩
  rw [hm] at h
  unfold play at h
  rcases hd : deliver t.events m.sinks with ⟨_ | err, q⟩
  · rw [hd] at h
    obtain ⟨rfl, rfl⟩ := Prod.mk.inj h
    unfold ending play Transcript.bind
    cases t.value? with
    | none => simp only [hd, ending]
    | some a =>
        simp only [deliver_append, hd]
        exact hf a m₁
  · -- the output refused a line of the first action, so the second one never runs
    rw [hd] at h
    obtain ⟨rfl, rfl⟩ := Prod.mk.inj h
    have hb : deliver (t.bind g).events m.sinks = (some err, m₁.sinks) := by
      unfold Transcript.bind
      cases t.value? with
      | none => exact hd
      | some a => rw [deliver_append, hd]
    unfold play
    rw [hb]

/-- On an output that never refuses a line the whole transcript is written. -/
theorem Follows.on_reliable {x : Action α} {t : Transcript α} (h : Follows limit x t)
    {m : Machine} (hm : ∀ n, m.out.refuses n = none) :
    (x m).1 = t.ending limit ∧ (x m).2.out = (deliver t.events m.sinks).2.1 := by
  have hx := h m
  rw [play_of_reliable hm] at hx
  obtain ⟨hvalue, hsinks⟩ := Prod.mk.inj hx
  exact ⟨hvalue, congrArg Prod.fst hsinks⟩

/-- How an action that follows a transcript ends and what it leaves on the output, in terms of
the chunks it prints. -/
theorem Follows.pours {x : Action α} {t : Transcript α} (h : Follows limit x t) (m : Machine) :
    (x m).1 = (match (m.out.pour (printed t.events)).1 with
      | none => t.ending limit
      | some err => .error (.failure (.output (utf8 "print: ") err))) ∧
      (x m).2.out = (m.out.pour (printed t.events)).2 := by
  have hx := h m
  have hp : m.out.pour (printed t.events) = _ := (deliver_printed t.events m.sinks).symm
  unfold play at hx
  rw [hp]
  rcases hd : deliver t.events m.sinks with ⟨_ | err, q⟩
  · rw [hd] at hx
    obtain ⟨hr, hq⟩ := Prod.mk.inj hx
    exact ⟨hr, congrArg Prod.fst hq⟩
  · rw [hd] at hx
    obtain ⟨hr, hq⟩ := Prod.mk.inj hx
    exact ⟨hr, congrArg Prod.fst hq⟩

theorem follows_pure (a : α) : Follows limit (Pure.pure a : Action α) (Transcript.pure a) := by
  intro m
  rfl

theorem follows_tooDeep : Follows limit (fail (.tooDeep limit) : Action α) Transcript.tooDeep := by
  intro m
  rfl

theorem follows_diagnose (line : Bytes) :
    Follows limit (diagnose line) ⟨[.note line], some ()⟩ := by
  intro m
  rfl

theorem Follows.nested {x : Action α} {t : Transcript α} (h : Follows limit x t) :
    Follows limit x.nested t := by
  intro m
  exact h { m with depth := m.depth + 1 }

/-- A function that settles follows a transcript of at most one line, which has a result and
does not depend on how calls are evaluated. -/
theorem exists_follows_of_settled {p : Procedure} (h : p.Settled) (name category : Bytes)
    (inert : Value) :
    ∃ t, t.value?.isSome = true ∧ ∀ limit call,
      Follows limit (((Eval.procedure call p).traced name category).onMismatch inert) t := by
  cases h with
  | value v => exact ⟨.pure v, rfl, fun _ _ _ => rfl⟩
  | mismatch e => exact ⟨.pure inert, rfl, fun _ _ _ => rfl⟩
  | @print line next written refused =>
      refine ⟨⟨[.print line], some .nil⟩, rfl, ?_⟩
      intro limit call m
      rcases hw : m.out.writeLine line with ⟨out, _ | err⟩
      · simp [onMismatch, traced_apply, Machine.onTrace, Eval.procedure, Action.bind, writeLine,
          hw, written, Procedure.value, ofExcept, play, deliver, ending, Machine.sinks]
      · simp [onMismatch, traced_apply, Machine.onTrace, Eval.procedure, Action.bind, writeLine,
          hw, refused, Procedure.fail, ofExcept, play, deliver, Machine.sinks]

/-! ### Actions cut off others -/

/-- Both actions follow transcripts, and the first one's breaks off the other or is the same. -/
def CutOf (limit limit' : Nat) (x y : Action α) : Prop :=
  ∃ t u, Follows limit x t ∧ Follows limit' y u ∧ t.CutOf u

theorem CutOf.bind {x y : Action α} {f g : α → Action β} (h : CutOf limit limit' x y)
    (hf : ∀ a, CutOf limit limit' (f a) (g a)) : CutOf limit limit' (x >>= f) (y >>= g) := by
  obtain ⟨t, u, hx, hy, htu⟩ := h
  obtain ⟨F, hF⟩ := Classical.axiomOfChoice hf
  obtain ⟨G, hG⟩ := Classical.axiomOfChoice hF
  refine ⟨t.bind F, u.bind G, hx.bind ?_, hy.bind ?_, htu.bind ?_⟩
  · exact fun a => (hG a).1
  · exact fun a => (hG a).2.1
  · exact fun a => (hG a).2.2

theorem cutOf_pure (a : α) : CutOf limit limit' (Pure.pure a : Action α) (Pure.pure a) :=
  ⟨_, _, follows_pure a, follows_pure a, .same _⟩

theorem cutOf_diagnose (line : Bytes) : CutOf limit limit' (diagnose line) (diagnose line) :=
  ⟨_, _, follows_diagnose line, follows_diagnose line, .same _⟩

/-- Without a level left an evaluation is cut off whatever follows a transcript. -/
theorem cutOf_tooDeep {y : Action α} {u : Transcript α} (h : Follows limit' y u) :
    CutOf limit limit' (fail (.tooDeep limit)) y :=
  ⟨_, _, follows_tooDeep, h, .early List.nil_prefix⟩

theorem CutOf.nested {x y : Action α} (h : CutOf limit limit' x y) :
    CutOf limit limit' x.nested y.nested := by
  obtain ⟨t, u, hx, hy, htu⟩ := h
  exact ⟨t, u, hx.nested, hy.nested, htu⟩

end Action

end TinyLisp
