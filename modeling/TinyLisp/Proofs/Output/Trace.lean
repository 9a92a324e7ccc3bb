/-
What a trace file holds.

A trace writes its file in chunks: the opening bracket, the events with a separator in front
of each but the first, the closing bracket.  Which events these are depends on the calls and
the readings of the clock (`Call.eventsOf`), and which chunks on the events alone
(`chunksFor`), although the code decides about every separator by a flag and writes it apart
from its event.

`appended` says what a trace is behind some events and readings, in one step.  Calls in a row
append their events in a row (`appended_appended`), and this is all that is needed of them.

After the first error nothing is written any more.  So a trace pours its chunks into the file,
up to the first that is refused (`foldl_write`), and all that can be said about errors is what
`Sink.pour` does: it keeps the chunks in front of the refused one and gives its error back.
-/
import TinyLisp.Output.Trace
import TinyLisp.Proofs.Output.Sink

namespace TinyLisp.Trace

/-! ### Events of calls -/

mutual

/-- How often a call reads the clock. -/
def Call.readings : Call → Nat
  | .full _ => 0
  | .now _ _ _ _ _ => 1
  | .event _ _ _ => 1
  | .duration _ _ inside => readingsOf inside + 2

/-- How often several calls read the clock. -/
def Call.readingsOf : List Call → Nat
  | [] => 0
  | call :: rest => call.readings + readingsOf rest

end

section

variable (clock : Nat → Int)

mutual

/-- The events of a call, in order, if the clock was read `n` times before it. -/
def Call.events (n : Nat) : Call → List TraceEvent
  | .full e => [e]
  | .now name category phase thread process =>
    [⟨name, category, phase, clock n, process, thread⟩]
  | .event name category phase => [⟨name, category, phase, clock n, 0, 0⟩]
  | .duration name category inside =>
    ⟨name, category, utf8 "B", clock n, 0, 0⟩ ::
      (eventsOf (n + 1) inside ++
        [⟨name, category, utf8 "E", clock (n + 1 + Call.readingsOf inside), 0, 0⟩])

/-- The events of several calls in a row. -/
def Call.eventsOf (n : Nat) : List Call → List TraceEvent
  | [] => []
  | call :: rest => events n call ++ eventsOf (n + call.readings) rest

end

end

/-! ### Chunks -/

/-- What stands between two events. -/
def separator : Bytes := utf8 ",\n"

section

variable (style : Text.JsonStyle)

/-- The chunks of some events where others stand in front of them. -/
def separated (events : List TraceEvent) : List Bytes :=
  events.flatMap fun e => [separator, e.render style]

/-- The chunks of some events, of which only those behind the first may have a separator. -/
def interspersed (events : List TraceEvent) : List Bytes :=
  (events.map (TraceEvent.render style)).intersperse separator

/-- The chunks of a whole trace. -/
def chunksOf (events : List TraceEvent) : List Bytes :=
  utf8 "[" :: (interspersed style events ++ [utf8 "]"])

theorem interspersed_cons (e : TraceEvent) (events : List TraceEvent) :
    interspersed style (e :: events) = e.render style :: separated style events := by
  induction events generalizing e with
  | nil => rfl
  | cons e' events ih =>
      rw [interspersed, List.map_cons, List.map_cons, List.intersperse_cons_cons,
        ← List.map_cons, ← interspersed, ih]
      rfl

theorem flatten_chunksOf (events : List TraceEvent) :
    (chunksOf style events).flatten =
      utf8 "[" ++ List.intercalate separator (events.map (TraceEvent.render style)) ++
        utf8 "]" := by
  simp [chunksOf, interspersed, List.intercalate]

end

/-- The chunks that a trace writes for some events. -/
def chunksFor (t : Trace) (events : List TraceEvent) : List Bytes :=
  if t.fresh then interspersed t.style events else separated t.style events

/-! ### Writing

Chunks are poured into the file: written up to the first that is refused.
-/

theorem write_clean {t : Trace} (h : t.error? = none) (chunk : Bytes) :
    t.write chunk =
      { t with file := (t.file.write chunk).1, error? := (t.file.write chunk).2 } := by
  unfold write
  rw [h]

theorem write_failed {t : Trace} {err : Bytes} (h : t.error? = some err) (chunk : Bytes) :
    t.write chunk = t := by
  unfold write
  rw [h]

theorem foldl_write_failed {t : Trace} {err : Bytes} (chunks : List Bytes)
    (h : t.error? = some err) : chunks.foldl write t = t := by
  induction chunks with
  | nil => rfl
  | cons chunk rest ih => rw [List.foldl_cons, write_failed h, ih]

theorem foldl_write {t : Trace} (chunks : List Bytes) (h : t.error? = none) :
    chunks.foldl write t =
      { t with file := (t.file.pour chunks).2, error? := (t.file.pour chunks).1 } := by
  induction chunks generalizing t with
  | nil =>
      show t = { t with error? := none }
      rw [← h]
  | cons chunk rest ih =>
      rw [List.foldl_cons, write_clean h, Sink.pour]
      rcases t.file.write chunk with ⟨file, _ | err⟩
      · exact ih rfl
      · exact foldl_write_failed rest rfl

/-- Writing changes the file and the error, if anything. -/
theorem write_frame (t : Trace) (chunk : Bytes) :
    ∃ file error?, t.write chunk = { t with file := file, error? := error? } := by
  cases h : t.error? with
  | none => exact ⟨_, _, write_clean h chunk⟩
  | some err => exact ⟨t.file, t.error?, write_failed h chunk⟩

theorem foldl_write_frame (chunks : List Bytes) : ∀ t : Trace,
    ∃ file error?, chunks.foldl write t = { t with file := file, error? := error? } := by
  induction chunks with
  | nil => intro t; exact ⟨t.file, t.error?, rfl⟩
  | cons chunk rest ih =>
      intro t
      obtain ⟨file, error?, hfirst⟩ := t.write_frame chunk
      obtain ⟨file', error?', hrest⟩ := ih (t.write chunk)
      refine ⟨file', error?', ?_⟩
      rw [List.foldl_cons, hrest, hfirst]

/-- Writing looks neither at the flag nor at the readings. -/
theorem write_marked (t : Trace) (fresh : Bool) (readings : Nat) (chunk : Bytes) :
    { t.write chunk with fresh := fresh, readings := readings } =
      { t with fresh := fresh, readings := readings }.write chunk := by
  obtain ⟨file, style, clock, closeError?, _, _, error?, closes⟩ := t
  cases error? with
  | none => rfl
  | some err => rfl

theorem foldl_write_marked (chunks : List Bytes) (fresh : Bool) (readings : Nat) :
    ∀ t : Trace, { chunks.foldl write t with fresh := fresh, readings := readings } =
      chunks.foldl write { t with fresh := fresh, readings := readings } := by
  induction chunks with
  | nil => intro t; rfl
  | cons chunk rest ih =>
      intro t
      rw [List.foldl_cons, List.foldl_cons, ih, write_marked]

/-! ### Appending -/

/-- The trace behind some events, with some more readings of the clock. -/
def appended (t : Trace) (events : List TraceEvent) (readings : Nat) : Trace :=
  (t.chunksFor events).foldl write
    { t with fresh := t.fresh && events.isEmpty, readings := t.readings + readings }

section

variable (t : Trace) (events later : List TraceEvent) (k l : Nat)

/-- Appending changes nothing but the file, the error, the flag and the number of readings. -/
theorem appended_frame : ∃ file error?, t.appended events k =
    { t with
      file := file, error? := error?
      fresh := t.fresh && events.isEmpty, readings := t.readings + k } :=
  foldl_write_frame _ _

@[simp] theorem appended_style : (t.appended events k).style = t.style := by
  obtain ⟨file, error?, h⟩ := t.appended_frame events k
  rw [h]

@[simp] theorem appended_clock : (t.appended events k).clock = t.clock := by
  obtain ⟨file, error?, h⟩ := t.appended_frame events k
  rw [h]

@[simp] theorem appended_fresh :
    (t.appended events k).fresh = (t.fresh && events.isEmpty) := by
  obtain ⟨file, error?, h⟩ := t.appended_frame events k
  rw [h]

@[simp] theorem appended_readings : (t.appended events k).readings = t.readings + k := by
  obtain ⟨file, error?, h⟩ := t.appended_frame events k
  rw [h]

theorem appended_nothing : t.appended [] 0 = t := by
  obtain ⟨file, style, clock, closeError?, fresh, readings, error?, closes⟩ := t
  cases fresh <;> rfl

/-- What is written for later events depends on whether there were others. -/
theorem chunksFor_append :
    t.chunksFor (events ++ later) =
      t.chunksFor events ++ (t.appended events k).chunksFor later := by
  unfold chunksFor
  rw [appended_fresh, appended_style]
  cases hfresh : t.fresh with
  | false => simp [separated]
  | true =>
      cases events with
      | nil => simp [interspersed]
      | cons e events => simp [interspersed_cons, separated]

/-- **Events appended in a row are appended at once.** -/
theorem appended_appended :
    (t.appended events k).appended later l = t.appended (events ++ later) (k + l) := by
  have hfresh : (t.fresh && events.isEmpty && later.isEmpty) =
      (t.fresh && (events ++ later).isEmpty) := by
    cases events with
    | nil => simp
    | cons e events => simp
  have hmarked := foldl_write_marked (t.chunksFor events) (t.fresh && (events ++ later).isEmpty)
    (t.readings + (k + l)) { t with fresh := t.fresh && events.isEmpty, readings := t.readings + k }
  show ((t.appended events k).chunksFor later).foldl write
    { t.appended events k with
      fresh := (t.appended events k).fresh && later.isEmpty
      readings := (t.appended events k).readings + l } = _
  rw [appended_fresh, appended_readings, hfresh, Nat.add_assoc]
  unfold appended at hmarked ⊢
  rw [hmarked, ← List.foldl_append]
  exact congrArg (List.foldl write _) (t.chunksFor_append events later k).symm

theorem emit_eq (e : TraceEvent) : t.emit e = t.appended [e] 0 := by
  cases hfresh : t.fresh with
  | true => simp [emit, appended, chunksFor, interspersed, hfresh]
  | false =>
      have hsame : { t with fresh := false } = t := by rw [← hfresh]
      simp [emit, appended, chunksFor, separated, hfresh, hsame, separator]

theorem emitNow_eq (name category phase : Bytes) (thread process : Int) :
    t.emitNow name category phase thread process =
      t.appended [⟨name, category, phase, t.clock t.readings, process, thread⟩] 1 := by
  rw [emitNow, emit_eq]
  rfl

end

mutual

theorem perform_eq (t : Trace) (call : Call) :
    t.perform call = t.appended (call.events t.clock t.readings) call.readings := by
  cases call with
  | full e => exact t.emit_eq e
  | now name category phase thread process => exact t.emitNow_eq ..
  | event name category phase => exact t.emitNow_eq ..
  | duration name category inside =>
      show ((t.enter name category).performAll inside).leave name category = _
      rw [enter, emitNow_eq, performAll_eq, leave, emitNow_eq, appended_appended,
        appended_appended, Call.events, Call.readings]
      simp only [appended_clock, appended_readings]
      congr 1
      omega

/-- Calls append their events one by one. -/
theorem performAll_eq (t : Trace) (calls : List Call) :
    t.performAll calls =
      t.appended (Call.eventsOf t.clock t.readings calls) (Call.readingsOf calls) := by
  cases calls with
  | nil => exact t.appended_nothing.symm
  | cons call rest =>
      rw [performAll, performAll_eq, perform_eq, appended_appended, appended_clock,
        appended_readings]
      rfl

end

theorem performAll_append (calls later : List Call) : ∀ t : Trace,
    t.performAll (calls ++ later) = (t.performAll calls).performAll later := by
  induction calls with
  | nil => intro t; rfl
  | cons call rest ih => intro t; exact ih (t.perform call)

/-- The second trace is the first one with more chunks in its file, up to the first of them that
the file refused. -/
structure Wrote (t t' : Trace) (chunks : List Bytes) : Prop where
  /-- If no chunk is refused, all are written. -/
  taken : t.error? = none → (∀ k < chunks.length, t.file.refuses (t.file.calls + k) = none) →
    t'.file.chunks = t.file.chunks ++ chunks ∧ t'.error? = none
  /-- The first that is refused is the last that is tried, and its error is kept. -/
  refused : ∀ n err, t.error? = none → n < chunks.length →
    (∀ k < n, t.file.refuses (t.file.calls + k) = none) →
    t.file.refuses (t.file.calls + n) = some err →
    t'.file.chunks = t.file.chunks ++ chunks.take n ∧ t'.error? = some err
  /-- Behind an error nothing is written. -/
  failed : ∀ err, t.error? = some err → t'.file = t.file ∧ t'.error? = some err

theorem appended_wrote (t : Trace) (events : List TraceEvent) (readings : Nat) :
    t.Wrote (t.appended events readings) (t.chunksFor events) := by
  let marked : Trace :=
    { t with fresh := t.fresh && events.isEmpty, readings := t.readings + readings }
  have happended : t.appended events readings = (t.chunksFor events).foldl write marked := rfl
  rw [happended]
  constructor
  case taken =>
    intro herr hfree
    rw [foldl_write (t := marked) _ herr, Sink.pour_taken (s := marked.file) _ hfree]
    exact ⟨Sink.chunks_taking _ _, rfl⟩
  case refused =>
    intro n err herr hlt hfree hrefused
    rw [foldl_write (t := marked) _ herr,
      Sink.pour_refused (s := marked.file) _ hlt hfree hrefused]
    exact ⟨Sink.chunks_taking t.file _, rfl⟩
  case failed =>
    intro err herr
    rw [foldl_write_failed (t := marked) _ herr]
    exact ⟨rfl, herr⟩

/-! ### Whole traces -/

/-- **A trace pours its chunks into the file and closes it once.**  What it reports is the
error of a chunk, and only without one that of closing. -/
theorem close_performAll (file : Sink) (style : Text.JsonStyle) (clock : Nat → Int)
    (closeError? : Option Bytes) (calls : List Call) :
    let events := Call.eventsOf clock 0 calls
    let poured := file.pour (chunksOf style events)
    let reported := poured.1.or closeError?
    ((start file style clock closeError?).performAll calls).close =
      (⟨poured.2, style, clock, closeError?, events.isEmpty, Call.readingsOf calls, reported, 1⟩,
        reported) := by
  intro events poured reported
  have hwritten : ((start file style clock closeError?).performAll calls).write (utf8 "]") =
      (chunksOf style events).foldl write
        ⟨file, style, clock, closeError?, events.isEmpty, Call.readingsOf calls, none, 0⟩ := by
    obtain ⟨file', error?, hstart⟩ := write_frame
      ⟨file, style, clock, closeError?, true, 0, none, 0⟩ (utf8 "[")
    obtain ⟨hclock, hreadings, hfresh, hstyle⟩ :
        (start file style clock closeError?).clock = clock ∧
          (start file style clock closeError?).readings = 0 ∧
          (start file style clock closeError?).fresh = true ∧
          (start file style clock closeError?).style = style := by
      rw [start, hstart]
      exact ⟨rfl, rfl, rfl, rfl⟩
    have hcalls : (start file style clock closeError?).performAll calls =
        (interspersed style events).foldl write
          { start file style clock closeError? with
            fresh := events.isEmpty, readings := Call.readingsOf calls } := by
      rw [performAll_eq, appended, chunksFor, hclock, hreadings, hfresh, hstyle, Nat.zero_add]
      rfl
    have hopened : { start file style clock closeError? with
          fresh := events.isEmpty, readings := Call.readingsOf calls } =
        write ⟨file, style, clock, closeError?, events.isEmpty, Call.readingsOf calls, none, 0⟩
          (utf8 "[") :=
      write_marked _ _ _ _
    rw [hcalls, hopened, chunksOf, List.foldl_cons, List.foldl_append]
    rfl
  unfold close
  rw [hwritten, foldl_write _ rfl]

/--
**A trace file is a framed array of events, or a clean beginning of one.**  Whatever calls are
made on a new trace before it is closed, whatever its clock shows and whichever calls its file
refuses, the file is closed once.  If none is refused, it holds the events in the order of the
calls, separated and in brackets, and only closing it can fail.  If the first refused call is
number `n`, the file holds the first `n` chunks of that text, there is no call behind the refused
one, and its error is what closing the trace reports.
-/
theorem trace_framed (refuses : Nat → Option Bytes) (style : Text.JsonStyle)
    (clock : Nat → Int) (closeError? : Option Bytes) (calls : List Call) :
    let encoded := (Call.eventsOf clock 0 calls).map (TraceEvent.render style)
    let chunks := utf8 "[" :: (encoded.intersperse (utf8 ",\n") ++ [utf8 "]"])
    let closed := ((start ⟨refuses, 0, []⟩ style clock closeError?).performAll calls).close
    closed.1.closes = 1 ∧
      ((∀ k < chunks.length, refuses k = none) →
        closed.1.file.output =
            utf8 "[" ++ List.intercalate (utf8 ",\n") encoded ++ utf8 "]" ∧
          closed.1.file.chunks = chunks ∧ closed.2 = closeError?) ∧
      (∀ n err, n < chunks.length → (∀ k < n, refuses k = none) → refuses n = some err →
        closed.1.file.output = (chunks.take n).flatten ∧
          closed.1.file.chunks = chunks.take n ∧ closed.1.file.calls = n + 1 ∧
          closed.2 = some err) := by
  intro encoded chunks closed
  have hclosed : closed = _ := close_performAll ⟨refuses, 0, []⟩ style clock closeError? calls
  have hchunks : chunksOf style (Call.eventsOf clock 0 calls) = chunks := rfl
  simp only [hchunks] at hclosed
  refine ⟨by rw [hclosed], ?_, ?_⟩
  · intro hfree
    have hpour := Sink.pour_taken (s := ⟨refuses, 0, []⟩) chunks (by simpa using hfree)
    rw [hclosed, hpour]
    refine ⟨?_, Sink.chunks_taking _ _, rfl⟩
    rw [Sink.output, Sink.chunks_taking, ← hchunks]
    exact flatten_chunksOf _ _
  · intro n err hlt hfree herr
    have hpour := Sink.pour_refused (s := ⟨refuses, 0, []⟩) chunks hlt (by simpa using hfree)
      (by simpa using herr)
    have htaken : Sink.chunks (closed.1.file) = chunks.take n := by
      rw [hclosed, hpour]
      exact Sink.chunks_taking ⟨refuses, 0, []⟩ _
    refine ⟨congrArg List.flatten htaken, htaken, ?_, ?_⟩
    · rw [hclosed, hpour]
      show 0 + n + 1 = n + 1
      omega
    · rw [hclosed, hpour]
      rfl

/-- A marker, and something that takes a while. -/
def markerAndSpan : List Call :=
  [.event (utf8 "start") (utf8 "io") (utf8 "i"), .duration (utf8 "load") (utf8 "io") []]

/-- A clock that is late. -/
def lateClock (reading : Nat) : Int := 5 + 2 * reading

/-- A style without any letter or escape it could do without. -/
def plainStyle : Text.JsonStyle := ⟨false, false⟩

/-- The events of these calls, encoded. -/
def encodedSpan : List Bytes :=
  [TraceEvent.render plainStyle ⟨utf8 "start", utf8 "io", utf8 "i", 5, 0, 0⟩,
    TraceEvent.render plainStyle ⟨utf8 "load", utf8 "io", utf8 "B", 7, 0, 0⟩,
    TraceEvent.render plainStyle ⟨utf8 "load", utf8 "io", utf8 "E", 9, 0, 0⟩]

/-- A file that has no room for one chunk, but would take those behind it. -/
def crowded (chunk : Nat) : Option Bytes :=
  if chunk = 3 then some (utf8 "no space left on device") else none

/-- Without errors all three events stand in the file.  Where the event behind the first
separator finds no room, the separator is the last that is written. -/
theorem trace_framed_markerAndSpan :
    let good :=
      ((start ⟨fun _ => none, 0, []⟩ plainStyle lateClock none).performAll markerAndSpan).close
    let bad := ((start ⟨crowded, 0, []⟩ plainStyle lateClock none).performAll markerAndSpan).close
    good.1.file.output =
        utf8 "[" ++ List.intercalate (utf8 ",\n") encodedSpan ++ utf8 "]" ∧
      good.2 = none ∧
      (∀ k < 3, crowded k = none) ∧ crowded 3 = some (utf8 "no space left on device") ∧
      bad.1.file.chunks = [utf8 "[", encodedSpan[0], utf8 ",\n"] ∧
      bad.1.file.calls = 4 ∧ bad.2 = some (utf8 "no space left on device") := by
  have hfree : ∀ k < 3, crowded k = none := by decide
  have hfull : crowded 3 = some (utf8 "no space left on device") := rfl
  obtain ⟨-, hgood, -⟩ := trace_framed (fun _ => none) plainStyle lateClock none markerAndSpan
  obtain ⟨-, -, hbad⟩ := trace_framed crowded plainStyle lateClock none markerAndSpan
  obtain ⟨houtput, -, hreported⟩ := hgood fun _ _ => rfl
  obtain ⟨-, hchunks, hcalls, herr⟩ := hbad 3 _ (by decide) hfree hfull
  exact ⟨houtput, hreported, hfree, hfull, hchunks, hcalls, herr⟩

end TinyLisp.Trace
