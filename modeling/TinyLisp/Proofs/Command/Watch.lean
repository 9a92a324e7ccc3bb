/-
A round of watching runs what has changed, all of it and nothing else.

Which scripts are due is a matter of names only.  An event has a cleaned path, the path
stands for the last script that was given with it, and only scripts spelled like that
are run.  Other spellings of the path and repeated events change nothing about the set
of paths: whatever script is run has the path of an event, and every path that a script
was given with has a script to stand for it.

That what is due is really run is a matter of how runs end.  A failure is shown and a
refusal of the watcher is logged before the next script has its turn; only a crash would
end the round, and over the table of the language there is none.  `InTurn` is the round as
it happens: every script is run by the rules for scripts, on the machine that the one
before it left and on the files as they are found by then, and nothing is asked of how the
turns before it went.
-/
import TinyLisp.Command.Watch
import TinyLisp.Proofs.Command.Script

namespace TinyLisp.Command

/-! ### What is due -/

/-- A path stands for a script that was given with it. -/
theorem of_watchedScript? {scripts : List Bytes} {path s : Bytes}
    (h : watchedScript? scripts path = some s) : s ∈ scripts ∧ Path.clean s = path := by
  have hmem : s ∈ scripts.filter fun s => Path.clean s == path := List.mem_of_getLast? h
  simpa using hmem

/-- Every path that a script was given with stands for one. -/
theorem exists_watchedScript? {scripts : List Bytes} {s : Bytes} (hs : s ∈ scripts) :
    ∃ t, watchedScript? scripts (Path.clean s) = some t := by
  have hmem : s ∈ scripts.filter fun t => Path.clean t == Path.clean s := by simp [hs]
  exact ⟨_, List.getLast?_eq_some_getLast (List.ne_nil_of_mem hmem)⟩

theorem mem_dueScripts_iff {scripts events : List Bytes} {s : Bytes} :
    s ∈ dueScripts scripts events ↔
      s ∈ scripts ∧ ∃ event ∈ events, watchedScript? scripts (Path.clean event) = some s := by
  simp [dueScripts, changedScripts]

/-- **The paths of the scripts that are due are the paths of events that scripts were given
with.** -/
theorem clean_mem_dueScripts_iff (scripts events : List Bytes) (path : Bytes) :
    path ∈ (dueScripts scripts events).map Path.clean ↔
      path ∈ events.map Path.clean ∧ path ∈ scripts.map Path.clean := by
  simp only [List.mem_map]
  constructor
  · rintro ⟨s, hs, rfl⟩
    obtain ⟨hgiven, event, hevent, hwatched⟩ := mem_dueScripts_iff.mp hs
    exact ⟨⟨event, hevent, (of_watchedScript? hwatched).2.symm⟩, s, hgiven, rfl⟩
  · rintro ⟨⟨event, hevent, rfl⟩, s, hs, hpath⟩
    obtain ⟨t, ht⟩ := exists_watchedScript? hs
    rw [hpath] at ht
    obtain ⟨hgiven, hclean⟩ := of_watchedScript? ht
    exact ⟨t, mem_dueScripts_iff.mpr ⟨hgiven, event, hevent, ht⟩, hclean⟩

/-- What is due keeps the order of the command line. -/
theorem dueScripts_sublist (scripts events : List Bytes) :
    (dueScripts scripts events).Sublist scripts :=
  List.filter_sublist

/-! ### Turns -/

/-- One script that has had its turn. -/
structure Turn where
  /-- The script. -/
  script : Bytes
  /-- How its run failed, if it did. -/
  failure? : Option Failure
  /-- Why it could not be watched again, if it could not. -/
  refusal? : Option Bytes

/-- The watch that a turn leaves whose run left a machine: two looks were taken and one more call
was made to watch the script, a failure is shown and a refusal is logged. -/
def Turn.leaves (t : Turn) (w : Watch) (m : Machine) : Watch :=
  let shown := match t.failure? with
    | none => m
    | some f => { m with diagnostics := (m.diagnostics.write f.message.line).1 }
  let after : Watch :=
    ⟨shown, w.log, { w.watcher with calls := w.watcher.calls + 1 }, w.looks + 2⟩
  match t.refusal? with
  | none => after
  | some err => after.note .warn "cannot watch again" [("script", t.script), ("err", err)]

/-- A turn begins with a line in the log. -/
def Turn.announced (script : Bytes) (w : Watch) : Watch :=
  w.note .info "reloading" [("script", script)]

/-- Turns one after another, and what they make of a watch. -/
inductive InTurn (i : Interpreter) (h : Host) (disk : Nat → Files) (limit : Int64) :
    Watch → List Turn → Watch → Prop
  /-- Nothing is left to run. -/
  | done {w : Watch} : InTurn i h disk limit w [] w
  /-- A script is run and watched again, and then the next one has its turn. -/
  | next {w after : Watch} {t : Turn} {m : Machine} {rest : List Turn}
      (run : ScriptRun i h (disk w.looks) (disk (w.looks + 1)) limit t.script
        (Turn.announced t.script w).machine t.failure? m)
      (rewatched : w.watcher.refuses w.watcher.calls t.script = t.refusal?)
      (later : InTurn i h disk limit (t.leaves (Turn.announced t.script w) m) rest after) :
      InTurn i h disk limit w (t :: rest) after

section

variable {i : Interpreter} {h : Host} {disk : Nat → Files} {limit : Int64}

/-- However a turn goes, the round goes on behind it. -/
theorem rerun_eq {w : Watch} {t : Turn} {m : Machine}
    (hrun : ScriptRun i h (disk w.looks) (disk (w.looks + 1)) limit t.script
      (Turn.announced t.script w).machine t.failure? m)
    (hrefusal : w.watcher.refuses w.watcher.calls t.script = t.refusal?) :
    Watch.rerun i h disk limit t.script w =
      (t.leaves (Turn.announced t.script w) m, none) := by
  have hending := hrun.runScript_eq
  unfold Turn.announced at *
  unfold Watch.rerun
  simp only [Watch.note_looks, hending]
  -- whether the run failed is no matter to the watcher
  cases hfailure : t.failure? <;>
    simp only [endingOf, Watch.rewatch, Watcher.add, Watch.note_watcher, hrefusal, Turn.leaves,
      hfailure] <;>
    cases t.refusal? <;> rfl

variable (h disk limit) in
/-- **Every script has its turn**, in the order given and whatever comes of the turns before
it. -/
theorem rerunAll_inTurn (hr : i.registry.Sound) (scripts : List Bytes) :
    ∀ w : Watch, ∃ turns after,
      Watch.rerunAll i h disk limit scripts w = (after, none) ∧
        InTurn i h disk limit w turns after ∧ turns.map Turn.script = scripts := by
  induction scripts with
  | nil => exact fun w => ⟨[], w, rfl, .done, rfl⟩
  | cons script rest ih =>
      intro w
      obtain ⟨failure?, m, hrun⟩ := exists_scriptRun hr h (disk w.looks) (disk (w.looks + 1)) limit
        script (Turn.announced script w).machine
      let t : Turn := ⟨script, failure?, w.watcher.refuses w.watcher.calls script⟩
      have hstep : Watch.rerun i h disk limit script w =
          (t.leaves (Turn.announced script w) m, none) := rerun_eq (t := t) hrun rfl
      obtain ⟨turns, after, hafter, hturns, hscripts⟩ := ih (t.leaves (Turn.announced script w) m)
      refine ⟨t :: turns, after, ?_, .next hrun rfl hturns, ?_⟩
      · rw [Watch.rerunAll, hstep]
        exact hafter
      · rw [List.map_cons, hscripts]

end

/-- **A round runs what has changed, all of it and nothing else.**  The scripts that have their
turn are those that are due, whatever their runs come to, whichever of them the watcher refuses
and however the files change meanwhile.  They have it in the order of the command line, and
their paths are exactly the paths of events that scripts were given with. -/
theorem watchRound_runs_changed (depth : Int) (debug : Bool) (h : Host) (disk : Nat → Files)
    (limit : Int64) (scripts events : List Bytes) (w : Watch) :
    let i := Interpreter.new Registry.builtins depth debug
    ∃ turns after,
      watchRound i h disk limit scripts events w = (after, none) ∧
        InTurn i h disk limit w turns after ∧
        turns.map Turn.script = dueScripts scripts events ∧
        (turns.map Turn.script).Sublist scripts ∧
        ∀ path, path ∈ turns.map (fun t => Path.clean t.script) ↔
          path ∈ events.map Path.clean ∧ path ∈ scripts.map Path.clean := by
  intro i
  have hr : i.registry.Sound := Registry.sound_builtins
  obtain ⟨turns, after, hafter, hturns, hscripts⟩ :=
    rerunAll_inTurn h disk limit hr (dueScripts scripts events) w
  refine ⟨turns, after, hafter, hturns, hscripts, ?_, ?_⟩
  · rw [hscripts]
    exact dueScripts_sublist scripts events
  · intro path
    rw [← clean_mem_dueScripts_iff, ← hscripts, List.map_map]
    rfl

/-- Two scripts, of which the first is cut off. -/
def cutOff : Files :=
  [([utf8 "a"], .file (utf8 "(print 1) (+ 2")), ([utf8 "b"], .file (utf8 "(+ 1 2)"))]

/-- A host without any sizes. -/
def sizeless : Host := ⟨fun _ _ => 0, fun _ => .ok 0, fun _ => []⟩

/-- The first call to watch a script again is refused. -/
def refusesFirst (call : Nat) (_ : Bytes) : Option Bytes :=
  if call = 0 then some (utf8 "no space left on device") else none

/-- The program while it watches these scripts and only logs what is odd. -/
def watching : Watch := ⟨.idle .reliable .reliable none, ⟨.warn, none⟩, ⟨refusesFirst, 0⟩, 0⟩

/-- The first script prints, fails and cannot be watched again.  The second one has its turn all
the same, in the last of its spellings. -/
theorem watchRound_runs_changed_cutOff :
    let i := Interpreter.new Registry.builtins 3 false
    ∃ turns after,
      watchRound i sizeless (fun _ => cutOff) 100 [utf8 "a", utf8 "./b", utf8 "b"]
          [utf8 "./b", utf8 "./a"] watching = (after, none) ∧
        InTurn i sizeless (fun _ => cutOff) 100 watching turns after ∧
        turns.map Turn.script = [utf8 "a", utf8 "b"] ∧
        after.machine.out.output = utf8 "1\nnil\n3\n" ∧
        after.machine.diagnostics.output =
          utf8 ("a:1:15: syntax error: unexpected end of input EOF, " ++
            "expecting matching ) for a:1:11\n" ++ "level=WARN msg=\"cannot watch again\" " ++
            "script=a err=\"no space left on device\"\n") := by
  intro i
  obtain ⟨turns, after, hround, hturns, hscripts, -⟩ := watchRound_runs_changed 3 false sizeless
    (fun _ => cutOff) 100 [utf8 "a", utf8 "./b", utf8 "b"] [utf8 "./b", utf8 "./a"] watching
  refine ⟨turns, after, hround, hturns, hscripts.trans (by decide), ?_, ?_⟩
  · rw [show after = _ from (congrArg Prod.fst hround).symm]
    decide +kernel
  · rw [show after = _ from (congrArg Prod.fst hround).symm]
    decide +kernel

/-- The last spelling of a path is run, as often as it was given. -/
example : dueScripts [utf8 "a", utf8 "./b", utf8 "./a", utf8 "b", utf8 "x/../a", utf8 "./a"]
    [utf8 "c", utf8 "a", utf8 "x/../a"] = [utf8 "./a", utf8 "./a"] := by decide

end TinyLisp.Command
