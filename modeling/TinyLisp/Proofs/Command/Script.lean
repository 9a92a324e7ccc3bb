/-
What a run of a script is.

A script is looked at, read, taken apart into tokens and evaluated group by group, and
each of these can be the end of it.  Here this is said by rules, one for every way a run
can go, in terms of the files, the grammar and the evaluation of expressions alone.
`runScript` does what the rules say.

Over functions that do not crash every script has a run by the rules, whatever the files
hold and whichever lines the output refuses.  There is then always a machine that the
next script can be run on.
-/
import TinyLisp.Command.Script
import TinyLisp.Proofs.Eval.Request
import TinyLisp.Proofs.Eval.Safety

namespace TinyLisp.Command

/-- How a run ends that failed in some way, or did not. -/
def endingOf : Option Failure → Except Stop Unit
  | none => .ok ()
  | some f => .error (.failure f)

/-! ### Programs -/

/-- Groups of tokens are evaluated one after another on a machine, and every result is written on
a line of its own, up to the first failure. -/
inductive Reports (i : Interpreter) : List (List Token) → Machine → Option Failure → Machine → Prop
  | done {m} : Reports i [] m none m
  | unread {group rest m e} (hparse : (Grammar.parse group).outcome = .error e) :
      Reports i (group :: rest) m (some (.rejected e)) m
  | failed {group rest expr m f m'} (hparse : (Grammar.parse group).outcome = .ok expr)
      (heval : i.eval expr [] m = (.error (.failure f), m')) :
      Reports i (group :: rest) m (some f) m'
  | refused {group rest expr v m m' out err} (hparse : (Grammar.parse group).outcome = .ok expr)
      (heval : i.eval expr [] m = (.ok v, m'))
      (hwrite : m'.out.writeLine v.render = (out, some err)) :
      Reports i (group :: rest) m (some (.output [] err)) { m' with out := out }
  | next {group rest expr v m m₁ out failure? m'}
      (hparse : (Grammar.parse group).outcome = .ok expr)
      (heval : i.eval expr [] m = (.ok v, m₁))
      (hwrite : m₁.out.writeLine v.render = (out, none))
      (hrest : Reports i rest { m₁ with out := out } failure? m') :
      Reports i (group :: rest) m failure? m'

/-- A program that reports its results goes by the rules. -/
theorem Reports.evalGroups {i : Interpreter} {groups : List (List Token)} {m m' : Machine}
    {failure? : Option Failure} (h : Reports i groups m failure? m') :
    ∀ count, ∃ results,
      i.evalGroups Interpreter.report count groups m = (⟨results, endingOf failure?⟩, m') := by
  induction h with
  | done => exact fun _ => ⟨[], rfl⟩
  | unread hparse =>
      intro count
      refine ⟨[], ?_⟩
      rw [i.evalGroups_cons_error hparse]
      rfl
  | failed hparse heval =>
      intro count
      refine ⟨[], ?_⟩
      simp only [i.evalGroups_cons hparse, Machine.andThen, heval]
      rfl
  | @refused group rest expr v m m' out err hparse heval hwrite =>
      intro count
      refine ⟨[v], ?_⟩
      simp only [i.evalGroups_cons hparse, Machine.andThen, heval, Interpreter.report_apply, hwrite]
      rfl
  | @next group rest expr v m m₁ out failure? m' hparse heval hwrite hrest ih =>
      intro count
      obtain ⟨results, hresults⟩ := ih (count + 1)
      refine ⟨v :: results, ?_⟩
      simp only [i.evalGroups_cons hparse, Machine.andThen, heval, Interpreter.report_apply, hwrite,
        hresults]

/-- Over functions that do not crash every program goes some way. -/
theorem exists_reports {i : Interpreter} (hr : i.registry.Sound) (groups : List (List Token)) :
    ∀ m, ∃ failure? m', Reports i groups m failure? m' := by
  induction groups with
  | nil => exact fun m => ⟨none, m, .done⟩
  | cons group rest ih =>
      intro m
      cases hparse : (Grammar.parse group).outcome with
      | error e => exact ⟨_, _, .unread hparse⟩
      | ok expr =>
          rcases heval : i.eval expr [] m with ⟨ending, m₁⟩
          cases ending with
          | error stop =>
              cases stop with
              | failure f => exact ⟨_, _, .failed hparse heval⟩
              | crash message =>
                  have hcrash := i.eval_ne_crash hr expr [] m message
                  rw [heval] at hcrash
                  exact absurd rfl hcrash
          | ok v =>
              rcases hwrite : m₁.out.writeLine v.render with ⟨out, _ | err⟩
              · obtain ⟨failure?, m', hrest⟩ := ih { m₁ with out := out }
                exact ⟨_, _, .next hparse heval hwrite hrest⟩
              · exact ⟨_, _, .refused hparse heval hwrite⟩

/-! ### Scripts -/

/-- A script is run on a machine.  The files are as in `seen` when its size is looked at, and as in
`read` when it is read. -/
inductive ScriptRun (i : Interpreter) (h : Host) (seen read : Files) (limit : Int64)
    (script : Bytes) (m : Machine) : Option Failure → Machine → Prop
  | absent {fault} (hseen : seen.stat script = .error fault) :
      ScriptRun i h seen read limit script m
        (some (.other (FileError.message ⟨utf8 "stat", script, fault⟩))) m
  | oversized {node} (hseen : seen.stat script = .ok node)
      (hsize : limit < h.size seen script node) :
      ScriptRun i h seen read limit script m
        (some (.other (tooLarge h script (h.size seen script node) limit))) m
  | unreadable {node e} (hseen : seen.stat script = .ok node)
      (hsize : ¬limit < h.size seen script node) (hread : read.read script = .error e) :
      ScriptRun i h seen read limit script m (some (.other e.message)) m
  | untokenized {node text e} (hseen : seen.stat script = .ok node)
      (hsize : ¬limit < h.size seen script node) (hread : read.read script = .ok text)
      (htokens : Token.tokenize script text = .error e) :
      ScriptRun i h seen read limit script m (some (.rejected e)) m
  | evaluated {node text tokens failure? m'} (hseen : seen.stat script = .ok node)
      (hsize : ¬limit < h.size seen script node) (hread : read.read script = .ok text)
      (htokens : Token.tokenize script text = .ok tokens)
      (hreports : Reports i (Token.groups tokens) m failure? m') :
      ScriptRun i h seen read limit script m failure? m'

section

variable {i : Interpreter} {h : Host} {seen read : Files} {limit : Int64} {script : Bytes}
  {m m' : Machine} {failure? : Option Failure}

/-- Scripts are run by the rules. -/
theorem ScriptRun.runScript_eq (hrun : ScriptRun i h seen read limit script m failure? m') :
    runScript h i seen read limit script m = (endingOf failure?, m') := by
  unfold runScript loadScript
  cases hrun with
  | absent hseen =>
      rw [hseen]
      rfl
  | oversized hseen hsize =>
      simp only [hseen, gt_iff_lt, if_pos hsize]
      rfl
  | unreadable hseen hsize hread =>
      simp only [hseen, gt_iff_lt, if_neg hsize, hread]
      rfl
  | untokenized hseen hsize hread htokens =>
      simp only [hseen, gt_iff_lt, if_neg hsize, hread, runProgram, i.evalProgram_error htokens]
      rfl
  | evaluated hseen hsize hread htokens hreports =>
      obtain ⟨results, hresults⟩ := hreports.evalGroups 0
      rw [← i.evalProgram_ok htokens] at hresults
      simp only [hseen, gt_iff_lt, if_neg hsize, hread, runProgram, hresults]

/-- Over functions that do not crash every script has a run. -/
theorem exists_scriptRun (hr : i.registry.Sound) (h : Host) (seen read : Files) (limit : Int64)
    (script : Bytes) (m : Machine) :
    ∃ failure? m', ScriptRun i h seen read limit script m failure? m' := by
  cases hseen : seen.stat script with
  | error fault => exact ⟨_, _, .absent hseen⟩
  | ok node =>
      by_cases hsize : limit < h.size seen script node
      · exact ⟨_, _, .oversized hseen hsize⟩
      · cases hread : read.read script with
        | error e => exact ⟨_, _, .unreadable hseen hsize hread⟩
        | ok text =>
            cases htokens : Token.tokenize script text with
            | error e => exact ⟨_, _, .untokenized hseen hsize hread htokens⟩
            | ok tokens =>
                obtain ⟨failure?, m', hreports⟩ := exists_reports hr (Token.groups tokens) m
                exact ⟨_, _, .evaluated hseen hsize hread htokens hreports⟩

end

end TinyLisp.Command
