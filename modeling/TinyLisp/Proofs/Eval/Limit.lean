/-
The depth limit is only a cut-off.

An evaluation under a higher limit starts with more levels, so the one under the lower
limit is cut off it: both follow transcripts, and those are the same or the first one
breaks off where calls are nested too deep.  On an output that refuses nothing a
transcript is written as it is.  So either the limit was never met, and everything
comes out the same, or it was, and the lines printed until then are the first ones of
those that more levels print.

A limit that is not positive stands for the default, which is why limits are compared
from one on.
-/
import TinyLisp.Proofs.Eval.Levels

namespace TinyLisp

open TinyLisp.Action

theorem Interpreter.limit_new (registry : Registry) {limit : Int} (h : 1 ≤ limit)
    (debug : Bool) : (Interpreter.new registry limit debug).limit = limit.toNat :=
  if_neg (by omega)

theorem Interpreter.limit_new_mono (registry : Registry) {limit limit' : Int} (h : 1 ≤ limit)
    (hle : limit ≤ limit') (debug : Bool) :
    (Interpreter.new registry limit debug).limit
      ≤ (Interpreter.new registry limit' debug).limit := by
  rw [limit_new registry h, limit_new registry (Int.le_trans h hle)]
  omega

/-- On an output that refuses nothing a transcript is written in full, to both sinks. -/
theorem Action.Follows.writes {α : Type} {limit : Nat} {x : Action α} {t : Transcript α}
    (h : Follows limit x t) {m : Machine} (hout : m.out.NeverRefuses) :
    (x m).1 = t.ending limit ∧ (x m).2.sinks = (deliver t.events m.sinks).2 ∧
      (x m).2.out = m.out.taking (printed t.events) := by
  have hplay := h m
  rw [Transcript.play_of_reliable (p := m.sinks) hout] at hplay
  obtain ⟨hr, hsinks⟩ := Prod.mk.inj hplay
  refine ⟨hr, hsinks, ?_⟩
  rw [(h.pours m).2, Sink.pour_neverRefuses _ hout]

section

variable {α : Type} {limit limit' : Nat} {x y : Action α}

/-- What is not cut off ends and writes like what it is compared with. -/
theorem Action.CutOf.same_of_finished (h : CutOf limit limit' x y) {m : Machine}
    (hout : m.out.NeverRefuses) (hx : (x m).1 ≠ .error (.failure (.tooDeep limit))) :
    ∃ a, (x m).1 = .ok a ∧ (y m).1 = .ok a ∧ (y m).2.sinks = (x m).2.sinks := by
  obtain ⟨t, u, ht, hu, htu⟩ := h
  obtain ⟨hxr, hxs, -⟩ := ht.writes hout
  obtain ⟨hyr, hys, -⟩ := hu.writes hout
  cases hv : t.value? with
  | none =>
      rw [Transcript.ending, hv] at hxr
      exact absurd hxr hx
  | some a =>
      cases htu with
      | same =>
          rw [Transcript.ending, hv] at hxr hyr
          exact ⟨a, hxr, hyr, hys.trans hxs.symm⟩
      | early _ => cases hv

/-- What is printed until a cut comes first in what is printed without it. -/
theorem Action.CutOf.prefix_of_printed (h : CutOf limit limit' x y) {m : Machine}
    (hout : m.out.NeverRefuses) : (x m).2.out.chunks <+: (y m).2.out.chunks := by
  obtain ⟨t, u, ht, hu, htu⟩ := h
  obtain ⟨-, -, hxo⟩ := ht.writes hout
  obtain ⟨-, -, hyo⟩ := hu.writes hout
  have hevents : t.events <+: u.events := by
    cases htu with
    | same => exact List.prefix_refl t.events
    | early hpre => exact hpre
  rw [hxo, hyo, Sink.chunks_taking, Sink.chunks_taking]
  exact (List.prefix_append_right_inj m.out.chunks).mpr (printed_mono hevents)

end

/-- **A higher limit changes nothing but where an evaluation is cut off.**  If it does not nest
calls too deep under the lower limit, it has the same value and writes the same lines, printed
and diagnostic, under the higher one; if it does, what it printed comes first in what is
printed under the higher one. -/
theorem eval_limit_raised {limit limit' : Int} (hpos : 1 ≤ limit) (hle : limit ≤ limit')
    (debug : Bool) (expr : Value) (env : Env) {m : Machine} (hout : m.out.NeverRefuses) :
    let low := (Interpreter.new Registry.builtins limit debug).eval expr env m
    let high := (Interpreter.new Registry.builtins limit' debug).eval expr env m
    ((∀ k, low.1 ≠ .error (.failure (.tooDeep k))) →
      ∃ v, low.1 = .ok v ∧ high.1 = .ok v ∧ high.2.out.chunks = low.2.out.chunks ∧
        high.2.diagnostics.chunks = low.2.diagnostics.chunks) ∧
      (∀ k, low.1 = .error (.failure (.tooDeep k)) →
        low.2.out.chunks <+: high.2.out.chunks) := by
  intro low high
  let i := Interpreter.new Registry.builtins limit debug
  let i' := Interpreter.new Registry.builtins limit' debug
  have hlimit : i.limit ≤ i'.limit := Interpreter.limit_new_mono _ hpos hle debug
  have hsound : i.registry.Sound := Registry.sound_builtins
  have hregistry : i'.registry = i.registry := rfl
  have hcalls := Eval.evaluate_cutOf Eval.scopeRelation_eq hsound hregistry rfl
    (Nat.sub_le_sub_right hlimit m.depth)
  have hcut := Eval.expression_cutOf hcalls (v := expr) (show env = env from rfl)
  have hlow : low = Eval.expression (Eval.evaluate i (i.limit - m.depth)) env expr m :=
    Eval.eval_eq i expr env m
  have hhigh : high = Eval.expression (Eval.evaluate i' (i'.limit - m.depth)) env expr m :=
    Eval.eval_eq i' expr env m
  rw [hlow, hhigh]
  refine ⟨?_, ?_⟩
  · intro hfinished
    obtain ⟨v, hv, hv', hsinks⟩ := hcut.same_of_finished hout (hfinished i.limit)
    obtain ⟨hprinted, hnoted⟩ := Prod.mk.inj hsinks
    exact ⟨v, hv, hv', congrArg Sink.chunks hprinted, congrArg Sink.chunks hnoted⟩
  · intro _ _
    exact hcut.prefix_of_printed hout

/-- `(list (print nil) (list (list)))` -/
def printThenList : Value :=
  .list [.symbol (utf8 "list"), .list [.symbol (utf8 "print"), .nil],
    .list [.symbol (utf8 "list"), .list [.symbol (utf8 "list")]]]

/-- It is evaluated under a limit, from a fresh machine. -/
def runPrintThenList (limit : Int) (debug : Bool) : Except Stop Value × Machine :=
  (Interpreter.new Registry.builtins limit debug).eval printThenList []
    (.idle .reliable .reliable none)

/-- The line is printed on the second level, and the list behind it needs a third one: under a
limit of two the line is all that comes out, and from three on the limit is not met. -/
theorem eval_limit_raised_printed :
    (runPrintThenList 2 false).1 = .error (.failure (.tooDeep 2)) ∧
      (runPrintThenList 2 false).2.out.chunks = [(utf8 "nil").line] ∧
      (runPrintThenList 2 false).2.out.chunks <+: (runPrintThenList 3 false).2.out.chunks ∧
      (runPrintThenList 3 true).1.isOk = true ∧
      ∃ v, (runPrintThenList 3 true).1 = .ok v ∧ (runPrintThenList 4 true).1 = .ok v ∧
        (runPrintThenList 4 true).2.out.chunks = (runPrintThenList 3 true).2.out.chunks ∧
        (runPrintThenList 4 true).2.diagnostics.chunks
          = (runPrintThenList 3 true).2.diagnostics.chunks := by
  have hcut : (runPrintThenList 2 false).1 = .error (.failure (.tooDeep 2)) := rfl
  have hdone : (runPrintThenList 3 true).1.isOk = true := by decide +kernel
  have hfinished : ∀ {r : Except Stop Value}, r.isOk = true →
      ∀ k, r ≠ .error (.failure (.tooDeep k)) := by
    rintro _ h k rfl
    cases h
  have low := eval_limit_raised (show (1 : Int) ≤ 2 by decide) (show (2 : Int) ≤ 3 by decide) false
    printThenList [] (m := .idle .reliable .reliable none) Sink.neverRefuses_reliable
  have high := eval_limit_raised (show (1 : Int) ≤ 3 by decide) (show (3 : Int) ≤ 4 by decide) true
    printThenList [] (m := .idle .reliable .reliable none) Sink.neverRefuses_reliable
  have hrun : ∀ limit debug, (Interpreter.new Registry.builtins limit debug).eval printThenList []
      (.idle .reliable .reliable none) = runPrintThenList limit debug := fun _ _ => rfl
  simp only [hrun] at low high
  exact ⟨hcut, by decide +kernel, low.2 2 hcut, hdone, high.1 (hfinished hdone)⟩

end TinyLisp
