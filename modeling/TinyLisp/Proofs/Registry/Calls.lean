/-
A registry as its calls made it.

A registry comes about by calls: titles, declarations, aliases and at some point a
seal.  A call that is refused crashes, and whoever made it may recover and go on, so
`after` performs all of them.  Only calls in front of the first seal are `heard`.

`declare_outline` and `lookup?_declare` say what one declaration does to the two
halves of a registry.  The halves do not move together: a name that is declared
again leaves the outline alone but has its entry replaced.  `after_induction` is how
a fact about single calls becomes one about every registry that calls can make.
-/
import Mathlib.Data.List.TakeWhile
import TinyLisp.Registry.Basic

namespace TinyLisp.Registry

/-! ### Calls -/

/-- A call that changes a registry. -/
inductive Call where
  /-- A chapter starts. -/
  | title (text : Bytes)
  /-- A function is declared. -/
  | function (d : Declaration)
  /-- A function is declared once more under another name. -/
  | synonym (d : Declaration) (name : Bytes)
  /-- No more is taken. -/
  | close

namespace Call

/-- The title that a call gives. -/
def title? : Call → Option Bytes
  | .title text => some text
  | _ => none

/-- The name that a call declares. -/
def name? : Call → Option Bytes
  | .function d => some d.name
  | .synonym _ name => some name
  | _ => none

/-- The call takes no more after it. -/
def closes : Call → Bool
  | .close => true
  | _ => false

end Call

/-- Performs a call: the registry after it, and the crash if it was refused. -/
def perform (r : Registry) : Call → Registry × Option Stop
  | .title text => r.declareTitle text
  | .function d => r.declare d
  | .synonym d name => r.declareAlias d name
  | .close => (r.closed, none)

/-- The registry that calls make of another; a crash does not keep the next call from being
made. -/
def performAll (r : Registry) (calls : List Call) : Registry :=
  calls.foldl (fun r call => (r.perform call).1) r

/-- The registry that calls make. -/
def after (calls : List Call) : Registry := empty.performAll calls

/-- The calls in front of the first seal. -/
def heard (calls : List Call) : List Call := calls.takeWhile fun call => !call.closes

/-- The names that calls declare, in order and with repetitions. -/
def namesOf (calls : List Call) : List Bytes := calls.filterMap Call.name?

/-- The titles that calls give, in order. -/
def titlesOf (calls : List Call) : List Bytes := calls.filterMap Call.title?

/-! ### What one call does -/

theorem name_of_lookup? {r : Registry} {name : Bytes} {d : Declaration}
    (h : r.lookup? name = some d) : d.name = name := by
  simpa using List.find?_some h

theorem mem_insert {d e : Declaration} {entries : List Declaration} (h : e ∈ insert d entries) :
    e = d ∨ e ∈ entries := by
  induction entries with
  | nil =>
      rw [insert, List.mem_singleton] at h
      exact .inl h
  | cons f rest ih =>
      rw [insert] at h
      split at h
      · exact List.mem_cons.mp h
      · split at h
        · exact (List.mem_cons.mp h).imp_right (List.mem_cons_of_mem f)
        · rcases List.mem_cons.mp h with rfl | h
          · exact .inr List.mem_cons_self
          · exact (ih h).imp_right (List.mem_cons_of_mem f)

/-- An entry is found under its own name, and hides no other. -/
theorem find?_insert (d : Declaration) (name : Bytes) (entries : List Declaration) :
    (insert d entries).find? (·.name == name) =
      if d.name = name then some d else entries.find? (·.name == name) := by
  induction entries with
  | nil => by_cases h : d.name = name <;> simp [insert, h]
  | cons e rest ih =>
      rw [insert]
      by_cases hlt : d.name < e.name
      · rw [if_pos hlt]
        by_cases h : d.name = name <;> simp [List.find?_cons, h]
      · rw [if_neg hlt]
        by_cases heq : d.name = e.name
        · rw [if_pos heq]
          by_cases h : d.name = name
          · simp [h]
          · have he : e.name ≠ name := fun hc => h (heq.trans hc)
            simp [h, he]
        · rw [if_neg heq]
          by_cases he : e.name = name
          · have h : d.name ≠ name := fun hc => heq (hc.trans he.symm)
            simp [he, h]
          · simp [he, ih]

theorem declare_entries {r : Registry} (hopen : r.isSealed = false) (d : Declaration) :
    (r.declare d).1.entries = insert d r.entries := by
  unfold declare
  rw [hopen, if_neg Bool.false_ne_true]
  cases r.lookup? d.name with
  | none => rfl
  | some old => rfl

/-- A declaration is found from now on, whether its name is new or not. -/
theorem lookup?_declare {r : Registry} (hopen : r.isSealed = false) (d : Declaration)
    (name : Bytes) :
    (r.declare d).1.lookup? name = if d.name = name then some d else r.lookup? name := by
  rw [lookup?, declare_entries hopen, find?_insert]
  rfl

/-- Only a new name is added to the outline. -/
theorem declare_outline {r : Registry} (hopen : r.isSealed = false) (d : Declaration) :
    (r.declare d).1.outline =
      if (r.lookup? d.name).isSome then r.outline else r.outline ++ [.ofName d.name] := by
  unfold declare
  rw [hopen, if_neg Bool.false_ne_true]
  cases r.lookup? d.name with
  | none => rfl
  | some old => rfl

theorem declare_isSealed (r : Registry) (d : Declaration) :
    (r.declare d).1.isSealed = r.isSealed := by
  unfold declare
  split
  · rfl
  · cases r.lookup? d.name with
    | none => rfl
    | some old => rfl

theorem declareTitle_outline {r : Registry} (hopen : r.isSealed = false) (title : Bytes) :
    (r.declareTitle title).1.outline = r.outline ++ [.title title] := by
  simp [declareTitle, hopen]

theorem perform_isSealed (r : Registry) {call : Call} (hcall : call.closes = false) :
    (r.perform call).1.isSealed = r.isSealed := by
  cases call with
  | title text =>
      simp only [perform, declareTitle]
      split
      · rfl
      · rfl
  | function d => exact r.declare_isSealed d
  | synonym d name => exact r.declare_isSealed (d.aliased name)
  | close => cases hcall

/-- A sealed registry stays as it is. -/
theorem perform_of_isSealed {r : Registry} (hsealed : r.isSealed = true) (call : Call) :
    (r.perform call).1 = r := by
  cases call with
  | title text => simp [perform, declareTitle, hsealed]
  | function d => simp [perform, declare, hsealed]
  | synonym d name => simp [perform, declareAlias, declare, hsealed]
  | close =>
      show r.closed = r
      rw [closed, ← hsealed]

/-! ### What many calls do -/

theorem performAll_append (r : Registry) (front back : List Call) :
    r.performAll (front ++ back) = (r.performAll front).performAll back :=
  List.foldl_append

theorem performAll_of_isSealed {r : Registry} (hsealed : r.isSealed = true) (calls : List Call) :
    r.performAll calls = r := by
  induction calls with
  | nil => rfl
  | cons call rest ih =>
      show (r.perform call).1.performAll rest = r
      rw [perform_of_isSealed hsealed, ih]

theorem closes_of_mem_heard {calls : List Call} {call : Call} (h : call ∈ heard calls) :
    call.closes = false := by
  simpa using List.mem_takeWhile_imp h

/-- Calls either are all heard, or the rest of them meets a sealed registry. -/
theorem after_eq (calls : List Call) :
    after calls = after (heard calls) ∨ after calls = (after (heard calls)).closed := by
  have hsplit : heard calls ++ calls.dropWhile (fun call => !call.closes) = calls :=
    List.takeWhile_append_dropWhile
  have hafter : after calls =
      (after (heard calls)).performAll (calls.dropWhile fun call => !call.closes) := by
    rw [after, after, ← performAll_append, hsplit]
  cases hrest : calls.dropWhile (fun call => !call.closes) with
  | nil =>
      rw [hrest] at hafter
      exact .inl hafter
  | cons call rest =>
      have hcloses := List.head?_dropWhile_not (fun call : Call => !call.closes) calls
      rw [hrest] at hafter hcloses
      refine .inr ?_
      rw [hafter]
      cases call with
      | close => exact performAll_of_isSealed (r := (after (heard calls)).closed) rfl rest
      | _ => simp [Call.closes] at hcloses

theorem performAll_induction {P : List Call → Registry → Prop}
    (step : ∀ front r call, r.isSealed = false → call.closes = false → P front r →
      P (front ++ [call]) (r.perform call).1) (calls : List Call) :
    ∀ front r, (∀ call ∈ calls, call.closes = false) → r.isSealed = false → P front r →
      P (front ++ calls) (r.performAll calls) := by
  induction calls with
  | nil =>
      intro front r _ _ h
      rw [List.append_nil]
      exact h
  | cons call rest ih =>
      intro front r hcalls hopen h
      have hcall := hcalls call List.mem_cons_self
      have hnext := ih (front ++ [call]) (r.perform call).1
        (fun c hc => hcalls c (List.mem_cons_of_mem call hc))
        ((r.perform_isSealed hcall).trans hopen) (step front r call hopen hcall h)
      rw [List.append_assoc] at hnext
      exact hnext

/-- **What every call that is heard preserves holds after all calls.**  The property may speak
of the calls so far; a seal must not matter to it. -/
theorem after_induction {P : List Call → Registry → Prop} (init : P [] empty)
    (step : ∀ front r call, r.isSealed = false → call.closes = false → P front r →
      P (front ++ [call]) (r.perform call).1)
    (close : ∀ front r, P front r → P front r.closed) (calls : List Call) :
    P (heard calls) (after calls) := by
  have hheard : P (heard calls) (after (heard calls)) :=
    performAll_induction step (heard calls) [] empty (fun _ => closes_of_mem_heard) rfl init
  rcases after_eq calls with h | h
  · rw [h]
    exact hheard
  · rw [h]
    exact close _ _ hheard

end TinyLisp.Registry
