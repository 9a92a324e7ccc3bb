/-
What a `let` inserts, and how often.

A `let` puts the value, unevaluated, in place of its name in the body and evaluates
the result.  That ought to be all: the same as evaluating the substituted body on its
own.  But the body is evaluated with the binding still in scope, and every `let`
inside it substitutes all that is in scope once more.  By then the name is gone from
the body, unless the value brought it in again.

So the value is inserted once for every body exactly if its name is not free in it, or
if it is nothing but its name.  If it is not free, it is free in no tree and no value
that the evaluation comes across, and the scope with the binding cannot be told from
the one without; `Unseen` is the invariant.  If it is free, one `let` around the name
is enough to see the value inserted into itself, which makes it larger.
-/
import TinyLisp.Proofs.Eval.Levels

namespace TinyLisp

open TinyLisp.Action

/-! ### Names that do not matter -/

/-- The environments differ on some names only, and none of these is free in the tree or in a
value of the first environment. -/
structure Unseen (X : Bytes → Prop) (t : Value) (e e' : Env) : Prop where
  /-- The tree has none of the names free. -/
  tree : ∀ n, X n → n ∉ freeSymbols t
  /-- Nor has a value that can be inserted. -/
  values : ∀ n w, e.lookup? n = some w → ∀ y, X y → y ∉ freeSymbols w
  /-- All other names are replaced alike. -/
  agree : ∀ n, ¬ X n → AgreeAt e e' n

theorem Unseen.bind_agree {X : Bytes → Prop} {double : Bool} {x : Bytes} {v body : Value}
    {e e' : Env} (h : Unseen X (letForm double x v body) e e') :
    ∀ n ∈ freeSymbols body, AgreeAt (e.bind x v) (e'.bind x v) n := by
  intro n hn
  refine .bind v ?_
  intro hx
  refine h.agree n ?_
  intro hX
  exact h.tree n hX (mem_freeSymbols_letForm.mpr (.inr ⟨hn, hx⟩))

theorem Unseen.bind_values {X : Bytes → Prop} {double : Bool} {x : Bytes} {v body : Value}
    {e e' : Env} (h : Unseen X (letForm double x v body) e e') :
    ∀ n w, (e.bind x v).lookup? n = some w → ∀ y, X y → y ∉ freeSymbols w := by
  intro n w hw y hX
  rw [Env.lookup?_bind] at hw
  by_cases hx : x = n
  · rw [if_pos hx] at hw
    obtain rfl := Option.some.inj hw
    intro hy
    exact h.tree y hX (mem_freeSymbols_letForm.mpr (.inl hy))
  · rw [if_neg hx] at hw
    exact h.values n w hw y hX

/-- A name that no inserted value has free is free after a substitution only where it was and
is not replaced. -/
theorem Unseen.bind_tree {X : Bytes → Prop} {double : Bool} {x : Bytes} {v body : Value}
    {e e' : Env} (h : Unseen X (letForm double x v body) e e') :
    ∀ n, X n → n ∉ freeSymbols (substitute (e.bind x v) body) := by
  intro n hX hn
  rcases mem_freeSymbols_substitute body hn with ⟨hbody, hnone⟩ | ⟨k, w, -, hw, hfree⟩
  · have hx : n ≠ x := by
      rintro rfl
      rw [Env.lookup?_bind, if_pos rfl] at hnone
      cases hnone
    exact h.tree n hX (mem_freeSymbols_letForm.mpr (.inr ⟨hbody, hx⟩))
  · exact h.bind_values k w hw n hX hfree

theorem scopeRelation_unseen (X : Bytes → Prop) : Eval.ScopeRelation (Unseen X) where
  items := by
    intro items e e' h hl v hv
    refine ⟨?_, h.values, h.agree⟩
    intro n hX hn
    refine h.tree n hX ?_
    rw [freeSymbols_list hl]
    exact mem_freeSymbolsOf.mpr ⟨v, hv, hn⟩
  body := by
    intro double x v body e e' h
    refine ⟨substitute_congr body h.bind_agree, h.bind_tree, h.bind_values, ?_⟩
    intro n hX
    exact .bind v fun _ => h.agree n hX

/-- After one insertion of such a value the binding is not seen any more. -/
theorem unseen_of_not_free {x : Bytes} {v : Value} (h : v = .symbol x ∨ x ∉ freeSymbols v)
    (body : Value) :
    ∃ X, Unseen X (substitute (Env.bind [] x v) body) (Env.bind [] x v) [] := by
  have hagree : ∀ n, n ≠ x → AgreeAt (Env.bind [] x v) [] n := by
    intro n hn
    unfold AgreeAt
    rw [substitute_symbol, substitute_symbol, Env.lookup?_single v hn]
    rfl
  rcases h with rfl | hfree
  · -- the name stands for itself, and the two scopes do not differ at all
    refine ⟨fun _ => False, fun _ hX => hX.elim, fun _ _ _ _ hX => hX.elim, ?_⟩
    intro n _
    by_cases hn : n = x
    · subst hn
      unfold AgreeAt
      rw [substitute_symbol, substitute_symbol, Env.lookup?_bind, if_pos rfl]
      rfl
    · exact hagree n hn
  · have hvalues : ∀ n w, (Env.bind [] x v).lookup? n = some w → x ∉ freeSymbols w := by
      intro n w hw
      by_cases hn : n = x
      · rw [Env.lookup?_bind, if_pos hn.symm] at hw
        obtain rfl := Option.some.inj hw
        exact hfree
      · rw [Env.lookup?_single v hn] at hw
        cases hw
    refine ⟨fun n => n = x, ?_, ?_, hagree⟩
    · rintro n rfl hn
      rcases mem_freeSymbols_substitute body hn with ⟨-, hnone⟩ | ⟨k, w, -, hw, hx⟩
      · rw [Env.lookup?_bind, if_pos rfl] at hnone
        cases hnone
      · exact hvalues k w hw hx
    · rintro n w hw y rfl
      exact hvalues n w hw

/-! ### One `let`, one level -/

namespace Eval

/-- A `let` evaluates its substituted body, one level down and in the inner scope. -/
theorem evaluate_letForm (i : Interpreter) (levels : Nat) (e : Env) (double : Bool) (x : Bytes)
    (v body : Value) :
    expression (evaluate i (levels + 1)) e (letForm double x v body) =
      Action.nested (do
        if i.debug then diagnose (announcement letName [bindingOf double x v, body])
        expression (evaluate i levels) (e.bind x v) (substitute (e.bind x v) body)) := by
  have hb : letBinding? (bindingOf double x v) = some (x, v) :=
    letBinding?_eq_some.mpr ⟨double, rfl⟩
  have hq : letName ≠ Grammar.quoteName := by decide
  simp only [letForm, expression, evaluate, step, operation, if_neg hq, if_pos, binding, hb]

/-- It follows the transcript of that body, after the line that announces it. -/
theorem follows_letForm {i : Interpreter} {levels : Nat} {e : Env} {x : Bytes} {v body : Value}
    {t : Transcript Value} (double : Bool)
    (h : Follows i.limit
      (expression (evaluate i levels) (e.bind x v) (substitute (e.bind x v) body)) t) :
    ∃ notes, Follows i.limit (expression (evaluate i (levels + 1)) e (letForm double x v body))
      ⟨List.map Event.note notes ++ t.events, t.value?⟩ := by
  rw [evaluate_letForm]
  cases i.debug with
  | true =>
      refine ⟨[announcement letName [bindingOf double x v, body]], Follows.nested ?_⟩
      exact (follows_diagnose _).bind fun _ => h
  | false => exact ⟨[], h.nested⟩

/-- A list whose head is no symbol is data. -/
theorem evaluate_inert (i : Interpreter) (levels : Nat) (e : Env) (args : List Value) :
    expression (evaluate i (levels + 1)) e (.list (.nil :: args)) =
      Action.nested (Pure.pure (.list (.nil :: args))) := rfl

end Eval

/-! ### Inserted once -/

/-- For every body, a `let` of the name and the value is evaluated as the body with the value
inserted once: to the same value and with the same lines on the output, unless one of the two
nests calls too deep. -/
def InsertsOnce (x : Bytes) (v : Value) : Prop :=
  ∀ (limit : Int) (debug : Bool) (body : Value) (m : Machine), (∀ n, m.out.refuses n = none) →
    let i := Interpreter.new Registry.builtins limit debug
    let bound := i.eval (letForm true x v body) [] m
    let inserted := i.eval (substitute (Env.bind [] x v) body) [] m
    bound.1 ≠ .error (.failure (.tooDeep i.limit)) →
    inserted.1 ≠ .error (.failure (.tooDeep i.limit)) →
      ∃ u, bound.1 = .ok u ∧ inserted.1 = .ok u ∧ bound.2.out.chunks = inserted.2.out.chunks

theorem insertsOnce_of_not_free {x : Bytes} {v : Value}
    (h : v = .symbol x ∨ x ∉ freeSymbols v) : InsertsOnce x v := by
  intro limit debug body m hout i bound inserted hbound _
  have hr : i.registry.Sound := Registry.sound_builtins
  obtain ⟨X, hX⟩ := unseen_of_not_free h body
  obtain ⟨levels, hlevels⟩ := Eval.exists_level hbound
  -- the `let` takes a level of its own: its body is cut off the same body one level above
  have hcalls := Eval.evaluate_cutOf (scopeRelation_unseen X) hr rfl rfl
    (show levels ≤ levels + 1 by omega)
  obtain ⟨t, u, ht, hu, htu⟩ := Eval.expression_cutOf hcalls hX
  obtain ⟨notes, hlet⟩ := Eval.follows_letForm true ht
  obtain ⟨hbv, hbout⟩ := hlet.on_reliable hout
  obtain ⟨hiv, hiout⟩ := hu.on_reliable hout
  rw [← hlevels, ← Eval.eval_eq] at hbv hbout hiv hiout
  cases htu with
  | early _ => exact absurd hbv hbound
  | same =>
      cases hv : t.value? with
      | none =>
          rw [Transcript.ending, hv] at hbv
          exact absurd hbv hbound
      | some w =>
          rw [Transcript.ending, hv] at hbv hiv
          refine ⟨w, hbv, hiv, congrArg Sink.chunks ?_⟩
          obtain ⟨d, hd⟩ := deliver_notes notes t.events m.sinks
          rw [hd] at hbout
          exact (hbout.trans (deliver_out t.events m.out d m.diagnostics)).trans hiout.symm

/-! ### Inserted again -/

/-- If the value is inserted once, two evaluations that end with values end with the same. -/
theorem InsertsOnce.eq_of_ok {x : Bytes} {v a b : Value} (h : InsertsOnce x v) (limit : Int)
    (debug : Bool) (body : Value) {m : Machine} (hout : ∀ n, m.out.refuses n = none)
    (ha : ((Interpreter.new Registry.builtins limit debug).eval (letForm true x v body) [] m).1
      = .ok a)
    (hb : ((Interpreter.new Registry.builtins limit debug).eval
      (substitute (Env.bind [] x v) body) [] m).1 = .ok b) : a = b := by
  obtain ⟨u, hu, hu', -⟩ := h limit debug body m hout
    (by rw [ha]; exact nofun) (by rw [hb]; exact nofun)
  have heq := (ha.symm.trans hu).trans (hu'.symm.trans hb)
  exact Except.ok.inj heq

/-- A body that shows what becomes of a name under one more `let`. -/
def probe (x : Bytes) : Value :=
  letForm true (0 :: x) (.symbol (0 :: x)) (.list [.nil, .symbol x])

theorem cons_ne_self (x : Bytes) : (0 :: x : Bytes) ≠ x := by
  intro h
  have := congrArg List.length h
  simp at this

theorem substitute_pair (e : Env) (t : Value) :
    substitute e (.list [.nil, t]) = .list [.nil, substitute e t] := by
  rw [substitute_list (not_isLet_of_length (by simp))]
  rfl

theorem substitute_probe (x : Bytes) (v : Value) :
    substitute (Env.bind [] x v) (probe x)
      = letForm true (0 :: x) (.symbol (0 :: x)) (.list [.nil, v]) := by
  have hz := Env.lookup?_single v (cons_ne_self x)
  have hx : ((Env.bind [] x v).hide (0 :: x)).lookup? x = some v := by
    rw [Env.lookup?_hide, if_neg (cons_ne_self x), Env.lookup?_bind, if_pos rfl]
  rw [probe, substitute_letForm, substitute_pair, substitute_symbol, substitute_symbol, hz, hx]
  rfl

/-- A name bound to itself changes no substitution in which it is not bound otherwise. -/
theorem substitute_bind_self {e : Env} {z : Bytes} (h : e.lookup? z = none) (t : Value) :
    substitute (e.bind z (.symbol z)) t = substitute e t := by
  refine substitute_congr t ?_
  intro n _
  unfold AgreeAt
  rw [substitute_symbol, substitute_symbol, Env.lookup?_bind]
  by_cases hn : z = n
  · subst hn
    rw [if_pos rfl, h]
    rfl
  · rw [if_neg hn]

/-- Under one more `let` a tree is seen with everything in scope inserted. -/
theorem eval_probe {i : Interpreter} (hi : i.debug = false) (levels : Nat) {e : Env} {z : Bytes}
    (h : e.lookup? z = none) (t : Value) (m : Machine) :
    (Eval.expression (Eval.evaluate i (levels + 2)) e
      (letForm true z (.symbol z) (.list [.nil, t])) m).1 = .ok (.list [.nil, substitute e t]) := by
  rw [Eval.evaluate_letForm, hi, substitute_pair, substitute_bind_self h, Eval.evaluate_inert]
  rfl

theorem substitute_self_of_insertsOnce {x : Bytes} {v : Value} (h : InsertsOnce x v) :
    substitute (Env.bind [] x v) v = v := by
  have hz := Env.lookup?_single v (cons_ne_self x)
  let i := Interpreter.new Registry.builtins 3 false
  let m := Machine.idle .reliable .reliable none
  have hbound : (i.eval (letForm true x v (probe x)) [] m).1
      = .ok (.list [.nil, substitute (Env.bind [] x v) v]) := by
    rw [Eval.eval_eq]
    show (Eval.expression (Eval.evaluate i 3) [] (letForm true x v (probe x)) m).1 = _
    rw [Eval.evaluate_letForm, substitute_probe]
    exact eval_probe (i := i) rfl 0 hz v { m with depth := m.depth + 1 }
  have hinserted : (i.eval (substitute (Env.bind [] x v) (probe x)) [] m).1
      = .ok (.list [.nil, v]) := by
    rw [Eval.eval_eq, substitute_probe]
    have hp := eval_probe (i := i) rfl 1 (e := []) (z := 0 :: x) rfl v m
    rw [substitute_of_not_visible v fun _ _ => rfl] at hp
    exact hp
  have heq := h.eq_of_ok 3 false (probe x) (fun _ => rfl) hbound hinserted
  simpa using heq

/-- **A `let` inserts its value once, for every body, exactly if its name is not free in the
value or is the whole of it.**  In every other case some body holds a `let` that inserts the
value a second time, into itself. -/
theorem insertsOnce_iff (x : Bytes) (v : Value) :
    InsertsOnce x v ↔ v = .symbol x ∨ x ∉ freeSymbols v := by
  constructor
  · intro h
    by_cases hx : x ∈ freeSymbols v
    · exact .inl (eq_symbol_of_substitute_self (substitute_self_of_insertsOnce h) hx)
    · exact .inr hx
  · exact insertsOnce_of_not_free

/-- The value of `x` is a list made of `x`, and the body has a `let` of another name: the list
comes out nested in itself, where it should have been inserted once. -/
theorem not_insertsOnce_list :
    let i := Interpreter.new Registry.builtins 0 false
    let m := Machine.idle .reliable .reliable none
    let x : Value := .symbol (utf8 "x")
    let v : Value := .list [.symbol (utf8 "list"), x]
    let body := letForm true (utf8 "y") (.int 1) x
    (i.eval (letForm true (utf8 "x") v body) [] m).1 = .ok (.list [.list [x]]) ∧
      (i.eval (substitute (Env.bind [] (utf8 "x") v) body) [] m).1 = .ok (.list [x]) ∧
      ¬ InsertsOnce (utf8 "x") v := by
  intro i m x v body
  have hbound : (i.eval (letForm true (utf8 "x") v body) [] m).1 = .ok (.list [.list [x]]) := by
    rfl
  have hinserted :
      (i.eval (substitute (Env.bind [] (utf8 "x") v) body) [] m).1 = .ok (.list [x]) := by
    rfl
  refine ⟨hbound, hinserted, ?_⟩
  intro h
  have heq := h.eq_of_ok 0 false body (fun _ => rfl) hbound hinserted
  simp [x] at heq

end TinyLisp
