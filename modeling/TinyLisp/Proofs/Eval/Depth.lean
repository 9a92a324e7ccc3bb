/-
How many levels an evaluation takes.

A call takes one level for itself.  If a function runs it, its arguments are evaluated
first, all on the next level, so the call takes one level more than the deepest of
them; any other call is data, and nothing inside it is evaluated.  `callDepth` is that
number, read off the tree alone.

It is exact for trees without `let`: an evaluation finishes exactly if it has at least
that many levels.  The induction is on the levels, and the condition under which an
action finishes is carried through everything evaluation is made of.  Of two actions in
a row both have to finish, so a row of arguments finishes if the deepest one does.

With a `let` there is no such number, since the body is only known once the value has
been substituted.  Without one nothing ever reads an environment, so no two environments
can be told apart, and an evaluation that has its levels is the same in all of them and
under every limit.
-/
import TinyLisp.Proofs.Eval.Limit

namespace TinyLisp

/-- The name is registered with a function. -/
def Registry.hasFunction (r : Registry) (name : Bytes) : Bool :=
  ((r.lookup? name).bind Declaration.body?).isSome

/-! ### The depth of a tree -/

namespace Value

/-- The symbol `let` does not occur in the tree. -/
inductive LetFree : Value → Prop
  | nil : LetFree .nil
  | bool (b : Bool) : LetFree (.bool b)
  | int (n : Int64) : LetFree (.int n)
  | float (x : Float) : LetFree (.float x)
  | text (s : Bytes) : LetFree (.text s)
  | symbol {name : Bytes} (h : name ≠ letName) : LetFree (.symbol name)
  | list {items : List Value} (h : ∀ v ∈ items, LetFree v) : LetFree (.list items)

@[simp] theorem letFree_symbol {name : Bytes} : LetFree (.symbol name) ↔ name ≠ letName :=
  ⟨fun | .symbol h => h, .symbol⟩

@[simp] theorem letFree_list {items : List Value} :
    LetFree (.list items) ↔ ∀ v ∈ items, LetFree v :=
  ⟨fun | .list h => h, .list⟩

theorem LetFree.name_ne {name : Bytes} {args : List Value}
    (h : LetFree (.list (.symbol name :: args))) : name ≠ letName :=
  letFree_symbol.mp (letFree_list.mp h _ List.mem_cons_self)

mutual

/-- The levels that the calls of a tree take.  Only the arguments of a function are
evaluated. -/
def callDepth (r : Registry) : Value → Nat
  | .list (.symbol name :: args) => if r.hasFunction name then 1 + deepest r args else 1
  | .list (_ :: _) => 1
  | _ => 0

/-- The largest of the depths of several trees. -/
def deepest (r : Registry) : List Value → Nat
  | [] => 0
  | v :: rest => max (callDepth r v) (deepest r rest)

end

variable {r : Registry}

theorem callDepth_function {name : Bytes} (h : r.hasFunction name = true) (args : List Value) :
    callDepth r (.list (.symbol name :: args)) = 1 + deepest r args := by
  rw [callDepth, if_pos h]

theorem callDepth_data {name : Bytes} (h : r.hasFunction name = false) (args : List Value) :
    callDepth r (.list (.symbol name :: args)) = 1 := by
  rw [callDepth, if_neg (by simp [h])]

theorem callDepth_atom {v : Value} (h : ∀ head args, v ≠ .list (head :: args)) :
    callDepth r v = 0 := by
  unfold callDepth
  split
  · rename_i name args
    exact absurd rfl (h (.symbol name) args)
  · rename_i head args _
    exact absurd rfl (h head args)
  · rfl

theorem one_le_callDepth (r : Registry) (head : Value) (args : List Value) :
    1 ≤ callDepth r (.list (head :: args)) := by
  cases head with
  | symbol name =>
      cases hf : r.hasFunction name with
      | true => exact callDepth_function hf args ▸ Nat.le_add_right 1 _
      | false => exact Nat.le_of_eq (callDepth_data hf args).symm
  | _ => exact Nat.le_refl 1

end Value

/-! ### Finishing under a condition -/

namespace Action

open Transcript

variable {α β : Type} {limit : Nat} {p q : Prop}

/-- The action follows a transcript, which has a result exactly under the condition. -/
def FinishesIff (limit : Nat) (x : Action α) (p : Prop) : Prop :=
  ∃ t, Follows limit x t ∧ (t.value?.isSome = true ↔ p)

theorem FinishesIff.congr {x : Action α} (h : FinishesIff limit x p) (hpq : p ↔ q) :
    FinishesIff limit x q := by
  obtain ⟨t, ht, hp⟩ := h
  exact ⟨t, ht, hp.trans hpq⟩

theorem finishesIff_pure (a : α) (h : p) : FinishesIff limit (Pure.pure a : Action α) p :=
  ⟨_, follows_pure a, iff_of_true rfl h⟩

theorem finishesIff_tooDeep (h : ¬ p) :
    FinishesIff limit (fail (.tooDeep limit) : Action α) p :=
  ⟨_, follows_tooDeep, iff_of_false Bool.false_ne_true h⟩

theorem finishesIff_diagnose (line : Bytes) : FinishesIff limit (diagnose line) True :=
  ⟨_, follows_diagnose line, iff_of_true rfl trivial⟩

theorem FinishesIff.bind {x : Action α} {f : α → Action β} (hx : FinishesIff limit x p)
    (hf : ∀ a, FinishesIff limit (f a) q) : FinishesIff limit (x >>= f) (p ∧ q) := by
  obtain ⟨t, ht, hp⟩ := hx
  obtain ⟨g, hg⟩ := Classical.axiomOfChoice hf
  refine ⟨t.bind g, ht.bind fun a => (hg a).1, ?_⟩
  rw [← hp]
  unfold Transcript.bind
  cases t.value? with
  | none => simp
  | some a => simpa using (hg a).2

/-- Where it does not finish, calls are nested too deep, and nowhere else. -/
theorem FinishesIff.tooDeep_iff {x : Action α} (h : FinishesIff limit x p) {m : Machine}
    (hout : m.out.NeverRefuses) : (∃ k, (x m).1 = .error (.failure (.tooDeep k))) ↔ ¬ p := by
  obtain ⟨⟨events, value?⟩, ht, hp⟩ := h
  obtain ⟨hending, -, -⟩ := ht.writes hout
  rw [hending, ← hp]
  cases value? with
  | none => exact iff_of_true ⟨limit, rfl⟩ Bool.false_ne_true
  | some a => exact iff_of_false (by rintro ⟨k, ⟨⟩⟩) (not_not_intro rfl)

theorem FinishesIff.nested {x : Action α} (h : FinishesIff limit x p) :
    FinishesIff limit x.nested p := by
  obtain ⟨t, ht, hp⟩ := h
  exact ⟨t, ht.nested, hp⟩

end Action

namespace Eval

open TinyLisp.Action TinyLisp.Value

section

variable {r : Registry} {limit levels : Nat} {call : Call}

/-- A call finishes exactly if the levels are enough for its depth. -/
def CallsFinish (r : Registry) (limit levels : Nat) (call : Call) : Prop :=
  ∀ head args e, LetFree (.list (head :: args)) →
    FinishesIff limit (call head args e) (callDepth r (.list (head :: args)) ≤ levels)

/-! ### One level -/

theorem expression_finishes (hc : CallsFinish r limit levels call) {v : Value}
    (hv : v.LetFree) (e : Env) :
    FinishesIff limit (expression call e v) (callDepth r v ≤ levels) := by
  unfold expression
  split
  · rename_i head args
    exact hc head args e hv
  · rename_i hatom
    have hzero : callDepth r v = 0 := callDepth_atom hatom
    exact finishesIff_pure v (by omega)

/-- A row of arguments finishes if the deepest of them does. -/
theorem sequence_finishes (hc : CallsFinish r limit levels call) (e : Env) (args : List Value) :
    (∀ v ∈ args, v.LetFree) →
      FinishesIff limit (sequence call e args) (deepest r args ≤ levels) := by
  induction args with
  | nil =>
      intro _
      exact finishesIff_pure [] (Nat.zero_le levels)
  | cons v rest ih =>
      intro h
      have hfirst := expression_finishes hc (h v List.mem_cons_self) e
      have hrest := ih fun w hw => h w (List.mem_cons_of_mem v hw)
      refine (hfirst.bind fun w => hrest.bind fun ws => finishesIff_pure (w :: ws) trivial).congr ?_
      rw [deepest, Nat.max_le, and_true]

/-- A function has a result for all arguments. -/
theorem invoke_finishes {d : Declaration} (hd : d.Sound) {body : List Value → Procedure}
    (hb : d.body? = some body) (head : Value) (args : List Value) :
    FinishesIff limit (invoke call d body head args) True := by
  unfold invoke
  split
  · exact finishesIff_pure (inert head args) trivial
  · rename_i hk
    have hs := hd body hb args (Declaration.fits_of_check? hk)
    obtain ⟨t, hvalue, ht⟩ := exists_follows_of_settled hs d.name callCategory (inert head args)
    exact ⟨t, ht limit call, iff_of_true hvalue trivial⟩

theorem quotation_finishes (head : Value) (args : List Value) {p : Prop} (h : p) :
    FinishesIff limit (quotation head args) p := by
  unfold quotation
  split
  · exact finishesIff_pure _ h
  · exact finishesIff_pure _ h

variable {i : Interpreter}

theorem operation_finishes (hr : i.registry.Sound)
    (hquote : i.registry.hasFunction Grammar.quoteName = false)
    (hc : CallsFinish i.registry limit levels call) {name : Bytes} {args : List Value}
    (h : LetFree (.list (.symbol name :: args))) (e : Env) :
    FinishesIff limit (operation i call name (.symbol name) args e)
      (callDepth i.registry (.list (.symbol name :: args)) ≤ levels + 1) := by
  have hdata : i.registry.hasFunction name = false →
      callDepth i.registry (.list (.symbol name :: args)) ≤ levels + 1 := by
    intro hf
    rw [callDepth_data hf]
    omega
  unfold operation
  by_cases hq : name = Grammar.quoteName
  · rw [if_pos hq]
    exact quotation_finishes _ args (hdata (hq ▸ hquote))
  · rw [if_neg hq, if_neg h.name_ne]
    cases hd : i.registry.lookup? name with
    | none => exact finishesIff_pure _ (hdata (by simp [Registry.hasFunction, hd]))
    | some d =>
        cases hb : d.body? with
        | none =>
            simp only [hb]
            exact finishesIff_pure _ (hdata (by simp [Registry.hasFunction, hd, hb]))
        | some body =>
            have hf : i.registry.hasFunction name = true := by
              simp [Registry.hasFunction, hd, hb]
            have hargs := sequence_finishes hc e args fun v hv =>
              letFree_list.mp h v (List.mem_cons_of_mem _ hv)
            simp only [hb]
            refine (hargs.bind fun vs => invoke_finishes (hr name d hd) hb _ vs).congr ?_
            rw [callDepth_function hf, and_true]
            omega

/-- **One level of evaluation makes room for calls that are one level deeper.** -/
theorem step_finishes (hr : i.registry.Sound)
    (hquote : i.registry.hasFunction Grammar.quoteName = false)
    (hc : CallsFinish i.registry limit levels call) :
    CallsFinish i.registry limit (levels + 1) (step i call) := by
  intro head args e h
  unfold step
  cases head with
  | symbol name =>
      have hoperation := operation_finishes hr hquote hc h e
      cases i.debug with
      | true =>
          refine ((finishesIff_diagnose _).bind fun _ => hoperation).congr ?_
          rw [true_and]
      | false => exact hoperation
  | _ => exact finishesIff_pure _ (Nat.le_add_left 1 levels)

end

/-! ### All levels -/

section

variable {i : Interpreter}

/-- **A call finishes exactly if as many levels are left as it is deep.**  Without a level left
no call finishes, and each level lets them be one deeper. -/
theorem evaluate_finishes (hr : i.registry.Sound)
    (hquote : i.registry.hasFunction Grammar.quoteName = false) (levels : Nat) :
    CallsFinish i.registry i.limit levels (evaluate i levels) := by
  induction levels with
  | zero =>
      intro head args e _
      have hdeep := one_le_callDepth i.registry head args
      exact finishesIff_tooDeep (by omega)
  | succ levels ih =>
      intro head args e h
      exact (step_finishes hr hquote ih head args e h).nested

/-- Trees without `let` cannot tell any two environments apart. -/
theorem scopeRelation_letFree : ScopeRelation fun v _ _ => v.LetFree where
  items := fun h _ => letFree_list.mp h
  body := fun h => absurd rfl h.name_ne

end

/-- **An evaluation that has its levels always goes the same way**, under every limit and in
every environment. -/
theorem exists_result_of_letFree {r : Registry} (hr : r.Sound)
    (hquote : r.hasFunction Grammar.quoteName = false) {t : Value} (ht : t.LetFree)
    (debug : Bool) :
    ∃ v lines, ∀ limit levels env m, callDepth r t ≤ levels → m.out.NeverRefuses →
      (expression (evaluate ⟨r, limit, debug⟩ levels) env t m).1 = .ok v ∧
        (expression (evaluate ⟨r, limit, debug⟩ levels) env t m).2.out = m.out.taking lines := by
  -- the run with no more levels than it takes is cut off every other one, and it finishes
  let i : Interpreter := ⟨r, callDepth r t, debug⟩
  have hleast := expression_finishes (evaluate_finishes (i := i) hr hquote (callDepth r t)) ht []
  obtain ⟨⟨events, value?⟩, hfollows, hvalue⟩ := hleast
  obtain ⟨v, rfl⟩ := Option.isSome_iff_exists.mp (hvalue.mpr (Nat.le_refl _))
  refine ⟨v, printed events, ?_⟩
  intro limit levels env m hlevels hout
  obtain ⟨hfinished, -, htaken⟩ := hfollows.writes hout
  change (expression (evaluate i (callDepth r t)) [] t m).1 = .ok v at hfinished
  let i' : Interpreter := ⟨r, limit, debug⟩
  have hregistry : i'.registry = i.registry := rfl
  have hdebug : i'.debug = i.debug := rfl
  have hcalls : CallsCutOf (fun v _ _ => v.LetFree) i.limit i'.limit (evaluate i (callDepth r t))
      (evaluate i' levels) :=
    evaluate_cutOf scopeRelation_letFree hr hregistry hdebug hlevels
  have hcut : CutOf i.limit i'.limit (expression (evaluate i (callDepth r t)) [] t)
      (expression (evaluate i' levels) env t) := expression_cutOf hcalls ht
  obtain ⟨a, ha, hsame, hwritten⟩ := hcut.same_of_finished hout (by simp [hfinished])
  obtain rfl : v = a := Except.ok.inj (hfinished.symm.trans ha)
  exact ⟨hsame, (congrArg Prod.fst hwritten).trans htaken⟩

end Eval

/-- **The depth of a tree without `let` is exactly the limit it takes.**  Its evaluation nests
calls too deep exactly under a lower limit; under any other one it has always the same value and
prints the same lines, whatever the environment is. -/
theorem eval_tooDeep_iff_callDepth {t : Value} (ht : t.LetFree) (debug : Bool) :
    ∃ v lines, ∀ limit : Int, 1 ≤ limit → ∀ env out diagnostics trace?, out.NeverRefuses →
      let r := (Interpreter.new Registry.builtins limit debug).eval t env
        (.idle out diagnostics trace?)
      ((∃ k, r.1 = .error (.failure (.tooDeep k))) ↔ limit < t.callDepth Registry.builtins) ∧
        (t.callDepth Registry.builtins ≤ limit →
          r.1 = .ok v ∧ r.2.out.chunks = out.chunks ++ lines) := by
  have hquote : Registry.builtins.hasFunction Grammar.quoteName = false := by decide
  have hsound := Registry.sound_builtins
  obtain ⟨v, lines, hsame⟩ := Eval.exists_result_of_letFree hsound hquote ht debug
  refine ⟨v, lines, ?_⟩
  intro limit hpos env out diagnostics trace? hout r
  let i : Interpreter := ⟨Registry.builtins, limit.toNat, debug⟩
  have hnew : Interpreter.new Registry.builtins limit debug = i := by
    rw [Interpreter.new, if_neg (by omega)]
  have hr : r = Eval.expression (Eval.evaluate i limit.toNat) env t
      (.idle out diagnostics trace?) := by
    show (Interpreter.new Registry.builtins limit debug).eval t env _ = _
    rw [hnew]
    exact Eval.eval_eq i t env _
  rw [hr]
  constructor
  · have hcalls := Eval.evaluate_finishes (i := i) hsound hquote limit.toNat
    have hfinishes := Eval.expression_finishes hcalls ht env
    refine (hfinishes.tooDeep_iff hout).trans ?_
    show ¬ t.callDepth Registry.builtins ≤ limit.toNat ↔ _
    omega
  · intro hlimit
    have hlevels : t.callDepth Registry.builtins ≤ limit.toNat := by omega
    obtain ⟨hvalue, htaken⟩ := hsame limit.toNat limit.toNat env (.idle out diagnostics trace?)
      hlevels hout
    exact ⟨hvalue, (congrArg Sink.chunks htaken).trans (Sink.chunks_taking out lines)⟩

/-- `(list (f (list (list))) (list))`, where `f` is no operation. -/
def dataBesideCall : Value :=
  .list [.symbol (utf8 "list"),
    .list [.symbol (utf8 "f"), .list [.symbol (utf8 "list"), .list [.symbol (utf8 "list")]]],
    .list [.symbol (utf8 "list")]]

/-- It is evaluated under a limit and in an environment, from a fresh machine. -/
def runDataBesideCall (limit : Int) (env : Env) : Except Stop Value × Machine :=
  (Interpreter.new Registry.builtins limit false).eval dataBesideCall env
    (.idle .reliable .reliable none)

/-- The parentheses are four deep, but nothing inside the data is called, so two levels are
enough, also where `f` is bound. -/
theorem eval_tooDeep_dataBesideCall :
    dataBesideCall.callDepth Registry.builtins = 2 ∧
      (∃ k, (runDataBesideCall 1 []).1 = .error (.failure (.tooDeep k))) ∧
      ∃ v, (runDataBesideCall 2 []).1 = .ok v ∧
        (runDataBesideCall 9 (Env.bind [] (utf8 "f") .nil)).1 = .ok v := by
  have hdepth : dataBesideCall.callDepth Registry.builtins = 2 := by decide
  have hlist : utf8 "list" ≠ letName := by decide
  have hf : utf8 "f" ≠ letName := by decide
  have hfree : dataBesideCall.LetFree := by simp [dataBesideCall, hlist, hf]
  obtain ⟨v, lines, h⟩ := eval_tooDeep_iff_callDepth hfree false
  rw [hdepth] at h
  have below := h 1 (by decide) [] .reliable .reliable none Sink.neverRefuses_reliable
  have least := h 2 (by decide) [] .reliable .reliable none Sink.neverRefuses_reliable
  have above := h 9 (by decide) (Env.bind [] (utf8 "f") .nil) .reliable .reliable none
    Sink.neverRefuses_reliable
  exact ⟨hdepth, below.1.mpr (by decide), v, (least.2 (by decide)).1, (above.2 (by decide)).1⟩

end TinyLisp
