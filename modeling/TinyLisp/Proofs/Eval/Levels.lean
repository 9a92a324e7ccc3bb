/-
Evaluation with fewer levels is evaluation cut off.

An evaluation with some number of levels is compared with one of the same tree that
has more of them, and possibly runs in another environment.  The environment of an
evaluation is only ever used in one way: a `let` that binds a name substitutes in its
body.  A scope relation says when two environments cannot be told apart by a tree:
the parts of the tree that are evaluated cannot tell them apart either, and a `let`
makes the same body of both.  Under such a relation one level of evaluation carries a
comparison of the levels below it over to itself, and all levels follow by induction.

An evaluation compared with itself gives the transcript that it follows.
-/
import TinyLisp.Proofs.Environment.Substitution
import TinyLisp.Proofs.Eval.Transcript

namespace TinyLisp.Eval

open TinyLisp.Action

/-- A relation of two environments, seen from a tree, that evaluation carries along. -/
structure ScopeRelation (J : Value → Env → Env → Prop) : Prop where
  /-- It goes over to the elements of a list that binds nothing. -/
  items : ∀ {items e e'}, J (.list items) e e' → ¬ IsLet items → ∀ v ∈ items, J v e e'
  /-- A `let` makes the same body of both, which cannot tell the inner environments apart. -/
  body : ∀ {double x v body e e'}, J (letForm double x v body) e e' →
    substitute (e.bind x v) body = substitute (e'.bind x v) body ∧
      J (substitute (e.bind x v) body) (e.bind x v) (e'.bind x v)

theorem scopeRelation_eq : ScopeRelation fun _ e e' => e = e' where
  items := fun h _ _ _ => h
  body := by
    rintro double x v body e e' rfl
    exact ⟨rfl, rfl⟩

section

variable {J : Value → Env → Env → Prop} {limit limit' : Nat} {call call' : Call}

/-- Calls are cut off under the relation. -/
def CallsCutOf (J : Value → Env → Env → Prop) (limit limit' : Nat) (call call' : Call) : Prop :=
  ∀ head args e e', J (.list (head :: args)) e e' →
    CutOf limit limit' (call head args e) (call' head args e')

/-! ### One level -/

theorem expression_cutOf (hc : CallsCutOf J limit limit' call call') {v : Value} {e e' : Env}
    (hv : J v e e') : CutOf limit limit' (expression call e v) (expression call' e' v) := by
  unfold expression
  split
  · rename_i head args
    exact hc head args e e' hv
  · exact cutOf_pure v

theorem sequence_cutOf (hc : CallsCutOf J limit limit' call call') {e e' : Env}
    (args : List Value) :
    (∀ v ∈ args, J v e e') →
      CutOf limit limit' (sequence call e args) (sequence call' e' args) := by
  induction args with
  | nil =>
      intro _
      exact cutOf_pure []
  | cons v rest ih =>
      intro h
      refine (expression_cutOf hc (h v List.mem_cons_self)).bind ?_
      intro v
      refine (ih fun w hw => h w (List.mem_cons_of_mem _ hw)).bind ?_
      intro vs
      exact cutOf_pure (v :: vs)

theorem invoke_cutOf {d : Declaration} (hd : d.Sound) {body : List Value → Procedure}
    (hb : d.body? = some body) (head : Value) (args : List Value) :
    CutOf limit limit' (invoke call d body head args) (invoke call' d body head args) := by
  unfold invoke
  split
  · exact cutOf_pure (inert head args)
  · rename_i hk
    have hs := hd body hb args (Declaration.fits_of_check? hk)
    obtain ⟨t, -, ht⟩ := exists_follows_of_settled hs d.name callCategory (inert head args)
    exact ⟨t, t, ht limit call, ht limit' call', .same t⟩

theorem binding_cutOf (hJ : ScopeRelation J) (hc : CallsCutOf J limit limit' call call')
    {args : List Value} {e e' : Env} (h : J (.list (.symbol letName :: args)) e e') :
    CutOf limit limit' (binding call (.symbol letName) args e)
      (binding call' (.symbol letName) args e') := by
  unfold binding
  split
  · rename_i v
    have hl : ¬ IsLet [.symbol letName, v] := not_isLet_of_length (by simp)
    exact expression_cutOf hc (hJ.items h hl v (by simp))
  · rename_i b body
    cases hb : letBinding? b with
    | none => exact cutOf_pure _
    | some p =>
        obtain ⟨x, v⟩ := p
        obtain ⟨double, rfl⟩ := letBinding?_eq_some.mp hb
        obtain ⟨hbody, hinner⟩ := hJ.body h
        show CutOf limit limit' (expression call (e.bind x v) (substitute (e.bind x v) body))
          (expression call' (e'.bind x v) (substitute (e'.bind x v) body))
        rw [← hbody]
        exact expression_cutOf hc hinner
  · exact cutOf_pure _

theorem quotation_cutOf (head : Value) (args : List Value) :
    CutOf limit limit' (quotation head args) (quotation head args) := by
  unfold quotation
  split
  · exact cutOf_pure _
  · exact cutOf_pure _

variable {i i' : Interpreter}

theorem operation_cutOf (hr : i.registry.Sound) (hi : i'.registry = i.registry)
    (hJ : ScopeRelation J) (hc : CallsCutOf J limit limit' call call') (name : Bytes)
    {args : List Value} {e e' : Env} (h : J (.list (.symbol name :: args)) e e') :
    CutOf limit limit' (operation i call name (.symbol name) args e)
      (operation i' call' name (.symbol name) args e') := by
  unfold operation
  by_cases hq : name = Grammar.quoteName
  · rw [if_pos hq, if_pos hq]
    exact quotation_cutOf _ args
  · rw [if_neg hq, if_neg hq]
    by_cases hl : name = letName
    · rw [if_pos hl, if_pos hl]
      subst hl
      exact binding_cutOf hJ hc h
    · rw [if_neg hl, if_neg hl, hi]
      cases hd : i.registry.lookup? name with
      | none => exact cutOf_pure _
      | some d =>
          cases hb : d.body? with
          | none =>
              simp only [hb]
              exact cutOf_pure _
          | some body =>
              have hargs : ∀ v ∈ args, J v e e' := by
                intro v hv
                refine hJ.items h ?_ v (List.mem_cons_of_mem _ hv)
                rintro ⟨double, x, w, b, he⟩
                cases he
                exact hl rfl
              simp only [hb]
              refine (sequence_cutOf hc args hargs).bind ?_
              intro vs
              exact invoke_cutOf (hr name d hd) hb _ vs

/-- **One level of evaluation cuts off what the levels below it cut off.** -/
theorem step_cutOf (hr : i.registry.Sound) (hi : i'.registry = i.registry)
    (hdebug : i'.debug = i.debug) (hJ : ScopeRelation J)
    (hc : CallsCutOf J limit limit' call call') :
    CallsCutOf J limit limit' (step i call) (step i' call') := by
  intro head args e e' h
  unfold step
  cases head with
  | symbol name =>
      rw [hdebug]
      cases i.debug with
      | true =>
          refine (cutOf_diagnose _).bind ?_
          intro _
          exact operation_cutOf hr hi hJ hc name h
      | false => exact operation_cutOf hr hi hJ hc name h
  | _ => exact cutOf_pure _

end

/-! ### All levels -/

variable {i i' : Interpreter}

theorem evaluate_cutOf_self (hr : i.registry.Sound) (levels : Nat) :
    CallsCutOf (fun _ e e' => e = e') i.limit i.limit (evaluate i levels) (evaluate i levels) := by
  induction levels with
  | zero =>
      intro head args e e' _
      exact cutOf_tooDeep follows_tooDeep
  | succ levels ih =>
      intro head args e e' h
      exact (step_cutOf hr rfl rfl scopeRelation_eq ih head args e e' h).nested

/-- **Every evaluation of a call follows a transcript.** -/
theorem exists_follows_evaluate (hr : i.registry.Sound) (levels : Nat) (head : Value)
    (args : List Value) (e : Env) : ∃ t, Follows i.limit (evaluate i levels head args e) t := by
  obtain ⟨t, -, ht, -, -⟩ := evaluate_cutOf_self hr levels head args e e rfl
  exact ⟨t, ht⟩

/-- **Fewer levels cut an evaluation off and change nothing else**, in any two environments
that the tree cannot tell apart. -/
theorem evaluate_cutOf {J : Value → Env → Env → Prop} (hJ : ScopeRelation J)
    (hr : i.registry.Sound) (hi : i'.registry = i.registry) (hdebug : i'.debug = i.debug)
    {levels levels' : Nat} (h : levels ≤ levels') :
    CallsCutOf J i.limit i'.limit (evaluate i levels) (evaluate i' levels') := by
  induction levels generalizing levels' with
  | zero =>
      intro head args e e' _
      have hr' : i'.registry.Sound := hi ▸ hr
      obtain ⟨u, hu⟩ := exists_follows_evaluate hr' levels' head args e'
      exact cutOf_tooDeep hu
  | succ levels ih =>
      obtain ⟨levels', rfl⟩ : ∃ k, levels' = k + 1 := ⟨levels' - 1, by omega⟩
      intro head args e e' he
      have hc := ih (Nat.le_of_succ_le_succ h)
      exact (step_cutOf hr hi hdebug hJ hc head args e e' he).nested

/-! ### From the levels that are not in use -/

/-- A fresh evaluation starts with the levels that the machine does not use. -/
theorem eval_eq (i : Interpreter) (expr : Value) (env : Env) (m : Machine) :
    i.eval expr env m = expression (evaluate i (i.limit - m.depth)) env expr m := by
  unfold Interpreter.eval expression
  split
  · rfl
  · rfl

/-- A call that is not too deep has a level to run on. -/
theorem exists_level {head : Value} {args : List Value} {env : Env} {m : Machine}
    (h : (i.eval (.list (head :: args)) env m).1 ≠ .error (.failure (.tooDeep i.limit))) :
    ∃ levels, i.limit - m.depth = levels + 1 := by
  rw [eval_eq] at h
  cases hn : i.limit - m.depth with
  | zero =>
      rw [hn] at h
      exact absurd rfl h
  | succ n => exact ⟨n, rfl⟩

/-- **Every evaluation follows a transcript.** -/
theorem exists_follows_expression (hr : i.registry.Sound) (levels : Nat) (expr : Value)
    (env : Env) : ∃ t, Follows i.limit (expression (evaluate i levels) env expr) t := by
  obtain ⟨t, -, ht, -, -⟩ := expression_cutOf (evaluate_cutOf_self hr levels) (v := expr)
    (show env = env from rfl)
  exact ⟨t, ht⟩

end TinyLisp.Eval
