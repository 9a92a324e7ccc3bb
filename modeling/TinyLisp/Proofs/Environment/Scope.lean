/-
What a tree sees of an environment.

`FreeIn` states the binding rule on its own: an accepted binding leaves its value free
and takes its name out of the body, and in every other list all elements count, also
where it only looks like a `let`.  The free symbols that substitution works with are
those (`mem_freeSymbols_iff`).

A tree sees no more of an environment than what stands for its free symbols, and no
less: two environments substitute alike in it exactly if they put the same in place of
each of them (`substitute_eq_iff`).  The order of the frames, shadowed and hidden ones
and bindings of other names make no difference.

Values are inserted as they are, and they may hold symbols that are visible themselves.
If they hold none, the environment is closed, and a second substitution finds nothing to
do.  The tree it walks over need not have the scopes of the first one: a value can
complete a `let`, turn a list into one or be captured by one.  None of this makes a
symbol free that was not, which is all that matters (`mem_freeSymbols_substitute`).
-/
import TinyLisp.Proofs.Environment.Substitution

namespace TinyLisp

/-! ### The binding rule -/

/-- The elements are no `let` with a binding that is accepted. -/
def BindsNothing (items : List Value) : Prop :=
  ∀ binding body, items = [.symbol letName, binding, body] → letBinding? binding = none

/-- The symbol is free in the tree. -/
inductive FreeIn (y : Bytes) : Value → Prop
  | symbol : FreeIn y (.symbol y)
  /-- The value of an accepted binding is outside its scope. -/
  | value {binding body v : Value} {x : Bytes} (hb : letBinding? binding = some (x, v))
      (h : FreeIn y v) : FreeIn y (.list [.symbol letName, binding, body])
  /-- The body is inside. -/
  | body {binding body v : Value} {x : Bytes} (hb : letBinding? binding = some (x, v))
      (hx : y ≠ x) (h : FreeIn y body) : FreeIn y (.list [.symbol letName, binding, body])
  /-- Any other list has no scope of its own. -/
  | item {items : List Value} {t : Value} (hl : BindsNothing items) (ht : t ∈ items)
      (h : FreeIn y t) : FreeIn y (.list items)

theorem bindsNothing_iff {items : List Value} : BindsNothing items ↔ ¬ IsLet items := by
  constructor
  · rintro h ⟨double, x, v, body, rfl⟩
    have hb : letBinding? (bindingOf double x v) = some (x, v) :=
      letBinding?_eq_some.mpr ⟨double, rfl⟩
    simp [h _ body rfl] at hb
  · rintro h binding body rfl
    rcases hb : letBinding? binding with _ | ⟨x, v⟩
    · rfl
    · obtain ⟨double, rfl⟩ := letBinding?_eq_some.mp hb
      exact absurd ⟨double, x, v, body, rfl⟩ h

theorem mem_freeSymbols_of_freeIn {y : Bytes} {t : Value} (h : FreeIn y t) :
    y ∈ freeSymbols t := by
  induction h with
  | symbol => exact mem_freeSymbols_symbol.mpr rfl
  | value hb _ ih =>
      obtain ⟨double, rfl⟩ := letBinding?_eq_some.mp hb
      exact mem_freeSymbols_letForm.mpr (.inl ih)
  | body hb hx _ ih =>
      obtain ⟨double, rfl⟩ := letBinding?_eq_some.mp hb
      exact mem_freeSymbols_letForm.mpr (.inr ⟨ih, hx⟩)
  | item hl ht _ ih =>
      rw [freeSymbols_list (bindsNothing_iff.mp hl)]
      exact mem_freeSymbolsOf.mpr ⟨_, ht, ih⟩

theorem freeIn_of_mem_freeSymbols (t : Value) : ∀ {y : Bytes}, y ∈ freeSymbols t → FreeIn y t := by
  induction t using letInduction with
  | symbol n =>
      intro y h
      obtain rfl := mem_freeSymbols_symbol.mp h
      exact .symbol
  | inert v hv =>
      intro y h
      rw [freeSymbols_inert hv] at h
      cases h
  | binding double x v body ihv ihb =>
      intro y h
      have hb : letBinding? (bindingOf double x v) = some (x, v) :=
        letBinding?_eq_some.mpr ⟨double, rfl⟩
      rcases mem_freeSymbols_letForm.mp h with h | ⟨h, hx⟩
      · exact .value hb (ihv h)
      · exact .body hb hx (ihb h)
  | list items hl ih =>
      intro y h
      rw [freeSymbols_list hl] at h
      obtain ⟨t, ht, hy⟩ := mem_freeSymbolsOf.mp h
      exact FreeIn.item (bindsNothing_iff.mpr hl) ht (ih t ht hy)

/-- **The free symbols that are computed are those of the binding rule.** -/
theorem mem_freeSymbols_iff {y : Bytes} {t : Value} : y ∈ freeSymbols t ↔ FreeIn y t :=
  ⟨freeIn_of_mem_freeSymbols t, mem_freeSymbols_of_freeIn⟩

/-- What holds of every free symbol can be checked one by one. -/
theorem forall_freeIn {t : Value} {P : Bytes → Prop} :
    (∀ n, FreeIn n t → P n) ↔ ∀ n ∈ freeSymbols t, P n := by
  simp only [mem_freeSymbols_iff]

/-! ### Environments that substitute alike -/

theorem AgreeAt.of_lookup? {e e' : Env} {n : Bytes} (h : e.lookup? n = e'.lookup? n) :
    AgreeAt e e' n := by
  unfold AgreeAt
  rw [substitute_symbol, substitute_symbol, h]

/-- Outside the scope of the hidden name nothing is hidden. -/
theorem AgreeAt.of_hide {e e' : Env} {n x : Bytes} (hx : n ≠ x)
    (h : AgreeAt (e.hide x) (e'.hide x) n) : AgreeAt e e' n := by
  unfold AgreeAt at h ⊢
  simp only [substitute_symbol, Env.lookup?_hide, if_neg (Ne.symm hx)] at h ⊢
  exact h

theorem letForm_inj {double : Bool} {x : Bytes} {v v' body body' : Value}
    (h : letForm double x v body = letForm double x v' body') : v = v' ∧ body = body' := by
  cases double with
  | true => simpa [letForm, bindingOf] using h
  | false => simpa [letForm, bindingOf] using h

/-- Substitution keeps the shape of a tree around its free symbols, so the two results can be
compared place by place. -/
theorem agreeAt_of_substitute_eq (t : Value) :
    ∀ {e e' : Env}, substitute e t = substitute e' t → ∀ n ∈ freeSymbols t, AgreeAt e e' n := by
  induction t using letInduction with
  | symbol m =>
      intro e e' h n hn
      obtain rfl := mem_freeSymbols_symbol.mp hn
      exact h
  | inert v hv =>
      intro e e' _ n hn
      rw [freeSymbols_inert hv] at hn
      cases hn
  | binding double x v body ihv ihb =>
      intro e e' h n hn
      rw [substitute_letForm, substitute_letForm] at h
      obtain ⟨hv, hb⟩ := letForm_inj h
      rcases mem_freeSymbols_letForm.mp hn with hn | ⟨hn, hx⟩
      · exact ihv hv n hn
      · exact .of_hide hx (ihb hb n hn)
  | list items hl ih =>
      intro e e' h n hn
      rw [substitute_list hl, substitute_list hl, Value.list.injEq, List.map_inj_left] at h
      rw [freeSymbols_list hl] at hn
      obtain ⟨t, ht, hn⟩ := mem_freeSymbolsOf.mp hn
      exact ih t ht (h t ht) n hn

/-- **Two environments substitute alike in a tree exactly if they put the same in place of each
of its free symbols.** -/
theorem substitute_eq_iff {t : Value} {e e' : Env} :
    substitute e t = substitute e' t ↔ ∀ n, FreeIn n t → AgreeAt e e' n := by
  rw [forall_freeIn]
  constructor
  · exact agreeAt_of_substitute_eq t
  · exact substitute_congr t

/-- Without a frame there is nothing to do. -/
theorem substitute_empty (t : Value) : substitute [] t = t :=
  substitute_of_not_visible t fun _ _ => rfl

/-- A tree stays as it is exactly if each of its free symbols does. -/
theorem substitute_eq_self_iff {t : Value} {e : Env} :
    substitute e t = t ↔ ∀ n, FreeIn n t → substitute e (.symbol n) = .symbol n := by
  have hempty := @substitute_eq_iff t e []
  rwa [substitute_empty] at hempty

theorem substitute_symbol_of_hidden {e : Env} {n : Bytes} (h : e.lookup? n = none) :
    substitute e (.symbol n) = .symbol n := by
  rw [substitute_symbol, h]
  rfl

/-- **Substitution respects scope.**  Two environments give the same tree exactly if they put
the same in place of each of its free symbols; so they do where every free symbol has the same
value in both, or none in both.  In particular the tree itself is the result where none of its
free symbols is visible. -/
theorem substitute_respects_scope (b : Value) (e₁ e₂ : Env) :
    (substitute e₁ b = substitute e₂ b ↔
        ∀ n, FreeIn n b → substitute e₁ (.symbol n) = substitute e₂ (.symbol n)) ∧
      ((∀ n, FreeIn n b → e₁.lookup? n = e₂.lookup? n) → substitute e₁ b = substitute e₂ b) ∧
      ((∀ n, FreeIn n b → e₁.lookup? n = none) → substitute e₁ b = b) := by
  refine ⟨substitute_eq_iff, ?_, ?_⟩
  · intro h
    exact substitute_eq_iff.mpr fun n hn => .of_lookup? (h n hn)
  · intro h
    exact substitute_eq_self_iff.mpr fun n hn => substitute_symbol_of_hidden (h n hn)

/-- `(let ((x y)) (list x y z))`, where `x` is bound. -/
def scopedTree : Value :=
  letForm true (utf8 "x") (.symbol (utf8 "y"))
    (.list [.symbol (utf8 "list"), .symbol (utf8 "x"), .symbol (utf8 "y"), .symbol (utf8 "z")])

/-- Frames in another order, one shadowed, one hidden and two about `x` do not show in it, and
the frames about `x` alone change nothing. -/
theorem substitute_scopedTree :
    let e₁ : Env := Env.bind (.bind [] (utf8 "x") (.int 1)) (utf8 "y") (.int 2)
    let e₂ : Env := Env.hide (.bind (.bind (.bind (.bind [] (utf8 "z") .nil) (utf8 "y") (.int 9))
      (utf8 "y") (.int 2)) (utf8 "x") (.int 5)) (utf8 "z")
    let e₃ : Env := Env.bind (.hide [] (utf8 "x")) (utf8 "x") (.int 7)
    ((∀ n, FreeIn n scopedTree → e₁.lookup? n = e₂.lookup? n) ∧
        substitute e₁ scopedTree = substitute e₂ scopedTree) ∧
      (∀ n, FreeIn n scopedTree → e₃.lookup? n = none) ∧
        substitute e₃ scopedTree = scopedTree := by
  intro e₁ e₂ e₃
  have hfree : freeSymbols scopedTree = [utf8 "y", utf8 "list", utf8 "y", utf8 "z"] := rfl
  have hagree : ∀ n, FreeIn n scopedTree → e₁.lookup? n = e₂.lookup? n := by
    rw [forall_freeIn, hfree]
    simp only [List.forall_mem_cons]
    exact ⟨rfl, rfl, rfl, rfl, nofun⟩
  have hnone : ∀ n, FreeIn n scopedTree → e₃.lookup? n = none := by
    rw [forall_freeIn, hfree]
    simp only [List.forall_mem_cons]
    exact ⟨rfl, rfl, rfl, rfl, nofun⟩
  exact ⟨⟨hagree, (substitute_respects_scope scopedTree e₁ e₂).2.1 hagree⟩, hnone,
    (substitute_respects_scope scopedTree e₃ e₃).2.2 hnone⟩

/-! ### Closed environments -/

/-- No value that can be inserted has a free symbol that is visible. -/
def Env.Closed (e : Env) : Prop :=
  ∀ n v, e.lookup? n = some v → ∀ m, FreeIn m v → e.lookup? m = none

/-- What is free after a substitution was free before and is not visible, or came in with a
value. -/
theorem freeIn_substitute {e : Env} {t : Value} {y : Bytes} (h : FreeIn y (substitute e t)) :
    e.lookup? y = none ∨ ∃ n v, e.lookup? n = some v ∧ FreeIn y v := by
  rcases mem_freeSymbols_substitute t (mem_freeSymbols_iff.mpr h) with ⟨-, hy⟩ | ⟨n, v, -, hv, hy⟩
  · exact .inl hy
  · exact .inr ⟨n, v, hv, mem_freeSymbols_iff.mp hy⟩

/-- A second substitution never changes anything exactly if the values that can be inserted stay
as they are. -/
theorem substitute_twice_iff {e : Env} :
    (∀ t, substitute e (substitute e t) = substitute e t) ↔
      ∀ n v, e.lookup? n = some v → substitute e v = v := by
  constructor
  · intro h n v hv
    have hn := h (.symbol n)
    rwa [substitute_symbol, hv] at hn
  · intro h t
    refine substitute_eq_self_iff.mpr ?_
    intro y hy
    rcases freeIn_substitute hy with hnone | ⟨n, v, hv, hyv⟩
    · exact substitute_symbol_of_hidden hnone
    · exact substitute_eq_self_iff.mp (h n v hv) y hyv

/-- An environment is closed exactly if nothing that it can replace is left behind. -/
theorem Env.closed_iff {e : Env} :
    e.Closed ↔ ∀ t n, FreeIn n (substitute e t) → e.lookup? n = none := by
  constructor
  · intro h t y hy
    rcases freeIn_substitute hy with hnone | ⟨n, v, hv, hyv⟩
    · exact hnone
    · exact h n v hv y hyv
  · intro h n v hv m hm
    have hleft := h (.symbol n) m
    rw [substitute_symbol, hv] at hleft
    exact hleft hm

/-- **Substitution in a closed environment is idempotent**, and it leaves no free symbol behind
that is visible. -/
theorem substitute_idempotent {e : Env} (h : e.Closed) (b : Value) :
    substitute e (substitute e b) = substitute e b ∧
      ∀ n, FreeIn n (substitute e b) → e.lookup? n = none := by
  have hkept : ∀ n v, e.lookup? n = some v → substitute e v = v := by
    intro n v hv
    exact substitute_eq_self_iff.mpr fun m hm => substitute_symbol_of_hidden (h n v hv m hm)
  exact ⟨substitute_twice_iff.mpr hkept b, Env.closed_iff.mp h b⟩

/-- Two names of which one stands for `let` and the other for `(list x)`. -/
def closedEnv : Env :=
  Env.bind (.bind [] (utf8 "w") (.list [.symbol (utf8 "list"), .symbol (utf8 "x")]))
    (utf8 "g") (.symbol letName)

theorem closed_closedEnv : closedEnv.Closed := by
  intro n v hv
  rw [forall_freeIn]
  unfold closedEnv at hv
  rw [Env.lookup?_bind, Env.lookup?_bind] at hv
  by_cases hg : utf8 "g" = n
  · rw [if_pos hg] at hv
    obtain rfl := Option.some.inj hv
    have hfree : freeSymbols (.symbol letName) = [letName] := rfl
    rw [hfree, List.forall_mem_singleton]
    rfl
  · rw [if_neg hg] at hv
    by_cases hw : utf8 "w" = n
    · rw [if_pos hw] at hv
      obtain rfl := Option.some.inj hv
      have hfree : freeSymbols (.list [.symbol (utf8 "list"), .symbol (utf8 "x")])
          = [utf8 "list", utf8 "x"] := rfl
      simp only [hfree, List.forall_mem_cons]
      exact ⟨rfl, rfl, nofun⟩
    · rw [if_neg hw] at hv
      cases hv

/-- In `(g ((x 1)) w)` the first substitution makes a `let`, which captures the symbol that
comes in with `w`; the second one leaves it alone. -/
theorem substitute_idempotent_captured :
    let b : Value := .list
      [.symbol (utf8 "g"), bindingOf true (utf8 "x") (.int 1), .symbol (utf8 "w")]
    closedEnv.Closed ∧
      substitute closedEnv b = letForm true (utf8 "x") (.int 1)
        (.list [.symbol (utf8 "list"), .symbol (utf8 "x")]) ∧
      substitute closedEnv (substitute closedEnv b) = substitute closedEnv b ∧
      ∀ n, FreeIn n (substitute closedEnv b) → closedEnv.lookup? n = none := by
  intro b
  exact ⟨closed_closedEnv, rfl, substitute_idempotent closed_closedEnv b⟩

end TinyLisp
