/-
Substitution and free symbols.

The only list that substitution treats apart is a `let` with a binding in one of the
two accepted shapes: there the name is bound in the body and free in the value.
Everything about substitution is therefore an induction with four cases, a symbol, any
other atom, a `let` and any other list, which `letInduction` states once.

The free symbols of a tree are what substitution can see of it.  Environments that
replace these alike substitute alike (`substitute_congr`), and what is free after a
substitution was free before or came in with a value (`mem_freeSymbols_substitute`).
Values are inserted as they are, so a symbol of a value may well be captured by a
`let` around the place of insertion; nothing here excludes that, and nothing depends
on it.
-/
import TinyLisp.Environment

namespace TinyLisp

/-! ### The two shapes of a binding -/

/-- A binding as it is written: `((name value))` or `(name value)`. -/
def bindingOf (double : Bool) (x : Bytes) (v : Value) : Value :=
  if double then .list [.list [.symbol x, v]] else .list [.symbol x, v]

/-- A `let` of one name over a body. -/
def letForm (double : Bool) (x : Bytes) (v body : Value) : Value :=
  .list [.symbol letName, bindingOf double x v, body]

/-- The elements are those of a `let` that binds a name. -/
def IsLet (items : List Value) : Prop :=
  ∃ double x v body, items = [.symbol letName, bindingOf double x v, body]

theorem letBinding?_eq_some {b v : Value} {x : Bytes} :
    letBinding? b = some (x, v) ↔ ∃ double, b = bindingOf double x v := by
  constructor
  · intro h
    unfold letBinding? at h
    split at h
    · rename_i name value hp
      obtain ⟨rfl, rfl⟩ := Prod.mk.inj (Option.some.inj h)
      unfold bindingPair? at hp
      split at hp
      · simp only [Option.some.injEq, Prod.mk.injEq] at hp
        obtain ⟨rfl, rfl⟩ := hp
        exact ⟨true, rfl⟩
      · simp only [Option.some.injEq, Prod.mk.injEq] at hp
        obtain ⟨rfl, rfl⟩ := hp
        exact ⟨false, rfl⟩
      · simp at hp
    · simp at h
  · rintro ⟨double, rfl⟩
    cases double with
    | true => rfl
    | false => rfl

/-! ### Free symbols -/

mutual

/-- The symbols of a tree that substitution can replace: a `let` binds its name in its body. -/
def freeSymbols : Value → List Bytes
  | .symbol name => [name]
  | .list [.symbol head, .list [.symbol x, v], body] =>
    if head = letName then freeSymbols v ++ (freeSymbols body).filter (· ≠ x)
    else freeSymbolsOf [.symbol head, .list [.symbol x, v], body]
  | .list [.symbol head, .list [.list [.symbol x, v]], body] =>
    if head = letName then freeSymbols v ++ (freeSymbols body).filter (· ≠ x)
    else freeSymbolsOf [.symbol head, .list [.list [.symbol x, v]], body]
  | .list items => freeSymbolsOf items
  | _ => []

/-- The free symbols of several trees. -/
def freeSymbolsOf : List Value → List Bytes
  | [] => []
  | v :: rest => freeSymbols v ++ freeSymbolsOf rest

end

theorem mem_freeSymbolsOf {y : Bytes} {items : List Value} :
    y ∈ freeSymbolsOf items ↔ ∃ v ∈ items, y ∈ freeSymbols v := by
  induction items with
  | nil => exact ⟨nofun, nofun⟩
  | cons v rest ih =>
      show y ∈ freeSymbols v ++ freeSymbolsOf rest ↔ _
      simp only [List.mem_append, ih, List.mem_cons, exists_eq_or_imp]

theorem substituteItems_eq_map (env : Env) (items : List Value) :
    substituteItems env items = items.map (substitute env) := by
  induction items with
  | nil => rfl
  | cons v rest ih => exact congrArg (substitute env v :: ·) ih

/-! ### One equation for each shape -/

theorem substitute_symbol (env : Env) (n : Bytes) :
    substitute env (.symbol n) = (env.lookup? n).getD (.symbol n) := rfl

theorem mem_freeSymbols_symbol {y n : Bytes} : y ∈ freeSymbols (.symbol n) ↔ y = n :=
  List.mem_singleton

/-- An atom other than a symbol. -/
def Value.isInert (v : Value) : Prop := v.isSymbol = false ∧ v.isList = false

theorem substitute_inert (env : Env) {v : Value} (h : v.isInert) : substitute env v = v := by
  cases v with
  | symbol n => cases h.1
  | list items => cases h.2
  | _ => rfl

theorem freeSymbols_inert {v : Value} (h : v.isInert) : freeSymbols v = [] := by
  cases v with
  | symbol n => cases h.1
  | list items => cases h.2
  | _ => rfl

theorem substitute_letForm (env : Env) (double : Bool) (x : Bytes) (v body : Value) :
    substitute env (letForm double x v body)
      = letForm double x (substitute env v) (substitute (env.hide x) body) := by
  cases double with
  | true => rfl
  | false => rfl

theorem freeSymbols_letForm (double : Bool) (x : Bytes) (v body : Value) :
    freeSymbols (letForm double x v body)
      = freeSymbols v ++ (freeSymbols body).filter (· ≠ x) := by
  cases double with
  | true => rfl
  | false => rfl

theorem mem_freeSymbols_letForm {double : Bool} {x y : Bytes} {v body : Value} :
    y ∈ freeSymbols (letForm double x v body)
      ↔ y ∈ freeSymbols v ∨ (y ∈ freeSymbols body ∧ y ≠ x) := by
  rw [freeSymbols_letForm, List.mem_append, List.mem_filter, decide_eq_true_iff]

theorem not_isLet_of_length {items : List Value} (h : items.length ≠ 3) : ¬ IsLet items := by
  rintro ⟨double, x, v, body, rfl⟩
  exact h rfl

/-- A list that is no `let` fails at the head or has no binding at all. -/
theorem not_isLet_cases {items : List Value} (h : ¬ IsLet items) :
    (∃ double head x v body, head ≠ letName ∧ items = [.symbol head, bindingOf double x v, body]) ∨
      ∀ double head x v body, items ≠ [.symbol head, bindingOf double x v, body] := by
  by_cases hs : ∃ double head x v body, items = [.symbol head, bindingOf double x v, body]
  · obtain ⟨double, head, x, v, body, rfl⟩ := hs
    refine .inl ⟨double, head, x, v, body, ?_, rfl⟩
    rintro rfl
    exact h ⟨double, x, v, body, rfl⟩
  · refine .inr ?_
    intro double head x v body he
    exact hs ⟨double, head, x, v, body, he⟩

theorem substitute_list {items : List Value} (h : ¬ IsLet items) (env : Env) :
    substitute env (.list items) = .list (items.map (substitute env)) := by
  rw [← substituteItems_eq_map]
  rcases not_isLet_cases h with ⟨double, head, x, v, body, hh, rfl⟩ | hs
  · cases double with
    | true => simp only [bindingOf, if_pos, substitute, if_neg hh]
    | false => simp only [bindingOf, substitute, if_neg hh, reduceIte, Bool.false_eq_true]
  · rw [substitute]
    · exact fun head x v body => hs false head x v body
    · exact fun head x v body => hs true head x v body

theorem freeSymbols_list {items : List Value} (h : ¬ IsLet items) :
    freeSymbols (.list items) = freeSymbolsOf items := by
  rcases not_isLet_cases h with ⟨double, head, x, v, body, hh, rfl⟩ | hs
  · cases double with
    | true => simp only [bindingOf, if_pos, freeSymbols, if_neg hh]
    | false => simp only [bindingOf, freeSymbols, if_neg hh, reduceIte, Bool.false_eq_true]
  · rw [freeSymbols]
    · exact fun head x v body => hs false head x v body
    · exact fun head x v body => hs true head x v body

/-! ### Induction over symbols, atoms, lets and other lists -/

/-- The value and the body of a `let` are smaller than the `let`. -/
theorem sizeOf_lt_letForm (double : Bool) (x : Bytes) (v body : Value) :
    sizeOf v < sizeOf (letForm double x v body) ∧ sizeOf body < sizeOf (letForm double x v body) := by
  cases double with
  | true =>
      simp only [letForm, bindingOf, Value.list.sizeOf_spec, List.cons.sizeOf_spec, if_pos]
      omega
  | false =>
      simp only [letForm, bindingOf, Value.list.sizeOf_spec, List.cons.sizeOf_spec, reduceIte,
        Bool.false_eq_true]
      omega

/-- A property of trees from its cases.  In a `let` it is assumed of the value and of the body,
not of the binding as a whole, which substitution never sees as a tree. -/
theorem letInduction {P : Value → Prop} (symbol : ∀ n, P (.symbol n))
    (inert : ∀ v : Value, v.isInert → P v)
    (binding : ∀ double x v body, P v → P body → P (letForm double x v body))
    (list : ∀ items, ¬ IsLet items → (∀ v ∈ items, P v) → P (.list items)) (t : Value) : P t := by
  suffices bounded : ∀ n t, sizeOf t < n → P t from bounded _ t (Nat.lt_succ_self _)
  intro n
  induction n with
  | zero =>
      intro t ht
      omega
  | succ n ih =>
      intro t ht
      cases t with
      | list items =>
          by_cases hl : IsLet items
          · obtain ⟨double, x, v, body, rfl⟩ := hl
            obtain ⟨hv, hb⟩ := sizeOf_lt_letForm double x v body
            unfold letForm at hv hb
            exact binding double x v body (ih v (by omega)) (ih body (by omega))
          · refine list items hl ?_
            intro v hv
            have hsize := List.sizeOf_lt_of_mem hv
            simp only [Value.list.sizeOf_spec] at ht
            exact ih v (by omega)
      | symbol n => exact symbol n
      | _ => exact inert _ ⟨rfl, rfl⟩

/-! ### Lookup -/

theorem Env.lookup?_bind (env : Env) (x n : Bytes) (v : Value) :
    (env.bind x v).lookup? n = if x = n then some v else env.lookup? n := rfl

theorem Env.lookup?_hide (env : Env) (x n : Bytes) :
    (env.hide x).lookup? n = if x = n then none else env.lookup? n := rfl

/-- Where one name is bound, no other is. -/
theorem Env.lookup?_single {x n : Bytes} (v : Value) (h : n ≠ x) :
    (Env.bind [] x v).lookup? n = none := by
  rw [Env.lookup?_bind, if_neg (Ne.symm h)]
  rfl

/-! ### Free symbols decide a substitution -/

/-- The two environments put the same in place of a symbol. -/
def AgreeAt (e e' : Env) (n : Bytes) : Prop :=
  substitute e (.symbol n) = substitute e' (.symbol n)

theorem AgreeAt.bind {e e' : Env} {n x : Bytes} (v : Value) (h : n ≠ x → AgreeAt e e' n) :
    AgreeAt (e.bind x v) (e'.bind x v) n := by
  unfold AgreeAt at h ⊢
  simp only [substitute_symbol, Env.lookup?_bind] at h ⊢
  by_cases hx : x = n
  · rw [if_pos hx, if_pos hx]
  · rw [if_neg hx, if_neg hx]
    exact h (fun hn => hx hn.symm)

theorem AgreeAt.hide {e e' : Env} {n x : Bytes} (h : n ≠ x → AgreeAt e e' n) :
    AgreeAt (e.hide x) (e'.hide x) n := by
  unfold AgreeAt at h ⊢
  simp only [substitute_symbol, Env.lookup?_hide] at h ⊢
  by_cases hx : x = n
  · rw [if_pos hx, if_pos hx]
  · rw [if_neg hx, if_neg hx]
    exact h (fun hn => hx hn.symm)

/-- **Environments that agree on the free symbols of a tree substitute alike in it.** -/
theorem substitute_congr (t : Value) :
    ∀ {e e' : Env}, (∀ n ∈ freeSymbols t, AgreeAt e e' n) → substitute e t = substitute e' t := by
  induction t using letInduction with
  | symbol n =>
      intro e e' h
      exact h n (mem_freeSymbols_symbol.mpr rfl)
  | inert v hv =>
      intro e e' _
      rw [substitute_inert e hv, substitute_inert e' hv]
  | binding double x v body ihv ihb =>
      intro e e' h
      rw [substitute_letForm, substitute_letForm]
      have hv : substitute e v = substitute e' v :=
        ihv fun n hn => h n (mem_freeSymbols_letForm.mpr (.inl hn))
      have hb : substitute (e.hide x) body = substitute (e'.hide x) body := by
        refine ihb ?_
        intro n hn
        exact .hide fun hx => h n (mem_freeSymbols_letForm.mpr (.inr ⟨hn, hx⟩))
      rw [hv, hb]
  | list items hl ih =>
      intro e e' h
      rw [substitute_list hl, substitute_list hl]
      congr 1
      refine List.map_congr_left ?_
      intro v hv
      refine ih v hv ?_
      intro n hn
      refine h n ?_
      rw [freeSymbols_list hl]
      exact mem_freeSymbolsOf.mpr ⟨v, hv, hn⟩

/-- A tree without a free symbol to replace stays as it is. -/
theorem substitute_of_not_visible (t : Value) :
    ∀ {e : Env}, (∀ n ∈ freeSymbols t, e.lookup? n = none) → substitute e t = t := by
  induction t using letInduction with
  | symbol n =>
      intro e h
      rw [substitute_symbol, h n (mem_freeSymbols_symbol.mpr rfl)]
      rfl
  | inert v hv =>
      intro e _
      exact substitute_inert e hv
  | binding double x v body ihv ihb =>
      intro e h
      have hv : substitute e v = v := ihv fun n hn => h n (mem_freeSymbols_letForm.mpr (.inl hn))
      have hb : substitute (e.hide x) body = body := by
        refine ihb ?_
        intro n hn
        rw [Env.lookup?_hide]
        by_cases hx : x = n
        · rw [if_pos hx]
        · rw [if_neg hx]
          exact h n (mem_freeSymbols_letForm.mpr (.inr ⟨hn, Ne.symm hx⟩))
      rw [substitute_letForm, hv, hb]
  | list items hl ih =>
      intro e h
      have hitems : ∀ v ∈ items, substitute e v = v := by
        intro v hv
        refine ih v hv ?_
        intro n hn
        refine h n ?_
        rw [freeSymbols_list hl]
        exact mem_freeSymbolsOf.mpr ⟨v, hv, hn⟩
      rw [substitute_list hl, List.map_congr_left hitems]
      exact congrArg Value.list (List.map_id items)

/-! ### What is free after a substitution -/

/-- As a tree of its own a binding is no `let`, and its value is one of its elements. -/
theorem mem_freeSymbols_bindingOf {double : Bool} {x y : Bytes} {v : Value}
    (h : y ∈ freeSymbols v) : y ∈ freeSymbols (bindingOf double x v) := by
  have hpair : y ∈ freeSymbols (.list [.symbol x, v]) := by
    rw [freeSymbols_list (not_isLet_of_length (by simp))]
    exact mem_freeSymbolsOf.mpr ⟨v, by simp, h⟩
  cases double with
  | true =>
      show y ∈ freeSymbols (.list [.list [.symbol x, v]])
      rw [freeSymbols_list (not_isLet_of_length (by simp))]
      exact mem_freeSymbolsOf.mpr ⟨_, List.mem_singleton.mpr rfl, hpair⟩
  | false => exact hpair

/-- A free symbol of a list is free in one of its elements, whether or not it is a `let`. -/
theorem exists_mem_of_mem_freeSymbols {items : List Value} {y : Bytes}
    (h : y ∈ freeSymbols (.list items)) : ∃ t ∈ items, y ∈ freeSymbols t := by
  by_cases hl : IsLet items
  · obtain ⟨double, x, v, body, rfl⟩ := hl
    rcases mem_freeSymbols_letForm.mp h with hv | ⟨hb, -⟩
    · exact ⟨bindingOf double x v, by simp, mem_freeSymbols_bindingOf hv⟩
    · exact ⟨body, by simp, hb⟩
  · rw [freeSymbols_list hl] at h
    exact mem_freeSymbolsOf.mp h

/-- **A symbol that is free after a substitution was free before and is not replaced, or it is
free in a value that was put in place of a free symbol.** -/
theorem mem_freeSymbols_substitute (t : Value) :
    ∀ {e : Env} {y : Bytes}, y ∈ freeSymbols (substitute e t) →
      (y ∈ freeSymbols t ∧ e.lookup? y = none) ∨
        ∃ n w, n ∈ freeSymbols t ∧ e.lookup? n = some w ∧ y ∈ freeSymbols w := by
  induction t using letInduction with
  | symbol n =>
      intro e y h
      rw [substitute_symbol] at h
      cases hn : e.lookup? n with
      | none =>
          rw [hn] at h
          obtain rfl := mem_freeSymbols_symbol.mp h
          exact .inl ⟨h, hn⟩
      | some w =>
          rw [hn] at h
          exact .inr ⟨n, w, mem_freeSymbols_symbol.mpr rfl, hn, h⟩
  | inert v hv =>
      intro e y h
      rw [substitute_inert e hv, freeSymbols_inert hv] at h
      cases h
  | binding double x v body ihv ihb =>
      intro e y h
      rw [substitute_letForm] at h
      simp only [mem_freeSymbols_letForm] at h ⊢
      rcases h with hv | ⟨hb, hx⟩
      · rcases ihv hv with ⟨hy, hn⟩ | ⟨n, w, hn, hw, hy⟩
        · exact .inl ⟨.inl hy, hn⟩
        · exact .inr ⟨n, w, .inl hn, hw, hy⟩
      · rcases ihb hb with ⟨hy, hn⟩ | ⟨n, w, hn, hw, hy⟩
        · rw [Env.lookup?_hide, if_neg (Ne.symm hx)] at hn
          exact .inl ⟨.inr ⟨hy, hx⟩, hn⟩
        · rw [Env.lookup?_hide] at hw
          by_cases hnx : x = n
          · rw [if_pos hnx] at hw
            cases hw
          · rw [if_neg hnx] at hw
            exact .inr ⟨n, w, .inr ⟨hn, Ne.symm hnx⟩, hw, hy⟩
  | list items hl ih =>
      intro e y h
      rw [substitute_list hl] at h
      -- the list that comes out may be a `let`, so this step only goes down
      obtain ⟨t', ht', hy⟩ := exists_mem_of_mem_freeSymbols h
      obtain ⟨t, ht, rfl⟩ := List.mem_map.mp ht'
      have hup : ∀ n, n ∈ freeSymbols t → n ∈ freeSymbols (.list items) := by
        intro n hn
        rw [freeSymbols_list hl]
        exact mem_freeSymbolsOf.mpr ⟨t, ht, hn⟩
      rcases ih t ht hy with ⟨hy, hn⟩ | ⟨n, w, hn, hw, hy⟩
      · exact .inl ⟨hup y hy, hn⟩
      · exact .inr ⟨n, w, hup n hn, hw, hy⟩

/-! ### A value inside the tree it was inserted into -/

/-- What replaces a free symbol of a tree is no larger than the result, and smaller if the tree
is a list. -/
theorem sizeOf_le_substitute (t : Value) :
    ∀ {e : Env} {x : Bytes} {w : Value}, x ∈ freeSymbols t → e.lookup? x = some w →
      sizeOf w ≤ sizeOf (substitute e t) ∧
        (t.isList = true → sizeOf w < sizeOf (substitute e t)) := by
  induction t using letInduction with
  | symbol n =>
      intro e x w hx hw
      obtain rfl := mem_freeSymbols_symbol.mp hx
      rw [substitute_symbol, hw]
      exact ⟨Nat.le_refl _, nofun⟩
  | inert v hv =>
      intro e x w hx
      rw [freeSymbols_inert hv] at hx
      cases hx
  | binding double x v body ihv ihb =>
      intro e y w hy hw
      rw [substitute_letForm]
      have hlt : sizeOf w < sizeOf (letForm double x (substitute e v) (substitute (e.hide x) body)) := by
        obtain ⟨hsv, hsb⟩ := sizeOf_lt_letForm double x (substitute e v) (substitute (e.hide x) body)
        rcases mem_freeSymbols_letForm.mp hy with hv | ⟨hb, hx⟩
        · exact Nat.lt_of_le_of_lt (ihv hv hw).1 hsv
        · have hidden : (e.hide x).lookup? y = some w := by
            rw [Env.lookup?_hide, if_neg (Ne.symm hx)]
            exact hw
          exact Nat.lt_of_le_of_lt (ihb hb hidden).1 hsb
      exact ⟨Nat.le_of_lt hlt, fun _ => hlt⟩
  | list items hl ih =>
      intro e x w hx hw
      rw [freeSymbols_list hl] at hx
      obtain ⟨t, ht, hxt⟩ := mem_freeSymbolsOf.mp hx
      rw [substitute_list hl]
      have hle := (ih t ht hxt hw).1
      have hmem := List.sizeOf_lt_of_mem (List.mem_map_of_mem (f := substitute e) ht)
      have hlt : sizeOf w < sizeOf (Value.list (items.map (substitute e))) := by
        simp only [Value.list.sizeOf_spec]
        omega
      exact ⟨Nat.le_of_lt hlt, fun _ => hlt⟩

/-- **A value that stays the same when it is inserted into itself is the symbol, or does not have
it free.** -/
theorem eq_symbol_of_substitute_self {x : Bytes} {v : Value}
    (h : substitute (Env.bind [] x v) v = v) (hx : x ∈ freeSymbols v) : v = .symbol x := by
  have hw : (Env.bind [] x v).lookup? x = some v := if_pos rfl
  have hlt := (sizeOf_le_substitute v hx hw).2
  rw [h] at hlt
  cases v with
  | symbol n =>
      obtain rfl := mem_freeSymbols_symbol.mp hx
      rfl
  | list items => exact absurd (hlt rfl) (Nat.lt_irrefl _)
  | _ => cases hx

end TinyLisp
