/-
The operations of the language trust their declarations, and may.

A function looks at arguments without counting them and takes the elements of values
without asking whether they are lists; both crash where the declaration does not
promise what is needed.  `Fits` is that promise, as `check?` establishes it, and
`Sound` says that a function whose arguments fit settles: it ends with a value, says
that its operands do not fit, or prints one line.  In particular it never crashes and
never asks for an evaluation of its own.

Division needs one more argument.  The divisor is compared with zero as a double and
divided by as a word, so a word that divides must not be zero as a double; it is
enough that zero itself is.
-/
import TinyLisp.Proofs.Registry.Calls
import TinyLisp.Registry.Builtins

namespace TinyLisp

/-! ### What a checked call promises -/

/-- The arguments are enough in number and each has the type of its parameter. -/
structure Declaration.Fits (d : Declaration) (args : List Value) : Prop where
  /-- No required argument is missing. -/
  enough : d.least ≤ args.length
  /-- Every argument is of a kind that its parameter takes. -/
  kinds : ∀ i v p, args[i]? = some v → d.parameterAt? i = some p → v.matchesType p.type = true

theorem Declaration.matchesType_of_checkKinds? {d : Declaration} {args : List Value} :
    ∀ {index : Nat}, d.checkKinds? index args = none →
      ∀ i v p, args[i]? = some v → d.parameterAt? (index + i) = some p →
        v.matchesType p.type = true := by
  induction args with
  | nil =>
      intro index _ i v p hv
      simp at hv
  | cons a rest ih =>
      intro index h i v p hv hp
      rw [checkKinds?] at h
      split at h
      · -- without parameters nothing is promised
        rename_i hnone
        have hlen : d.parameters = [] := by
          unfold parameterAt? at hnone
          rw [List.getElem?_eq_none_iff] at hnone
          exact List.eq_nil_of_length_eq_zero (by omega)
        simp [parameterAt?, hlen] at hp
      · rename_i q hq
        split at h
        · rename_i hm
          cases i with
          | zero =>
              obtain rfl : q = p := Option.some.inj (hq.symm.trans hp)
              obtain rfl : a = v := by simpa using hv
              exact hm
          | succ i =>
              refine ih h i v p (by simpa using hv) ?_
              rw [← hp]
              congr 1
              omega
        · cases h

theorem Declaration.fits_of_check? {d : Declaration} {args : List Value}
    (h : d.check? args = none) : d.Fits args := by
  unfold check? at h
  split at h
  · cases h
  · rename_i hlen
    have hk : d.checkKinds? 0 args = none := by
      split at h
      · split at h
        · cases h
        · exact h
      · exact h
    refine ⟨by omega, ?_⟩
    intro i v p hv hp
    exact matchesType_of_checkKinds? hk i v p hv (by rw [Nat.zero_add]; exact hp)

theorem Value.matchesType_list (v : Value) : v.matchesType (utf8 "list") = v.isList := by
  have hs : Bytes.splitOn Byte.bar (utf8 "list") = [utf8 "list"] := by decide
  have hany : utf8 "list" ≠ utf8 "any" := by decide
  have hnumber : utf8 "list" ≠ utf8 "number" := by decide
  simp [matchesType, hs, hasKind, hany, hnumber]

/-! ### Procedures that settle -/

namespace Procedure

/-- The procedure ends with a value or a mismatch, or prints one line first and reports a
refusal of it. -/
inductive Settled : Procedure → Prop where
  /-- It ends with a value. -/
  | value (v : Value) : Settled (.value v)
  /-- The operands do not fit after all. -/
  | mismatch (m : Mismatch) : Settled (.fail (.mismatch m))
  /-- It prints a line and has no other result than that. -/
  | print {line : Bytes} {next : Option Bytes → Procedure}
      (written : next none = .value .nil)
      (refused : ∀ err, next (some err) = .fail (.output (utf8 "print: ") err)) :
      Settled (.print line next)

theorem Settled.unary {f : Value → Procedure} {args : List Value} (hlen : 1 ≤ args.length)
    (hf : ∀ a, args[0]? = some a → (f a).Settled) : (Procedure.unary f args).Settled := by
  match args, hlen with
  | a :: rest, _ => exact hf a rfl

theorem Settled.binary {f : Value → Value → Procedure} {args : List Value}
    (hlen : 2 ≤ args.length)
    (hf : ∀ a b, args[0]? = some a → args[1]? = some b → (f a b).Settled) :
    (Procedure.binary f args).Settled := by
  match args, hlen with
  | a :: b :: rest, _ => exact hf a b rfl rfl

theorem Settled.withItems {v : Value} {f : List Value → Procedure} (hv : v.isList = true)
    (hf : ∀ items, (f items).Settled) : (Procedure.withItems v f).Settled := by
  cases v with
  | list items => exact hf items
  | _ => cases hv

end Procedure

/-! ### Division -/

namespace Arithmetic

theorem isZero_int_zero : isZero (.int 0) = true := by decide

/-- A divisor that is not zero as a double divides every number. -/
theorem divide_ok {x y : Value} (h : isZero y = false) : ∃ q, divide x y = .ok q := by
  unfold divide
  split
  · rename_i m n
    have hn : n ≠ 0 := by
      rintro rfl
      rw [isZero_int_zero] at h
      cases h
    rw [if_neg hn]
    split
    · exact ⟨_, rfl⟩
    · exact ⟨_, rfl⟩
  · exact ⟨_, rfl⟩

theorem quotient_ok (rest : List Value) : ∀ acc, ∃ q, quotient acc rest = .ok q := by
  induction rest with
  | nil =>
      intro acc
      exact ⟨acc, rfl⟩
  | cons d rest ih =>
      intro acc
      rw [quotient]
      cases hz : isZero d with
      | true => exact ⟨undefinedText, rfl⟩
      | false =>
          obtain ⟨q, hq⟩ := divide_ok (x := acc) hz
          rw [hq]
          exact ih q

end Arithmetic

/-! ### Every function of the table -/

/-- The function settles on all arguments that fit its declaration. -/
def Declaration.Sound (d : Declaration) : Prop :=
  ∀ body, d.body? = some body → ∀ args, d.Fits args → (body args).Settled

theorem Declaration.Sound.aliased {d : Declaration} (h : d.Sound) (name : Bytes) :
    (d.aliased name).Sound := by
  intro body hb args hf
  exact h body hb args ⟨hf.enough, hf.kinds⟩

namespace Builtins

open Procedure

/-- A special form has no function to settle. -/
theorem sound_of_special {d : Declaration} (h : d.body? = none) : d.Sound := by
  intro body hb
  rw [h] at hb
  cases hb

/-- A function with a value for all arguments is sound whatever it declares. -/
theorem sound_of_total {d : Declaration} {f : List Value → Value}
    (h : d.body? = some fun args => value (f args)) : d.Sound := by
  intro body hb args _
  obtain rfl := Option.some.inj (h.symm.trans hb)
  exact .value (f args)

/-- A function with a value for all pairs has to declare two arguments. -/
theorem sound_of_pairs {d : Declaration} {f : Value → Value → Value} (hd : d.least = 2)
    (h : d.body? = some (binary fun a b => value (f a b))) : d.Sound := by
  intro body hb args hf
  obtain rfl := Option.some.inj (h.symm.trans hb)
  have hlen := hf.enough
  rw [hd] at hlen
  exact .binary (by omega) fun a b _ _ => .value (f a b)

/-- An argument whose parameter is declared as a list is one. -/
theorem isList_of_fits {d : Declaration} {args : List Value} (hf : d.Fits args) {i : Nat}
    {v : Value} {p : Parameter} (hv : args[i]? = some v) (hp : d.parameterAt? i = some p)
    (ht : p.type = utf8 "list") : v.isList = true := by
  have hm := hf.kinds i v p hv hp
  rw [ht, Value.matchesType_list] at hm
  exact hm

theorem sound_cons : cons.Sound := by
  rintro body ⟨⟩ args hf
  refine .binary (Int.ofNat_le.mp hf.enough) ?_
  intro a b _ hb
  exact .withItems (isList_of_fits hf hb rfl rfl) fun tail => .value _

theorem sound_concat : concat.Sound := by
  rintro body ⟨⟩ args hf
  refine .binary (Int.ofNat_le.mp hf.enough) ?_
  intro a b ha hb
  refine .withItems (isList_of_fits hf ha rfl rfl) ?_
  intro front
  exact .withItems (isList_of_fits hf hb rfl rfl) fun back => .value _

theorem sound_car : car.Sound := by
  rintro body ⟨⟩ args hf
  refine .unary (Int.ofNat_le.mp hf.enough) ?_
  intro a ha
  refine .withItems (isList_of_fits hf ha rfl rfl) ?_
  intro items
  cases items with
  | nil => exact .mismatch _
  | cons head tail => exact .value head

theorem sound_cdr : cdr.Sound := by
  rintro body ⟨⟩ args hf
  refine .unary (Int.ofNat_le.mp hf.enough) ?_
  intro a ha
  exact .withItems (isList_of_fits hf ha rfl rfl) fun items => .value _

/-- A function that needs a first argument gets one. -/
theorem exists_cons_of_fits {d : Declaration} {args : List Value} (hf : d.Fits args)
    (hd : d.least = 1) : ∃ first rest, args = first :: rest := by
  have hlen := hf.enough
  rw [hd] at hlen
  exact List.exists_cons_of_length_pos (by omega)

theorem sound_subtraction : subtraction.Sound := by
  rintro body ⟨⟩ args hf
  obtain ⟨first, rest, rfl⟩ := exists_cons_of_fits hf rfl
  exact .value _

theorem sound_division : division.Sound := by
  rintro body ⟨⟩ args hf
  obtain ⟨first, rest, rfl⟩ := exists_cons_of_fits hf rfl
  obtain ⟨q, hq⟩ := Arithmetic.quotient_ok rest first
  show (Procedure.done (Arithmetic.quotient first rest)).Settled
  rw [hq]
  exact .value q

theorem sound_print : print.Sound := by
  rintro body ⟨⟩ args hf
  refine .unary (Int.ofNat_le.mp hf.enough) ?_
  intro a _
  exact .print rfl fun err => rfl

/-- **Every operation of the language is sound.** -/
theorem sound_of_mem {d : Declaration} (h : .function d ∈ entries) : d.Sound := by
  simp only [entries, List.mem_cons, Registry.Entry.function.injEq, List.not_mem_nil, or_false,
    false_or, reduceCtorEq] at h
  rcases h with rfl | rfl | rfl | rfl | rfl | rfl | rfl | rfl | rfl | rfl | rfl | rfl | rfl | rfl |
    rfl | rfl | rfl | rfl | rfl | rfl | rfl
  · exact sound_of_special rfl
  · exact sound_of_special rfl
  · exact sound_of_pairs rfl rfl
  · exact .aliased (sound_of_pairs rfl rfl) _
  · exact sound_of_total rfl
  · exact sound_of_total rfl
  · exact sound_of_pairs rfl rfl
  · exact sound_cons
  · exact sound_concat
  · exact sound_of_total rfl
  · exact sound_car
  · exact sound_cdr
  · exact sound_of_total rfl
  · exact .aliased (sound_of_total rfl) _
  · exact sound_subtraction
  · exact sound_subtraction.aliased _
  · exact sound_of_total rfl
  · exact .aliased (sound_of_total rfl) _
  · exact sound_division
  · exact sound_division.aliased _
  · exact sound_print

end Builtins

/-! ### What a table knows was declared -/

namespace Registry

theorem declareTitle_entries (r : Registry) (title : Bytes) :
    (r.declareTitle title).1.entries = r.entries := by
  unfold declareTitle
  split
  · rfl
  · rfl

theorem mem_declare {r : Registry} {d e : Declaration} (h : e ∈ (r.declare d).1.entries) :
    e = d ∨ e ∈ r.entries := by
  unfold declare at h
  split at h
  · exact .inr h
  · -- the entries change before a duplicate is refused
    refine mem_insert (d := d) ?_
    cases hl : r.lookup? d.name with
    | none => rw [hl] at h; exact h
    | some old => rw [hl] at h; exact h

theorem mem_declareEntry {r : Registry} {entry : Entry} {d : Declaration}
    (h : d ∈ (r.declareEntry entry).1.entries) : entry = .function d ∨ d ∈ r.entries := by
  cases entry with
  | title text =>
      rw [declareEntry, declareTitle_entries] at h
      exact .inr h
  | function e =>
      rw [declareEntry] at h
      rcases mem_declare h with rfl | hd
      · exact .inl rfl
      · exact .inr hd

theorem mem_declareAll {entries : List Entry} :
    ∀ {r : Registry} {d : Declaration}, d ∈ (r.declareAll entries).1.entries →
      .function d ∈ entries ∨ d ∈ r.entries := by
  induction entries with
  | nil =>
      intro r d h
      exact .inr h
  | cons entry rest ih =>
      intro r d h
      have hstep : d ∈ (r.declareEntry entry).1.entries ∨ .function d ∈ rest := by
        rw [declareAll] at h
        split at h
        · rename_i r' hr
          rw [hr]
          exact (ih h).symm
        · rename_i r' stop hr
          rw [hr]
          exact .inl h
      rcases hstep with hd | hd
      · rcases mem_declareEntry hd with rfl | hr
        · exact .inl List.mem_cons_self
        · exact .inr hr
      · exact .inl (List.mem_cons_of_mem entry hd)

/-- Every function the table knows is sound. -/
def Sound (r : Registry) : Prop := ∀ name d, r.lookup? name = some d → d.Sound

/-- **The table of the language knows sound functions only.** -/
theorem sound_builtins : Registry.builtins.Sound := by
  intro name d h
  have hm : d ∈ (empty.declareAll Builtins.entries).1.entries := List.mem_of_find?_eq_some h
  rcases mem_declareAll hm with hd | hd
  · exact Builtins.sound_of_mem hd
  · cases hd

end Registry

end TinyLisp
