/-
Equality of values without doubles.

Equality has a case for every pair of kinds, and a truth value is compared with an
integer by way of doubles.  Where no double occurs this is still plain identity: read
`#t` as the integer 1 and `#f` as 0, everywhere inside, and two values are equal exactly
if nothing tells them apart any more (`equal_iff_norm`).  It rests on the fact that no
integer but 1 is 1 as a double, and none but 0 is 0.

Identity of what a function returns is an equivalence, so equality is one as well.  With
doubles it is not: two integers that round to the same double both equal it, and not each
other.
-/
import Mathlib
import TinyLisp.Value.Basic
import TinyLisp.Proofs.Numeral.Double

namespace TinyLisp.Value

/-! ### Values without doubles -/

/-- No double occurs in the value. -/
inductive FloatFree : Value → Prop
  | nil : FloatFree .nil
  | bool (b : Bool) : FloatFree (.bool b)
  | int (n : Int64) : FloatFree (.int n)
  | text (s : Bytes) : FloatFree (.text s)
  | symbol (name : Bytes) : FloatFree (.symbol name)
  | list {items : List Value} (h : ∀ v ∈ items, FloatFree v) : FloatFree (.list items)

/-- The integer that a truth value is read as. -/
def ofTruth (b : Bool) : Int64 := if b then 1 else 0

mutual

/-- The value with integers in place of its truth values. -/
def norm : Value → Value
  | .bool b => .int (ofTruth b)
  | .list items => .list (normItems items)
  | v => v

/-- The same for every element of a list. -/
def normItems : List Value → List Value
  | [] => []
  | v :: rest => norm v :: normItems rest

end

/-! ### Truth values and integers -/

theorem double_beq_ofTruth (n : Int64) (b : Bool) :
    (Numeral.double n == if b then 1 else 0) = true ↔ n = ofTruth b := by
  cases b with
  | true => exact Numeral.double_beq_one_iff n
  | false => exact Numeral.double_beq_zero_iff n

theorem float_beq_comm (x y : Float) : (x == y) = (y == x) := by
  rw [Bool.eq_iff_iff, Float.beq_iff_ne_nan_and_eq, Float.beq_iff_ne_nan_and_eq]
  grind

theorem ofTruth_inj {a b : Bool} : ofTruth a = ofTruth b ↔ a = b := by
  cases a <;> cases b <;> decide

/-! ### Equality is identity of the norms -/

theorem equal_bool (t : Bool) {b : Value} (hb : b.FloatFree) :
    equal (.bool t) b = true ↔ norm (.bool t) = norm b := by
  cases hb with
  | bool u => simp [equal, norm, ofTruth_inj]
  | int n =>
      have hint : equal (.bool t) (.int n) = true ↔ n = ofTruth t := by
        rw [← double_beq_ofTruth, float_beq_comm]
        rfl
      rw [hint]
      simp [norm, eq_comm]
  | _ => simp [equal, norm]

theorem equal_int (n : Int64) {b : Value} (hb : b.FloatFree) :
    equal (.int n) b = true ↔ norm (.int n) = norm b := by
  cases hb with
  | bool t =>
      have hint : equal (.int n) (.bool t) = true ↔ n = ofTruth t := double_beq_ofTruth n t
      rw [hint]
      simp [norm]
  | _ => simp [equal, norm]

/-- Lists are compared along their elements, and so are their norms. -/
theorem equalItems_iff_norm {xs : List Value}
    (ih : ∀ x ∈ xs, ∀ y : Value, y.FloatFree → (equal x y = true ↔ norm x = norm y)) :
    ∀ {ys : List Value}, (∀ y ∈ ys, y.FloatFree) →
      (equalItems xs ys = true ↔ normItems xs = normItems ys) := by
  induction xs with
  | nil =>
      intro ys _
      cases ys with
      | nil => simp [equalItems]
      | cons y ys => simp [equalItems, normItems]
  | cons x xs ihxs =>
      intro ys hys
      cases ys with
      | nil => simp [equalItems, normItems]
      | cons y ys =>
          have hhead := ih x (by simp) y (hys y (by simp))
          have htail : equalItems xs ys = true ↔ normItems xs = normItems ys :=
            ihxs (fun z hz => ih z (by simp [hz])) fun z hz => hys z (by simp [hz])
          simp [equalItems, normItems, hhead, htail]

/-- **Without doubles, two values are equal exactly if they are the same once their truth values
are read as integers.** -/
theorem equal_iff_norm {a : Value} (ha : a.FloatFree) :
    ∀ {b : Value}, b.FloatFree → (equal a b = true ↔ norm a = norm b) := by
  induction ha with
  | bool t => exact equal_bool t
  | int n => exact equal_int n
  | list h ih =>
      intro b hb
      cases hb with
      | list hys =>
          have hitems := equalItems_iff_norm (fun x hx y hy => ih x hx hy) hys
          simp [equal, norm, hitems]
      | _ => simp [equal, norm]
  | _ =>
      -- what is neither a number nor a truth value is compared with its own kind only
      intro b hb
      cases hb <;> simp [equal, norm]

theorem equal_list_iff {xs ys : List Value} :
    equal (.list xs) (.list ys) = true ↔ List.Forall₂ (fun x y => equal x y = true) xs ys := by
  show equalItems xs ys = true ↔ _
  induction xs generalizing ys with
  | nil => cases ys <;> simp [equalItems]
  | cons x xs ih => cases ys <;> simp [equalItems, ih]

/-! ### The laws of equality -/

/-- **Equality without doubles is structural.**  It is identity up to reading `#t` as 1 and `#f`
as 0, hence an equivalence, and lists are equal exactly if their elements are, in order. -/
theorem equal_structural :
    (∀ a b : {v : Value // v.FloatFree}, equal a.1 b.1 = true ↔ norm a.1 = norm b.1) ∧
      Equivalence (fun a b : {v : Value // v.FloatFree} => equal a.1 b.1 = true) ∧
      ∀ xs ys : List Value, equal (.list xs) (.list ys) = true ↔
        List.Forall₂ (fun x y => equal x y = true) xs ys := by
  have hnorm : ∀ a b : {v : Value // v.FloatFree},
      equal a.1 b.1 = true ↔ norm a.1 = norm b.1 := fun a b => equal_iff_norm a.2 b.2
  refine ⟨hnorm, ⟨?_, ?_, ?_⟩, fun xs ys => equal_list_iff⟩
  · intro a
    exact (hnorm a a).mpr rfl
  · intro a b h
    exact (hnorm b a).mpr ((hnorm a b).mp h).symm
  · intro a b c h h'
    exact (hnorm a c).mpr (((hnorm a b).mp h).trans ((hnorm b c).mp h'))

-- With doubles it is not transitive: these two integers round to the same one.
example : equal (.int 9007199254740993) (.float (Numeral.double 9007199254740992)) = true ∧
    equal (.float (Numeral.double 9007199254740992)) (.int 9007199254740992) = true ∧
    equal (.int 9007199254740993) (.int 9007199254740992) = false := by decide +kernel

end TinyLisp.Value
