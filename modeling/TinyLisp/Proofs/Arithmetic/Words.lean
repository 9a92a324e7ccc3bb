/-
Arithmetic on words is exact or refused.

`add?`, `mul?` and `floorDiv?` compute on words, which wrap, and look afterwards for
signs that they did: a sum by its sign, a product by dividing it back, a quotient by
the one pair of operands that has none.  This file compares each of them with the
same operation on integers, which never wraps.  The result is always `word?` of the
exact one: the word for it if there is one, and nothing otherwise.  For quotients the
exact one is the floor of a rational, and there is one pair without a word for it.

`sub?` is the exception.  It adds the opposite, which the least word does not have,
and gives up on a least word even where the difference would fit.
-/
import Mathlib.Algebra.Order.Ring.Int
import Mathlib.Data.Rat.Floor
import TinyLisp.Arithmetic
import TinyLisp.Proofs.Numeral.Decimal

namespace TinyLisp

/-! ### Words for integers -/

namespace Numeral

/-- A word is the one for its own value only. -/
theorem word?_eq_some_iff {z : Int} {w : Int64} : word? z = some w ↔ w.toInt = z := by
  unfold word?
  by_cases h : Fits z
  · obtain ⟨hlo, hhi⟩ := h
    have hz : (Int64.ofInt z).toInt = z := Int64.toInt_ofInt_of_le (by omega) (by omega)
    rw [if_pos ⟨hlo, hhi⟩, Option.some.injEq]
    constructor
    · rintro rfl
      exact hz
    · intro hw
      exact Int64.toInt_inj.mp (hz.trans hw.symm)
  · rw [if_neg h]
    constructor
    · intro hw
      cases hw
    · rintro rfl
      exact absurd (fits_toInt w) h

/-- An integer that fits is the value of a word. -/
theorem Fits.exists_word {z : Int} (h : Fits z) : ∃ w : Int64, w.toInt = z :=
  ⟨Int64.ofInt z, word?_eq_some_iff.mp (if_pos h)⟩

theorem word?_eq_none_iff {z : Int} : word? z = none ↔ ¬Fits z := by
  unfold word?
  by_cases h : Fits z <;> simp [h]

/-- Wrapping leaves an integer alone that fits. -/
theorem bmod_of_fits {z : Int} (h : Fits z) : z.bmod (2 ^ 64) = z := by
  obtain ⟨hlo, hhi⟩ := h
  exact Int.bmod_eq_of_le (by omega) (by omega)

/-- Wrapping moves an integer by a multiple of the number of words, into their range. -/
theorem bmod_cases (z : Int) : ∃ k : Int, z.bmod (2 ^ 64) = z + k * 18446744073709551616 ∧
    Fits (z.bmod (2 ^ 64)) := by
  have hdef := Int.bmod_def z (2 ^ 64)
  unfold Fits
  split at hdef
  · exact ⟨-(z / 18446744073709551616), by omega, by omega, by omega⟩
  · exact ⟨-(z / 18446744073709551616) - 1, by omega, by omega, by omega⟩

end Numeral

namespace Arithmetic

open Numeral

theorem toInt_least : Int64.minValue.toInt = -9223372036854775808 := rfl

theorem eq_least_iff {x : Int64} : x = Int64.minValue ↔ x.toInt = -9223372036854775808 := by
  rw [← Int64.toInt_inj, toInt_least]

theorem eq_minusOne_iff {x : Int64} : x = -1 ↔ x.toInt = -1 := by
  rw [← Int64.toInt_inj]
  rfl

theorem eq_zero_iff {x : Int64} : x = 0 ↔ x.toInt = 0 := by
  rw [← Int64.toInt_inj]
  rfl

/-! ### Sums -/

/-- **A sum of words is exact or refused.** -/
theorem add?_eq (x y : Int64) : add? x y = word? (x.toInt + y.toInt) := by
  obtain ⟨hxlo, hxhi⟩ := fits_toInt x
  obtain ⟨hylo, hyhi⟩ := fits_toInt y
  have hs : (x + y).toInt = (x.toInt + y.toInt).bmod (2 ^ 64) := Int64.toInt_add x y
  obtain ⟨k, hk, hlo, hhi⟩ := bmod_cases (x.toInt + y.toInt)
  have hzero : (0 : Int64).toInt = 0 := rfl
  unfold add?
  by_cases h : Fits (x.toInt + y.toInt)
  · have hexact := bmod_of_fits h
    rw [if_neg]
    · exact (word?_eq_some_iff.mpr (hs.trans hexact)).symm
    · simp only [Bool.or_eq_true, Bool.and_eq_true, decide_eq_true_eq, gt_iff_lt, ge_iff_le,
        Int64.lt_iff_toInt_lt, Int64.le_iff_toInt_le, hs, hexact, hzero]
      omega
  · rw [if_pos]
    · exact (word?_eq_none_iff.mpr h).symm
    · unfold Fits at h
      simp only [Bool.or_eq_true, Bool.and_eq_true, decide_eq_true_eq, gt_iff_lt, ge_iff_le,
        Int64.lt_iff_toInt_lt, Int64.le_iff_toInt_le, hs, hzero]
      omega

/-! ### Differences -/

/-- The opposite of a word other than the least. -/
theorem toInt_neg_of_ne_least {y : Int64} (h : y ≠ Int64.minValue) : (-y).toInt = -y.toInt := by
  obtain ⟨hlo, hhi⟩ := fits_toInt y
  have hne : y.toInt ≠ -9223372036854775808 := fun hy => h (eq_least_iff.mpr hy)
  rw [Int64.toInt_neg]
  exact bmod_of_fits ⟨by omega, by omega⟩

theorem sub?_eq {x y : Int64} (h : y ≠ Int64.minValue) :
    sub? x y = word? (x.toInt - y.toInt) := by
  rw [sub?, if_neg h, add?_eq, toInt_neg_of_ne_least h, Int.sub_eq_add_neg]

theorem sub?_least (x : Int64) : sub? x Int64.minValue = none := if_pos rfl

/-! ### Products -/

/-- A remainder is smaller than what was divided by. -/
theorem natAbs_tmod_lt (x : Int) {y : Int} (hy : y ≠ 0) : (x.tmod y).natAbs < y.natAbs := by
  rw [Int.natAbs_tmod]
  exact Nat.mod_lt _ (by omega)

/-- A wrapped product that divides back did not wrap.  Division leaves a remainder smaller than
the divisor, and wrapping would have moved the product by far more. -/
theorem eq_of_divides_back {x y p : Int64} (hy : y.toInt ≠ 0)
    (hp : p.toInt = (x.toInt * y.toInt).bmod (2 ^ 64)) (hback : p.toInt.tdiv y.toInt = x.toInt) :
    p.toInt = x.toInt * y.toInt := by
  obtain ⟨hylo, hyhi⟩ := fits_toInt y
  obtain ⟨k, hk, -⟩ := bmod_cases (x.toInt * y.toInt)
  have hrem := natAbs_tmod_lt p.toInt hy
  have hdiv := Int.mul_tdiv_add_tmod p.toInt y.toInt
  rw [hback, Int.mul_comm] at hdiv
  omega

/-- Dividing by anything but 0 and ±1 at least halves a word. -/
theorem natAbs_tdiv_le_half (x : Int64) {y : Int64} (hy : 2 ≤ y.toInt.natAbs) :
    (x.toInt.tdiv y.toInt).natAbs ≤ 4611686018427387904 := by
  obtain ⟨hlo, hhi⟩ := fits_toInt x
  have habs : (x.toInt.tdiv y.toInt).natAbs = x.toInt.natAbs / y.toInt.natAbs :=
    Int.natAbs_tdiv x.toInt y.toInt
  have hhalf : x.toInt.natAbs / y.toInt.natAbs ≤ x.toInt.natAbs / 2 :=
    Nat.div_le_div_left hy (by omega)
  omega

/-- The quotient of two words toward zero fits, except for the least word by −1. -/
theorem fits_tdiv {x y : Int64} (h : ¬(x = Int64.minValue ∧ y = -1)) :
    Fits (x.toInt.tdiv y.toInt) := by
  obtain ⟨hlo, hhi⟩ := fits_toInt x
  by_cases hy : 2 ≤ y.toInt.natAbs
  · have habs := natAbs_tdiv_le_half x hy
    unfold Fits
    omega
  · have hcases : y.toInt = 0 ∨ y.toInt = 1 ∨ y.toInt = -1 := by omega
    rcases hcases with h0 | h1 | h1
    · rw [h0, Int.tdiv_zero]
      exact ⟨by omega, by omega⟩
    · rw [h1, Int.tdiv_one]
      exact ⟨hlo, hhi⟩
    · have hx : x.toInt ≠ -9223372036854775808 := fun hx =>
        h ⟨eq_least_iff.mpr hx, eq_minusOne_iff.mpr h1⟩
      rw [h1, Int.tdiv_neg, Int.tdiv_one]
      exact ⟨by omega, by omega⟩

theorem toInt_div {x y : Int64} (h : ¬(x = Int64.minValue ∧ y = -1)) :
    (x / y).toInt = x.toInt.tdiv y.toInt := by
  rw [Int64.toInt_div, bmod_of_fits (fits_tdiv h)]

/-- **A product of words is exact or refused.** -/
theorem mul?_eq (x y : Int64) : mul? x y = word? (x.toInt * y.toInt) := by
  have hp : (x * y).toInt = (x.toInt * y.toInt).bmod (2 ^ 64) := Int64.toInt_mul x y
  unfold mul?
  by_cases hzero : x = 0 ∨ y = 0
  · rw [if_pos (by simpa using hzero)]
    have hprod : (0 : Int64).toInt = x.toInt * y.toInt := by
      rcases hzero with rfl | rfl <;> simp
    exact (word?_eq_some_iff.mpr hprod).symm
  · rw [if_neg (by simpa using hzero)]
    by_cases hnamed : (x = -1 ∧ y = Int64.minValue) ∨ (y = -1 ∧ x = Int64.minValue)
    · rw [if_pos (by simpa using hnamed)]
      rcases hnamed with ⟨rfl, rfl⟩ | ⟨rfl, rfl⟩ <;> rfl
    · rw [if_neg (by simpa using hnamed)]
      have hy : y.toInt ≠ 0 := fun h => hzero (.inr (eq_zero_iff.mpr h))
      -- with the named pairs out of the way, dividing back does not wrap
      have hdiv : ¬(x * y = Int64.minValue ∧ y = -1) := by
        rintro ⟨hleast, rfl⟩
        obtain ⟨hlo, hhi⟩ := fits_toInt x
        have hx : x.toInt ≠ -9223372036854775808 := fun hx =>
          hnamed (.inr ⟨rfl, eq_least_iff.mpr hx⟩)
        rw [eq_minusOne_iff.mp rfl, bmod_of_fits ⟨by omega, by omega⟩] at hp
        rw [eq_least_iff, hp] at hleast
        omega
      by_cases h : Fits (x.toInt * y.toInt)
      · have hexact : (x * y).toInt = x.toInt * y.toInt := hp.trans (bmod_of_fits h)
        have hback : x * y / y = x := by
          rw [← Int64.toInt_inj, toInt_div hdiv, hexact, Int.mul_tdiv_cancel _ hy]
        rw [if_pos hback]
        exact (word?_eq_some_iff.mpr hexact).symm
      · have hback : x * y / y ≠ x := by
          intro hback
          rw [← Int64.toInt_inj, toInt_div hdiv] at hback
          have hfits := fits_toInt (x * y)
          rw [eq_of_divides_back hy hp hback] at hfits
          exact h hfits
        rw [if_neg hback]
        exact (word?_eq_none_iff.mpr h).symm

/-! ### Quotients -/

/-- Rounding down takes one off the quotient toward zero where a remainder is left under
different signs. -/
theorem fdiv_eq_tdiv_sub {x y : Int} (hy : y ≠ 0) :
    x.fdiv y = x.tdiv y - if x.tmod y ≠ 0 ∧ ¬(x < 0 ↔ y < 0) then 1 else 0 := by
  have hdvd : x.tmod y = 0 ↔ y ∣ x := ⟨Int.dvd_of_tmod_eq_zero, Int.tmod_eq_zero_of_dvd⟩
  rw [Int.fdiv_eq_tdiv]
  by_cases h : y ∣ x
  · simp [h, hdvd]
  · rcases Int.lt_or_gt_of_ne hy with hneg | hpos
    · have hsign : y.sign = -1 := Int.sign_eq_neg_one_of_neg hneg
      simp only [if_neg h, hsign]
      split <;> split <;> omega
    · have hsign : y.sign = 1 := Int.sign_eq_one_of_pos hpos
      simp only [if_neg h, hsign]
      split <;> split <;> omega

/-- **A quotient of words is rounded down or refused.** -/
theorem floorDiv?_eq {x y : Int64} (hy : y ≠ 0) :
    floorDiv? x y = word? (x.toInt.fdiv y.toInt) := by
  have hy' : y.toInt ≠ 0 := fun h => hy (eq_zero_iff.mpr h)
  unfold floorDiv?
  by_cases hleast : x = Int64.minValue ∧ y = -1
  · rw [if_pos (by simpa using hleast)]
    obtain ⟨rfl, rfl⟩ := hleast
    rfl
  · rw [if_neg (by simpa using hleast)]
    have hq := toInt_div hleast
    have hround : (x % y ≠ 0 && (x < 0) != (y < 0)) = true ↔
        x.toInt.tmod y.toInt ≠ 0 ∧ ¬(x.toInt < 0 ↔ y.toInt < 0) := by
      have hzero : (0 : Int64).toInt = 0 := rfl
      simp only [Bool.and_eq_true, decide_eq_true_eq, bne_iff_ne, ne_eq, ← Int64.toInt_inj,
        Int64.toInt_mod, Int64.lt_iff_toInt_lt, hzero, decide_eq_decide]
    by_cases h : x.toInt.tmod y.toInt ≠ 0 ∧ ¬(x.toInt < 0 ↔ y.toInt < 0)
    · -- only a divisor of 1 or −1 could bring the quotient to the least word, and leaves nothing
      have hrem := natAbs_tmod_lt x.toInt hy'
      have hfar : 2 ≤ y.toInt.natAbs := by omega
      have hone : (1 : Int64).toInt = 1 := rfl
      have habs := natAbs_tdiv_le_half x hfar
      rw [if_pos (hround.mpr h)]
      refine (word?_eq_some_iff.mpr ?_).symm
      rw [Int64.toInt_sub, hq, hone, fdiv_eq_tdiv_sub hy', if_pos h]
      exact bmod_of_fits ⟨by omega, by omega⟩
    · rw [if_neg (fun hc => h (hround.mp hc))]
      refine (word?_eq_some_iff.mpr ?_).symm
      rw [hq, fdiv_eq_tdiv_sub hy', if_neg h, Int.sub_zero]

/-- Only the least word by −1 has no quotient. -/
theorem exists_floorDiv? {x y : Int64} (hy : y ≠ 0) (h : ¬(x = Int64.minValue ∧ y = -1)) :
    ∃ q, floorDiv? x y = some q ∧ q.toInt = x.toInt.fdiv y.toInt := by
  have hsome : ∃ q, floorDiv? x y = some q := by
    unfold floorDiv?
    rw [if_neg (by simpa using h)]
    split
    · exact ⟨_, rfl⟩
    · exact ⟨_, rfl⟩
  obtain ⟨q, hq⟩ := hsome
  exact ⟨q, hq, word?_eq_some_iff.mp ((floorDiv?_eq hy).symm.trans hq)⟩

/-- Rounding down an integer quotient is rounding down the rational one. -/
theorem fdiv_eq_floor (x y : Int) : x.fdiv y = ⌊(x : ℚ) / (y : ℚ)⌋ := by
  have hnat : ∀ (x : Int) (n : Nat), x.fdiv n = ⌊(x : ℚ) / ((n : Int) : ℚ)⌋ := by
    intro x n
    rw [Int.fdiv_eq_ediv_of_nonneg x (Int.natCast_nonneg n), Int.cast_natCast,
      Rat.floor_intCast_div_natCast]
  obtain ⟨n, rfl | rfl⟩ := y.eq_nat_or_neg
  · exact hnat x n
  · -- a negative divisor is a positive one with both signs turned around
    have hflip := hnat (-x) n
    rwa [← Int.neg_fdiv_neg, Int.neg_neg, Int.cast_neg, neg_div, ← div_neg, ← Int.cast_neg]
      at hflip

/-! ### Exact or refused -/

/-- A result that is there exactly under a condition, and then is a given integer. -/
structure ExactIf (fits : Prop) (z : Int) (r : Option Int64) : Prop where
  isSome_iff : r.isSome = true ↔ fits
  value_eq : ∀ w, r = some w → w.toInt = z

theorem exactIf_word? (z : Int) : ExactIf (Fits z) z (word? z) := by
  refine ⟨?_, fun w hw => word?_eq_some_iff.mp hw⟩
  unfold word?
  by_cases h : Fits z <;> simp [h]

theorem exactIf_floorDiv? {x y : Int64} (hy : y ≠ 0) :
    ExactIf (¬(x = Int64.minValue ∧ y = -1)) ⌊(x.toInt : ℚ) / (y.toInt : ℚ)⌋ (floorDiv? x y) := by
  rw [← fdiv_eq_floor]
  by_cases h : x = Int64.minValue ∧ y = -1
  · have hnone : floorDiv? x y = none := by
      obtain ⟨rfl, rfl⟩ := h
      rfl
    rw [hnone]
    exact ⟨by simp [h], by simp⟩
  · obtain ⟨q, hq, hval⟩ := exists_floorDiv? hy h
    rw [hq]
    refine ⟨by simp [h], ?_⟩
    intro w hw
    rw [← Option.some.inj hw, hval]

/-- **Arithmetic on words is exact or refused.**  Sums and products are there exactly if they fit
a word, and quotients rounded down exactly if they are not those of the least word by −1. -/
theorem add_mul_floorDiv_exact (x y : Int64) :
    ExactIf (Fits (x.toInt + y.toInt)) (x.toInt + y.toInt) (add? x y) ∧
      ExactIf (Fits (x.toInt * y.toInt)) (x.toInt * y.toInt) (mul? x y) ∧
      (y ≠ 0 → ExactIf (¬(x = Int64.minValue ∧ y = -1)) ⌊(x.toInt : ℚ) / (y.toInt : ℚ)⌋
        (floorDiv? x y)) := by
  refine ⟨?_, ?_, exactIf_floorDiv?⟩
  · rw [add?_eq]
    exact exactIf_word? _
  · rw [mul?_eq]
    exact exactIf_word? _

/-- The least word by 3 leaves a remainder under different signs. -/
theorem floorDiv_exact_least :
    (3 : Int64) ≠ 0 ∧ floorDiv? Int64.minValue 3 = some (-3074457345618258603) ∧
      ⌊(Int64.minValue.toInt : ℚ) / ((3 : Int64).toInt : ℚ)⌋ = -3074457345618258603 := by
  have hq : floorDiv? Int64.minValue 3 = some (-3074457345618258603) := rfl
  refine ⟨by decide, hq, ?_⟩
  exact (((add_mul_floorDiv_exact Int64.minValue 3).2.2 (by decide)).value_eq _ hq).symm

/-! ### Words in a row -/

/-- The exact result of combining words from the left. -/
def exactly (f : Int → Int → Int) (acc : Int) (ns : List Int64) : Int :=
  (ns.map Int64.toInt).foldl f acc

@[simp] theorem exactly_nil (f : Int → Int → Int) (acc : Int) : exactly f acc [] = acc := rfl

@[simp] theorem exactly_cons (f : Int → Int → Int) (acc : Int) (n : Int64) (ns : List Int64) :
    exactly f acc (n :: ns) = exactly f (f acc n.toInt) ns := rfl

end Arithmetic

end TinyLisp
