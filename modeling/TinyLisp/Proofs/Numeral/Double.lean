/-
Zero and one among the words that are made doubles.

A word is rounded to 53 significant bits.  Its magnitude is moved to the left until it
has as many bits at least, rounding shifts out what is more, adds at most one in the last
place and shifts once more if that made 54 of them.  None of this loses the first bit, so
what comes out is a normal number: a significand of exactly 53 bits, and an exponent that
grows with the magnitude.  Packed into 64 bits and taken apart again it has the same
exponent, unless that is too large and the number has become an infinity.

A zero has no exponent, and the exponent of one is that of a magnitude below two.  Hence
no word but zero compares equal to zero, and none but one to one.
-/
import Mathlib.Algebra.Order.Ring.Int
import TinyLisp.Numeral.Binary

namespace TinyLisp.Numeral

open Float.Model Float.Model.UnpackedFloat

/-! ### Shifting bits out -/

theorem mantissa_shiftRight (k : Nat) (em : ExtendedMantissa) :
    (em >>> k).mantissa = em.mantissa / 2 ^ k := by
  induction k with
  | zero => exact (Nat.div_one _).symm
  | succ k ih =>
      show (em >>> k).mantissa / 2 = _
      rw [ih, Nat.div_div_eq_div_mul, Nat.pow_succ]

/-- From an exponent that a double can have, bits are shifted out until 53 are left. -/
theorem shift_eq (m : Nat) {e : Int} (he : -1074 ≤ e) :
    (Format.binary64.targetExponent (totalExponent m e) - e).toNat = m.log2 - 52 := by
  have htarget : Format.binary64.targetExponent (totalExponent m e)
      = max ((m.log2 : Int) + 1 + e - 53) (-1074) := rfl
  rw [htarget]
  omega

/-- The first 53 bits of a number that has them are a number of 53 bits. -/
theorem shifted_bounds {m : Nat} (hm : 2 ^ 52 ≤ m) :
    2 ^ 52 ≤ m / 2 ^ (m.log2 - 52) ∧ m / 2 ^ (m.log2 - 52) < 2 ^ 53 := by
  have hne : m ≠ 0 := by omega
  have hlog : 52 ≤ m.log2 := (Nat.le_log2 hne).mpr hm
  have hlow : 2 ^ m.log2 ≤ m := Nat.log2_self_le hne
  have hhigh : m < 2 ^ (m.log2 + 1) := Nat.lt_log2_self
  have hpos : 0 < 2 ^ (m.log2 - 52) := Nat.two_pow_pos _
  constructor
  · rw [Nat.le_div_iff_mul_le hpos, ← Nat.pow_add]
    exact Nat.le_trans (Nat.pow_le_pow_right (by omega) (by omega)) hlow
  · rw [Nat.div_lt_iff_lt_mul hpos, ← Nat.pow_add]
    exact Nat.lt_of_lt_of_le hhigh (Nat.pow_le_pow_right (by omega) (by omega))

/-! ### Rounding -/

theorem le_roundedMantissa (em : ExtendedMantissa) : em.mantissa ≤ em.roundedMantissa := by
  unfold ExtendedMantissa.roundedMantissa Accuracy.roundToNearestEven
  split <;> omega

/-- A number with a significand of 53 bits and an exponent from `low` on. -/
def Normal (low : Int) (x : UnpackedFloat) : Prop :=
  ∃ s m e h, x = .finite s m e h ∧ 2 ^ 52 ≤ m ∧ m < 2 ^ 53 ∧ low ≤ e

/-- One shift to the exponent a double wants: the mantissa and the exponent afterwards. -/
theorem shiftToTargetExponent_eq (m : Nat) {e : Int} (he : -1074 ≤ e) :
    (shiftToTargetExponent Format.binary64 m e .exact).1.mantissa = m / 2 ^ (m.log2 - 52) ∧
      (shiftToTargetExponent Format.binary64 m e .exact).2 = e + (m.log2 - 52 : Nat) := by
  unfold shiftToTargetExponent shiftToExponent
  simp only [shift_eq m he, mantissa_shiftRight, and_true]
  rfl

/-- Rounding shifts, rounds up or not, and shifts again. -/
theorem normal_roundWithAccuracy (s : Sign) {m : Nat} (hm : 2 ^ 52 ≤ m) {e : Int}
    (he : -1074 ≤ e) :
    Normal (e + (m.log2 - 52 : Nat)) (roundWithAccuracy Format.binary64 s m e .exact) := by
  obtain ⟨hfirst, hexp⟩ := shiftToTargetExponent_eq m he
  unfold roundWithAccuracy
  generalize shiftToTargetExponent Format.binary64 m e .exact = first at *
  obtain ⟨em, e₁⟩ := first
  dsimp only at hfirst hexp ⊢
  have hround : 2 ^ 52 ≤ em.roundedMantissa := by
    have hbits := (shifted_bounds hm).1
    have hle := le_roundedMantissa em
    omega
  obtain ⟨hsecond, hexp₂⟩ := shiftToTargetExponent_eq em.roundedMantissa (e := e₁) (by omega)
  obtain ⟨hlow, hhigh⟩ := shifted_bounds hround
  rw [← hsecond] at hlow hhigh
  rw [dif_neg (by omega)]
  exact ⟨s, _, _, by omega, rfl, hlow, hhigh, by omega⟩

theorem log2_shiftLeft {m : Nat} (hm : m ≠ 0) (k : Nat) : (m <<< k).log2 = m.log2 + k := by
  induction k with
  | zero => rfl
  | succ k ih =>
      have hne : m <<< k ≠ 0 := by
        rw [Nat.shiftLeft_eq]
        exact Nat.mul_ne_zero hm (by simp)
      rw [Nat.shiftLeft_succ, Nat.log2_two_mul hne, ih]
      omega

theorem normal_round (s : Sign) {m : Nat} (hm : 0 < m) :
    Normal ((m.log2 : Int) - 52) (UnpackedFloat.round Format.binary64 s m 0) := by
  have htarget : (0 - Format.binary64.targetExponent (totalExponent m 0)).toNat = 52 - m.log2 := by
    have heq : Format.binary64.targetExponent (totalExponent m 0)
        = max ((m.log2 : Int) + 1 + 0 - 53) (-1074) := rfl
    rw [heq]
    omega
  have hlog := log2_shiftLeft (by omega : m ≠ 0) (52 - m.log2)
  have hbits : 2 ^ 52 ≤ m <<< (52 - m.log2) := by
    have hne : m <<< (52 - m.log2) ≠ 0 := by
      rw [Nat.shiftLeft_eq]
      exact Nat.mul_ne_zero (by omega) (by simp)
    rw [← Nat.le_log2 hne, hlog]
    omega
  have hnormal := normal_roundWithAccuracy s hbits (e := 0 - (52 - m.log2 : Nat)) (by omega)
  unfold UnpackedFloat.round UnpackedFloat.decreaseExponent
  simp only [htarget]
  obtain ⟨s, m', e, h, heq, hlow, hhigh, he⟩ := hnormal
  exact ⟨s, m', e, h, heq, hlow, hhigh, by omega⟩

/-! ### Packing -/

/-- Bits with an exponent that is neither the first nor the last one are a number with this
exponent. -/
theorem unpack_of_exponent {b : BitVec Format.binary64.numBits} {k : Nat}
    (hk : (unpackExponent b).toNat = k) (hpos : 0 < k) (hlt : k + 1 < 2 ^ 11) :
    ∃ s m e h, UnpackedFloat.unpack Format.binary64 b = .finite s m e h ∧
      e = (k : Int) - 1075 := by
  have hfirst : unpackExponent b ≠ 0#_ := by
    intro hc
    have hzero : (0#11).toNat = 0 := rfl
    rw [hc, hzero] at hk
    omega
  have hlast : unpackExponent b ≠ -1#_ := by
    intro hc
    have hmax : (-1#11).toNat = 2047 := rfl
    rw [hc, hmax] at hk
    omega
  unfold UnpackedFloat.unpack
  dsimp only
  rw [if_neg hlast, if_neg hfirst]
  generalize_proofs hm
  refine ⟨_, _, _, hm, rfl, ?_⟩
  rw [hk]
  rfl

/-- A number of 53 bits is packed with its exponent moved up, unless that is too large. -/
theorem pack_of_log2 (s : Sign) {m : Nat} (e : Int) (h : 0 < m) (hlog : m.log2 = 52) :
    UnpackedFloat.pack Format.binary64 (.finite s m e h)
      = if 2 ^ 11 ≤ (e + 1075).toNat + 1 then packedInfinity Format.binary64 s
        else packComponents Format.binary64 s (BitVec.ofNat 11 (e + 1075).toNat)
          (BitVec.ofNat 52 m) := by
  have hbits : m.log2 + 1 = Format.binary64.mantissaBits := by
    rw [hlog]
    rfl
  have hexp : e + Format.binary64.exponentBias + Format.binary64.mantissaBitsWithoutImplicit
      = e + 1075 := by
    show e + 1023 + 52 = _
    omega
  unfold UnpackedFloat.pack
  simp only [hexp, if_pos hbits]

/-- A normal number keeps its exponent or becomes an infinity. -/
theorem unpack_pack_of_normal {low : Int} {x : UnpackedFloat} (hlow : -1074 ≤ low)
    (hx : Normal low x) :
    (∃ s, UnpackedFloat.unpack Format.binary64 (UnpackedFloat.pack Format.binary64 x)
        = .infinity s) ∨
      ∃ s m e h, UnpackedFloat.unpack Format.binary64 (UnpackedFloat.pack Format.binary64 x)
        = .finite s m e h ∧ low ≤ e := by
  obtain ⟨sign, m, e, h, rfl, hm, hm', he⟩ := hx
  rw [pack_of_log2 sign e h ((Nat.log2_eq_iff (by omega)).mpr ⟨hm, hm'⟩)]
  by_cases hlarge : 2 ^ 11 ≤ (e + 1075).toNat + 1
  · rw [if_pos hlarge]
    left
    exact ⟨sign, by cases sign <;> rfl⟩
  · rw [if_neg hlarge]
    right
    have hbits : (unpackExponent (packComponents Format.binary64 sign
        (BitVec.ofNat 11 (e + 1075).toNat) (BitVec.ofNat 52 m))).toNat = (e + 1075).toNat := by
      rw [unpackExponent_packComponents, BitVec.toNat_ofNat]
      exact Nat.mod_eq_of_lt (show _ < 2 ^ 11 by omega)
    obtain ⟨s, m', e', h', hunpack, he'⟩ := unpack_of_exponent hbits (by omega) (by omega)
    exact ⟨s, m', e', h', hunpack, by omega⟩

/-! ### Words -/

theorem normal_ofInt {z : Int} (hz : z ≠ 0) :
    Normal ((z.natAbs.log2 : Int) - 52) (UnpackedFloat.ofInt Format.binary64 z) := by
  unfold UnpackedFloat.ofInt UnpackedFloat.normalize
  split
  · rename_i hlt
    have hneg : z < 0 := Int.compare_eq_lt.mp hlt
    have habs : z.natAbs = (-z).toNat := by omega
    rw [habs]
    exact normal_round .negative (by omega)
  · rename_i heq
    exact absurd (Int.compare_eq_eq.mp heq) hz
  · rename_i hgt
    have hpos : 0 < z := Int.compare_eq_gt.mp hgt
    have habs : z.natAbs = z.toNat := by omega
    rw [habs]
    exact normal_round .positive (by omega)

/-- A word other than zero is an infinity or a number whose exponent grows with it. -/
theorem unpack_double {n : Int64} (hn : n ≠ 0) :
    (∃ s, (double n).toModel.unpack = .infinity s) ∨
      ∃ s m e h, (double n).toModel.unpack = .finite s m e h ∧
        (n.toInt.natAbs.log2 : Int) - 52 ≤ e := by
  have hz : n.toInt ≠ 0 := fun hz => hn (Int64.toInt_inj.mp hz)
  exact unpack_pack_of_normal (by omega) (normal_ofInt hz)

/-- Nothing but a zero compares equal to zero. -/
theorem eq_zero_of_beq {x : UnpackedFloat} (h : x.beq (.zero .positive) = true) :
    ∃ s, x = .zero s := by
  cases x with
  | zero s => exact ⟨s, rfl⟩
  | infinity s => cases s <;> cases h
  | notANumber => cases h
  | finite s m e hm => cases s <;> cases h

/-- What compares equal to a positive number is one with the same exponent. -/
theorem eq_finite_of_beq {x : UnpackedFloat} {m : Nat} {e : Int} {hm : 0 < m}
    (h : x.beq (.finite .positive m e hm) = true) : ∃ m' h', x = .finite .positive m' e h' := by
  cases x with
  | zero s => cases h
  | infinity s => cases s <;> cases h
  | notANumber => cases h
  | finite s m' e' hm' =>
      cases s with
      | negative => cases h
      | positive =>
          have heq : (compare e' e).then (compare m' m) = .eq := Option.some.inj (eq_of_beq h)
          obtain rfl : e' = e := Int.compare_eq_eq.mp (Ordering.then_eq_eq.mp heq).1
          exact ⟨m', hm', rfl⟩

/-- **Only zero is zero as a double.** -/
theorem double_beq_zero_iff (n : Int64) : (double n == 0) = true ↔ n = 0 := by
  constructor
  · intro h
    by_contra hn
    obtain ⟨s, hs⟩ := eq_zero_of_beq (x := (double n).toModel.unpack) h
    rcases unpack_double hn with ⟨s', h'⟩ | ⟨s', m, e, hm, h', -⟩
    · rw [hs] at h'
      cases h'
    · rw [hs] at h'
      cases h'
  · rintro rfl
    rfl

/-- **Only one is one as a double**: a larger magnitude has a larger exponent. -/
theorem double_beq_one_iff (n : Int64) : (double n == 1) = true ↔ n = 1 := by
  constructor
  · intro h
    have hone : (1 : Float).toModel.unpack = .finite .positive (2 ^ 52) (-52) (by decide) := rfl
    have hbeq : (double n).toModel.unpack.beq (1 : Float).toModel.unpack = true := h
    rw [hone] at hbeq
    obtain ⟨m, hm, heq⟩ := eq_finite_of_beq hbeq
    have hn : n ≠ 0 := by
      rintro rfl
      cases h
    rcases unpack_double hn with ⟨s, h'⟩ | ⟨s, m', e, hm', h', he⟩
    · rw [heq] at h'
      cases h'
    · rw [heq] at h'
      cases h'
      have hz : n.toInt ≠ 0 := fun hz => hn (Int64.toInt_inj.mp hz)
      have hlt : n.toInt.natAbs < 2 ^ 1 := (Nat.log2_lt (by omega)).mp (by omega)
      have hunit : n.toInt = Int64.toInt 1 ∨ n.toInt = Int64.toInt (-1) := by
        show n.toInt = 1 ∨ n.toInt = -1
        omega
      rcases hunit with hpos | hneg
      · exact Int64.toInt_inj.mp hpos
      · obtain rfl := Int64.toInt_inj.mp hneg
        cases h
  · rintro rfl
    rfl

end TinyLisp.Numeral
