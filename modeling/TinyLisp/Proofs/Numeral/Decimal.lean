/-
Decimal integers read back.

`signed` writes a word in base ten and `integer?` reads the word back.  Writing puts
the last digit behind the digits of the rest and reading goes from the left, so the
induction is on the number and takes the last digit off (`natural?_decimal`).  The
sign is looked at first: a digit is no sign, so a text without one is read as it is.

A written integer also begins like a number, which is the test that a word has to
pass before it is read as one at all.
-/
import TinyLisp.Token.Lexer

namespace TinyLisp.Numeral

/-! ### Digits -/

theorem isDigit_digit {n : Nat} (h : n < 10) : Byte.isDigit (UInt8.ofNat (48 + n)) = true := by
  have hall : ∀ k : Fin 10, Byte.isDigit (UInt8.ofNat (48 + k.val)) = true := by decide
  exact hall ⟨n, h⟩

theorem digitValue_digit {n : Nat} (h : n < 10) : Byte.digitValue (UInt8.ofNat (48 + n)) = n := by
  have hall : ∀ k : Fin 10, Byte.digitValue (UInt8.ofNat (48 + k.val)) = k.val := by decide
  exact hall ⟨n, h⟩

theorem decimal_ne_nil (n : Nat) : decimal n ≠ [] := by
  rw [decimal]
  split <;> simp

theorem isDigit_of_mem_decimal (n : Nat) : ∀ b ∈ decimal n, Byte.isDigit b = true := by
  induction n using Nat.strongRecOn with
  | _ n ih =>
      intro b hb
      rw [decimal] at hb
      by_cases h : n < 10
      · rw [if_pos h, List.mem_singleton] at hb
        rw [hb]
        exact isDigit_digit h
      · rw [if_neg h, List.mem_append, List.mem_singleton] at hb
        rcases hb with hb | hb
        · exact ih (n / 10) (by omega) b hb
        · rw [hb]
          exact isDigit_digit (Nat.mod_lt _ (by decide))

/-! ### Reading digits -/

theorem naturalFrom?_append (acc : Nat) (s t : Bytes) :
    naturalFrom? acc (s ++ t) = (naturalFrom? acc s).bind (naturalFrom? · t) := by
  induction s generalizing acc with
  | nil => rfl
  | cons b s ih =>
      rw [List.cons_append, naturalFrom?, naturalFrom?]
      by_cases h : Byte.isDigit b = true
      · rw [if_pos h, if_pos h, ih]
      · rw [if_neg h, if_neg h]
        rfl

theorem naturalFrom?_digit (acc : Nat) {n : Nat} (h : n < 10) :
    naturalFrom? acc [UInt8.ofNat (48 + n)] = some (acc * 10 + n) := by
  rw [naturalFrom?, if_pos (isDigit_digit h), digitValue_digit h]
  rfl

theorem naturalFrom?_decimal (n : Nat) : naturalFrom? 0 (decimal n) = some n := by
  induction n using Nat.strongRecOn with
  | _ n ih =>
      rw [decimal]
      by_cases h : n < 10
      · rw [if_pos h, naturalFrom?_digit 0 h, Nat.zero_mul, Nat.zero_add]
      · have hlast : n % 10 < 10 := Nat.mod_lt _ (by decide)
        rw [if_neg h, naturalFrom?_append, ih (n / 10) (by omega), Option.bind_some,
          naturalFrom?_digit _ hlast]
        congr 1
        omega

/-- A natural number reads back from its digits. -/
theorem natural?_decimal (n : Nat) : natural? (decimal n) = some n := by
  have hfrom := naturalFrom?_decimal n
  cases hd : decimal n with
  | nil => exact absurd hd (decimal_ne_nil n)
  | cons b s =>
      rw [hd] at hfrom
      exact hfrom

/-! ### Signs -/

/-- A digit is no sign. -/
theorem takeSign_digit {b : UInt8} (h : Byte.isDigit b = true) (rest : Bytes) :
    takeSign (b :: rest) = (false, b :: rest) := by
  have hminus : b ≠ Byte.minus := by
    rintro rfl
    exact absurd h (by decide)
  have hplus : b ≠ Byte.plus := by
    rintro rfl
    exact absurd h (by decide)
  rw [takeSign, if_neg hminus, if_neg hplus]

/-- The digits of a number begin with a digit. -/
theorem decimal_eq_cons (n : Nat) :
    ∃ b rest, decimal n = b :: rest ∧ Byte.isDigit b = true := by
  cases hd : decimal n with
  | nil => exact absurd hd (decimal_ne_nil n)
  | cons b rest => exact ⟨b, rest, rfl, isDigit_of_mem_decimal n b (by simp [hd])⟩

theorem takeSign_decimal (n : Nat) : takeSign (decimal n) = (false, decimal n) := by
  obtain ⟨b, rest, hd, hb⟩ := decimal_eq_cons n
  rw [hd]
  exact takeSign_digit hb rest

/-- Taking the sign off a written integer leaves its digits. -/
theorem takeSign_signed (z : Int) : takeSign (signed z) = (decide (z < 0), decimal z.natAbs) := by
  unfold signed
  by_cases h : z < 0
  · rw [if_pos h, takeSign, if_pos rfl]
    simp [h]
  · rw [if_neg h, takeSign_decimal]
    simp [h]

/-! ### Words -/

theorem fits_toInt (n : Int64) : Fits n.toInt := by
  have hlo := Int64.le_toInt n
  have hhi := Int64.toInt_lt n
  unfold Fits
  constructor <;> omega

theorem word?_toInt (n : Int64) : word? n.toInt = some n := by
  rw [word?, if_pos (fits_toInt n), Int64.ofInt_toInt]

/-- **A word reads back from its decimal text.** -/
theorem integer?_signed (n : Int64) : integer? (signed n.toInt) = some n := by
  unfold integer?
  rw [takeSign_signed]
  simp only [natural?_decimal]
  have hval : (if decide (n.toInt < 0) = true then -(n.toInt.natAbs : Int) else n.toInt.natAbs)
      = n.toInt := by
    by_cases h : n.toInt < 0
    · simp only [h, decide_true, if_true]
      omega
    · simp only [h, decide_false, Bool.false_eq_true, if_false]
      omega
  rw [hval, word?_toInt]

/-- A written integer begins like a number. -/
theorem looksNumeric_signed (z : Int) : Piece.looksNumeric (signed z) = true := by
  unfold Piece.looksNumeric
  obtain ⟨b, rest, hd, hb⟩ := decimal_eq_cons z.natAbs
  have hdot : b ≠ Byte.dot := by
    rintro rfl
    exact absurd hb (by decide)
  simp only [takeSign_signed, hd]
  cases rest with
  | nil => exact hb
  | cons c rest =>
      simp only [if_neg hdot]
      exact hb

/-- The bytes of a written integer are digits and the minus sign. -/
theorem mem_signed {z : Int} {b : UInt8} (h : b ∈ signed z) :
    b = Byte.minus ∨ Byte.isDigit b = true := by
  unfold signed at h
  by_cases hz : z < 0
  · rw [if_pos hz, List.mem_cons] at h
    exact h.imp_right (isDigit_of_mem_decimal _ b)
  · rw [if_neg hz] at h
    exact Or.inr (isDigit_of_mem_decimal _ b h)

theorem signed_ne_nil (z : Int) : signed z ≠ [] := by
  unfold signed
  by_cases hz : z < 0
  · rw [if_pos hz]
    simp
  · rw [if_neg hz]
    exact decimal_ne_nil _

end TinyLisp.Numeral
