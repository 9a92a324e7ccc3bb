/-
Division of integers.

The first integer is divided by the others one after another.  A divisor is compared
with zero as a double before it divides anything, and since only the word zero is zero
as a double, the division is undefined exactly if a divisor is zero, wherever it
stands and whatever has become of the dividend by then.

Without a zero every step floors, unless it divides the least word by −1, which is the
one quotient that is no word.  Floors in a row are one floor: as long as all divisors
after the first are positive, the result is the first integer divided by the exact
product of all divisors, which need not be a word at all.
-/
import TinyLisp.Proofs.Arithmetic.Words
import TinyLisp.Proofs.Numeral.Double

namespace TinyLisp.Arithmetic

open Numeral

/-! ### Undefined -/

theorem isZero_int_iff (n : Int64) : isZero (.int n) = true ↔ n = 0 := double_beq_zero_iff n

/-- A step that divides by an integer other than zero yields a number. -/
theorem divide_isNumber (acc : Value) {d : Int64} (hd : d ≠ 0) :
    ∃ q, divide acc (.int d) = .ok q ∧ q.isNumber = true := by
  unfold divide
  split
  · rename_i m n heq
    obtain rfl : d = n := by simpa using heq
    rw [if_neg hd]
    split
    · exact ⟨_, rfl, rfl⟩
    · exact ⟨_, rfl, rfl⟩
  · exact ⟨_, rfl, rfl⟩

theorem quotient_zero (acc : Value) (rest : List Value) :
    quotient acc (.int 0 :: rest) = .ok undefinedText := by
  rw [quotient, if_pos ((isZero_int_iff 0).mpr rfl)]

theorem quotient_step {acc q : Value} {d : Int64} (hd : d ≠ 0)
    (hq : divide acc (.int d) = .ok q) (rest : List Value) :
    quotient acc (.int d :: rest) = quotient q rest := by
  rw [quotient, if_neg (fun h => hd ((isZero_int_iff d).mp h)), hq]

theorem quotient_undefined_iff (ds : List Int64) :
    ∀ acc : Value, acc.isNumber = true →
      (quotient acc (ds.map .int) = .ok undefinedText ↔ 0 ∈ ds) := by
  induction ds with
  | nil =>
      intro acc hacc
      simp only [List.map_nil, quotient, Except.ok.injEq, List.not_mem_nil, iff_false]
      rintro rfl
      cases hacc
  | cons d rest ih =>
      intro acc hacc
      rw [List.map_cons]
      by_cases hd : d = 0
      · subst hd
        simp [quotient_zero]
      · obtain ⟨q, hq, hnumber⟩ := divide_isNumber acc hd
        rw [quotient_step hd hq, ih q hnumber, List.mem_cons]
        exact ⟨.inr, fun h => h.resolve_left fun hzero => hd hzero.symm⟩

/-! ### Floors -/

/-- No step divides the least word by −1. -/
def StepsFit (a : Int64) (ds : List Int64) : Prop :=
  ∀ p d, p ++ [d] <+: ds → ¬(exactly Int.fdiv a.toInt p = Int64.minValue.toInt ∧ d = -1)

/-- Without a zero and without an overflow every step floors. -/
theorem quotient_floors (ds : List Int64) :
    ∀ a : Int64, 0 ∉ ds → StepsFit a ds →
      ∃ q : Int64, quotient (.int a) (ds.map .int) = .ok (.int q) ∧
        q.toInt = exactly Int.fdiv a.toInt ds := by
  induction ds with
  | nil =>
      intro a _ _
      exact ⟨a, rfl, rfl⟩
  | cons d rest ih =>
      intro a hzero hfit
      obtain ⟨hd, hrest⟩ : d ≠ 0 ∧ 0 ∉ rest := by
        simpa [eq_comm] using hzero
      have hfirst : ¬(a = Int64.minValue ∧ d = -1) := by
        rw [← Int64.toInt_inj]
        exact hfit [] d ⟨rest, rfl⟩
      obtain ⟨next, hnext, hval⟩ := exists_floorDiv? hd hfirst
      have hdivide : divide (.int a) (.int d) = .ok (.int next) := by
        simp [divide, hd, hnext]
      have hfit' : StepsFit next rest := by
        intro p d' hp
        rw [hval]
        exact hfit (d :: p) d' ((List.prefix_cons_inj d).mpr hp)
      obtain ⟨q, hq, hqval⟩ := ih next hrest hfit'
      refine ⟨q, ?_, ?_⟩
      · rw [List.map_cons, quotient_step hd hdivide, hq]
      · rw [hqval, hval, exactly_cons]

/-- Floors in a row are one floor if the second divisor is not negative.  The first one may be:
turning both signs around changes neither side. -/
theorem fdiv_fdiv (a b : Int) {c : Int} (hc : 0 ≤ c) : (a.fdiv b).fdiv c = a.fdiv (b * c) := by
  have hnonneg : ∀ a b : Int, 0 ≤ b → (a.fdiv b).fdiv c = a.fdiv (b * c) := by
    intro a b hb
    rw [Int.fdiv_eq_ediv_of_nonneg a hb, Int.fdiv_eq_ediv_of_nonneg _ hc,
      Int.fdiv_eq_ediv_of_nonneg a (Int.mul_nonneg hb hc), Int.ediv_ediv_of_nonneg hb]
  rcases Int.le_total 0 b with hb | hb
  · exact hnonneg a b hb
  · have hflip := hnonneg (-a) (-b) (by omega)
    rwa [Int.neg_fdiv_neg, Int.neg_mul, Int.neg_fdiv_neg] at hflip

theorem exactly_fdiv (a : Int) (ds : List Int64) (hds : ∀ d ∈ ds, 0 < d) :
    ∀ b : Int, exactly Int.fdiv (a.fdiv b) ds = a.fdiv (b * (ds.map Int64.toInt).prod) := by
  induction ds with
  | nil =>
      intro b
      simp
  | cons d rest ih =>
      intro b
      obtain ⟨hd, hrest⟩ := List.forall_mem_cons.mp hds
      have hpos : 0 ≤ d.toInt := Int.le_of_lt (Int64.lt_iff_toInt_lt.mp hd)
      rw [exactly_cons, fdiv_fdiv a b hpos, ih hrest, List.map_cons, List.prod_cons, Int.mul_assoc]

/-- **Division is undefined exactly by zero and floors otherwise.**  Where no step divides the
least word by −1, the integers are floored one after another; where all divisors but the first
are positive too, that is the floor of one division by their exact product. -/
theorem quotient_exact (a : Int64) (ds : List Int64) :
    (quotient (.int a) (ds.map .int) = .ok (.text (utf8 "undefined")) ↔ 0 ∈ ds) ∧
      (0 ∉ ds → StepsFit a ds →
        ∃ q : Int64, quotient (.int a) (ds.map .int) = .ok (.int q) ∧
          q.toInt = exactly Int.fdiv a.toInt ds ∧
          ((∀ d ∈ ds.tail, 0 < d) → q.toInt = a.toInt.fdiv (ds.map Int64.toInt).prod)) := by
  refine ⟨quotient_undefined_iff ds (.int a) rfl, ?_⟩
  intro hzero hfit
  obtain ⟨q, hq, hval⟩ := quotient_floors ds a hzero hfit
  refine ⟨q, hq, hval, ?_⟩
  intro hpos
  rw [hval]
  cases ds with
  | nil => simp
  | cons d rest =>
      rw [exactly_cons, exactly_fdiv a.toInt rest hpos]
      rfl

/-- The greatest word by −3 and twice by 2 to the 40th: the product of the divisors is far beyond
a word, and the quotient still rounds down to −1. -/
theorem quotient_exact_beyondWords :
    ∃ q : Int64, quotient (.int Int64.maxValue) [.int (-3), .int 1099511627776, .int 1099511627776]
        = .ok (.int q) ∧ q.toInt = Int64.maxValue.toInt.fdiv (-3 * (1099511627776 * 1099511627776)) := by
  have hfit : StepsFit Int64.maxValue [-3, 1099511627776, 1099511627776] := by
    rintro p d hp ⟨-, rfl⟩
    have hmem : (-1 : Int64) ∈ [-3, 1099511627776, 1099511627776] := hp.subset (by simp)
    exact absurd hmem (by decide)
  obtain ⟨q, hq, -, hone⟩ :=
    (quotient_exact Int64.maxValue [-3, 1099511627776, 1099511627776]).2 (by decide) hfit
  refine ⟨q, hq, hone ?_⟩
  intro d hd
  obtain rfl : d = 1099511627776 := by simpa using hd
  decide

end TinyLisp.Arithmetic
