/-
Sums, products and differences of integers.

A list of integers is combined from the left on words, and the whole operation goes
over to doubles as soon as one step overflows.  So the result is an integer exactly
if every running result, computed without a bound, fits a word, and then it is the
exact result: `ExactWhen`.  The running results are those of the prefixes of the list,
which is how the condition is written; the induction is over the list with the
accumulator free, and the step is the exactness of one operation on words.

Subtraction follows the same pattern with one gap.  A least word that is subtracted
sends the operation to doubles even where every running difference fits, and
`staysExact_iff` says that nothing else does.
-/
import TinyLisp.Proofs.Arithmetic.Words

namespace TinyLisp.Arithmetic

open Numeral

/-! ### Folding words -/

/-- The operation on words does what the one on integers does wherever the result is a word,
for second operands that it takes, and refuses everything else. -/
def Computes (op : Int64 → Int64 → Option Int64) (takes : Int64 → Prop) (f : Int → Int → Int) :
    Prop :=
  ∀ x y w, op x y = some w ↔ takes y ∧ w.toInt = f x.toInt y.toInt

theorem computes_add? : Computes add? (fun _ => True) (· + ·) := by
  intro x y w
  rw [add?_eq, word?_eq_some_iff, true_and]

theorem computes_mul? : Computes mul? (fun _ => True) (· * ·) := by
  intro x y w
  rw [mul?_eq, word?_eq_some_iff, true_and]

theorem computes_sub? : Computes sub? (· ≠ Int64.minValue) (· - ·) := by
  intro x y w
  by_cases h : y = Int64.minValue
  · rw [h, sub?_least]
    simp
  · rw [sub?_eq h, word?_eq_some_iff]
    simp [h]

/-- **Words combine to the exact result as long as every running result fits.** -/
theorem foldWords?_eq_some_iff {op : Int64 → Int64 → Option Int64} {takes : Int64 → Prop}
    {f : Int → Int → Int} (hop : Computes op takes f) {w : Int64} (ns : List Int64) :
    ∀ acc : Int64, foldWords? op acc ns = some w ↔
      ((∀ n ∈ ns, takes n) ∧ ∀ p, p <+: ns → Fits (exactly f acc.toInt p)) ∧
        w.toInt = exactly f acc.toInt ns := by
  induction ns with
  | nil =>
      intro acc
      simp [foldWords?, fits_toInt, ← Int64.toInt_inj, eq_comm]
  | cons n rest ih =>
      intro acc
      rw [foldWords?]
      cases hstep : op acc n with
      | none =>
          refine ⟨fun h => by simp at h, ?_⟩
          rintro ⟨⟨htakes, hfits⟩, -⟩
          -- a running result that fits would have been computed
          obtain ⟨next, hnext⟩ := (hfits [n] ⟨rest, rfl⟩).exists_word
          have hsome := (hop acc n next).mpr ⟨htakes n (by simp), hnext⟩
          rw [hstep] at hsome
          simp at hsome
      | some next =>
          obtain ⟨hn, hnext⟩ := (hop acc n next).mp hstep
          have hprefixes : (∀ p, p <+: n :: rest → Fits (exactly f acc.toInt p)) ↔
              ∀ p, p <+: rest → Fits (exactly f next.toInt p) := by
            rw [hnext]
            constructor
            · intro h p hp
              exact h (n :: p) ((List.prefix_cons_inj n).mpr hp)
            · intro h p hp
              rcases List.prefix_cons_iff.mp hp with rfl | ⟨q, rfl, hq⟩
              · exact fits_toInt acc
              · exact h q hq
          simp only [ih next, hprefixes, hnext, exactly_cons, List.forall_mem_cons, hn, true_and]

/-! ### Integers or doubles -/

/-- The value is an integer exactly if the condition holds, then with the exact value `z`, and
a double otherwise. -/
structure ExactWhen (fits : Prop) (z : Int) (v : Value) : Prop where
  int_iff : (∃ w, v = .int w) ↔ fits
  value_eq : ∀ w, v = .int w → w.toInt = z
  float : ¬fits → v.isFloat = true

@[simp] theorem ints?_map_int (ns : List Int64) : ints? (ns.map .int) = some ns := by
  induction ns with
  | nil => rfl
  | cons n rest ih => simp [ints?, ih]

/-- An operation on words that yields the exact result wherever the condition holds, and none
elsewhere, is exact when the condition holds. -/
theorem exactWhen_wordsOr {words : List Int64 → Option Int64} (ns : List Int64) {fits : Prop}
    {z : Int} (h : ∀ w, words ns = some w ↔ fits ∧ w.toInt = z) (hz : fits → Fits z)
    (x : Float) : ExactWhen fits z (wordsOr words (ns.map .int) x) := by
  unfold wordsOr
  rw [ints?_map_int, Option.bind_some]
  cases hw : words ns with
  | none =>
      have hnot : ¬fits := by
        intro hfits
        obtain ⟨w, hval⟩ := (hz hfits).exists_word
        have hsome := (h w).mpr ⟨hfits, hval⟩
        rw [hw] at hsome
        simp at hsome
      exact ⟨by simp [hnot], by simp, fun _ => rfl⟩
  | some n =>
      obtain ⟨hfits, hval⟩ := (h n).mp hw
      refine ⟨by simp [hfits], ?_, fun hnot => absurd hfits hnot⟩
      intro w hint
      obtain rfl : n = w := by simpa using hint
      exact hval

/-! ### Sums and products -/

theorem exactly_add (acc : Int) (ns : List Int64) :
    exactly (· + ·) acc ns = acc + (ns.map Int64.toInt).sum := by
  induction ns generalizing acc with
  | nil => simp
  | cons n rest ih => simp [ih, Int.add_assoc]

theorem exactly_mul (acc : Int) (ns : List Int64) :
    exactly (· * ·) acc ns = acc * (ns.map Int64.toInt).prod := by
  induction ns generalizing acc with
  | nil => simp
  | cons n rest ih => simp [ih, Int.mul_assoc]

/-- **Sums and products of integers are exact or doubles.**  The sum is an integer exactly if
all sums of prefixes fit a word, the product exactly if all products of prefixes do, and the
integer is then the exact one. -/
theorem sum_product_exact (ns : List Int64) :
    ExactWhen (∀ p, p <+: ns → Fits (p.map Int64.toInt).sum) (ns.map Int64.toInt).sum
        (sum (ns.map .int)) ∧
      ExactWhen (∀ p, p <+: ns → Fits (p.map Int64.toInt).prod) (ns.map Int64.toInt).prod
        (product (ns.map .int)) := by
  constructor
  · refine exactWhen_wordsOr ns ?_ (fun h => h ns (List.prefix_refl ns)) _
    intro w
    simp [foldWords?_eq_some_iff computes_add?, exactly_add]
  · refine exactWhen_wordsOr ns ?_ (fun h => h ns (List.prefix_refl ns)) _
    intro w
    simp [foldWords?_eq_some_iff computes_mul?, exactly_mul]

/-! ### Differences -/

theorem exactly_sub (acc : Int) (ns : List Int64) :
    exactly (· - ·) acc ns = acc - (ns.map Int64.toInt).sum := by
  induction ns generalizing acc with
  | nil => simp
  | cons n rest ih =>
      simp only [exactly_cons, ih, List.map_cons, List.sum_cons]
      omega

/-- Every running difference fits a word. -/
def DifferencesFit (a : Int64) (ds : List Int64) : Prop :=
  ∀ p, p <+: ds → Fits (a.toInt - (p.map Int64.toInt).sum)

theorem negate_exact (a : Int64) :
    ExactWhen (Fits (-a.toInt)) (-a.toInt) (difference (.int a) []) := by
  show ExactWhen _ _ (if a = Int64.minValue then _ else _)
  by_cases h : a = Int64.minValue
  · have hnot : ¬Fits (-a.toInt) := by
      rw [h]
      decide
    rw [if_pos h]
    exact ⟨by simp [hnot], by simp, fun _ => rfl⟩
  · have hval := toInt_neg_of_ne_least h
    have hfits : Fits (-a.toInt) := by
      rw [← hval]
      exact fits_toInt (-a)
    rw [if_neg h]
    refine ⟨by simp [hfits], ?_, fun hnot => absurd hfits hnot⟩
    intro w hw
    obtain rfl : -a = w := by simpa using hw
    exact hval

/-- What a subtraction of at least one integer yields: an integer exactly if every running
difference fits and the least word is not subtracted. -/
theorem difference_exact (a : Int64) {ds : List Int64} (hds : ds ≠ []) :
    ExactWhen (Int64.minValue ∉ ds ∧ DifferencesFit a ds) (a.toInt - (ds.map Int64.toInt).sum)
      (difference (.int a) (ds.map .int)) := by
  have hne : (ds.map Value.int).isEmpty = false := by
    cases ds with
    | nil => exact absurd rfl hds
    | cons d rest => rfl
  unfold difference
  rw [hne, if_neg (by simp)]
  refine exactWhen_wordsOr (a :: ds) ?_ (fun h => h.2 ds (List.prefix_refl ds)) _
  intro w
  show foldWords? sub? a ds = some w ↔ _
  rw [foldWords?_eq_some_iff computes_sub?]
  simp only [exactly_sub, DifferencesFit]
  have hmem : (∀ n ∈ ds, n ≠ Int64.minValue) ↔ Int64.minValue ∉ ds := by
    constructor
    · intro h hleast
      exact h _ hleast rfl
    · rintro h n hn rfl
      exact h hn
  rw [hmem]

/-- Subtraction is exact as long as nothing overflows: the opposite of a single integer, and the
first integer less all others, wherever every running difference fits. -/
def StaysExact (a : Int64) (ds : List Int64) : Prop :=
  if ds = [] then ExactWhen (Fits (-a.toInt)) (-a.toInt) (difference (.int a) [])
  else ExactWhen (DifferencesFit a ds) (a.toInt - (ds.map Int64.toInt).sum)
    (difference (.int a) (ds.map .int))

/-- **Subtraction stays exact unless the least word is subtracted without an overflow.**  In that
one case the result is a double although every running difference fits. -/
theorem staysExact_iff (a : Int64) (ds : List Int64) :
    (StaysExact a ds ↔ ¬(Int64.minValue ∈ ds ∧ DifferencesFit a ds)) ∧
      (Int64.minValue ∈ ds ∧ DifferencesFit a ds →
        (difference (.int a) (ds.map .int)).isFloat = true) := by
  unfold StaysExact
  by_cases hds : ds = []
  · subst hds
    simp [negate_exact]
  · have hexact := difference_exact a hds
    rw [if_neg hds]
    by_cases hgap : Int64.minValue ∈ ds ∧ DifferencesFit a ds
    · have hfloat := hexact.float fun h => h.1 hgap.1
      refine ⟨⟨?_, fun h => absurd hgap h⟩, fun _ => hfloat⟩
      intro hstays
      obtain ⟨w, hw⟩ := hstays.int_iff.mpr hgap.2
      rw [hw] at hfloat
      cases hfloat
    · have hsame : (Int64.minValue ∉ ds ∧ DifferencesFit a ds) ↔ DifferencesFit a ds :=
        ⟨And.right, fun hfit => ⟨fun hleast => hgap ⟨hleast, hfit⟩, hfit⟩⟩
      rw [propext hsame] at hexact
      exact ⟨⟨fun _ => hgap, fun _ => hexact⟩, fun h => absurd h hgap⟩

/-- The least word subtracted from −1 is the greatest word, but comes out as a double. -/
theorem not_staysExact_least : ¬StaysExact (-1) [Int64.minValue] := by
  intro h
  have hfits : DifferencesFit (-1) [Int64.minValue] := by
    intro p hp
    rcases List.prefix_cons_iff.mp hp with rfl | ⟨q, rfl, hq⟩
    · decide
    · obtain rfl := List.prefix_nil.mp hq
      decide
  have hfloat : (difference (.int (-1)) [.int Int64.minValue]).isFloat = true := rfl
  rw [StaysExact, if_neg (by simp)] at h
  obtain ⟨w, hw⟩ := h.int_iff.mpr hfits
  rw [List.map_singleton] at hw
  rw [hw] at hfloat
  cases hfloat

end TinyLisp.Arithmetic
