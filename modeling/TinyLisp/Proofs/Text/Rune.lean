/-
Line feeds and cuts among the characters of a byte string.

A line ends where a line feed is read as a character, and a line feed is a byte that
no longer character contains: all bytes of a longer one are at least 80, and so is its
code point.  Reading a byte string as characters therefore neither hides a line feed
nor makes one up, whether or not the rest is well formed.

A byte string can be cut in front of any byte with which no character goes on, and that
is every byte below 80.  The characters of the two parts are then those of the whole, so
they can be counted part by part.
-/
import TinyLisp.Text.Rune

namespace TinyLisp.Rune

/-- The character that ends a line. -/
abbrev newline : Rune := .char '\n'

theorem ofNat_ne_newline {n : Nat} (h : n ≠ 10) : Char.ofNat n ≠ '\n' := by
  intro hc
  unfold Char.ofNat at hc
  by_cases hv : n.isValidChar
  · rw [dif_pos hv] at hc
    exact h (congrArg Char.toNat hc)
  · rw [dif_neg hv] at hc
    cases hc

theorem ne_lineFeed_of_isTail {b : UInt8} (h : isTail b = true) : b ≠ Byte.lineFeed := by
  rintro rfl
  exact absurd h (by decide)

/-! ### A longer character has no line feed in it -/

theorem pair?_clean {a b : UInt8} {ch : Char} (h : pair? a b = some ch) :
    ch ≠ '\n' ∧ b ≠ Byte.lineFeed := by
  unfold pair? at h
  split at h
  · rename_i hc
    simp only [Bool.and_eq_true, decide_eq_true_eq] at hc
    obtain ⟨⟨hlow, -⟩, htail⟩ := hc
    have ha : 0xC2 ≤ a.toNat := UInt8.le_iff_toNat_le.mp hlow
    obtain rfl := Option.some.inj h
    exact ⟨ofNat_ne_newline (by omega), ne_lineFeed_of_isTail htail⟩
  · cases h

theorem triple?_clean {a b c : UInt8} {ch : Char} (h : triple? a b c = some ch) :
    ch ≠ '\n' ∧ b ≠ Byte.lineFeed ∧ c ≠ Byte.lineFeed := by
  simp only [triple?] at h
  split at h
  · rename_i hc
    simp only [Bool.and_eq_true, decide_eq_true_eq] at hc
    obtain ⟨⟨⟨⟨-, hb⟩, hc'⟩, hlow⟩, -⟩ := hc
    obtain rfl := Option.some.inj h
    exact ⟨ofNat_ne_newline (by omega), ne_lineFeed_of_isTail hb, ne_lineFeed_of_isTail hc'⟩
  · cases h

theorem quadruple?_clean {a b c d : UInt8} {ch : Char} (h : quadruple? a b c d = some ch) :
    ch ≠ '\n' ∧ b ≠ Byte.lineFeed ∧ c ≠ Byte.lineFeed ∧ d ≠ Byte.lineFeed := by
  simp only [quadruple?] at h
  split at h
  · rename_i hc
    simp only [Bool.and_eq_true, decide_eq_true_eq] at hc
    obtain ⟨⟨⟨⟨⟨-, hb⟩, hc'⟩, hd⟩, hlow⟩, -⟩ := hc
    obtain rfl := Option.some.inj h
    exact ⟨ofNat_ne_newline (by omega), ne_lineFeed_of_isTail hb, ne_lineFeed_of_isTail hc',
      ne_lineFeed_of_isTail hd⟩
  · cases h

/-- Neither the character nor the bytes that belong to it are a line feed. -/
theorem longer?_clean {a : UInt8} {rest : Bytes} {ch : Char} {width : Nat}
    (h : longer? a rest = some (ch, width)) :
    ch ≠ '\n' ∧ ∀ b ∈ rest.take width, b ≠ Byte.lineFeed := by
  unfold longer? at h
  split at h
  · cases h
  · split at h
    · rename_i hp
      obtain ⟨rfl, rfl⟩ := Prod.mk.inj (Option.some.inj h)
      obtain ⟨hch, hb⟩ := pair?_clean hp
      exact ⟨hch, by simpa using hb⟩
    · cases h
    · split at h
      · rename_i ht
        obtain ⟨rfl, rfl⟩ := Prod.mk.inj (Option.some.inj h)
        obtain ⟨hch, hb, hc⟩ := triple?_clean ht
        exact ⟨hch, by simpa using ⟨hb, hc⟩⟩
      · cases h
      · obtain ⟨ch', hq, he⟩ := Option.map_eq_some_iff.mp h
        obtain ⟨rfl, rfl⟩ := Prod.mk.inj he
        obtain ⟨hch, hb, hc, hd⟩ := quadruple?_clean hq
        exact ⟨hch, by simpa using ⟨hb, hc, hd⟩⟩

/-! ### Counting -/

theorem ascii_newline_iff (a : UInt8) : Char.ofNat a.toNat = '\n' ↔ a = Byte.lineFeed := by
  constructor
  · intro h
    by_cases hn : a.toNat = 10
    · exact UInt8.toNat_inj.mp hn
    · exact absurd h (ofNat_ne_newline hn)
  · rintro rfl
    rfl

/-- The bytes that are skipped belong to a character that has been counted as none already. -/
theorem count_decodeAfter (s : Bytes) :
    ∀ skip, (∀ b ∈ s.take skip, b ≠ Byte.lineFeed) →
      (decodeAfter skip s).count newline = s.count Byte.lineFeed := by
  induction s with
  | nil =>
      intro skip _
      cases skip with
      | zero => rfl
      | succ skip => rfl
  | cons a rest ih =>
      intro skip h
      cases skip with
      | succ skip =>
          have ha : a ≠ Byte.lineFeed := h a (by simp)
          rw [decodeAfter, ih skip (fun b hb => h b (by simp [hb])),
            List.count_cons_of_ne ha]
      | zero =>
          rw [decodeAfter]
          by_cases hlow : a < 0x80
          · rw [if_pos hlow, List.count_cons, List.count_cons, ih 0 (by simp)]
            simp [ascii_newline_iff]
          · have ha : a ≠ Byte.lineFeed := by
              rintro rfl
              exact hlow (by decide)
            rw [if_neg hlow, List.count_cons_of_ne ha]
            split
            · rename_i ch width hl
              obtain ⟨hch, hbytes⟩ := longer?_clean hl
              rw [List.count_cons_of_ne (by simpa using hch), ih width hbytes]
            · rw [List.count_cons_of_ne (by simp), ih 0 (by simp)]

/-- **As many line feeds are read as there are.** -/
theorem count_decode (s : Bytes) : (decode s).count newline = s.count Byte.lineFeed :=
  count_decodeAfter s 0 (by simp)

/-! ### Where one character ends and another begins -/

/-- No character goes on at the beginning of these bytes. -/
def Boundary (t : Bytes) : Prop := ∀ b ∈ t.head?, isTail b = false

theorem boundary_cons {b : UInt8} (hb : b < 0x80) (t : Bytes) : Boundary (b :: t) := by
  intro c hc
  obtain rfl : b = c := by simpa using hc
  have hlow : ¬ 0x80 ≤ b := by simpa using hb
  simp [isTail, hlow]

theorem pair?_of_not_isTail (a : UInt8) {b : UInt8} (h : isTail b = false) :
    pair? a b = none := by
  simp [pair?, h]

theorem triple?_of_not_isTail (a : UInt8) {b c : UInt8}
    (h : isTail b = false ∨ isTail c = false) : triple? a b c = none := by
  rcases h with h | h <;> simp [triple?, h]

theorem quadruple?_of_not_isTail (a : UInt8) {b c d : UInt8}
    (h : isTail b = false ∨ isTail c = false ∨ isTail d = false) : quadruple? a b c d = none := by
  rcases h with h | h | h <;> simp [quadruple?, h]

/-- A character has at most four bytes, and none of them starts another one. -/
theorem longer?_append {a : UInt8} {t : Bytes} (ht : Boundary t) (rest : Bytes) :
    longer? a (rest ++ t) = longer? a rest := by
  rcases t with _ | ⟨e, t⟩
  · rw [List.append_nil]
  have he : isTail e = false := ht e (by simp)
  rcases rest with _ | ⟨b, _ | ⟨c, _ | ⟨d, rest⟩⟩⟩
  · have hpair := pair?_of_not_isTail a he
    rcases t with _ | ⟨c, _ | ⟨d, t⟩⟩ <;>
      simp [longer?, hpair, triple?_of_not_isTail a (.inl he), quadruple?_of_not_isTail a (.inl he)]
  · rcases hb : pair? a b with _ | ch
    · rcases t with _ | ⟨d, t⟩ <;>
        simp [longer?, hb, triple?_of_not_isTail a (.inr he),
          quadruple?_of_not_isTail a (.inr (.inl he))]
    · simp [longer?, hb]
  · rcases hb : pair? a b with _ | ch
    · rcases hc : triple? a b c with _ | ch
      · simp [longer?, hb, hc, quadruple?_of_not_isTail a (.inr (.inr he))]
      · simp [longer?, hb, hc]
    · simp [longer?, hb]
  · rcases hb : pair? a b with _ | ch
    · rcases hc : triple? a b c with _ | ch <;> simp [longer?, hb, hc]
    · simp [longer?, hb]

/-- The bytes that belong to a character are there. -/
theorem longer?_width {a : UInt8} {rest : Bytes} {ch : Char} {width : Nat}
    (h : longer? a rest = some (ch, width)) : width ≤ rest.length := by
  unfold longer? at h
  split at h
  · cases h
  · split at h
    · obtain ⟨rfl, rfl⟩ := Prod.mk.inj (Option.some.inj h)
      simp
    · cases h
    · split at h
      · obtain ⟨rfl, rfl⟩ := Prod.mk.inj (Option.some.inj h)
        simp
      · cases h
      · obtain ⟨ch', -, he⟩ := Option.map_eq_some_iff.mp h
        obtain ⟨rfl, rfl⟩ := Prod.mk.inj he
        simp

/-- The bytes that are skipped are bytes of the first part. -/
theorem decodeAfter_append {t : Bytes} (ht : Boundary t) (s : Bytes) :
    ∀ skip ≤ s.length, decodeAfter skip (s ++ t) = decodeAfter skip s ++ decode t := by
  induction s with
  | nil =>
      intro skip hskip
      obtain rfl : skip = 0 := by simpa using hskip
      rfl
  | cons a rest ih =>
      intro skip hskip
      cases skip with
      | succ skip => exact ih skip (by simpa using hskip)
      | zero =>
          rw [List.cons_append, decodeAfter, decodeAfter, longer?_append ht]
          by_cases hlow : a < 0x80
          · rw [if_pos hlow, if_pos hlow, ih 0 (by simp), List.cons_append]
          · rw [if_neg hlow, if_neg hlow]
            rcases hl : longer? a rest with _ | ⟨ch, width⟩
            · simp [ih 0]
            · simp [ih width (longer?_width hl)]

/-- **Where a character begins, a text can be cut**: the runes of both parts are its runes. -/
theorem decode_append {t : Bytes} (ht : Boundary t) (s : Bytes) :
    decode (s ++ t) = decode s ++ decode t :=
  decodeAfter_append ht s 0 (by simp)

theorem decode_ascii {b : UInt8} (hb : b < 0x80) (t : Bytes) :
    decode (b :: t) = .char (Char.ofNat b.toNat) :: decode t := by
  unfold decode
  rw [decodeAfter, if_pos hb]

end TinyLisp.Rune
