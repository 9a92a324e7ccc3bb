/-
Slugs are fit for file names, and no two chapters share one.

A slug that is taken is numbered until it is free.  The numbers never run out:
different numbers make different slugs, so among one more candidates than there are
slugs taken one is free, and the default that `freshSlug` falls back on is never
reached.  `freshSlug_probes` says so without the bound: the slug is the first
candidate of the endless row that is not taken.

What a title consists of plays no part in this.  A title that looks like a numbered
slug is one more slug that may be taken.
-/
import Mathlib.Data.List.Nodup
import Mathlib.Data.List.Perm.Subperm
import TinyLisp.Proofs.Numeral.Decimal
import TinyLisp.Registry.Chapter

namespace TinyLisp

/-! ### The alphabet of slugs -/

/-- A small letter, a digit, a dash or an underscore. -/
def Byte.isSlug (b : UInt8) : Bool :=
  (97 ≤ b && b ≤ 122) || Byte.isDigit b || b = Byte.minus || b = Byte.underscore

/-- A name made of bytes of slugs, at least one. -/
def IsSlug (slug : Bytes) : Prop := slug ≠ [] ∧ ∀ b ∈ slug, Byte.isSlug b = true

theorem isSlug_of_slugByte? {r : Rune} {b : UInt8} (h : slugByte? r = some b) :
    Byte.isSlug b = true := by
  unfold slugByte? at h
  split at h
  · -- a character that is kept passes the same test, and a space becomes a dash
    simp only at h
    split at h
    · cases h
    · split at h
      · obtain rfl := Option.some.inj h
        decide
      · split at h
        · rename_i hb
          obtain rfl := Option.some.inj h
          simpa [Byte.isSlug, Bool.or_assoc, or_assoc] using hb
        · cases h
  · cases h

theorem isSlug_slugify (title : Bytes) : IsSlug (slugify title) := by
  unfold slugify
  simp only
  split
  · exact ⟨by decide, by simpa using (by decide : (utf8 "chapter").all Byte.isSlug = true)⟩
  · rename_i hne
    refine ⟨by simpa using hne, ?_⟩
    intro b hb
    obtain ⟨r, -, hr⟩ := List.mem_filterMap.mp hb
    exact isSlug_of_slugByte? hr

theorem utf8_dash : utf8 "-" = [Byte.minus] := by decide

theorem IsSlug.numbered {slug : Bytes} (h : IsSlug slug) (n : Nat) :
    IsSlug (numberedSlug slug n) := by
  refine ⟨by simp [numberedSlug, h.1], ?_⟩
  intro b hb
  rw [numberedSlug, List.mem_append, List.mem_append] at hb
  rcases hb with (hb | hb) | hb
  · exact h.2 b hb
  · rw [utf8_dash, List.mem_singleton] at hb
    rw [hb]
    decide
  · simp [Byte.isSlug, Numeral.isDigit_of_mem_decimal n b hb]

/-! ### The row of candidates -/

/-- The slugs that are tried for a chapter, one after another. -/
def slugCandidate (slug : Bytes) : Nat → Bytes
  | 0 => slug
  | n + 1 => numberedSlug slug (n + 2)

theorem IsSlug.candidate {slug : Bytes} (h : IsSlug slug) (n : Nat) :
    IsSlug (slugCandidate slug n) := by
  cases n with
  | zero => exact h
  | succ n => exact h.numbered (n + 2)

theorem Numeral.decimal_injective : Function.Injective Numeral.decimal := by
  intro m n h
  have hm := Numeral.natural?_decimal m
  rw [h, Numeral.natural?_decimal] at hm
  exact (Option.some.inj hm).symm

theorem slugCandidate_injective (slug : Bytes) : Function.Injective (slugCandidate slug) := by
  have hlonger : ∀ n, slug ≠ numberedSlug slug n := by
    intro n h
    have hlen := congrArg List.length h
    simp [numberedSlug, utf8_dash] at hlen
  intro m n h
  cases m with
  | zero =>
      cases n with
      | zero => rfl
      | succ n => exact absurd h (hlonger (n + 2))
  | succ m =>
      cases n with
      | zero => exact absurd h.symm (hlonger (m + 2))
      | succ n =>
          have hdigits := List.append_cancel_left h
          have := Numeral.decimal_injective hdigits
          omega

/-- The first candidates, as the search for a free one goes through them. -/
theorem map_slugCandidate (slug : Bytes) (count : Nat) :
    (List.range (count + 1)).map (slugCandidate slug) =
      slug :: (List.range count).map fun i => numberedSlug slug (i + 2) := by
  rw [List.range_succ_eq_map, List.map_cons, List.map_map]
  rfl

/-- There are more candidates than slugs taken. -/
theorem exists_free_candidate (taken : List Bytes) (slug : Bytes) :
    ∃ n ≤ taken.length, slugCandidate slug n ∉ taken := by
  by_contra hnone
  have hsub : (List.range (taken.length + 1)).map (slugCandidate slug) ⊆ taken := by
    intro candidate hc
    obtain ⟨n, hn, rfl⟩ := List.mem_map.mp hc
    by_contra hfree
    exact hnone ⟨n, by have := List.mem_range.mp hn; omega, hfree⟩
  have hnodup := (List.nodup_range (n := taken.length + 1)).map (slugCandidate_injective slug)
  have hlen := (List.subperm_of_subset hnodup hsub).length_le
  rw [List.length_map, List.length_range] at hlen
  omega

/-- The chosen slug is the `n`-th candidate, the first that is free. -/
def Probes (taken : List Bytes) (slug chosen : Bytes) : Prop :=
  ∃ n, chosen = slugCandidate slug n ∧ chosen ∉ taken ∧ ∀ m < n, slugCandidate slug m ∈ taken

/-- **The search for a free slug ends** with the first candidate that is not taken. -/
theorem freshSlug_probes (taken : List Bytes) (slug : Bytes) :
    Probes taken slug (freshSlug taken slug) := by
  unfold freshSlug
  simp only
  rw [← map_slugCandidate]
  cases hfind : ((List.range (taken.length + 1)).map (slugCandidate slug)).find?
      fun c => !taken.contains c with
  | none =>
      obtain ⟨n, hn, hfree⟩ := exists_free_candidate taken slug
      have htaken := List.find?_eq_none.mp hfind (slugCandidate slug n)
        (List.mem_map_of_mem (List.mem_range.mpr (by omega)))
      simp [hfree] at htaken
  | some chosen =>
      obtain ⟨hfree, n, hn, hchosen, hearlier⟩ := List.find?_eq_some_iff_getElem.mp hfind
      refine ⟨n, by simpa using hchosen.symm, by simpa using hfree, ?_⟩
      intro m hm
      simpa using hearlier m hm

theorem Probes.free {taken : List Bytes} {slug chosen : Bytes} (h : Probes taken slug chosen) :
    chosen ∉ taken := by
  obtain ⟨-, -, hfree, -⟩ := h
  exact hfree

/-- The order in which slugs were taken does not matter. -/
theorem Probes.of_mem_iff {taken others : List Bytes} {slug chosen : Bytes}
    (h : Probes taken slug chosen) (hmem : ∀ s, s ∈ taken ↔ s ∈ others) :
    Probes others slug chosen := by
  obtain ⟨n, hchosen, hfree, hearlier⟩ := h
  refine ⟨n, hchosen, fun hc => hfree ((hmem chosen).mpr hc), ?_⟩
  intro m hm
  exact (hmem _).mp (hearlier m hm)

theorem Probes.isSlug {taken : List Bytes} {slug chosen : Bytes} (h : Probes taken slug chosen)
    (hslug : IsSlug slug) : IsSlug chosen := by
  obtain ⟨n, rfl, -, -⟩ := h
  exact hslug.candidate n

/-! ### The slugs of a book -/

namespace Registry

theorem chaptersFor_isSlug (r : Registry) (sections : List Section) :
    ∀ taken, ∀ c ∈ r.chaptersFor taken sections, IsSlug c.slug := by
  induction sections with
  | nil =>
      intro taken c hc
      cases hc
  | cons s rest ih =>
      intro taken c hc
      rcases List.mem_cons.mp hc with rfl | hc
      · exact (freshSlug_probes taken _).isSlug (isSlug_slugify s.title)
      · exact ih _ c hc

theorem chaptersFor_free (r : Registry) (sections : List Section) :
    ∀ taken, ∀ c ∈ r.chaptersFor taken sections, c.slug ∉ taken := by
  induction sections with
  | nil =>
      intro taken c hc
      cases hc
  | cons s rest ih =>
      intro taken c hc
      rcases List.mem_cons.mp hc with rfl | hc
      · exact (freshSlug_probes taken (slugify s.title)).free
      · intro htaken
        exact ih _ c hc (List.mem_cons_of_mem _ htaken)

/-- No two chapters get the same slug. -/
theorem chaptersFor_slugs_nodup (r : Registry) (sections : List Section) :
    ∀ taken, ((r.chaptersFor taken sections).map Chapter.slug).Nodup := by
  induction sections with
  | nil =>
      intro taken
      exact List.nodup_nil
  | cons s rest ih =>
      intro taken
      refine List.nodup_cons.mpr ⟨?_, ih _⟩
      intro hmem
      obtain ⟨c, hc, hslug⟩ := List.mem_map.mp hmem
      refine r.chaptersFor_free rest _ c hc ?_
      rw [hslug]
      exact List.mem_cons_self

/-- Every slug is probed against those of the chapters in front. -/
theorem chaptersFor_probes (r : Registry) (sections : List Section) :
    ∀ taken front c back, r.chaptersFor taken sections = front ++ c :: back →
      Probes (front.map Chapter.slug ++ taken) (slugify c.title) c.slug := by
  induction sections with
  | nil =>
      intro taken front c back h
      simp [chaptersFor] at h
  | cons s rest ih =>
      intro taken front c back h
      cases front with
      | nil =>
          obtain ⟨rfl, -⟩ := List.cons.inj h
          exact freshSlug_probes taken (slugify s.title)
      | cons first front =>
          obtain ⟨rfl, hrest⟩ := List.cons.inj h
          refine (ih _ front c back hrest).of_mem_iff ?_
          intro slug
          simp [or_left_comm]

end Registry

end TinyLisp
