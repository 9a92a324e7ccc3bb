/-
What a refused call leaves behind.

A sealed registry refuses every call, and looks before it does anything, so there a
refusal changes nothing.  A declaration is also refused if its name is known.  That is
found out by putting it in the place of the entry with that name, and the entry does
not come back.

`perform_refused` says so of any registry.  In one that calls have made the entries
are in strict order of their names, so that the refused declaration takes the place of
one entry and moves no other.  `Replaced` is all that can be seen of this: the number
of entries, their names and their order are what they were, and so are the titles and
slugs of the chapters, but the refused declaration is found and documented from now on.
A refusal therefore goes unnoticed exactly if the registry is sealed or the declaration
was there before.
-/
import TinyLisp.Proofs.Registry.Chapters

namespace TinyLisp

/-- The same chapter with other functions in the places of its own. -/
def Chapter.mapFunctions (f : Declaration → Declaration) (c : Chapter) : Chapter :=
  { c with functions := c.functions.map f }

namespace Registry

/-- The declaration that a call makes. -/
def Call.declaration? : Call → Option Declaration
  | .function d => some d
  | .synonym d name => some (d.aliased name)
  | _ => none

/-! ### Entries in order -/

/-- The entries are in strict order of their names. -/
def Ordered (entries : List Declaration) : Prop := entries.Pairwise fun d e => d.name < e.name

theorem ordered_insert {entries : List Declaration} (h : Ordered entries) (d : Declaration) :
    Ordered (insert d entries) := by
  induction entries with
  | nil => exact List.pairwise_singleton _ d
  | cons e rest ih =>
      obtain ⟨hfirst, hrest⟩ := List.pairwise_cons.mp h
      rw [insert]
      by_cases hlt : d.name < e.name
      · rw [if_pos hlt]
        refine List.pairwise_cons.mpr ⟨?_, h⟩
        intro f hf
        rcases List.mem_cons.mp hf with rfl | hf
        · exact hlt
        · exact List.lt_trans hlt (hfirst f hf)
      · rw [if_neg hlt]
        by_cases heq : d.name = e.name
        · rw [if_pos heq]
          refine List.pairwise_cons.mpr ⟨?_, hrest⟩
          rw [heq]
          exact hfirst
        · rw [if_neg heq]
          refine List.pairwise_cons.mpr ⟨?_, ih hrest⟩
          intro f hf
          rcases mem_insert hf with rfl | hf
          · exact Std.lt_of_le_of_ne hlt (Ne.symm heq)
          · exact hfirst f hf

theorem ordered_declare {r : Registry} (h : Ordered r.entries) (hopen : r.isSealed = false)
    (d : Declaration) : Ordered (r.declare d).1.entries := by
  rw [declare_entries hopen]
  exact ordered_insert h d

/-- **Calls keep the entries in order.** -/
theorem ordered_after (calls : List Call) : Ordered (after calls).entries := by
  refine after_induction (P := fun _ r => Ordered r.entries) List.Pairwise.nil ?_ ?_ calls
  · intro front r call hopen _ h
    cases call with
    | title text => simpa [perform, declareTitle, hopen] using h
    | function d => exact ordered_declare h hopen d
    | synonym d name => exact ordered_declare h hopen (d.aliased name)
    | close => exact h
  · intro front r h
    exact h

/-! ### In the place of an entry -/

/-- The entry, or the declaration in its place if it has the same name. -/
def inPlaceOf (d e : Declaration) : Declaration := if e.name = d.name then d else e

@[simp] theorem name_inPlaceOf (d e : Declaration) : (inPlaceOf d e).name = e.name := by
  unfold inPlaceOf
  by_cases h : e.name = d.name
  · rw [if_pos h, h]
  · rw [if_neg h]

theorem map_inPlaceOf_eq_self {entries : List Declaration} {d : Declaration}
    (h : ∀ e ∈ entries, e.name = d.name → e = d) : entries.map (inPlaceOf d) = entries := by
  refine (List.map_congr_left fun e he => ?_).trans (List.map_id entries)
  by_cases hname : e.name = d.name
  · rw [inPlaceOf, if_pos hname, h e he hname]
    rfl
  · rw [inPlaceOf, if_neg hname]
    rfl

/-- A declaration with a known name takes the place of one entry. -/
theorem insert_known {entries : List Declaration} (h : Ordered entries) {d e : Declaration}
    (he : e ∈ entries) (hname : e.name = d.name) :
    insert d entries = entries.map (inPlaceOf d) := by
  induction entries with
  | nil => cases he
  | cons f rest ih =>
      obtain ⟨hfirst, hrest⟩ := List.pairwise_cons.mp h
      rw [insert, List.map_cons]
      by_cases heq : d.name = f.name
      · -- the entries behind it have greater names
        have hothers : rest.map (inPlaceOf d) = rest := by
          refine map_inPlaceOf_eq_self fun g hg hc => ?_
          have hlt := hfirst g hg
          rw [hc, heq] at hlt
          exact absurd hlt (List.lt_irrefl _)
        have hlt : ¬d.name < f.name := by
          rw [heq]
          exact List.lt_irrefl _
        rw [if_neg hlt, if_pos heq, hothers, inPlaceOf, if_pos heq.symm]
      · have hmem : e ∈ rest := by
          rcases List.mem_cons.mp he with rfl | hmem
          · exact absurd hname.symm heq
          · exact hmem
        have hlt : ¬d.name < f.name := by
          intro hlt
          have hbehind := hfirst e hmem
          rw [hname] at hbehind
          exact List.lt_irrefl _ (List.lt_trans hlt hbehind)
        rw [if_neg hlt, if_neg heq, ih hrest hmem, inPlaceOf, if_neg (Ne.symm heq)]

/-- In order, no two entries have the same name. -/
theorem Ordered.eq_of_name {entries : List Declaration} (h : Ordered entries) {d e : Declaration}
    (hd : d ∈ entries) (he : e ∈ entries) (hname : d.name = e.name) : d = e := by
  have hnodup : (entries.map Declaration.name).Nodup := by
    refine List.pairwise_map.mpr (h.imp fun hlt heq => ?_)
    rw [heq] at hlt
    exact List.lt_irrefl _ hlt
  exact List.inj_on_of_nodup_map hnodup hd he hname

/-- A declaration that is there already takes its own place. -/
theorem insert_self {entries : List Declaration} (h : Ordered entries) {d : Declaration}
    (hd : d ∈ entries) : insert d entries = entries := by
  rw [insert_known h hd rfl]
  exact map_inPlaceOf_eq_self fun e he hname => h.eq_of_name he hd hname

/-! ### What can be seen of a registry -/

/-- Nothing that can be seen of a registry has changed. -/
structure Unchanged (r s : Registry) : Prop where
  /-- Every name finds what it found. -/
  lookups : ∀ name, s.lookup? name = r.lookup? name
  /-- The declarations and their order are the same. -/
  declarations : s.entries = r.entries
  /-- There are as many of them. -/
  size : s.size = r.size
  /-- The chapters are the same. -/
  chapters : s.chapters = r.chapters

theorem Unchanged.refl (r : Registry) : Unchanged r r := ⟨fun _ => rfl, rfl, rfl, rfl⟩

/-- One entry has given way to a declaration with its name, and nothing else has changed. -/
structure Replaced (d : Declaration) (r s : Registry) : Prop where
  /-- Every name finds what it found, or the declaration if it has that name. -/
  lookups : ∀ name, s.lookup? name = (r.lookup? name).map (inPlaceOf d)
  /-- The declaration is in the place of the entry. -/
  declarations : s.entries = r.entries.map (inPlaceOf d)
  /-- There are as many entries. -/
  size : s.size = r.size
  /-- The chapters have the titles and slugs they had, and the declaration in the place of the
  entry. -/
  chapters : s.chapters = r.chapters.map (List.map (Chapter.mapFunctions (inPlaceOf d)))

/-- What look-ups find is all that chapters take from the entries. -/
theorem chaptersFor_mapFunctions {r s : Registry} {f : Declaration → Declaration}
    (h : ∀ name, s.lookup? name = (r.lookup? name).map f) (sections : List Section) :
    ∀ taken, s.chaptersFor taken sections =
      (r.chaptersFor taken sections).map (Chapter.mapFunctions f) := by
  induction sections with
  | nil =>
      intro taken
      rfl
  | cons first rest ih =>
      intro taken
      have hlookup : s.lookup? = fun name => (r.lookup? name).map f := funext h
      simp only [chaptersFor, List.map_cons, ih, Chapter.mapFunctions, hlookup,
        List.map_filterMap]

/-- **A declaration with a known name takes the place of one entry**, and that is all. -/
theorem replaced_insert {r : Registry} (h : Ordered r.entries) {d old : Declaration}
    (hold : r.lookup? d.name = some old) :
    Replaced d r { r with entries := insert d r.entries } := by
  have hentries := insert_known h (List.mem_of_find?_eq_some hold) (name_of_lookup? hold)
  have hlookup : ∀ name, lookup? { r with entries := insert d r.entries } name =
      (r.lookup? name).map (inPlaceOf d) := by
    intro name
    -- names stay where they are, so the same entry is the first with a name
    have hnames : (fun e : Declaration => e.name == name) ∘ inPlaceOf d = (·.name == name) := by
      funext e
      simp
    show (insert d r.entries).find? _ = _
    rw [hentries, List.find?_map, hnames, lookup?]
  refine ⟨hlookup, hentries, ?_, ?_⟩
  · simp [size, hentries]
  · by_cases hnamed : Heading.nameless ∈ r.outline
    · simp [chapters, hnamed, Except.map]
    · rw [chapters_eq hnamed, chapters_eq (r := { r with entries := insert d r.entries }) hnamed,
        chaptersFor_mapFunctions hlookup]
      rfl

/-! ### Refused calls -/

theorem declare_refused {r : Registry} {d : Declaration} {stop : Stop}
    (h : (r.declare d).2 = some stop) :
    (r.isSealed = true ∧ (r.declare d).1 = r) ∨
      (r.isSealed = false ∧ (∃ old, r.lookup? d.name = some old) ∧
        (r.declare d).1 = { r with entries := insert d r.entries }) := by
  cases hsealed : r.isSealed with
  | true => exact .inl ⟨rfl, by simp [declare, hsealed]⟩
  | false =>
      cases hold : r.lookup? d.name with
      | none => simp [declare, hsealed, hold] at h
      | some old => exact .inr ⟨rfl, ⟨old, rfl⟩, by simp [declare, hsealed, hold]⟩

/-- A call is refused by a sealed registry, which it leaves alone, or because its name is known,
which has put its declaration among the entries. -/
theorem perform_refused {r : Registry} {call : Call} {stop : Stop}
    (h : (r.perform call).2 = some stop) :
    (r.isSealed = true ∧ (r.perform call).1 = r) ∨
      (r.isSealed = false ∧ ∃ d old, call.declaration? = some d ∧ r.lookup? d.name = some old ∧
        (r.perform call).1 = { r with entries := insert d r.entries }) := by
  cases call with
  | title text =>
      cases hsealed : r.isSealed with
      | true => exact .inl ⟨rfl, perform_of_isSealed hsealed _⟩
      | false => simp [perform, declareTitle, hsealed] at h
  | function d =>
      rcases declare_refused h with hsealed | ⟨hopen, ⟨old, hold⟩, hafter⟩
      · exact .inl hsealed
      · exact .inr ⟨hopen, d, old, rfl, hold, hafter⟩
  | synonym d name =>
      rcases declare_refused h with hsealed | ⟨hopen, ⟨old, hold⟩, hafter⟩
      · exact .inl hsealed
      · exact .inr ⟨hopen, d.aliased name, old, rfl, hold, hafter⟩
  | close => cases h

/-- **A refused call changes nothing exactly if the registry is sealed or has the very
declaration.**  In any other case the refused declaration is in the place of the entry with its
name, and everything else is as it was. -/
theorem refused_unchanged_iff (calls : List Call) {call : Call} {stop : Stop}
    (h : ((after calls).perform call).2 = some stop) :
    (Unchanged (after calls) ((after calls).perform call).1 ↔
        (after calls).isSealed = true ∨
          ∃ d, call.declaration? = some d ∧ (after calls).lookup? d.name = some d) ∧
      ((after calls).isSealed = false →
        ∃ d, call.declaration? = some d ∧
          Replaced d (after calls) ((after calls).perform call).1) := by
  have hordered := ordered_after calls
  rcases perform_refused h with ⟨hsealed, hafter⟩ | ⟨hopen, d, old, hcall, hold, hafter⟩
  · rw [hafter]
    exact ⟨⟨fun _ => .inl hsealed, fun _ => .refl _⟩, by simp [hsealed]⟩
  · have hreplaced := replaced_insert hordered hold
    rw [hafter]
    refine ⟨⟨?_, ?_⟩, fun _ => ⟨d, hcall, hreplaced⟩⟩
    · intro hunchanged
      have hfound := hreplaced.lookups d.name
      rw [hunchanged.lookups, hold, Option.map_some, inPlaceOf,
        if_pos (name_of_lookup? hold)] at hfound
      exact .inr ⟨d, hcall, hold.trans hfound⟩
    · rintro (hsealed | ⟨e, he, hthere⟩)
      · rw [hopen] at hsealed
        cases hsealed
      · obtain rfl : d = e := Option.some.inj (hcall.symm.trans he)
        rw [insert_self hordered (List.mem_of_find?_eq_some hthere)]
        exact .refl _

/-- A function without parameters and with the given description. -/
def describedAs (text : String) : Declaration :=
  ⟨utf8 "x", utf8 text, 0, none, [], utf8 "any", none⟩

/-- The refusal of a name that is known. -/
def duplicateName : Stop := .crash (utf8 "duplicate declaration: x")

/-- The same declaration twice. -/
theorem refused_unchanged_again :
    ((after [.function (describedAs "old")]).perform (.function (describedAs "old"))).2 =
        some duplicateName ∧
      Unchanged (after [.function (describedAs "old")])
        ((after [.function (describedAs "old")]).perform (.function (describedAs "old"))).1 := by
  have hrefused : ((after [.function (describedAs "old")]).perform
      (.function (describedAs "old"))).2 = some duplicateName := rfl
  exact ⟨hrefused, (refused_unchanged_iff _ hrefused).1.mpr (.inr ⟨_, rfl, rfl⟩)⟩

/-- A second declaration of a name is refused, and found in the place of the first. -/
theorem refused_replaces_first :
    ((after [.function (describedAs "old")]).perform (.function (describedAs "new"))).2 =
        some duplicateName ∧
      ¬Unchanged (after [.function (describedAs "old")])
        ((after [.function (describedAs "old")]).perform (.function (describedAs "new"))).1 := by
  refine ⟨rfl, fun h => ?_⟩
  have hfound := congrArg (Option.map Declaration.description) (h.lookups (utf8 "x"))
  have hdiffer : utf8 "new" ≠ utf8 "old" := by decide
  exact hdiffer (Option.some.inj hfound)

end Registry

end TinyLisp
