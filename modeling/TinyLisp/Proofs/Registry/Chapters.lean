/-
The chapters of a registry partition its functions.

The outline is cut into sections from its end, while the calls that made it came
from its front.  `outlineSections_title` and `outlineSections_function` say what one
more entry does at the far end: a title opens a section, a name joins the last one,
and the first name of all opens a section of its own if no title did.  Nothing else
ever moves, so a name stays where it was put.

`Recorded` is the invariant that carries this along the calls.  It holds whatever
calls are refused: a second declaration changes the entry of a name, but neither the
set of names nor their places.
-/
import TinyLisp.Proofs.Registry.Calls
import TinyLisp.Proofs.Registry.Slugs

namespace TinyLisp

/-! ### One more entry of an outline -/

/-- Sections with one more name in the last of them. -/
def addName (name : Bytes) : List Section → List Section
  | [] => [⟨generalTitle, [name]⟩]
  | [s] => [⟨s.title, s.names ++ [name]⟩]
  | s :: next :: rest => s :: addName name (next :: rest)

theorem sectionsAfter_title (outline : List Heading) (text : Bytes) :
    sectionsAfter (outline ++ [.title text]) =
      ((sectionsAfter outline).1, (sectionsAfter outline).2 ++ [⟨text, []⟩]) := by
  induction outline with
  | nil => rfl
  | cons heading rest ih => cases heading <;> simp [sectionsAfter, ih]

theorem sectionsAfter_function (outline : List Heading) (name : Bytes) :
    sectionsAfter (outline ++ [.function name]) =
      if (sectionsAfter outline).2 = [] then ((sectionsAfter outline).1 ++ [name], [])
      else ((sectionsAfter outline).1, addName name (sectionsAfter outline).2) := by
  induction outline with
  | nil => rfl
  | cons heading rest ih =>
      cases hsections : (sectionsAfter rest).2 with
      | nil => cases heading <;> simp [sectionsAfter, ih, hsections, addName]
      | cons s more => cases heading <;> simp [sectionsAfter, ih, hsections, addName]

/-- A title opens a section. -/
theorem outlineSections_title (outline : List Heading) (text : Bytes) :
    outlineSections (outline ++ [.title text]) = outlineSections outline ++ [⟨text, []⟩] := by
  simp only [outlineSections, sectionsAfter_title]
  split
  · rfl
  · rfl

/-- A name joins the last section. -/
theorem outlineSections_function (outline : List Heading) (name : Bytes) :
    outlineSections (outline ++ [.function name]) = addName name (outlineSections outline) := by
  simp only [outlineSections, sectionsAfter_function]
  cases hnames : (sectionsAfter outline).1 <;> cases hsections : (sectionsAfter outline).2 <;>
    simp [addName]

theorem map_title_addName (name : Bytes) (sections : List Section) :
    (addName name sections).map Section.title =
      if sections = [] then [generalTitle] else sections.map Section.title := by
  fun_induction addName name sections with
  | case1 => rfl
  | case2 s => rfl
  | case3 s next rest ih => simp [ih]

theorem flatMap_names_addName (name : Bytes) (sections : List Section) :
    (addName name sections).flatMap Section.names = sections.flatMap Section.names ++ [name] := by
  fun_induction addName name sections with
  | case1 => rfl
  | case2 s => simp
  | case3 s next rest ih => simp [ih]

theorem mem_getLast_addName (name : Bytes) (sections : List Section) :
    ∃ s, (addName name sections).getLast? = some s ∧ name ∈ s.names := by
  fun_induction addName name sections with
  | case1 => exact ⟨_, rfl, List.mem_singleton_self name⟩
  | case2 s => exact ⟨_, rfl, by simp⟩
  | case3 s next rest ih =>
      obtain ⟨last, hlast, hname⟩ := ih
      exact ⟨last, by rw [List.getLast?_cons, hlast]; rfl, hname⟩

/-- Every section is still there with the names it had. -/
def Grown (sections grown : List Section) : Prop :=
  ∀ (k : Nat) (s : Section), sections[k]? = some s →
    ∃ t : Section, grown[k]? = some t ∧ t.title = s.title ∧ s.names ⊆ t.names

theorem Grown.refl (sections : List Section) : Grown sections sections :=
  fun _ s h => ⟨s, h, rfl, List.Subset.refl _⟩

theorem grown_addName (name : Bytes) (sections : List Section) :
    Grown sections (addName name sections) := by
  fun_induction addName name sections with
  | case1 =>
      intro k s h
      simp at h
  | case2 only =>
      intro k s h
      cases k with
      | zero =>
          obtain rfl : only = s := by simpa using h
          exact ⟨_, rfl, rfl, by simp⟩
      | succ k => simp at h
  | case3 first next rest ih =>
      intro k s h
      cases k with
      | zero => exact ⟨s, h, rfl, List.Subset.refl _⟩
      | succ k => exact ih k s h

theorem grown_append (sections more : List Section) : Grown sections (sections ++ more) := by
  intro k s h
  have hk : k < sections.length := (List.getElem?_eq_some_iff.mp h).1
  exact ⟨s, by rw [List.getElem?_append_left hk, h], rfl, List.Subset.refl _⟩

namespace Registry

/-! ### The titles of a book -/

/-- The calls in front of the first title. -/
def untitled (calls : List Call) : List Call := calls.takeWhile fun call => call.title?.isNone

/-- The titles of the chapters that calls make: the titles they give, and in front of them one
for the functions declared before any title. -/
def openings (calls : List Call) : List Bytes :=
  (if namesOf (untitled calls) = [] then [] else [generalTitle]) ++ titlesOf calls

theorem titlesOf_append (front back : List Call) :
    titlesOf (front ++ back) = titlesOf front ++ titlesOf back :=
  List.filterMap_append

theorem namesOf_append (front back : List Call) :
    namesOf (front ++ back) = namesOf front ++ namesOf back :=
  List.filterMap_append

theorem untitled_eq_self {calls : List Call} (h : titlesOf calls = []) :
    untitled calls = calls := by
  rw [untitled, List.takeWhile_eq_self_iff]
  intro call hcall
  simpa using List.filterMap_eq_nil_iff.mp h call hcall

/-- The calls in front of the first title end with it. -/
theorem untitled_append (calls : List Call) (call : Call) :
    untitled (calls ++ [call]) =
      if titlesOf calls = [] ∧ call.title? = none then calls ++ [call] else untitled calls := by
  induction calls with
  | nil => cases htitle : call.title? <;> simp [untitled, titlesOf, htitle]
  | cons first rest ih =>
      cases hfirst : first.title? with
      | none =>
          have hcons : ∀ calls, untitled (first :: calls) = first :: untitled calls := by
            simp [untitled, hfirst]
          have htitles : titlesOf (first :: rest) = titlesOf rest := by simp [titlesOf, hfirst]
          rw [List.cons_append, hcons, hcons, ih, htitles]
          split
          · rfl
          · rfl
      | some text => simp [untitled, titlesOf, hfirst]

theorem openings_title (calls : List Call) (text : Bytes) :
    openings (calls ++ [.title text]) = openings calls ++ [text] := by
  have htext : (Call.title text).title? = some text := rfl
  have hone : titlesOf [.title text] = [text] := rfl
  simp [openings, untitled_append, titlesOf_append, hone, htext]

/-- A name opens a chapter only if there is none yet. -/
theorem openings_name (calls : List Call) {call : Call} {name : Bytes}
    (hname : call.name? = some name) :
    openings (calls ++ [call]) =
      if openings calls = [] then [generalTitle] else openings calls := by
  have htitle : call.title? = none := by
    cases call with
    | title text => cases hname
    | _ => rfl
  have hnone : titlesOf [call] = [] := by simp [titlesOf, htitle]
  have hone : namesOf [call] = [name] := by simp [namesOf, hname]
  by_cases htitles : titlesOf calls = []
  · by_cases hnames : namesOf calls = [] <;>
      simp [openings, untitled_append, untitled_eq_self htitles, titlesOf_append, namesOf_append,
        htitle, hnone, hone, htitles, hnames]
  · simp [openings, untitled_append, titlesOf_append, hnone, htitles]

theorem openings_ne_nil {calls : List Call} (h : namesOf calls ≠ []) : openings calls ≠ [] := by
  by_cases htitles : titlesOf calls = []
  · simp [openings, untitled_eq_self htitles, h]
  · simp [openings, htitles]

/-- The chapter that is open when a name is declared is that of the last title. -/
theorem getLast_openings_name (calls : List Call) {call : Call} {name : Bytes}
    (hname : call.name? = some name) :
    (openings (calls ++ [call])).getLast? =
      some ((titlesOf calls).getLast?.getD generalTitle) := by
  rw [openings_name calls hname]
  by_cases htitles : titlesOf calls = []
  · have hopen : openings calls = [] ∨ openings calls = [generalTitle] := by
      rw [openings, untitled_eq_self htitles, htitles]
      by_cases hnames : namesOf calls = [] <;> simp [hnames]
    rcases hopen with h | h <;> simp [h, htitles]
  · have hne : openings calls ≠ [] := by simp [openings, htitles]
    rw [if_neg hne, openings, List.getLast?_append]
    obtain ⟨last, hlast⟩ := Option.isSome_iff_exists.mp (List.getLast?_isSome.mpr htitles)
    simp [hlast]

/-! ### The outline that calls leave -/

/-- A name that an outline takes for a name. -/
def Proper (name : Bytes) : Prop := name ≠ [] ∧ name.head? ≠ some Byte.hash

theorem ofName_of_proper {name : Bytes} (h : Proper name) :
    Heading.ofName name = .function name := by
  cases name with
  | nil => exact absurd rfl h.1
  | cons b rest =>
      have hb : b ≠ Byte.hash := by simpa using h.2
      simp [Heading.ofName, hb]

/-- The section that is open after some calls has the last title they gave, and the name. -/
def OpenHas (before : List Call) (call : Call) (name : Bytes) (sections : List Section) : Prop :=
  ∃ s : Section, sections[(openings (before ++ [call])).length - 1]? = some s ∧
    s.title = (titlesOf before).getLast?.getD generalTitle ∧ name ∈ s.names

/-- Every name is in the section that was open when the name was first declared. -/
def Placed (calls : List Call) (sections : List Section) : Prop :=
  ∀ before call rest name, calls = before ++ call :: rest → call.name? = some name →
    name ∉ namesOf before → OpenHas before call name sections

/-- What the registry knows and its outline shows is what the calls said. -/
structure Recorded (calls : List Call) (r : Registry) : Prop where
  /-- The names that can be looked up are those that were declared. -/
  known : ∀ name, (r.lookup? name).isSome = true ↔ name ∈ namesOf calls
  /-- The outline has no entry without a name. -/
  named : Heading.nameless ∉ r.outline
  /-- The sections have the titles given. -/
  titles : (outlineSections r.outline).map Section.title = openings calls
  /-- Every name is there once, at its first declaration. -/
  names : (outlineSections r.outline).flatMap Section.names = (namesOf calls).eraseDups
  /-- Names are where they were put. -/
  placed : Placed calls (outlineSections r.outline)

theorem Placed.append {calls : List Call} {sections grown : List Section} {call : Call}
    (h : Placed calls sections) (hgrown : Grown sections grown)
    (hlast : ∀ name, call.name? = some name → name ∉ namesOf calls →
      OpenHas calls call name grown) :
    Placed (calls ++ [call]) grown := by
  intro before c rest name hsplit hname hnew
  rcases List.eq_nil_or_concat rest with rfl | ⟨rest, last, rfl⟩
  · -- the name was declared by the call itself
    obtain ⟨rfl, rfl⟩ : calls = before ∧ call = c := by
      simpa using List.append_inj' hsplit rfl
    exact hlast name hname hnew
  · have hfront : calls = before ++ c :: rest := by
      have : calls ++ [call] = (before ++ c :: rest) ++ [last] := by simpa using hsplit
      exact (List.append_inj' this rfl).1
    obtain ⟨s, hs, htitle, hmem⟩ := h before c rest name hfront hname hnew
    obtain ⟨t, ht, hsame, hsub⟩ := hgrown _ s hs
    exact ⟨t, ht, hsame.trans htitle, hsub hmem⟩

theorem recorded_title {calls : List Call} {r : Registry} (h : Recorded calls r)
    (hopen : r.isSealed = false) (text : Bytes) :
    Recorded (calls ++ [.title text]) (r.declareTitle text).1 := by
  have hout := declareTitle_outline hopen text
  have hnames : namesOf (calls ++ [.title text]) = namesOf calls := by
    rw [namesOf_append]
    exact List.append_nil _
  have hentries : (r.declareTitle text).1.entries = r.entries := by simp [declareTitle, hopen]
  constructor
  · intro name
    rw [lookup?, hentries, hnames]
    exact h.known name
  · rw [hout]
    simpa using h.named
  · rw [hout, outlineSections_title, List.map_append, h.titles, openings_title]
    rfl
  · rw [hout, outlineSections_title, List.flatMap_append, h.names, hnames]
    simp
  · rw [hout, outlineSections_title]
    exact h.placed.append (grown_append _ _) fun name hname => by cases hname

section

variable {calls : List Call} {r : Registry} (h : Recorded calls r) (hopen : r.isSealed = false)
  {call : Call} {d : Declaration} (hcall : call.name? = some d.name)
include h hopen hcall

omit h hopen in
theorem namesOf_declare : namesOf (calls ++ [call]) = namesOf calls ++ [d.name] := by
  have hone : namesOf [call] = [d.name] := by simp [namesOf, hcall]
  rw [namesOf_append, hone]

theorem known_declare (name : Bytes) :
    ((r.declare d).1.lookup? name).isSome = true ↔ name ∈ namesOf (calls ++ [call]) := by
  rw [lookup?_declare hopen, namesOf_declare hcall, List.mem_append, List.mem_singleton,
    ← h.known name]
  by_cases hd : d.name = name
  · simp [hd]
  · simp [hd, Ne.symm hd]

/-- A name that is known leaves the outline as it is. -/
theorem recorded_again (hold : (r.lookup? d.name).isSome = true) :
    Recorded (calls ++ [call]) (r.declare d).1 := by
  have hout := declare_outline hopen d
  rw [if_pos hold] at hout
  have hmem := (h.known d.name).mp hold
  have hopened : openings (calls ++ [call]) = openings calls := by
    rw [openings_name calls hcall, if_neg (openings_ne_nil (List.ne_nil_of_mem hmem))]
  refine ⟨known_declare h hopen hcall, ?_, ?_, ?_, ?_⟩
  · rw [hout]
    exact h.named
  · rw [hout, h.titles, hopened]
  · rw [hout, h.names, namesOf_declare hcall, List.eraseDups_append]
    simp [List.removeAll, hmem]
  · rw [hout]
    refine h.placed.append (Grown.refl _) ?_
    intro name hname hnew
    obtain rfl : d.name = name := Option.some.inj (hcall.symm.trans hname)
    exact absurd hmem hnew

/-- A new name joins the last section. -/
theorem recorded_new (hnew : (r.lookup? d.name).isSome ≠ true) (hproper : Proper d.name) :
    Recorded (calls ++ [call]) (r.declare d).1 := by
  have hout := declare_outline hopen d
  rw [if_neg hnew, ofName_of_proper hproper] at hout
  have hmem : d.name ∉ namesOf calls := fun hc => hnew ((h.known d.name).mpr hc)
  have htitles : (addName d.name (outlineSections r.outline)).map Section.title =
      openings (calls ++ [call]) := by
    rw [map_title_addName, openings_name calls hcall, ← h.titles]
    simp
  refine ⟨known_declare h hopen hcall, ?_, ?_, ?_, ?_⟩
  · rw [hout]
    simpa using h.named
  · rw [hout, outlineSections_function, htitles]
  · rw [hout, outlineSections_function, flatMap_names_addName, h.names, namesOf_declare hcall,
      List.eraseDups_append]
    simp [List.removeAll, List.eraseDups_cons, hmem]
  · rw [hout, outlineSections_function]
    refine h.placed.append (grown_addName _ _) ?_
    intro name hname _
    obtain rfl : d.name = name := Option.some.inj (hcall.symm.trans hname)
    obtain ⟨s, hlast, hs⟩ := mem_getLast_addName d.name (outlineSections r.outline)
    refine ⟨s, ?_, ?_, hs⟩
    · rw [← htitles, List.length_map, ← List.getLast?_eq_getElem?]
      exact hlast
    · have hlastOpen := getLast_openings_name calls hcall
      rw [← htitles, List.getLast?_map, hlast] at hlastOpen
      exact Option.some.inj hlastOpen

theorem recorded_declare (hproper : Proper d.name) :
    Recorded (calls ++ [call]) (r.declare d).1 := by
  by_cases hold : (r.lookup? d.name).isSome = true
  · exact recorded_again h hopen hcall hold
  · exact recorded_new h hopen hcall hold hproper

end

/-- **The outline records the calls**, whichever of them are refused. -/
theorem recorded_after (calls : List Call) (hproper : ∀ name ∈ namesOf (heard calls), Proper name) :
    Recorded (heard calls) (after calls) := by
  refine after_induction
    (P := fun calls r => (∀ name ∈ namesOf calls, Proper name) → Recorded calls r)
    ?_ ?_ ?_ calls hproper
  · intro _
    refine ⟨by simp [lookup?, empty, namesOf], by simp [empty], rfl, rfl, ?_⟩
    intro before call rest name hsplit
    simp at hsplit
  · intro front r call hopen hcall ih hfront
    have hrec := ih fun name hname => hfront name (by rw [namesOf_append]; simp [hname])
    have hlast : ∀ name, call.name? = some name → Proper name := by
      intro name hname
      exact hfront name (by rw [namesOf_append]; simp [namesOf, hname])
    cases call with
    | title text => exact recorded_title hrec hopen text
    | function d => exact recorded_declare hrec hopen rfl (hlast d.name rfl)
    | synonym d name => exact recorded_declare (d := d.aliased name) hrec hopen rfl (hlast name rfl)
    | close => cases hcall
  · intro front r ih hfront
    have hrec := ih hfront
    exact ⟨hrec.known, hrec.named, hrec.titles, hrec.names, hrec.placed⟩

/-! ### The chapters that calls make -/

/-- A chapter is its section with the names looked up. -/
theorem chaptersFor_eq (r : Registry) (sections : List Section) :
    ∀ taken, (r.chaptersFor taken sections).map (fun c => (c.title, c.functions)) =
      sections.map fun s => (s.title, s.names.filterMap r.lookup?) := by
  induction sections with
  | nil =>
      intro taken
      rfl
  | cons s rest ih =>
      intro taken
      simp [chaptersFor, ih]

theorem chaptersFor_getElem? (r : Registry) (taken : List Bytes) {sections : List Section} {k : Nat}
    {s : Section} (h : sections[k]? = some s) :
    ∃ c : Chapter, (r.chaptersFor taken sections)[k]? = some c ∧ c.title = s.title ∧
      c.functions = s.names.filterMap r.lookup? := by
  have hk := congrArg (·[k]?) (r.chaptersFor_eq sections taken)
  simp only [List.getElem?_map, h, Option.map_some, Option.map_eq_some_iff] at hk
  obtain ⟨c, hc, hsame⟩ := hk
  obtain ⟨htitle, hfunctions⟩ := Prod.mk.inj hsame
  exact ⟨c, hc, htitle, hfunctions⟩

theorem chaptersFor_resolved (r : Registry) (taken : List Bytes) (sections : List Section) :
    ∀ c ∈ r.chaptersFor taken sections, ∀ d ∈ c.functions, r.lookup? d.name = some d := by
  intro c hc d hd
  have hmem : (c.title, c.functions) ∈ (r.chaptersFor taken sections).map fun c =>
      (c.title, c.functions) := List.mem_map_of_mem hc
  rw [chaptersFor_eq] at hmem
  obtain ⟨s, -, hs⟩ := List.mem_map.mp hmem
  obtain ⟨-, hfunctions⟩ := Prod.mk.inj hs
  rw [← hfunctions] at hd
  obtain ⟨name, -, hname⟩ := List.mem_filterMap.mp hd
  rw [name_of_lookup? hname, hname]

/-- Names that are known are found under themselves. -/
theorem map_name_lookup? {r : Registry} {names : List Bytes}
    (h : ∀ name ∈ names, (r.lookup? name).isSome = true) :
    (names.filterMap r.lookup?).map Declaration.name = names := by
  induction names with
  | nil => rfl
  | cons name rest ih =>
      obtain ⟨d, hd⟩ := Option.isSome_iff_exists.mp (h name List.mem_cons_self)
      have hrest := ih fun n hn => h n (List.mem_cons_of_mem name hn)
      simp [hd, name_of_lookup? hd, hrest]

theorem chaptersFor_names {r : Registry} (taken : List Bytes) {sections : List Section}
    (h : ∀ s ∈ sections, ∀ name ∈ s.names, (r.lookup? name).isSome = true) :
    ((r.chaptersFor taken sections).flatMap Chapter.functions).map Declaration.name =
      sections.flatMap Section.names := by
  calc ((r.chaptersFor taken sections).flatMap Chapter.functions).map Declaration.name
      = ((r.chaptersFor taken sections).map fun c => (c.title, c.functions)).flatMap fun p =>
          p.2.map Declaration.name := by simp [List.map_flatMap, List.flatMap_map]
    _ = sections.flatMap fun s => (s.names.filterMap r.lookup?).map Declaration.name := by
        rw [chaptersFor_eq, List.flatMap_map]
    _ = sections.flatMap Section.names :=
        List.flatMap_congr fun s hs => map_name_lookup? (h s hs)

/-- The chapters are those of the calls. -/
structure Partition (calls : List Call) (r : Registry) (chapters : List Chapter) : Prop where
  /-- One chapter for each title, and one for functions declared before any title. -/
  titles : chapters.map Chapter.title = openings calls
  /-- All functions, each once and in the order of their first declarations. -/
  functions : (chapters.flatMap Chapter.functions).map Declaration.name = (namesOf calls).eraseDups
  /-- No function is there twice. -/
  once : ((chapters.flatMap Chapter.functions).map Declaration.name).Nodup
  /-- Every function is the one that its name finds. -/
  resolved : ∀ c ∈ chapters, ∀ d ∈ c.functions, r.lookup? d.name = some d
  /-- A function is in the chapter that was open at its first declaration, the one of the last
  title before it. -/
  placed : ∀ before call rest name, calls = before ++ call :: rest → call.name? = some name →
    name ∉ namesOf before →
    ∃ c : Chapter, chapters[(openings (before ++ [call])).length - 1]? = some c ∧
      c.title = (titlesOf before).getLast?.getD generalTitle ∧
      ∃ d ∈ c.functions, d.name = name
  /-- No two chapters have the same slug. -/
  distinct : (chapters.map Chapter.slug).Nodup
  /-- Every slug is fit for a file name. -/
  slugs : ∀ c ∈ chapters, IsSlug c.slug
  /-- The search for each slug ends, at the first that no chapter in front has. -/
  probed : ∀ front c back, chapters = front ++ c :: back →
    Probes (front.map Chapter.slug) (slugify c.title) c.slug

theorem nodup_eraseDups (names : List Bytes) : names.eraseDups.Nodup := by
  induction hlen : names.length using Nat.strong_induction_on generalizing names with
  | _ n ih =>
      cases names with
      | nil => exact List.nodup_nil
      | cons name rest =>
          rw [List.eraseDups_cons, List.nodup_cons]
          refine ⟨by simp [List.mem_eraseDups], ih _ ?_ _ rfl⟩
          have := List.length_filter_le (fun b => !b == name) rest
          rw [← hlen, List.length_cons]
          omega

theorem partition_of_recorded {calls : List Call} {r : Registry} (h : Recorded calls r) :
    Partition calls r (r.chaptersFor [] (outlineSections r.outline)) := by
  have hknown : ∀ s ∈ outlineSections r.outline, ∀ name ∈ s.names,
      (r.lookup? name).isSome = true := by
    intro s hs name hname
    rw [h.known, ← List.mem_eraseDups, ← h.names]
    exact List.mem_flatMap.mpr ⟨s, hs, hname⟩
  have hnames := (chaptersFor_names [] hknown).trans h.names
  refine ⟨?_, hnames, ?_, r.chaptersFor_resolved [] _, ?_, r.chaptersFor_slugs_nodup _ [],
    r.chaptersFor_isSlug _ [], ?_⟩
  · have htitles := congrArg (List.map Prod.fst) (r.chaptersFor_eq (outlineSections r.outline) [])
    simpa [Function.comp_def, h.titles] using htitles
  · rw [hnames]
    exact nodup_eraseDups _
  · intro before call rest name hsplit hname hnew
    obtain ⟨s, hs, htitle, hmem⟩ := h.placed before call rest name hsplit hname hnew
    obtain ⟨c, hc, hsame, hfunctions⟩ := r.chaptersFor_getElem? [] hs
    obtain ⟨d, hd⟩ := Option.isSome_iff_exists.mp
      (hknown s (List.mem_of_getElem? hs) name hmem)
    refine ⟨c, hc, hsame.trans htitle, d, ?_, name_of_lookup? hd⟩
    rw [hfunctions]
    exact List.mem_filterMap.mpr ⟨name, hmem, hd⟩
  · intro front c back hsplit
    have hprobes := r.chaptersFor_probes _ [] front c back hsplit
    rw [List.append_nil] at hprobes
    exact hprobes

/-- An outline without nameless entries has chapters. -/
theorem chapters_eq {r : Registry} (h : Heading.nameless ∉ r.outline) :
    r.chapters = .ok (r.chaptersFor [] (outlineSections r.outline)) := by
  simp [chapters, h]

/-- **The chapters partition the functions.**  Whatever calls made the registry and whichever
of them were refused, it has chapters, and they are those of the calls that were heard. -/
theorem chapters_partition (calls : List Call)
    (hproper : ∀ name ∈ namesOf (heard calls), Proper name) :
    ∃ chapters, (after calls).chapters = .ok chapters ∧
      Partition (heard calls) (after calls) chapters := by
  have hrecorded := recorded_after calls hproper
  exact ⟨_, chapters_eq hrecorded.named, partition_of_recorded hrecorded⟩

/-- Calls that declare one name twice, on both sides of a title that is spelled like the one for
functions without a title, and declare it once more under another name. -/
def generalCalls : List Call :=
  let f : Declaration := ⟨utf8 "f", [], 0, none, [], utf8 "any", none⟩
  [.function f, .title generalTitle, .function { f with returns := utf8 "nil" },
    .synonym f (utf8 "g")]

theorem chapters_partition_generalCalls :
    ∃ chapters, (after generalCalls).chapters = .ok chapters ∧
      Partition (heard generalCalls) (after generalCalls) chapters := by
  refine chapters_partition generalCalls ?_
  have hnames : namesOf (heard generalCalls) = [utf8 "f", utf8 "f", utf8 "g"] := rfl
  rw [hnames]
  simp only [List.forall_mem_cons, Proper]
  decide

end Registry

end TinyLisp
