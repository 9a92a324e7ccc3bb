/-
Documentation in an empty folder.

The pages are written one after another into one folder.  Their names are slugs with
an ending, so they all name files there and none can fail; what is left under a name
is the last page that has it (`writeAll_spec`).

Chapters have different slugs, so no chapter takes the file of another.  The index
has no slug, and nothing keeps a chapter from being called `index`: then its page
takes the place of the index.  `document_complete_iff` says that this is the only way
for a page to get lost.
-/
import TinyLisp.Proofs.Files.Folders
import TinyLisp.Proofs.Registry.Chapters
import TinyLisp.Registry.Document

namespace TinyLisp

open TinyLisp.Path (IsName)

/-! ### Names of pages -/

theorem Page.fileName_injective : Function.Injective Page.fileName :=
  fun _ _ h => List.append_cancel_right h

theorem Page.isName_fileName {slug : Bytes} (h : IsSlug slug) : IsName (Page.fileName slug) := by
  have hending : utf8 ".md" = [46, 109, 100] := by decide
  have hlen : 2 < (Page.fileName slug).length := by simp [Page.fileName, hending]
  refine ⟨?_, ?_, ?_, ?_⟩
  · intro hc
    simp [hc] at hlen
  · intro hc
    rw [hc] at hlen
    exact absurd hlen (by decide)
  · intro hc
    rw [hc] at hlen
    exact absurd hlen (by decide)
  · intro hc
    rw [Page.fileName, hending, List.mem_append] at hc
    rcases hc with hc | hc
    · exact absurd (h.2 _ hc) (by decide)
    · exact absurd hc (by decide)

theorem Page.isName_of_mem_all {chapters : List Chapter} (h : ∀ c ∈ chapters, IsSlug c.slug) :
    ∀ page ∈ Page.all chapters, IsName page.name := by
  intro page hpage
  rcases List.mem_cons.mp hpage with rfl | hpage
  · exact Page.isName_fileName
      ⟨by decide, by simpa using (by decide : (utf8 "index").all Byte.isSlug = true)⟩
  · obtain ⟨c, hc, rfl⟩ := List.mem_map.mp hpage
    exact Page.isName_fileName (h c (List.mem_filter.mp hc).1)

section

variable {chapters : List Chapter} (h : (chapters.map Chapter.slug).Nodup)
include h

theorem Page.documented_slugs_nodup : ((Page.documented chapters).map Chapter.slug).Nodup :=
  h.sublist (List.filter_sublist.map Chapter.slug)

/-- Every page has a name of its own if no chapter has the name of the index. -/
theorem Page.names_nodup_iff : ((Page.all chapters).map Page.name).Nodup ↔
    ∀ c ∈ Page.documented chapters, c.slug ≠ utf8 "index" := by
  have hnames : (Page.all chapters).map Page.name =
      (utf8 "index" :: (Page.documented chapters).map Chapter.slug).map Page.fileName := by
    simp [Page.all, Page.index, Page.ofChapter, Function.comp_def]
  rw [hnames, List.nodup_map_iff Page.fileName_injective, List.nodup_cons]
  simp [Page.documented_slugs_nodup h]

/-- No page after that of a chapter has its name. -/
theorem Page.last_of_documented {c : Chapter} (hc : c ∈ Page.documented chapters) :
    ∃ front back, Page.all chapters = front ++ Page.ofChapter c :: back ∧
      ∀ later ∈ back, later.name ≠ (Page.ofChapter c).name := by
  have hslugs := Page.documented_slugs_nodup h
  obtain ⟨front, back, hsplit⟩ := List.append_of_mem hc
  refine ⟨Page.index chapters :: front.map Page.ofChapter, back.map Page.ofChapter, ?_, ?_⟩
  · simp [Page.all, hsplit]
  · intro later hlater hsame
    obtain ⟨other, hother, rfl⟩ := List.mem_map.mp hlater
    rw [hsplit, List.map_append, List.map_cons, List.nodup_append] at hslugs
    refine (List.nodup_cons.mp hslugs.2.1).1 ?_
    rw [← Page.fileName_injective hsame]
    exact List.mem_map_of_mem hother

end

/-! ### Writing pages -/

section

variable {folder : Bytes} {target : List Bytes}

/-- Writing pages cannot fail where their names are free, and each name has the last page that was
written under it. -/
theorem Page.writeAll_spec (pages : List Page) :
    ∀ fs : Files, fs.Leads folder target → (∀ page ∈ pages, IsName page.name) →
      (∀ page ∈ pages, fs.get? (target ++ [page.name]) ≠ some .folder) →
      ∃ written, Page.writeAll folder fs pages = (written, none) ∧ written.Leads folder target ∧
        (∀ path, (∀ page ∈ pages, path ≠ target ++ [page.name]) →
          written.get? path = fs.get? path) ∧
        ∀ front page back, pages = front ++ page :: back →
          (∀ later ∈ back, later.name ≠ page.name) →
          written.get? (target ++ [page.name]) = some (.file page.content) := by
  induction pages with
  | nil =>
      intro fs hleads _ _
      refine ⟨fs, rfl, hleads, fun _ _ => rfl, ?_⟩
      intro front page back h
      simp at h
  | cons first rest ih =>
      intro fs hleads hnames hfree
      obtain ⟨hfirst, hrest⟩ := List.forall_mem_cons.mp hnames
      obtain ⟨hfreeFirst, hfreeRest⟩ := List.forall_mem_cons.mp hfree
      have hself := fs.get?_put_self target hfirst (.file first.content)
      have hnext : ∀ page ∈ rest, (fs.put (target ++ [first.name]) (.file first.content)).get?
          (target ++ [page.name]) ≠ some .folder := by
        intro page hpage
        by_cases hsame : page.name = first.name
        · rw [hsame, hself]
          simp
        · rw [Files.get?_put_other fs (by simpa using hsame)]
          exact hfreeRest page hpage
      obtain ⟨written, hwritten, hleadsTo, hframe, hlast⟩ :=
        ih _ (hleads.put hfreeFirst _) hrest hnext
      refine ⟨written, ?_, hleadsTo, ?_, ?_⟩
      · simp only [Page.writeAll, hleads.write_join hfirst hfreeFirst]
        exact hwritten
      · intro path hpath
        obtain ⟨hne, hothers⟩ := List.forall_mem_cons.mp hpath
        rw [hframe path hothers, Files.get?_put_other fs hne]
      · intro front page back hsplit hlater
        cases front with
        | nil =>
            -- no page after the first one has its name, so it stays
            obtain ⟨rfl, rfl⟩ := List.cons.inj hsplit
            rw [hframe, hself]
            intro later hmem
            simpa using Ne.symm (hlater later hmem)
        | cons _ front =>
            obtain ⟨-, hsplit⟩ := List.cons.inj hsplit
            exact hlast front page back hsplit hlater

end

/-! ### The documentation of a registry -/

/-- The folder has all pages, each in a file of its own, and nothing else. -/
structure Documented (fs : Files) (folder : Bytes) (chapters : List Chapter) : Prop where
  /-- No two pages share a file. -/
  separate : ((Page.all chapters).map Page.name).Nodup
  /-- What is in the folder is the pages. -/
  exact : ∀ name, IsName name → ∀ node, fs.stat (Path.join folder name) = .ok node ↔
    ∃ page ∈ Page.all chapters, page.name = name ∧ node = .file page.content

namespace Registry

/-- An outline without nameless entries has chapters with slugs of their own. -/
theorem exists_chapters {r : Registry} (h : Heading.nameless ∉ r.outline) :
    ∃ chapters, r.chapters = .ok chapters ∧ (∀ c ∈ chapters, IsSlug c.slug) ∧
      (chapters.map Chapter.slug).Nodup :=
  ⟨_, chapters_eq h, r.chaptersFor_isSlug _ [], r.chaptersFor_slugs_nodup _ []⟩

/-- With its folder made and its chapters known, documentation is the pages written. -/
theorem document_eq {r : Registry} {folder : Bytes} {fs made : Files} {chapters : List Chapter}
    (hmade : fs.makeFolders folder = (made, none)) (hchapters : r.chapters = .ok chapters) :
    r.document folder fs = Page.writeAll folder made (Page.all chapters) := by
  rw [document, hmade, hchapters]

theorem documented_of_separate {made written : Files} {folder : Bytes} {target : List Bytes}
    {chapters : List Chapter} (hleads : written.Leads folder target)
    (hempty : ∀ name, IsName name → made.get? (target ++ [name]) = none)
    (hframe : ∀ path, (∀ page ∈ Page.all chapters, path ≠ target ++ [page.name]) →
      written.get? path = made.get? path)
    (hlast : ∀ front page back, Page.all chapters = front ++ page :: back →
      (∀ later ∈ back, later.name ≠ page.name) →
      written.get? (target ++ [page.name]) = some (.file page.content))
    (hseparate : ((Page.all chapters).map Page.name).Nodup) :
    Documented written folder chapters := by
  have hthere : ∀ page ∈ Page.all chapters,
      written.get? (target ++ [page.name]) = some (.file page.content) := by
    intro page hpage
    obtain ⟨front, back, hsplit⟩ := List.append_of_mem hpage
    refine hlast front page back hsplit ?_
    intro later hlater hsame
    rw [hsplit, List.map_append, List.map_cons, List.nodup_append] at hseparate
    have hnot := (List.nodup_cons.mp hseparate.2.1).1
    rw [← hsame] at hnot
    exact hnot (List.mem_map_of_mem hlater)
  refine ⟨hseparate, ?_⟩
  intro name hname node
  rw [hleads.stat_join hname]
  by_cases hpage : ∃ page ∈ Page.all chapters, page.name = name
  · obtain ⟨page, hmem, rfl⟩ := hpage
    rw [hthere page hmem, Option.elim_some]
    constructor
    · intro hnode
      cases hnode
      exact ⟨page, hmem, rfl, rfl⟩
    · rintro ⟨other, hother, hsame, rfl⟩
      have hcontent := hthere other hother
      rw [hsame, hthere page hmem] at hcontent
      rw [Option.some.inj hcontent]
  · have hfree : written.get? (target ++ [name]) = none := by
      rw [hframe, hempty name hname]
      intro page hmem hc
      exact hpage ⟨page, hmem, by simpa using hc.symm⟩
    rw [hfree, Option.elim_none]
    constructor
    · intro hnode
      cases hnode
    · rintro ⟨page, hmem, hsame, -⟩
      exact absurd ⟨page, hmem, hsame⟩ hpage

/-- **Documentation overwrites nothing of its own unless a chapter is called `index`.**  Written
into an empty folder it never fails and leaves the page of every chapter with functions.  The
folder has the index beside them, and nothing else, exactly if none of these chapters has the name
of the index. -/
theorem document_complete_iff (calls : List Call)
    (hproper : ∀ name ∈ namesOf (heard calls), Proper name) {fs made : Files} {folder : Bytes}
    (hmade : fs.makeFolders folder = (made, none)) (hempty : made.IsEmptyFolder folder) :
    ∃ chapters written, (after calls).chapters = .ok chapters ∧
      (after calls).document folder fs = (written, none) ∧
      (∀ c ∈ Page.documented chapters, written.stat (Path.join folder (Page.ofChapter c).name) =
        .ok (.file (Page.ofChapter c).content)) ∧
      (Documented written folder chapters ↔
        ∀ c ∈ Page.documented chapters, c.slug ≠ utf8 "index") := by
  obtain ⟨chapters, hchapters, hslugs, hnodup⟩ :=
    exists_chapters (recorded_after calls hproper).named
  obtain ⟨target, hleads, hnone⟩ := hempty.leads
  have hnames := Page.isName_of_mem_all hslugs
  have hfree : ∀ page ∈ Page.all chapters, made.get? (target ++ [page.name]) ≠ some .folder := by
    intro page hpage
    rw [hnone _ (hnames page hpage)]
    simp
  obtain ⟨written, hwritten, hleadsTo, hframe, hlast⟩ :=
    Page.writeAll_spec (Page.all chapters) made hleads hnames hfree
  refine ⟨chapters, written, hchapters, (document_eq hmade hchapters).trans hwritten, ?_, ?_⟩
  · intro c hc
    obtain ⟨front, back, hsplit, hlater⟩ := Page.last_of_documented hnodup hc
    rw [hleadsTo.stat_join (hnames _ (by rw [hsplit]; simp)), hlast front _ back hsplit hlater,
      Option.elim_some]
  · rw [← Page.names_nodup_iff hnodup]
    exact ⟨Documented.separate, documented_of_separate hleadsTo hnone hframe hlast⟩

/-! ### One chapter in one folder -/

/-- A function without parameters. -/
def chapterFunction : Declaration := ⟨utf8 "f", [], 0, none, [], utf8 "any", none⟩

/-- Calls that declare one function in a chapter with the given title. -/
def chapterCalls (title : Bytes) : List Call := [.title title, .function chapterFunction]

theorem proper_chapterCalls (title : Bytes) :
    ∀ name ∈ namesOf (heard (chapterCalls title)), Proper name := by
  have hnames : namesOf (heard (chapterCalls title)) = [utf8 "f"] := rfl
  rw [hnames, List.forall_mem_singleton, Proper]
  decide

/-- A tree with one folder. -/
def docsFolder : Files := [([utf8 "docs"], .folder)]

theorem makeFolders_docs : Files.makeFolders [] (utf8 "docs") = (docsFolder, none) := rfl

theorem isEmptyFolder_docs : docsFolder.IsEmptyFolder (utf8 "docs") := by
  have hleads : docsFolder.Leads (utf8 "docs") [utf8 "docs"] := Files.leads_of_resolve rfl
  refine ⟨rfl, ?_⟩
  intro name hname
  have hnone : docsFolder.get? ([utf8 "docs"] ++ [name]) = none := by
    rw [Files.get?_child _ _ hname]
    simp [docsFolder]
  rw [hleads.stat_join hname, hnone, Option.elim_none]

theorem document_complete_lists :
    ∃ chapters written, (after (chapterCalls (utf8 "Lists"))).chapters = .ok chapters ∧
      (after (chapterCalls (utf8 "Lists"))).document (utf8 "docs") [] = (written, none) ∧
      (∀ c ∈ Page.documented chapters,
        written.stat (Path.join (utf8 "docs") (Page.ofChapter c).name) =
          .ok (.file (Page.ofChapter c).content)) ∧
      (Documented written (utf8 "docs") chapters ↔
        ∀ c ∈ Page.documented chapters, c.slug ≠ utf8 "index") :=
  document_complete_iff (chapterCalls (utf8 "Lists")) (proper_chapterCalls _) makeFolders_docs
    isEmptyFolder_docs

/-- The chapter that a title `index` makes. -/
def indexChapter : Chapter := ⟨utf8 "index", utf8 "index", [chapterFunction]⟩

/-- The page of a chapter called `index` takes the place of the index and is the only file left. -/
theorem document_loses_index :
    (∀ name ∈ namesOf (heard (chapterCalls (utf8 "index"))), Proper name) ∧
      Files.makeFolders [] (utf8 "docs") = (docsFolder, none) ∧
      docsFolder.IsEmptyFolder (utf8 "docs") ∧
      ((after (chapterCalls (utf8 "index"))).document (utf8 "docs") []).1.contents =
        [(utf8 "docs/index.md", (Page.ofChapter indexChapter).content)] ∧
      ¬ ∃ chapters written, (after (chapterCalls (utf8 "index"))).chapters = .ok chapters ∧
        (after (chapterCalls (utf8 "index"))).document (utf8 "docs") [] = (written, none) ∧
        Documented written (utf8 "docs") chapters := by
  refine ⟨proper_chapterCalls _, makeFolders_docs, isEmptyFolder_docs, rfl, ?_⟩
  rintro ⟨chapters, written, hchapters, -, hdocumented⟩
  have honly : (after (chapterCalls (utf8 "index"))).chapters = .ok [indexChapter] := rfl
  obtain rfl := Except.ok.inj (honly.symm.trans hchapters)
  have hnames := hdocumented.separate
  simp [Page.all, Page.documented, Page.index, Page.ofChapter, indexChapter] at hnames

end Registry

end TinyLisp
