/-
The documentation of a registry.

The documentation is a page per chapter that has functions and an index with a link
to each of them, all in Markdown.  The pages go into a folder, which is made first
with all folders it lies in.  They are written one after another, so an error leaves
those before it in place.
-/
import TinyLisp.Files.Basic
import TinyLisp.Registry.Chapter

namespace TinyLisp

/-- A page with the name of its file. -/
structure Page where
  /-- The name of the file. -/
  name : Bytes
  /-- What it holds. -/
  content : Bytes

namespace Page

/-- A parameter in the list of parameters. -/
def parameterLine (p : Parameter) : Bytes :=
  utf8 "- **" ++ p.name ++ utf8 "** (`" ++ p.type ++ utf8 "`): " ++ p.description ++ utf8 "\n"

/-- The parameters of a function. -/
def parameterList (parameters : List Parameter) : Bytes :=
  if parameters.isEmpty then utf8 "_This function has no parameters._\n\n"
  else parameters.flatMap parameterLine ++ utf8 "\n"

/-- The part of a page that is about one function. -/
def ofFunction (d : Declaration) : Bytes :=
  utf8 "## " ++ d.name ++ utf8 "\n\n" ++
  (if d.description.isEmpty then [] else d.description ++ utf8 "\n\n") ++
  utf8 "**Allowed number of parameters:** " ++ d.arity ++ utf8 "\n\n" ++
  utf8 "### Parameters\n\n" ++ parameterList d.parameters ++
  utf8 "### Returns\n\n`" ++ d.returns ++ utf8 "`\n\n"

/-- The name of the file for a slug. -/
def fileName (slug : Bytes) : Bytes := slug ++ utf8 ".md"

/-- The page of a chapter. -/
def ofChapter (c : Chapter) : Page :=
  ⟨fileName c.slug, utf8 "# " ++ c.title ++ utf8 "\n\n" ++ c.functions.flatMap ofFunction⟩

/-- The line of a chapter in the index. -/
def link (c : Chapter) : Bytes :=
  utf8 "- [" ++ c.title ++ utf8 "](" ++ fileName c.slug ++ utf8 ")\n"

/-- The chapters that get a page. -/
def documented (chapters : List Chapter) : List Chapter :=
  chapters.filter fun c => !c.functions.isEmpty

/-- The index. -/
def index (chapters : List Chapter) : Page :=
  ⟨fileName (utf8 "index"), utf8 "# Documentation\n\n" ++ (documented chapters).flatMap link⟩

/-- All pages in the order they are written, the index first. -/
def all (chapters : List Chapter) : List Page :=
  index chapters :: (documented chapters).map ofChapter

end Page

/-! ### Writing the pages -/

/-- Writes pages into a folder up to the first that cannot be made. -/
def Page.writeAll (folder : Bytes) (fs : Files) : List Page → Files × Option Stop
  | [] => (fs, none)
  | page :: rest =>
    let path := Path.join folder page.name
    match fs.write path page.content with
    | .ok fs => writeAll folder fs rest
    | .error e =>
      let message := utf8 "failed to create " ++ path ++ utf8 ": " ++ e.message
      (fs, some (.failure (.other message)))

/-- Writes the documentation of a registry into a folder: the files after it, and why it
stopped if it did. -/
def Registry.document (r : Registry) (folder : Bytes) (fs : Files) : Files × Option Stop :=
  match fs.makeFolders folder with
  | (fs, some e) =>
    let message := utf8 "failed to create folder " ++ Text.quoted folder ++ utf8 ": " ++ e.message
    (fs, some (.failure (.other message)))
  | (fs, none) =>
    match r.chapters with
    | .ok chapters => Page.writeAll folder fs (Page.all chapters)
    | .error stop => (fs, some stop)

end TinyLisp
