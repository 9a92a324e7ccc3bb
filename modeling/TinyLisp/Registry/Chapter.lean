/-
Chapters of the documentation.

The outline of a registry falls into chapters: a title and the functions declared
under it.  Functions declared before the first title make a chapter of their own.
Every chapter has a slug, which is its title made fit for a file name; a slug that
is taken gets a number, and the first number that is free is used.
-/
import TinyLisp.Registry.Basic
import TinyLisp.Text.Lowercase

namespace TinyLisp

/-! ### Slugs -/

/-- The byte of a slug that a small letter of a title becomes, if it has a place in one. -/
def slugByte? : Rune → Option UInt8
  | .char c =>
    let b := UInt8.ofNat c.toNat
    if c.toNat ≥ 0x80 then none
    else if b = Byte.space then some Byte.minus
    else if (97 ≤ b && b ≤ 122) || Byte.isDigit b || b = Byte.minus || b = Byte.underscore then
      some b
    else none
  | .stray _ => none

/-- A title made fit for a file name: trimmed, in small letters, with dashes for spaces and
without everything that is no ASCII letter, digit, dash or underscore. -/
def slugify (title : Bytes) : Bytes :=
  let slug := (Text.trim (Rune.decode title)).filterMap fun r => slugByte? (Text.lowerRune r)
  if slug.isEmpty then utf8 "chapter" else slug

/-- A slug with a number behind it. -/
def numberedSlug (slug : Bytes) (n : Nat) : Bytes := slug ++ utf8 "-" ++ Numeral.decimal n

/-- The slug itself if it is free, else the slug with the first number from two on that is.
One of the candidates is free, since there is one more of them than slugs taken. -/
def freshSlug (taken : List Bytes) (slug : Bytes) : Bytes :=
  let candidates := slug :: (List.range taken.length).map fun i => numberedSlug slug (i + 2)
  (candidates.find? fun c => !taken.contains c).getD slug

/-! ### Chapters -/

/-- A chapter of the documentation. -/
structure Chapter where
  /-- Its title. -/
  title : Bytes
  /-- The name of its page. -/
  slug : Bytes
  /-- Its functions, in the order of declaration. -/
  functions : List Declaration

/-- A title and the names under it. -/
structure Section where
  /-- The title. -/
  title : Bytes
  /-- The names, in order. -/
  names : List Bytes

/-- The names in front of the first title, and the sections from there on. -/
def sectionsAfter : List Heading → List Bytes × List Section
  | [] => ([], [])
  | .title text :: rest =>
    let (names, sections) := sectionsAfter rest
    ([], ⟨text, names⟩ :: sections)
  | .function name :: rest =>
    let (names, sections) := sectionsAfter rest
    (name :: names, sections)
  | .nameless :: rest => sectionsAfter rest

/-- The title of the functions declared before any title. -/
def generalTitle : Bytes := utf8 "General"

/-- The sections of an outline. -/
def outlineSections (outline : List Heading) : List Section :=
  let (names, sections) := sectionsAfter outline
  if names.isEmpty then sections else ⟨generalTitle, names⟩ :: sections

namespace Registry

/-- Chapters for sections, with slugs that are not taken. -/
def chaptersFor (r : Registry) (taken : List Bytes) : List Section → List Chapter
  | [] => []
  | s :: rest =>
    let slug := freshSlug taken (slugify s.title)
    ⟨s.title, slug, s.names.filterMap r.lookup?⟩ :: chaptersFor r (slug :: taken) rest

/-- The chapters of a registry; an empty name in its outline makes this crash. -/
def chapters (r : Registry) : Except Stop (List Chapter) :=
  if r.outline.contains .nameless then .error (.outOfRange 0 0)
  else .ok (r.chaptersFor [] (outlineSections r.outline))

end Registry

end TinyLisp
