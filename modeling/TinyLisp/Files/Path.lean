/-
Paths.

A path is a text whose parts are separated by slashes.  `clean` gives the shortest
path that names the same file as far as the text alone can tell: it drops empty
parts and dots, and lets a double dot take back the part before it.
-/
import TinyLisp.Text.Bytes

namespace TinyLisp.Path

/-- The part that names the folder itself. -/
def here : Bytes := utf8 "."

/-- The part that names the folder above. -/
def above : Bytes := utf8 ".."

/-- The parts of a path. -/
def parts (path : Bytes) : List Bytes := Bytes.splitOn Byte.slash path

/-- A path that starts at the root. -/
def isRooted (path : Bytes) : Bool := path.head? == some Byte.slash

/-- One step of cleaning.  `kept` holds the parts kept so far, the last one first. -/
def cleanStep (rooted : Bool) (kept : List Bytes) (part : Bytes) : List Bytes :=
  if part.isEmpty || part = here then kept
  else if part = above then
    match kept with
    | last :: rest => if last = above then above :: kept else rest
    | [] => if rooted then [] else [above]
  else part :: kept

/-- The path without anything superfluous. -/
def clean (path : Bytes) : Bytes :=
  let rooted := isRooted path
  let kept := ((parts path).foldl (cleanStep rooted) []).reverse
  let body := List.intercalate [Byte.slash] kept
  if rooted then Byte.slash :: body
  else if body.isEmpty then here else body

/-- The path of a file in a folder. -/
def join (folder name : Bytes) : Bytes :=
  if folder.isEmpty then clean name else clean (folder ++ [Byte.slash] ++ name)

/-- The path without the slashes at its end. -/
def trimSlashes (path : Bytes) : Bytes := (path.reverse.dropWhile (· == Byte.slash)).reverse

/-- The path of the folder that a path lies in, if its text names one. -/
def parent? (path : Bytes) : Option Bytes :=
  match (trimSlashes path).reverse.dropWhile (· != Byte.slash) with
  | _ :: b :: rest => some (b :: rest).reverse
  | _ => none

/-- The path and the folders it lies in, the innermost first.  `fuel` bounds their number. -/
def chainWithin : (fuel : Nat) → Bytes → List Bytes
  | 0, path => [path]
  | fuel + 1, path =>
    match parent? path with
    | some parent => path :: chainWithin fuel parent
    | none => [path]

/-- The path and the folders it lies in, the innermost first. -/
def chain (path : Bytes) : List Bytes := chainWithin path.length path

end TinyLisp.Path
