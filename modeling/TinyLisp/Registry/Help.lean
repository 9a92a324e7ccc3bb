/-
Help texts.

Without a name the help lists all functions under their chapters, each with the
first line of its description; with a name it shows that function in full.  Every
line is written by itself, and of the errors there may be only the last line's is
reported.
-/
import TinyLisp.Output.Sink
import TinyLisp.Registry.Basic

namespace TinyLisp.Registry

/-- The first line of a description. -/
def summary (description : Bytes) : Bytes := description.takeWhile (· != Byte.lineFeed)

/-- The line of a function in the list of all functions. -/
def overviewLine (r : Registry) (name : Bytes) : Bytes :=
  let description := match r.lookup? name with
    | some d => d.description
    | none => []
  utf8 "  " ++ name ++ utf8 ": " ++ summary description

/-- The lines of an outline, and whether it could be shown to its end. -/
def overviewLines (r : Registry) : List Heading → List Bytes × Bool
  | [] => ([], true)
  | .title text :: rest =>
    let (lines, complete) := overviewLines r rest
    ([] :: (utf8 "-- " ++ text ++ utf8 " --") :: lines, complete)
  | .function name :: rest =>
    let (lines, complete) := overviewLines r rest
    (r.overviewLine name :: lines, complete)
  | .nameless :: _ => ([], false)

/-- The lines about one function. -/
def detailLines (d : Declaration) : List Bytes :=
  [utf8 "Help for: " ++ d.name, utf8 "===", [], d.description, [],
    utf8 "Allowed number of parameters: " ++ d.arity, []] ++
  d.parameters.map (fun p =>
    utf8 " - " ++ p.name ++ utf8 " (" ++ p.type ++ utf8 "): " ++ p.description) ++
  [[]]

/-- Writes lines and reports the last one's error. -/
def writeLines (lines : List Bytes) (s : Sink) : Sink × Option Stop :=
  let (s, err) := s.writeAll (lines.map Bytes.line)
  (s, err.map fun e => .failure (.output [] e))

/-- Writes the list of all functions, or the details of the one with the given name. -/
def help (r : Registry) (name : Bytes) (s : Sink) : Sink × Option Stop :=
  if name.isEmpty then
    let title := utf8 "Available functions:"
    let hint := utf8 "get further information by typing (help \"functionname\")"
    match r.overviewLines r.outline with
    | (lines, true) => writeLines (title :: lines ++ [[], hint]) s
    | (lines, false) => ((writeLines (title :: lines) s).1, some (.outOfRange 0 0))
  else match r.lookup? name with
    | some d => writeLines (detailLines d) s
    | none => (s, some (.failure (.other (utf8 "function not found: " ++ name))))

end TinyLisp.Registry
