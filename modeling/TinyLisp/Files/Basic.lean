/-
A tree of files.

`Files` holds folders and files by the parts of their paths.  A path is relative to
the working directory unless its first part is empty, which stands for the root; a
path that leads out of the working directory begins with double dots.  Looking up a
path walks it part by part, as an operating system does: every part but the last has
to be a folder, a dot stays and a double dot goes back up.

Operations fail with the error an operating system would give, together with the
name of the operation and the path it was given.
-/
import TinyLisp.Files.Path

namespace TinyLisp

/-- What a path can name. -/
inductive Node where
  /-- A file with its content. -/
  | file (content : Bytes)
  /-- A folder. -/
  | folder

/-- Files and folders by the parts of their paths. -/
abbrev Files := List (List Bytes × Node)

/-- Why a path cannot be used. -/
inductive FileFault where
  /-- Nothing has this name. -/
  | notFound
  /-- A part that should be a folder is none. -/
  | notFolder
  /-- A folder where a file should be. -/
  | isFolder
  /-- The name is taken. -/
  | taken
  deriving DecidableEq, Repr

/-- A fault in words. -/
def FileFault.message : FileFault → Bytes
  | .notFound => utf8 "no such file or directory"
  | .notFolder => utf8 "not a directory"
  | .isFolder => utf8 "is a directory"
  | .taken => utf8 "file exists"

/-- An operation on a path that failed. -/
structure FileError where
  /-- The operation. -/
  operation : Bytes
  /-- The path. -/
  path : Bytes
  /-- Why it failed. -/
  fault : FileFault

/-- A failed operation in words. -/
def FileError.message (e : FileError) : Bytes :=
  e.operation ++ utf8 " " ++ e.path ++ utf8 ": " ++ e.fault.message

/-- Where a path leads. -/
inductive Target where
  /-- To something that is there. -/
  | found (path : List Bytes) (node : Node)
  /-- To a free name in a folder. -/
  | vacant (folder : List Bytes) (name : Bytes)
  /-- Through something that is not there. -/
  | missing
  /-- Through a file. -/
  | blocked

namespace Files

/-- The parts of the root. -/
def root : List Bytes := [[]]

/-- The parts of the working directory or of a folder above it. -/
def isAbove (path : List Bytes) : Bool := path.all (· == Path.above)

/-- What has the given parts.  The root, the working directory and the folders above it are
always there. -/
def get? (fs : Files) (path : List Bytes) : Option Node :=
  if path == root || isAbove path then some .folder
  else (fs.find? fun (p, _) => p == path).map (·.2)

/-- The parts of the folder above. -/
def up (path : List Bytes) : List Bytes :=
  if path == root then root else if isAbove path then path ++ [Path.above] else path.dropLast

/-- Puts a node at the given parts. -/
def put (fs : Files) (path : List Bytes) (node : Node) : Files :=
  if fs.any fun (p, _) => p == path then
    fs.map fun (p, n) => if p == path then (p, node) else (p, n)
  else fs ++ [(path, node)]

/-- Follows the parts of a path from a node on. -/
def walk (fs : Files) (current : List Bytes) (node : Node) : List Bytes → Target
  | [] => .found current node
  | part :: rest =>
    match node with
    | .file _ => .blocked
    | .folder =>
      if part.isEmpty || part = Path.here then walk fs current .folder rest
      else if part = Path.above then walk fs (up current) .folder rest
      else match fs.get? (current ++ [part]) with
        | some next => walk fs (current ++ [part]) next rest
        | none => if rest.all List.isEmpty then .vacant current part else .missing

/-- Where a path leads. -/
def resolve (fs : Files) (path : Bytes) : Target :=
  if path.isEmpty then .missing
  else fs.walk (if Path.isRooted path then root else []) .folder (Path.parts path)

/-- What a path names. -/
def stat (fs : Files) (path : Bytes) : Except FileFault Node :=
  match fs.resolve path with
  | .found _ node => .ok node
  | .blocked => .error .notFolder
  | _ => .error .notFound

/-- The content of the file that a path names. -/
def read (fs : Files) (path : Bytes) : Except FileError Bytes :=
  match fs.stat path with
  | .ok (.file content) => .ok content
  | .ok .folder => .error ⟨utf8 "read", path, .isFolder⟩
  | .error fault => .error ⟨utf8 "open", path, fault⟩

/-- Makes one folder.  A folder that is there already will do.  Slashes at the end of the path
say nothing here, since a folder is asked for anyway. -/
def makeFolder (fs : Files) (path : Bytes) : Files × Option FileError :=
  let failed (fault : FileFault) := (fs, some ⟨utf8 "mkdir", path, fault⟩)
  match fs.resolve (if Path.isRooted path then path else Path.trimSlashes path) with
  | .vacant folder name => (fs.put (folder ++ [name]) .folder, none)
  | .found _ .folder => (fs, none)
  | .found _ (.file _) => failed .taken
  | .missing => failed .notFound
  | .blocked => failed .notFolder

/-- Makes the first folder of a chain, after those it lies in. -/
def makeChain (fs : Files) : List Bytes → Files × Option FileError
  | [] => (fs, none)
  | path :: outer =>
    match fs.stat path with
    | .ok .folder => (fs, none)
    | .ok (.file _) => (fs, some ⟨utf8 "mkdir", path, .notFolder⟩)
    | .error _ =>
      match makeChain fs outer with
      | (fs, none) => fs.makeFolder path
      | failed => failed

/-- Makes a folder and all folders it lies in. -/
def makeFolders (fs : Files) (path : Bytes) : Files × Option FileError :=
  fs.makeChain (Path.chain path)

/-- The parts of the file that a path names for writing, whether it is there or not. -/
def place (fs : Files) (path : Bytes) : Except FileError (List Bytes) :=
  let failed (fault : FileFault) := Except.error ⟨utf8 "open", path, fault⟩
  match fs.resolve path with
  | .vacant folder name => .ok (folder ++ [name])
  | .found parts (.file _) => .ok parts
  | .found _ .folder => failed .isFolder
  | .missing => failed .notFound
  | .blocked => failed .notFolder

/-- Replaces the content of a file, which is made if it is not there. -/
def write (fs : Files) (path content : Bytes) : Except FileError Files :=
  match fs.place path with
  | .ok parts => .ok (fs.put parts (.file content))
  | .error e => .error e

/-- The path with the given parts. -/
def pathOf (parts : List Bytes) : Bytes := List.intercalate [Byte.slash] parts

/-- The parts lead out of the working directory. -/
def isOutside (parts : List Bytes) : Bool :=
  parts.head? == some [] || parts.head? == some Path.above

/-- The files and their contents, without the folders. -/
def contents (fs : Files) : List (Bytes × Bytes) :=
  fs.filterMap fun (path, node) =>
    match node with
    | .file content => some (pathOf path, content)
    | .folder => none

/-- The files below the working directory. -/
def inside (fs : Files) : Files := fs.filter fun (path, _) => !isOutside path

/-- The folders that the given parts lie in, the outermost first. -/
def foldersOf (path : List Bytes) : List (List Bytes) :=
  (List.range path.length).tail.map path.take

/-- Puts a node at a path, with all folders it lies in. -/
def plant (fs : Files) (path : Bytes) (node : Node) : Files :=
  let parts := Path.parts (Path.clean path)
  let fs := (foldersOf parts).foldl
    (fun fs folder => if (fs.get? folder).isSome then fs else fs.put folder .folder) fs
  fs.put parts node

end Files

end TinyLisp
