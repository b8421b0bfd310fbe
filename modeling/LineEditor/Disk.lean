import LineEditor.Error
import LineEditor.Text.Lines
import LineEditor.Text.Utf8

set_option autoImplicit false
set_option relaxedAutoImplicit false

/-!
# Files

A disk is a tree of directories and files. One directory is the home, from which names are
followed unless they start with a slash. A name is followed component by component; every component
but the last must lead to a directory.

## Main definitions

* `LineEditor.Disk`: the tree.
* `LineEditor.DiskError`: why a file cannot be opened.
* `LineEditor.Disk.find`: what a name leads to.
* `LineEditor.Disk.writeFile`: creates, replaces or extends a file.
* `LineEditor.Disk.readLines`, `LineEditor.Disk.writeLines`: files as lines.
-/

namespace LineEditor

/-- The names of the directories from the root to an entry, and its own. -/
abbrev Path := List Line

/-- What stands at a place of the tree. -/
inductive Entry where
  /-- A directory. -/
  | directory
  /-- A file with its bytes. -/
  | file (bytes : Array UInt8)
  deriving Repr, DecidableEq

/-- Why a file cannot be opened. -/
inductive DiskError where
  /-- Nothing has this name. -/
  | notFound
  /-- A component that is no directory has another one after it. -/
  | notDirectory
  /-- A directory stands where a file is wanted. -/
  | isDirectory
  /-- The name or a component of it is too long. -/
  | nameTooLong
  /-- The name has a NUL byte in it. -/
  | nulByte
  deriving Repr, DecidableEq

/-- The system's description of an error. -/
def DiskError.message : DiskError → String
  | notFound => "No such file or directory (os error 2)"
  | notDirectory => "Not a directory (os error 20)"
  | isDirectory => "Is a directory (os error 21)"
  | nameTooLong => "File name too long (os error 36)"
  | nulByte => "file name contained an unexpected NUL byte"

/-- A tree of directories and files. -/
structure Disk where
  /-- The entries below the root. -/
  entries : List (Path × Entry)
  /-- The directory from which names are followed. -/
  home : Path
  deriving Repr, DecidableEq

namespace Disk

/-! ## The tree -/

/-- What stands at a place. The root is a directory. -/
def entry? (disk : Disk) (path : Path) : Option Entry :=
  if path.isEmpty then some .directory else disk.entries.lookup path

/-- Puts an entry at a place, instead of what is there. -/
def put (disk : Disk) (path : Path) (entry : Entry) : Disk :=
  { disk with entries := disk.entries.filter (·.1 != path) ++ [(path, entry)] }

/-- Makes all directories on the way to a place that are missing. -/
def makeDirectories (disk : Disk) (path : Path) : Disk :=
  ((List.range path.length).map fun n => path.take (n + 1)).foldl
    (fun disk path => if (disk.entry? path).isSome then disk else disk.put path .directory) disk

/-- A disk with nothing on it but the home. -/
def withHome (home : Path) : Disk := makeDirectories ⟨[], home⟩ home

/-- The files in the home and below it, with their names seen from there. -/
def files (disk : Disk) : List (FileName × Line) :=
  disk.entries.filterMap fun (path, entry) =>
    match entry with
    | .directory => none
    | .file bytes =>
      if disk.home.isPrefixOf path then
        some ([ascii '/'].intercalate (path.drop disk.home.length), bytes.toList)
      else none

/-! ## Following names -/

/-- The longest component that a name may have. -/
def maxComponent : Nat := 255

/-- The longest name that can be followed. -/
def maxName : Nat := 4095

/-- The components of a name. Slashes that follow each other count as one. -/
def components (name : FileName) : List Line :=
  (segments (ascii '/') name).filter (!·.isEmpty)

/-- Whether a name ends in a slash, so that it can name a directory only. -/
def endsInSlash (name : FileName) : Bool := name.getLast? == some (ascii '/')

/-- The place that a component leads to from a directory. -/
def step (disk : Disk) (path : Path) (component : Line) : Except DiskError Path :=
  if component = Line.ofString "." then .ok path
  else if component = Line.ofString ".." then .ok path.dropLast
  else if maxComponent < component.length then .error .nameTooLong
  else if (disk.entry? (path ++ [component])).isSome then .ok (path ++ [component])
  else .error .notFound

/-- The directory that components lead to. -/
def descend (disk : Disk) (path : Path) : List Line → Except DiskError Path
  | [] => .ok path
  | component :: rest =>
    match disk.step path component with
    | .error e => .error e
    | .ok path =>
      if disk.entry? path = some .directory then disk.descend path rest
      else .error .notDirectory

/-- Checks what can be told from a name alone. -/
def checkName (name : FileName) : Except DiskError Unit :=
  if name.contains 0 then .error .nulByte
  else if name.isEmpty then .error .notFound
  else if maxName < name.length then .error .nameTooLong
  else .ok ()

/-- The directory that holds the last component of a name. -/
def parent (disk : Disk) (name : FileName) : Except DiskError Path :=
  match checkName name with
  | .error e => .error e
  | .ok () =>
    disk.descend (if name.head? = some (ascii '/') then [] else disk.home)
      (components name).dropLast

/-- What a name leads to. -/
def find (disk : Disk) (name : FileName) : Except DiskError Entry := do
  let path ← disk.parent name
  match (components name).getLast? with
  | none => return .directory
  | some component =>
    let path ← disk.step path component
    match disk.entry? path with
    | some (.file bytes) =>
      if endsInSlash name then throw .notDirectory else return .file bytes
    | _ => return .directory

/-- Whether a name leads to a directory. -/
def isDirectory (disk : Disk) (name : FileName) : Bool :=
  match disk.find name with
  | .ok .directory => true
  | _ => false

/-- Whether a name leads anywhere. -/
def hasEntry (disk : Disk) (name : FileName) : Bool := (disk.find name).toBool

/-- Writes bytes to a file, which is created if need be: behind what it holds or instead of it. -/
def writeFile (disk : Disk) (name : FileName) (bytes : Array UInt8) (append : Bool) :
    Except DiskError Disk := do
  let path ← disk.parent name
  match (components name).getLast? with
  | none => throw .isDirectory
  | some component =>
    if endsInSlash name ∨ component = Line.ofString "." ∨ component = Line.ofString ".." then
      throw .isDirectory
    if maxComponent < component.length then throw .nameTooLong
    let path := path ++ [component]
    match disk.entry? path with
    | some .directory => throw .isDirectory
    | some (.file old) => return disk.put path (.file (if append then old ++ bytes else bytes))
    | none => return disk.put path (.file bytes)

/-! ## Files as lines -/

/-- Why a file cannot be read, as the user is told. -/
def readError (name : FileName) (e : DiskError) : EditError :=
  let shown := Utf8.decodeLossy name
  match e with
  | .notFound => .file ("Cannot open input file: " ++ shown)
  | .isDirectory => .file ("Cannot read a directory: " ++ shown)
  | e => .file ("Error reading " ++ shown ++ ": " ++ e.message)

/-- Why a file cannot be written, as the user is told. -/
def writeError (name : FileName) (e : DiskError) : EditError :=
  .file ("Cannot open output file: " ++ Utf8.decodeLossy name ++ " (" ++ e.message ++ ")")

/-- The lines of a file, and its size. -/
def readLines (disk : Disk) (name : FileName) : Except EditError (List Line × Nat) :=
  match disk.find name with
  | .error e => .error (readError name e)
  | .ok .directory => .error (readError name .isDirectory)
  | .ok (.file bytes) => .ok (splitLines bytes.toList, bytes.size)

/-- Writes lines to a file. Returns the number of bytes that were written. -/
def writeLines (disk : Disk) (name : FileName) (lines : List Line) (append : Bool) :
    Except EditError (Nat × Disk) :=
  match disk.writeFile name (joinLines lines).toArray append with
  | .error e => .error (writeError name e)
  | .ok disk => .ok (byteCount lines, disk)

end Disk

end LineEditor
