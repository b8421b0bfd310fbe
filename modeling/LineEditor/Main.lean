import LineEditor.Program

set_option autoImplicit false
set_option relaxedAutoImplicit false

/-!
# The command line

The editor at a terminal. Everything that is decided is decided by `LineEditor.Action.step`; this
module only supplies what a step may look at and carries out what it asks for.

A step is computed on the bytes that have been read so far. If they do not suffice, its output is
shown, one more line is read, and the step is computed anew from the same session, which gives the
same output again and then more. The files that a step may open are those whose names stand in its
lines or are remembered; they are looked up before it, and those that it has changed are written
after it.
-/

namespace LineEditor.Terminal

/-! ## Files -/

/-- The bytes of a file, if it can be read. -/
def readFile? (name : String) : IO (Option (Array UInt8)) := do
  try return some (← IO.FS.readBinFile name).data
  catch _ => return none

/-- Whether a name is that of a directory. -/
def isDirectory (name : String) : IO Bool := do
  try return ← (← IO.FS.realPath name).isDir
  catch _ => return false

/-- The place that components lead to, if all of them exist. -/
def placeOf (start : Path) (components : List Line) : Path :=
  components.foldl (fun path component =>
    if component = Line.ofString "." then path
    else if component = Line.ofString ".." then path.dropLast
    else path ++ [component]) start

/-- Components with slashes between them. -/
def joined (components : List Line) : Line := [ascii '/'].intercalate components

/-- A disk with what the first components of a name lead to. -/
def probeComponents (disk : Disk) (isAbsolute : Bool) (components : List Line) : IO Disk := do
  let name := (if isAbsolute then [ascii '/'] else []) ++ joined components
  let place := placeOf (if isAbsolute then [] else disk.home) components
  match Utf8.decode? name with
  | none => return disk
  | some text =>
    match ← readFile? text with
    | some bytes => return disk.put place (.file bytes)
    | none => if ← isDirectory text then return disk.makeDirectories place else return disk

/-- A disk with what a name leads to. -/
def probe (disk : Disk) (name : FileName) : IO Disk := do
  let components := Disk.components name
  let mut disk := disk
  for n in List.range components.length do
    disk ← probeComponents disk (name.head? == some (ascii '/')) (components.take (n + 1))
  return disk

/-- The names of files that may stand in a line: what follows a blank, up to the end. -/
def namesIn : Line → List FileName
  | [] => []
  | b :: rest => if isBlank b then skipBlanks rest :: namesIn rest else namesIn rest

/-- A disk with the files of the given names. -/
def diskWith (names : List FileName) : IO Disk := do
  let home ← IO.currentDir
  names.eraseDups.foldlM probe
    (Disk.withHome (Disk.components (Line.ofString home.toString)))

/-- Writes the files that are on one disk but not on another. -/
def writeChanges (before after : Disk) : IO Unit := do
  for (path, entry) in after.entries do
    match entry with
    | .directory => pure ()
    | .file bytes =>
      if before.entry? path ≠ some entry then
        IO.FS.writeBinFile ("/" ++ Utf8.decodeLossy (joined path)) ⟨bytes⟩

/-! ## Input and output -/

/-- What has been read from the terminal. -/
structure Feed where
  /-- The bytes that no step has used yet. -/
  known : Line
  /-- Whether there are no more. -/
  ended : Bool
  /-- Why there are no more, if this is not their end. -/
  broken : Option String

/-- The input of a step. If more bytes can be read, the end of those that are known is a break. -/
def Feed.source (feed : Feed) : Source :=
  .stream feed.known (if feed.ended then feed.broken else some "")

/-- Reads the bytes up to the next newline. -/
partial def readLine (stdin : IO.FS.Stream) (line : ByteArray) : IO ByteArray := do
  let byte ← stdin.read 1
  if byte.isEmpty then return line
  let line := line ++ byte
  if byte.data.contains newline then return line else readLine stdin line

/-- Reads one more line. -/
def Feed.more (feed : Feed) (stdin : IO.FS.Stream) : IO Feed := do
  try
    let line ← readLine stdin .empty
    return { feed with
      known := feed.known ++ line.data.toList
      ended := line.data.back? != some newline }
  catch e => return { feed with ended := true, broken := some (toString e) }

/-- Shows the output of a step but for the bytes that have been shown already. -/
def showOutput (stdout : IO.FS.Stream) (output : Sink) (shown : Nat) : IO Unit := do
  stdout.write ⟨output.delivered.extract shown output.delivered.size⟩
  stdout.flush

/-! ## The session -/

/-- The names of the files that the next step may open. -/
def namesOf (startup : Startup) (s : Session) (feed : Feed) : List FileName :=
  startup.emergencyFile :: (startup.file.toList ++ s.buffer.filename.toList ++
    (splitLines feed.known).flatMap namesIn)

/-- Ends the program: saves what is to be saved. Returns the exit status. -/
def finish (startup : Startup) (ending : SessionEnd) (s : Session) : IO UInt32 := do
  try writeChanges s.disk (ending.settle startup.rescue s).disk catch _ => pure ()
  return ending.exitCode.toUInt32

/-- Carries out steps until the session ends; `shown` bytes of the next one's output have been
shown already. -/
partial def serve (stdin stdout : IO.FS.Stream) (startup : Startup) (s : Session) (feed : Feed)
    (shown : Nat) : IO UInt32 := do
  let disk ← diskWith (namesOf startup s feed)
  let start := { s with input := feed.source, output := .direct none "", disk }
  let (result, t) : Except EditError Outcome × Session :=
    match Action.step start with
    | .ok outcome t => (.ok outcome, t)
    | .error e t => (.error e, t)
  try showOutput stdout t.output shown
  catch e => return ← finish startup (.fatal (.output (toString e))) t
  match result with
  | .error e =>
    if feed.ended then finish startup (.fatal e) t
    else serve stdin stdout startup s (← feed.more stdin) t.output.delivered.size
  | .ok outcome =>
    writeChanges disk t.disk
    match outcome with
    | .quit => finish startup .quit t
    | .continued =>
      let left := match t.input with
        | .stream bytes _ => bytes
        | .script _ => []
      serve stdin stdout startup t { feed with known := left } 0

/-- The user's settings file, if there is one. -/
def settingsFile : IO (Option Line) := do
  let directory? ← do
    match ← IO.getEnv "XDG_CONFIG_HOME" with
    | some directory => pure (some directory)
    | none => pure ((← IO.getEnv "HOME").map (· ++ "/.config"))
  match directory? with
  | none => return none
  | some directory => return (← readFile? (directory ++ "/edkit/config.yaml")).map (·.toList)

/-- Starts a session. -/
def start (startup : Startup) (disk : Disk) : IO UInt32 := do
  let stdin ← IO.getStdin
  let stdout ← IO.getStdout
  match startup.openFile ⟨startup.editor, .script [], .direct none "", disk⟩ with
  | .error _ _ => return Program.startFailure.toUInt32
  | .ok () s =>
    showOutput stdout s.output 0
    serve stdin stdout startup s ⟨[], false, none⟩ 0

end LineEditor.Terminal

open LineEditor in
/-- Edits the file that the arguments name. -/
def main (arguments : List String) : IO UInt32 := do
  match Options.ofArguments (arguments.map Line.ofString) with
  | .error e =>
    IO.print (Program.reply e)
    return e.exitCode.toUInt32
  | .ok options =>
    let disk ← Terminal.diskWith options.file.toList
    match Startup.ofOptions (Settings.ofFile (← Terminal.settingsFile)) options disk with
    | .error message =>
      IO.eprintln message
      return Program.startFailure.toUInt32
    | .ok startup => Terminal.start startup disk
