import LineEditor.Options
import LineEditor.Session.Loop
import LineEditor.Settings

set_option autoImplicit false
set_option relaxedAutoImplicit false

/-!
# The program

From its arguments and the user's settings the program makes an editor, opens the file that it is
to edit, and runs a session. If the session dies with changes that were not written, these are
saved in a file of their own.

## Main definitions

* `LineEditor.Startup`: arguments and settings together.
* `LineEditor.Startup.openFile`: the opening of the file.
* `LineEditor.Startup.rescue`: what is done when the session dies.
* `LineEditor.Program.run`: the whole program.
-/

namespace LineEditor

/-- Arguments and settings together. -/
structure Startup where
  /-- The file to edit. -/
  file : Option FileName
  /-- The prompt. -/
  prompt : Prompt
  /-- Whether the sizes of files are not printed. -/
  silent : Bool
  /-- Whether errors are explained at once. -/
  verbose : Bool
  /-- The file that changes are saved in when the session dies. -/
  emergencyFile : FileName
  deriving Repr, DecidableEq

namespace Startup

/-- What the user is told who wants to edit a directory. -/
def directoryMessage (name : FileName) : String := Utf8.decodeLossy name ++ " is a directory"

/-- Puts arguments and settings together. An argument goes before a setting. The file to edit must
not be a directory. -/
def ofOptions (settings : Settings) (options : Options) (disk : Disk) : Except String Startup :=
  if let some name := options.file.filter disk.isDirectory then .error (directoryMessage name)
  else
    .ok {
      file := options.file
      prompt := ⟨options.prompt.getD settings.prompt, options.prompt.isSome⟩
      silent := options.silent
      verbose := options.verbose || settings.verbose
      emergencyFile := settings.emergencyFile }

/-- The editor to start with. -/
def editor (startup : Startup) : Editor :=
  { Editor.ofLines [] with
    prompt := startup.prompt
    silent := startup.silent
    verbose := startup.verbose }

/-- Opens the file to edit. If there is none of this name, only the name is remembered, and the user
is told. -/
def openFile (startup : Startup) : Action Unit := do
  match startup.file with
  | none => pure ()
  | some name =>
    if (← get).disk.hasEntry name then Action.reportSize (← Action.load name)
    else
      Action.changeBuffer fun b => { b with filename := some name }
      Action.report (.file (Utf8.decodeLossy name ++ ": No such file or directory"))

/-- What is done when the session dies: changes that were not written are saved, as far as that is
possible. -/
def rescue (startup : Startup) : FatalHook := fun b disk =>
  if b.dirty then
    match disk.writeLines startup.emergencyFile b.lines.toList false with
    | .error _ => disk
    | .ok (_, disk) => disk
  else disk

end Startup

/-- What the program leaves behind. -/
structure Exit where
  /-- The exit status. -/
  code : Nat
  /-- The output. -/
  output : Sink
  /-- The files. -/
  disk : Disk
  deriving Repr, DecidableEq

/-- A device after the last attempt to hand on what its buffers hold. -/
def Sink.close (sink : Sink) : Sink :=
  match Sink.flush sink with
  | .ok _ sink => sink
  | .error _ sink => sink

namespace Program

/-- What is printed for a question instead of starting the editor. -/
def reply : OptionsError → String
  | .versionWanted => "edkit 0.3.0\n"
  | .helpWanted => String.intercalate "\n" [
      "A line-oriented text editor",
      "",
      "Usage: edkit [OPTIONS] [FILE]",
      "",
      "Arguments:",
      "  [FILE]  File to edit",
      "",
      "Options:",
      "  -p, --prompt <PROMPT>  Use PROMPT as the command prompt and show it",
      "  -s, --silent           Suppress byte counts",
      "  -v, --verbose          Print error messages instead of \x60?\x60",
      "  -h, --help             Print help",
      "  -V, --version          Print version",
      ""]
  | _ => ""

/-- What stands between the program and the device that its output goes to: a buffer for the whole
output, and behind it one that hands on complete lines. -/
def outputBuffers : List OutputBuffer := [.empty 8192 false, .empty 1024 true]

/-- The exit status of a program that could not start. -/
def startFailure : Nat := 1

/-- A device after an attempt to write a text to it. -/
def printed (sink : Sink) (text : String) : Sink :=
  match Sink.write (Line.ofString text).toArray sink with
  | .ok _ sink => sink.close
  | .error _ sink => sink

/-- Runs the program on its arguments and the settings file, if there is one, with the given input,
output and files. -/
def run (arguments : List Line) (settingsFile : Option Line) (input : Source) (output : Sink)
    (disk : Disk) : Exit :=
  match Options.ofArguments arguments with
  | .error e => ⟨e.exitCode, printed output (reply e), disk⟩
  | .ok options =>
    match Startup.ofOptions (Settings.ofFile settingsFile) options disk with
    | .error _ => ⟨startFailure, output, disk⟩
    | .ok startup =>
      match startup.openFile ⟨startup.editor, input, output, disk⟩ with
      | .error _ s => ⟨startFailure, s.output.close, s.disk⟩
      | .ok () s =>
        let (ending, s) := s.runWith startup.rescue
        ⟨ending.exitCode, s.output.close, s.disk⟩

end Program

end LineEditor
