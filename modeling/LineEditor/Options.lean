import LineEditor.Byte
import LineEditor.Text.Utf8

set_option autoImplicit false
set_option relaxedAutoImplicit false

/-!
# Options

The arguments that the editor is started with: at most one file, and options by their letter or by
their name. Letters may be written together, and an option with a value takes it from the same
argument or from the next one. After two dashes every argument is a file.

An option or a file whose value has been read is *pending* until the next one is met or the
arguments end, and only then are its faults noticed: an unknown argument is noticed earlier.

## Main definitions

* `LineEditor.Options`: what the arguments say.
* `LineEditor.OptionsError`: why they say nothing.
* `LineEditor.Options.ofArguments`: the reading of the arguments.
-/

namespace LineEditor

/-- What the arguments say. -/
structure Options where
  /-- The file to edit. -/
  file : Option FileName
  /-- The prompt to show. -/
  prompt : Option Line
  /-- Whether the sizes of files are not printed. -/
  silent : Bool
  /-- Whether errors are explained at once. -/
  verbose : Bool
  deriving Repr, DecidableEq

/-- Why an editor is not started with the given arguments. -/
inductive OptionsError where
  /-- An argument is no option, or a second file. -/
  | unknownArgument
  /-- A value is missing or empty. -/
  | invalidValue
  /-- An option is given twice. -/
  | argumentConflict
  /-- A value is given to an option that takes none. -/
  | tooManyValues
  /-- The prompt is not text. -/
  | invalidUtf8
  /-- The user asks for the list of options. -/
  | helpWanted
  /-- The user asks for the version. -/
  | versionWanted
  deriving Repr, DecidableEq

/-- The exit status that goes with a refusal. It is no failure to tell what was asked for. -/
def OptionsError.exitCode : OptionsError → Nat
  | helpWanted | versionWanted => 0
  | _ => 2

/-- What has been read and is not yet settled. -/
inductive Pending where
  /-- The prompt option, with its value if that has been read. -/
  | prompt (value : Option Line)
  /-- The file. -/
  | file (name : FileName)
  deriving Repr, DecidableEq

/-- The arguments read so far. -/
structure ArgumentProgress where
  /-- What is settled. -/
  options : Options
  /-- What is not. -/
  pending : Option Pending
  /-- Whether a file has been met. -/
  hasFile : Bool
  deriving Repr, DecidableEq

namespace ArgumentProgress

/-- Settles what is pending. -/
def settle (p : ArgumentProgress) : Except OptionsError ArgumentProgress :=
  match p.pending with
  | none => .ok p
  | some (.prompt none) => .error .invalidValue
  | some (.prompt (some value)) =>
    if p.options.prompt.isSome then .error .argumentConflict
    else if (Utf8.decode? value).isNone then .error .invalidUtf8
    else .ok { p with options := { p.options with prompt := some value }, pending := none }
  | some (.file name) =>
    if name.isEmpty then .error .invalidValue
    else .ok { p with options := { p.options with file := some name }, pending := none }

/-- Meets the prompt option. A value in the same argument is settled at once. -/
def meetPrompt (p : ArgumentProgress) (value : Option Line) :
    Except OptionsError ArgumentProgress := do
  let p ← p.settle
  let p := { p with pending := some (.prompt value) }
  if value.isSome then p.settle else return p

/-- Meets the option that leaves out the sizes of files. -/
def meetSilent (p : ArgumentProgress) : Except OptionsError ArgumentProgress := do
  let p ← p.settle
  if p.options.silent then throw .argumentConflict
  return { p with options := { p.options with silent := true } }

/-- Meets the option that explains errors. -/
def meetVerbose (p : ArgumentProgress) : Except OptionsError ArgumentProgress := do
  let p ← p.settle
  if p.options.verbose then throw .argumentConflict
  return { p with options := { p.options with verbose := true } }

/-- Meets a question that is answered instead of starting the editor. -/
def meetQuestion (p : ArgumentProgress) (question : OptionsError) :
    Except OptionsError ArgumentProgress := do
  let _ ← p.settle
  throw question

/-- Meets a file. -/
def meetFile (p : ArgumentProgress) (name : FileName) : Except OptionsError ArgumentProgress := do
  if p.hasFile then throw .unknownArgument
  let p ← p.settle
  return { p with pending := some (.file name), hasFile := true }

/-- Reads options by their letters. -/
def readLetters (p : ArgumentProgress) : Line → Except OptionsError ArgumentProgress
  | [] => .ok p
  | letter :: rest =>
    if letter = ascii 's' then do readLetters (← p.meetSilent) rest
    else if letter = ascii 'v' then do readLetters (← p.meetVerbose) rest
    else if letter = ascii 'h' then p.meetQuestion .helpWanted
    else if letter = ascii 'V' then p.meetQuestion .versionWanted
    else if letter = ascii 'p' then
      match rest with
      | [] => p.meetPrompt none
      | b :: value => p.meetPrompt (some (if b = ascii '=' then value else b :: value))
    else .error .unknownArgument

/-- The options without a value, by their names. -/
def flags : List (String × (ArgumentProgress → Except OptionsError ArgumentProgress)) :=
  [("silent", meetSilent), ("verbose", meetVerbose), ("help", (meetQuestion · .helpWanted)),
    ("version", (meetQuestion · .versionWanted))]

/-- Reads an option by its name, after the two dashes. A value stands behind an equals sign. -/
def readName (p : ArgumentProgress) (text : Line) : Except OptionsError ArgumentProgress :=
  let name := text.takeWhile (· != ascii '=')
  let value := (text.dropWhile (· != ascii '=')).tail?
  if name = Line.ofString "prompt" then p.meetPrompt value
  else
    match flags.find? fun flag => Line.ofString flag.1 == name with
    | none => .error .unknownArgument
    | some (_, meet) => if value.isSome then .error .tooManyValues else meet p

/-- Reads the arguments after two dashes. -/
def readFiles (p : ArgumentProgress) : List Line → Except OptionsError ArgumentProgress
  | [] => p.settle
  | name :: rest => do readFiles (← p.meetFile name) rest

/-- Reads arguments. -/
def read (p : ArgumentProgress) : List Line → Except OptionsError ArgumentProgress
  | [] => p.settle
  | argument :: rest =>
    if argument = Line.ofString "--" then p.readFiles rest
    else if (Line.ofString "--").isPrefixOf argument then do
      read (← p.readName (argument.drop 2)) rest
    else if argument.head? = some (ascii '-') ∧ 1 < argument.length then do
      read (← p.readLetters argument.tail) rest
    else if p.pending = some (.prompt none) then
      read { p with pending := some (.prompt (some argument)) } rest
    else do read (← p.meetFile argument) rest

end ArgumentProgress

namespace Options

/-- No argument says anything. -/
def none : Options := ⟨.none, .none, false, false⟩

/-- Reads the arguments. -/
def ofArguments (arguments : List Line) : Except OptionsError Options :=
  (ArgumentProgress.read ⟨.none, .none, false⟩ arguments).map (·.options)

end Options

end LineEditor
