import LineEditor.Record.Basic
import LineEditor.Session.Basic

set_option autoImplicit false
set_option relaxedAutoImplicit false

/-!
# Settings

What the user has chosen once and for all: the prompt, whether errors are explained, and where
changes are saved when a session dies. They are read from a record. A text that is not a record of
settings counts as no settings at all.

## Main definitions

* `LineEditor.Settings`: the settings.
* `LineEditor.Settings.ofBytes`: the settings in a file.
-/

namespace LineEditor

/-- What the user has chosen once and for all. -/
structure Settings where
  /-- The text of the prompt. -/
  prompt : Line
  /-- Whether errors are explained at once. -/
  verbose : Bool
  /-- The file that changes are saved in when a session dies. -/
  emergencyFile : FileName
  deriving Repr, DecidableEq

namespace Settings

/-- The settings of a user who has chosen nothing. -/
def standard : Settings where
  prompt := defaultPrompt
  verbose := false
  emergencyFile := Line.ofString "ed.hup"

/-- The value of a key, if there is one; a key must not occur twice. -/
def valueOf (record : Record) (key : String) : Option (Option Record.Scalar) :=
  match record.filter (·.1 == key.toList) with
  | [] => some none
  | [field] => some (some field.2)
  | _ => none

/-- The truth value that a scalar is. It must not be quoted. -/
def truth? : Record.Scalar → Option Bool
  | .quoted _ => none
  | .plain text =>
    if ["true", "True", "TRUE"].contains (String.ofList text) then some true
    else if ["false", "False", "FALSE"].contains (String.ofList text) then some false
    else none

/-- The bytes of a scalar's text. -/
def bytesOf (value : Record.Scalar) : Line := Line.ofString (String.ofList value.text)

/-- The settings in a record. Other fields are of no concern. -/
def ofRecord? (record : Record) : Option Settings := do
  let prompt ← valueOf record "prompt"
  let verbose ← valueOf record "verbose"
  let emergencyFile ← valueOf record "emergency_file"
  return {
    prompt := (prompt.map bytesOf).getD standard.prompt
    verbose := ← verbose.elim (some standard.verbose) truth?
    emergencyFile := (emergencyFile.map bytesOf).getD standard.emergencyFile }

/-- The settings in a file. -/
def ofBytes (bytes : Line) : Settings :=
  let settings? := do
    let text ← Utf8.decode? bytes
    let record ← Record.ofText? text.toList
    ofRecord? record
  settings?.getD standard

/-- The settings in a file that may be missing. -/
def ofFile (file : Option Line) : Settings := file.elim standard ofBytes

/-- An editor with the settings. -/
def editor (settings : Settings) : Editor :=
  { Editor.ofLines [] with
    verbose := settings.verbose
    prompt := ⟨settings.prompt, false⟩ }

end Settings

end LineEditor
