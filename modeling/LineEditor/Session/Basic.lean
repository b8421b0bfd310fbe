import LineEditor.Buffer.Edit
import LineEditor.Disk
import LineEditor.Sink
import LineEditor.Source

set_option autoImplicit false
set_option relaxedAutoImplicit false

/-!
# The state of a session

A session has the editor, which is the buffer and what commands remember from each other, and the
world around it: the lines that are still to be read, the output, and the disk. An action that
fails leaves the session as it was when it failed; nothing that was done before is taken back.

## Main definitions

* `LineEditor.Editor`: the buffer and the memory of the commands.
* `LineEditor.Session`: an editor with its input, its output and its disk.
* `LineEditor.Action`: computations on a session.
-/

namespace LineEditor

/-- The text that is shown before a command is read. -/
structure Prompt where
  /-- The text. -/
  text : Line
  /-- Whether it is shown. -/
  enabled : Bool
  deriving Repr, DecidableEq

/-- The prompt, if it is shown. -/
def Prompt.visible? (p : Prompt) : Option Line := if p.enabled then some p.text else none

/-- The buffer and what commands remember from each other. -/
structure Editor where
  /-- The lines that are edited. -/
  buffer : LineBuffer
  /-- The pattern that an empty one stands for. -/
  lastPattern : Option Regex
  /-- The substitution that can be repeated. -/
  lastSubstitution : Option Substitution
  /-- The error that can be explained. -/
  lastError : Option EditError
  /-- Whether errors are explained at once. -/
  verbose : Bool
  /-- The prompt. -/
  prompt : Prompt
  /-- Whether the sizes of files are not printed. -/
  silent : Bool
  /-- Whether a command list is being carried out. -/
  inGlobal : Bool
  deriving Repr, DecidableEq

/-- The prompt that is shown unless another one is chosen. -/
def defaultPrompt : Line := [ascii '*']

/-- An editor with nothing to remember. -/
def Editor.ofLines (lines : List Line) : Editor where
  buffer := .ofLines lines
  lastPattern := none
  lastSubstitution := none
  lastError := none
  verbose := false
  prompt := ⟨defaultPrompt, false⟩
  silent := false
  inGlobal := false

/-- An editor and the world around it. -/
structure Session where
  /-- The editor. -/
  editor : Editor
  /-- The lines that are still to be read. -/
  input : Source
  /-- Where output goes. -/
  output : Sink
  /-- The files. -/
  disk : Disk
  deriving Repr, DecidableEq

/-- The buffer of a session. -/
abbrev Session.buffer (s : Session) : LineBuffer := s.editor.buffer

/-- A session with another buffer. -/
def Session.withBuffer (s : Session) (b : LineBuffer) : Session :=
  { s with editor := { s.editor with buffer := b } }

/-- Computations on a session that may fail. -/
abbrev Action := EStateM EditError Session

namespace Action

variable {α : Type}

/-- Acts on the editor. The session is taken apart, so that nothing else holds the editor while it
is changed. -/
def onEditor (x : EStateM EditError Editor α) : Action α := fun ⟨editor, input, output, disk⟩ =>
  match x editor with
  | .ok a editor => .ok a ⟨editor, input, output, disk⟩
  | .error e editor => .error e ⟨editor, input, output, disk⟩

/-- Acts on the buffer of an editor, which is taken apart likewise. -/
def onBufferOf (x : BufferAction α) : EStateM EditError Editor α :=
  fun ⟨buffer, pattern, substitution, error, verbose, prompt, silent, inGlobal⟩ =>
    match x buffer with
    | .ok a buffer =>
      .ok a ⟨buffer, pattern, substitution, error, verbose, prompt, silent, inGlobal⟩
    | .error e buffer =>
      .error e ⟨buffer, pattern, substitution, error, verbose, prompt, silent, inGlobal⟩

/-- Acts on the buffer. -/
def onBuffer (x : BufferAction α) : Action α := onEditor (onBufferOf x)

/-- What acts on the buffer leaves the rest of the session as it is, whether it fails or not. -/
theorem onBuffer_apply (x : BufferAction α) (s : Session) :
    onBuffer x s =
      match x s.buffer with
      | .ok a b => .ok a (s.withBuffer b)
      | .error e b => .error e (s.withBuffer b) := by
  simp only [onBuffer, onEditor, onBufferOf, Session.buffer, Session.withBuffer]
  cases x s.editor.buffer <;> rfl

/-- Changes the buffer. -/
def changeBuffer (f : LineBuffer → LineBuffer) : Action Unit :=
  modify fun s => s.withBuffer (f s.buffer)

/-- Uses the pattern that is remembered. -/
def onPattern (x : EStateM EditError (Option Regex) α) : Action α := fun s =>
  match x s.editor.lastPattern with
  | .ok a p => .ok a { s with editor := { s.editor with lastPattern := p } }
  | .error e p => .error e { s with editor := { s.editor with lastPattern := p } }

/-- Reads from the input. -/
def onInput (x : EStateM EditError Source α) : Action α := fun s =>
  match x s.input with
  | .ok a source => .ok a { s with input := source }
  | .error e source => .error e { s with input := source }

/-- Writes to the output. -/
def onOutput (x : EStateM EditError Sink α) : Action α := fun ⟨editor, input, output, disk⟩ =>
  match x output with
  | .ok a output => .ok a ⟨editor, input, output, disk⟩
  | .error e output => .error e ⟨editor, input, output, disk⟩

/-- Changes the memory of the editor. -/
def changeEditor (f : Editor → Editor) : Action Unit :=
  modify fun s => { s with editor := f s.editor }

/-- Acts with other lines to read. What is left of them is dropped afterwards, and the input is as
it was before, also after a failure. -/
def withInput (source : Source) (x : Action α) : Action α := fun ⟨editor, input, output, disk⟩ =>
  match x ⟨editor, source, output, disk⟩ with
  | .ok a t => .ok a { t with input }
  | .error e t => .error e { t with input }

/-- Writes a piece of text. -/
def emit (bytes : Line) : Action Unit := onOutput (Sink.write bytes.toArray)

/-- Writes pieces of text one after the other. -/
def emitAll : List Line → Action Unit
  | [] => pure ()
  | piece :: pieces => do
    emit piece
    emitAll pieces

/-- Writes a line and its newline. -/
def emitLine (line : Line) : Action Unit := emitAll [line, [newline]]

/-- Hands on the output that is held back. -/
def flush : Action Unit := onOutput Sink.flush

end Action

end LineEditor
