import LineEditor.Regex.Error

set_option autoImplicit false
set_option relaxedAutoImplicit false

/-!
# Errors of the editor

A command that fails leaves one of these errors. All but two are the user's to correct and leave
the session running; a failure of the output or of the input ends it.

## Main definitions

* `LineEditor.EditError`: why a command failed.
* `LineEditor.EditError.message`: what the user is told.
* `LineEditor.EditError.isFatal`: whether the session ends.
* `LineEditor.ofResult`: a result as a computation with a state.
-/

namespace LineEditor

open Regex (PatternError)

/-- Why a command failed. -/
inductive EditError where
  /-- An address is outside the buffer, or names a mark that is not set. -/
  | invalidAddress
  /-- An address precedes a command that takes none. -/
  | unexpectedAddress
  /-- A number does not fit in a machine word. -/
  | numberOutOfRange
  /-- A search or a substitution found nothing. -/
  | noMatch
  /-- The destination of a move lies in the lines that move, or no destination is given. -/
  | invalidDestination
  /-- No command has this letter. -/
  | unknownCommand
  /-- Something follows a command that does not belong to it. -/
  | invalidSuffix
  /-- The buffer has changes that were not written. -/
  | bufferModified
  /-- A file name is needed and none is given or remembered. -/
  | noFilename
  /-- A mark is not named by a lowercase letter. -/
  | invalidMark
  /-- No command can be undone. -/
  | nothingToUndo
  /-- The pattern is empty and there is no earlier one to use. -/
  | noPreviousPattern
  /-- A substitution is to be repeated and there is no earlier one. -/
  | noPreviousSubstitution
  /-- A pattern is not closed by its delimiter. -/
  | missingDelimiter
  /-- A pattern cannot be delimited by a space, a newline or the end of the line. -/
  | invalidPatternDelimiter
  /-- A global command stands in the command list of another. -/
  | nestedGlobal
  /-- A command list in braces does not end. -/
  | unterminatedCommandList
  /-- A pattern is refused. -/
  | pattern (e : PatternError)
  /-- A file cannot be opened, read or written. -/
  | file (message : String)
  /-- The output cannot be written. -/
  | output (reason : String)
  /-- The input cannot be read. -/
  | input (reason : String)
  deriving Repr, DecidableEq

namespace EditError

/-- Whether the error ends the session. -/
def isFatal : EditError → Bool
  | output _ => true
  | input _ => true
  | _ => false

/-- What the user is told. -/
def message : EditError → String
  | invalidAddress => "Invalid address"
  | unexpectedAddress => "Unexpected address"
  | numberOutOfRange => "Number out of range"
  | noMatch => "No match"
  | invalidDestination => "Invalid destination"
  | unknownCommand => "Unknown command"
  | invalidSuffix => "Invalid command suffix"
  | bufferModified => "Warning: buffer modified"
  | noFilename => "No current filename"
  | invalidMark => "Invalid mark character"
  | nothingToUndo => "Nothing to undo"
  | noPreviousPattern => "No previous pattern"
  | noPreviousSubstitution => "No previous substitution"
  | missingDelimiter => "Missing pattern delimiter"
  | invalidPatternDelimiter => "Invalid pattern delimiter"
  | nestedGlobal => "Cannot nest global commands"
  | unterminatedCommandList => "Unterminated command list"
  | pattern e => e.message
  | file message => message
  | output reason => "Cannot write output: " ++ reason
  | input reason => "Cannot read input: " ++ reason

end EditError

/-- A result as a computation that leaves the state alone. -/
def ofResult {σ α : Type} : Except EditError α → EStateM EditError σ α
  | .ok a => pure a
  | .error e => throw e

end LineEditor
