import LineEditor.Address.Value
import LineEditor.Text.Printed
import LineEditor.Substitution

set_option autoImplicit false
set_option relaxedAutoImplicit false

/-!
# Commands

What a command line asks for, once its patterns, destinations, file names and flags have been
read. Addresses that were left out are filled in when the command is carried out.

## Main definitions

* `LineEditor.Command`: the commands.
* `LineEditor.CommandLine`: a command with its addresses and its print suffix.
-/

namespace LineEditor

open Regex (Occurrence)

/-- The commands that a global command carries out on each line. -/
inductive CommandList where
  /-- The one command line that follows the pattern. -/
  | inline (line : Line)
  /-- The command lines that follow, up to a closing brace. -/
  | block
  deriving Repr, DecidableEq

/-- The commands. -/
inductive Command where
  /-- Print the addressed line, or the one after the current line. -/
  | null
  /-- Insert a block of lines after a line. -/
  | append
  /-- Insert a block of lines before a line. -/
  | insert
  /-- Put a block of lines in the place of a range. -/
  | change
  /-- Delete a range. -/
  | delete
  /-- Print a range. -/
  | print (mode : PrintMode)
  /-- Print the number of a line. -/
  | lineNumber
  /-- Mark a line by a letter. -/
  | mark (letter : UInt8)
  /-- Move a range after the line `dest`. -/
  | move (dest : Nat)
  /-- Copy a range after the line `dest`. -/
  | copy (dest : Nat)
  /-- Join the lines of a range. -/
  | join
  /-- Insert a file after a line. -/
  | read (path : Option FileName)
  /-- Write a range to a file. -/
  | write (path : Option FileName) (append quit : Bool)
  /-- Edit another file. -/
  | edit (path : Option FileName) (force : Bool)
  /-- Set or show the remembered file name. -/
  | filename (path : Option FileName)
  /-- End the session. -/
  | quit (force : Bool)
  /-- Undo the last command that changed the buffer. -/
  | undo
  /-- Explain the last error. -/
  | help
  /-- Switch the explanation of errors on or off. -/
  | toggleVerbose
  /-- Switch the prompt on or off. -/
  | togglePrompt
  /-- Replace matches on the lines of a range. -/
  | substitute (s : Substitution)
  /-- Repeat the last substitution, perhaps on other occurrences. -/
  | repeatSubstitute (occurrence : Option Occurrence)
  /-- Carry out commands on the lines that match a pattern, or on those that do not. -/
  | global (invert : Bool) (regex : Regex) (list : CommandList)
  deriving Repr, DecidableEq

namespace Command

/-- Whether addresses may precede the command. -/
def takesAddresses : Command → Bool
  | edit .. | filename .. | quit .. | undo | help | toggleVerbose | togglePrompt => false
  | _ => true

/-- Whether the command changes lines of the buffer, so that it can be undone. Global commands are
counted apart. -/
def isMutating : Command → Bool
  | append | insert | change | delete | move .. | copy .. | join | read .. | edit .. => true
  | substitute .. | repeatSubstitute .. => true
  | _ => false

/-- Whether the command is a substitution. -/
def isSubstitution : Command → Bool
  | substitute .. | repeatSubstitute .. => true
  | _ => false

/-- Whether the command is a global one. -/
def isGlobal : Command → Bool
  | global .. => true
  | _ => false

end Command

/-- A command line that has been read. -/
structure CommandLine where
  /-- The lines it is given. -/
  addresses : Addresses
  /-- What it asks for. -/
  command : Command
  /-- How to print the current line afterwards, if at all. -/
  print : Option PrintMode
  deriving Repr, DecidableEq

end LineEditor
