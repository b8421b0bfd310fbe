import LineEditor.Session.Basic

set_option autoImplicit false
set_option relaxedAutoImplicit false

/-!
# The buffer and its file

Loading, reading and writing files. A name that is given to a command may become the remembered
one; for the commands that write it does so before the file is opened. The buffer counts as
written when all its lines have been written to one file, but not when they have been appended.

## Main definitions

* `LineEditor.Action.load`: edits a file.
* `LineEditor.Action.insertFile`: inserts a file.
* `LineEditor.Action.write`, `writeRange`, `writeAppend`: write to a file.
-/

namespace LineEditor.Action

/-- The given name, else the remembered one. -/
def nameOrStored (name : Option FileName) : Action FileName := do
  let s ← get
  match name.or s.buffer.filename with
  | none => throw .noFilename
  | some name => return name

/-- Replaces the buffer by a file, whose name is remembered. Returns its size. -/
def load (name : FileName) : Action Nat := do
  let s ← get
  let (lines, bytes) ← ofResult (s.disk.readLines name)
  changeBuffer fun b => { b.replaceAll lines.toArray with filename := some name }
  return bytes

/-- Inserts a file after a line, or before the first one. Its name is remembered if none is.
Returns its size. -/
def insertFile (name : FileName) (after : Option Nat) : Action Nat := do
  let s ← get
  let (lines, bytes) ← ofResult (s.disk.readLines name)
  changeBuffer fun b => { b with filename := b.filename.or (some name) }
  let _ ← onBuffer (LineBuffer.append after lines.toArray)
  return bytes

/-- Writes lines to a file. Returns the number of bytes that were written. -/
def writeLines (name : FileName) (lines : Array Line) (append : Bool) : Action Nat := do
  let s ← get
  let (bytes, disk) ← ofResult (s.disk.writeLines name lines.toList append)
  set { s with disk }
  return bytes

/-- Writes the whole buffer to a file, whose name is remembered. -/
def write (name : Option FileName) : Action Nat := do
  let name ← onBuffer (LineBuffer.resolveFilename name true)
  let bytes ← writeLines name (← get).buffer.lines false
  changeBuffer fun b => { b with dirty := false }
  return bytes

/-- Writes a range to a file, or no lines without one. The name is remembered, but with `append`
only if none is. -/
def writeRange (range : Option LineRange) (name : Option FileName) (append : Bool) :
    Action Nat := do
  let name ← onBuffer (LineBuffer.resolveFilename name !append)
  if let some range := range then onBuffer (LineBuffer.checkRange range)
  let b := (← get).buffer
  let lines := range.elim #[] (·.slice b.lines)
  let bytes ← writeLines name lines append
  if lines.size = b.size ∧ append = false then
    changeBuffer fun b => { b with dirty := false }
  return bytes

/-- Appends a range to a file. -/
def writeAppend (range : Option LineRange) (name : Option FileName) : Action Nat :=
  writeRange range name true

end LineEditor.Action
