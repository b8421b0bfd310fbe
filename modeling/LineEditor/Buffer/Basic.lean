import LineEditor.Error
import LineEditor.Buffer.BlockEdit
import LineEditor.Buffer.Marks

set_option autoImplicit false
set_option relaxedAutoImplicit false

/-!
# The buffer

The buffer holds the lines that are edited, with what belongs to them: the current line, the marks,
the name of the file, whether there are changes that were not written, a snapshot to go back to,
and the lines that a running global command has yet to visit. Lines are known by their index,
counted from 0.

## Main definitions

* `LineEditor.LineBuffer`: the buffer.
* `LineEditor.LineBuffer.edit`: an elementary edit, with all indices kept on their lines.
-/

namespace LineEditor

/-- What undoing a command brings back. -/
structure Snapshot where
  /-- The lines. -/
  lines : Array Line
  /-- The current line. -/
  current : Option Nat
  /-- The marks. -/
  marks : Marks
  deriving Repr, DecidableEq

/-- The lines that are edited, and what belongs to them. -/
structure LineBuffer where
  /-- The lines. -/
  lines : Array Line
  /-- The current line; `none` if there are no lines. -/
  current : Option Nat
  /-- Whether there are changes that were not written. -/
  dirty : Bool
  /-- The remembered file name. -/
  filename : Option FileName
  /-- The marks. -/
  marks : Marks
  /-- What undoing a command brings back, if one can be undone. -/
  saved : Option Snapshot
  /-- The lines that a running global command has yet to visit, the next one last. -/
  targets : Array Nat
  deriving Repr, DecidableEq

/-- The index of the last of a number of lines. -/
def lastIndex? (count : Nat) : Option Nat := if count = 0 then none else some (count - 1)

namespace LineBuffer

/-- A buffer with the given lines and no changes. The last line is the current one. -/
def ofLines (lines : List Line) : LineBuffer where
  lines := lines.toArray
  current := lastIndex? lines.length
  dirty := false
  filename := none
  marks := .empty
  saved := none
  targets := #[]

/-- The number of lines. -/
def size (b : LineBuffer) : Nat := b.lines.size

/-- The number of the current line, counted from 1; 0 if there are no lines. -/
def currentNumber (b : LineBuffer) : Nat := b.current.elim 0 (· + 1)

/-- The line of an index. -/
def line? (b : LineBuffer) (index : Nat) : Option Line := b.lines[index]?

/-- The line that a letter marks. -/
def mark? (b : LineBuffer) (letter : UInt8) : Option Nat :=
  (b.marks.get? letter).filter (· < b.size)

/-- All lines, if there are any. -/
def fullRange? (b : LineBuffer) : Option LineRange := (lastIndex? b.size).map (⟨0, ·⟩)

/-- What undoing brings back if the buffer is changed now. -/
def snapshot (b : LineBuffer) : Snapshot := ⟨b.lines, b.current, b.marks⟩

/-- Carries out an elementary edit. Marks and pending lines follow the lines. -/
def edit (b : LineBuffer) (e : BlockEdit Line) : LineBuffer :=
  { b with
    lines := e.apply b.lines
    marks := b.marks.map (·.bind e.follow)
    targets := e.followAll b.targets
    dirty := true }

/-- Inserts a block of lines. An empty block is no change. -/
def insertLines (b : LineBuffer) (start : Nat) (block : Array Line) : LineBuffer :=
  if block.isEmpty then b else b.edit (.insert start block)

/-- Deletes a range of lines. The line after it becomes the current one, or the last line if there
is none. -/
def deleteLines (b : LineBuffer) (range : LineRange) : LineBuffer :=
  let b := b.edit (.delete range)
  { b with current := if range.first < b.size then some range.first else lastIndex? b.size }

end LineBuffer

end LineEditor
