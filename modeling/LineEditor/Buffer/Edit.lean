import LineEditor.Buffer.Basic
import LineEditor.Substitution

set_option autoImplicit false
set_option relaxedAutoImplicit false

/-!
# Editing the buffer

The operations that commands carry out on the buffer. Each checks the lines it is given before it
changes anything, so that a buffer is left as it was by an operation that fails.

## Main definitions

* `LineEditor.BufferAction`: computations on a buffer.
* `LineEditor.LineBuffer.append`, `insert`, `delete`, `change`, `move`, `copy`, `join`: operations
  on blocks and ranges.
* `LineEditor.LineBuffer.substitute`: a substitution on the lines of a range.
* `LineEditor.LineBuffer.undo`: the exchange with the snapshot.
-/

namespace LineEditor

/-- Computations that change a buffer and may fail. -/
abbrev BufferAction := EStateM EditError LineBuffer

namespace LineBuffer

/-! ## Checks -/

/-- A range must not be empty, and its lines must exist. -/
def checkRange (range : LineRange) : BufferAction Unit := do
  let b ← get
  if range.last < range.first ∨ b.size ≤ range.last then throw .invalidAddress

/-- A line to put something after must exist; `none` is the place before the first line. -/
def checkAfter (after : Option Nat) : BufferAction Unit := do
  let b ← get
  if after.any (b.size ≤ ·) then throw .invalidAddress

/-! ## The current line, marks and the file name -/

/-- Makes a line the current one. -/
def setCurrent (index : Nat) : BufferAction Unit := do
  let b ← get
  if b.size ≤ index then throw .invalidAddress
  set { b with current := some index }

/-- Marks a line by a letter. -/
def setMark (letter : UInt8) (index : Nat) : BufferAction Unit := do
  let b ← get
  if b.size ≤ index then throw .invalidAddress
  match b.marks.set? letter index with
  | none => throw .invalidMark
  | some marks => set { b with marks }

/-- The file name that is meant: the given one, else the remembered one. A given name is remembered
if none is, or if `adopt` says so. -/
def resolveFilename (name : Option FileName) (adopt : Bool) : BufferAction FileName := do
  let b ← get
  match name, b.filename with
  | some name, stored =>
    if adopt ∨ stored.isNone then set { b with filename := some name }
    return name
  | none, some stored => return stored
  | none, none => throw .noFilename

/-! ## Blocks and ranges -/

/-- Inserts a block after a line, or before the first one. The last line of the block becomes the
current one; if the block is empty, the line before it does. Returns the size of the block. -/
def append (after : Option Nat) (block : Array Line) : BufferAction Nat := do
  checkAfter after
  let start := after.elim 0 (· + 1)
  modify fun b => b.insertLines start block
  if 0 < block.size then
    modify fun b => { b with current := some (start + block.size - 1) }
  else if after.isSome then
    modify fun b => { b with current := after }
  return block.size

/-- Inserts a block before a line, or after the last one. Returns the size of the block. -/
def insert (index : Nat) (block : Array Line) : BufferAction Nat := do
  let b ← get
  if b.size < index then throw .invalidAddress
  append (lastIndex? index) block

/-- Deletes a range. -/
def delete (range : LineRange) : BufferAction Unit := do
  checkRange range
  modify (·.deleteLines range)

/-- Puts a block in the place of a range. Returns the size of the block. -/
def change (range : LineRange) (block : Array Line) : BufferAction Nat := do
  checkRange range
  modify fun b => (b.deleteLines range).insertLines range.first block
  if 0 < block.size then
    modify fun b => { b with current := some (range.first + block.size - 1) }
  return block.size

/-- The index that a range has for its first line after it was moved behind the line `dest`. -/
def moveStart (range : LineRange) (dest : Option Nat) : Nat :=
  match dest with
  | none => 0
  | some d => if range.last < d then d + 1 - range.size else d + 1

/-- Moves a range after a line outside it, or before the first line. -/
def move (range : LineRange) (dest : Option Nat) : BufferAction Unit := do
  checkRange range
  checkAfter dest
  if dest.any range.contains then throw .invalidDestination
  let start := moveStart range dest
  modify fun b => { b.edit (.move range start) with current := some (start + range.size - 1) }

/-- Copies a range after a line, or before the first one. -/
def copy (range : LineRange) (dest : Option Nat) : BufferAction Unit := do
  checkRange range
  checkAfter dest
  let b ← get
  let _ ← append dest (range.slice b.lines)
  return

/-- Joins the lines of a range into the first one. -/
def join (range : LineRange) : BufferAction Unit := do
  checkRange range
  if range.first < range.last then
    let b ← get
    let joined := (range.slice b.lines).toList.flatten
    let b := b.edit (.delete ⟨range.first + 1, range.last⟩)
    set { b with lines := b.lines.setIfInBounds range.first joined }
  modify fun b => { b with current := some range.first }

/-! ## Texts of lines -/

/-- Gives a line another text. Marks stay on it. -/
def replaceLine (index : Nat) (text : Line) : BufferAction Unit := do
  let b ← get
  match b.line? index with
  | none => throw .invalidAddress
  | some old =>
    if old ≠ text then set { b with lines := b.lines.setIfInBounds index text, dirty := true }

/-- Lines from the index `start` on with other texts; where none is given the line stays. -/
def overwrite (start : Nat) (texts : List (Option Line)) (lines : Array Line) : Array Line :=
  match texts with
  | [] => lines
  | none :: texts => overwrite (start + 1) texts lines
  | some text :: texts => overwrite (start + 1) texts (lines.setIfInBounds start text)

/-- Lines that are overwritten are as many as before.

**Proof sketch.** Induction along the texts. -/
theorem size_overwrite (start : Nat) (texts : List (Option Line)) (lines : Array Line) :
    (overwrite start texts lines).size = lines.size := by
  fun_induction overwrite start texts lines with
  | case1 => rfl
  | case2 _ _ _ ih => exact ih
  | case3 start lines text texts ih => rw [ih, Array.size_setIfInBounds]

/-- Replaces what a substitution selects on the lines of a range, which is checked first. The last
of them becomes the current line. Lines on which nothing is replaced stay as they are, but they must
not be all. -/
def substitute (range : LineRange) (s : Substitution) : BufferAction Unit := do
  checkRange range
  let b ← get
  let old := (range.slice b.lines).toList
  let texts := old.map s.apply?
  if texts.all (·.isNone) then throw .noMatch
  let changed := (old.zip texts).any fun (line, text) => text.any (· != line)
  set { b with
    lines := overwrite range.first texts b.lines
    dirty := b.dirty || changed
    current := some range.last }

/-! ## The whole buffer -/

/-- Puts other lines in the place of all. They count as written, and the last of them becomes the
current line. What undoing brings back, and the file name, stay. -/
def replaceAll (b : LineBuffer) (lines : Array Line) : LineBuffer :=
  { b with
    lines
    current := lastIndex? lines.size
    marks := .empty
    targets := #[]
    dirty := false }

/-- Keeps the present lines as what undoing brings back. -/
def storeSnapshot (b : LineBuffer) (snapshot : Snapshot) : LineBuffer :=
  { b with saved := some snapshot }

/-- Exchanges lines, current line and marks with the snapshot, so that undoing twice changes
nothing. -/
def undo : BufferAction Unit := do
  let b ← get
  match b.saved with
  | none => throw .nothingToUndo
  | some s =>
    set { b with
      lines := s.lines
      current := s.current
      marks := s.marks
      saved := some b.snapshot
      targets := #[]
      dirty := true }

/-! ## The lines of a global command -/

/-- Sets the lines that a global command has yet to visit. The last one is visited first. -/
def setTargets (b : LineBuffer) (indices : List Nat) : LineBuffer :=
  { b with targets := indices.toArray }

/-- No line is to be visited any more. -/
def clearTargets (b : LineBuffer) : LineBuffer := { b with targets := #[] }

/-- The next line to visit. -/
def nextTarget : BufferAction (Option Nat) := do
  let b ← get
  match b.targets.back? with
  | none => return none
  | some index =>
    set { b with targets := b.targets.pop }
    return some index

end LineBuffer

end LineEditor
