import LineEditor.Buffer.Edit
import LineEditor.Proofs.Computations

set_option autoImplicit false
set_option relaxedAutoImplicit false

/-!
# What the operations of a buffer do

Each operation checks its arguments and then changes the buffer in one go. This file says so in one
equation for each operation: the error and the buffer as it was, or the reply and the new buffer.
Everything else about the operations is derived from these equations.

## Main results

* `LineEditor.LineBuffer.append_apply`, `delete_apply`, `move_apply` and so on: one equation for
  each operation.
-/

namespace LineEditor

namespace LineBuffer

/-! ## Checks -/

/-- A range must be in order and end at a line. -/
theorem checkRange_apply (r : LineRange) (b : LineBuffer) :
    checkRange r b =
      if r.last < r.first ∨ b.size ≤ r.last then .error .invalidAddress b else .ok () b := by
  simp [checkRange]

/-- A line to append after must be there. -/
theorem checkAfter_apply (after : Option Nat) (b : LineBuffer) :
    checkAfter after b =
      if after.any (b.size ≤ ·) then .error .invalidAddress b else .ok () b := by
  simp [checkAfter]

/-! ## The current line and marks -/

/-- The current line must be there. -/
theorem setCurrent_apply (index : Nat) (b : LineBuffer) :
    setCurrent index b =
      if b.size ≤ index then .error .invalidAddress b
      else .ok () { b with current := some index } := by
  simp [setCurrent]

/-- A mark is set on a line that is there, under a letter that names a mark. -/
theorem setMark_apply (letter : UInt8) (index : Nat) (b : LineBuffer) :
    setMark letter index b =
      if b.size ≤ index then .error .invalidAddress b
      else match b.marks.set? letter index with
        | none => .error .invalidMark b
        | some marks => .ok () { b with marks } := by
  by_cases h : b.size ≤ index
  · simp [setMark, h]
  · simp only [setMark, h, EState.bind_apply, EState.get_apply, if_false]
    cases b.marks.set? letter index <;> rfl

/-! ## Blocks and ranges -/

/-- Appending fails on the line to append after only, and inserts the lines behind it. The last one
of them becomes the current one, or else the line they were appended after.

**Proof sketch.** If the check passes, a block that is not empty is inserted. An empty one is not,
and then only the current line is set, if there is a line that it was appended after. -/
theorem append_apply (after : Option Nat) (block : Array Line) (b : LineBuffer) :
    append after block b =
      if after.any (b.size ≤ ·) then .error .invalidAddress b
      else .ok block.size
        { b.insertLines (after.elim 0 (· + 1)) block with
          current :=
            if 0 < block.size then some (after.elim 0 (· + 1) + block.size - 1)
            else if after.isSome then after
            else b.current } := by
  by_cases h : after.any (b.size ≤ ·)
  · simp [append, checkAfter_apply, h]
  · have hcheck : checkAfter after b = .ok () b := by rw [checkAfter_apply, if_neg h]
    rw [if_neg h]
    by_cases hsize : 0 < block.size
    · simp [append, hcheck, hsize]
    · have hempty : ∀ start, b.insertLines start block = b := fun start => by
        rw [insertLines, if_pos]
        simpa [Array.isEmpty_iff_size_eq_zero] using hsize
      simp only [append, hcheck, hsize, hempty, EState.bind_apply, EState.modify_apply, if_false]
      cases after <;> rfl

/-- Inserting before a line is appending after the one before it. -/
theorem insert_apply (index : Nat) (block : Array Line) (b : LineBuffer) :
    insert index block b =
      if b.size < index then .error .invalidAddress b else append (lastIndex? index) block b := by
  by_cases h : b.size < index <;> simp [insert, h]

/-- Deleting fails on its range only. -/
theorem delete_apply (r : LineRange) (b : LineBuffer) :
    delete r b =
      if r.last < r.first ∨ b.size ≤ r.last then .error .invalidAddress b
      else .ok () (b.deleteLines r) := by
  by_cases h : r.last < r.first ∨ b.size ≤ r.last <;> simp [delete, checkRange_apply, h]

/-- Changing deletes the range and inserts the block in its place.

**Proof sketch.** As for an append, only a block that is not empty is inserted; the current line is
set in either case. -/
theorem change_apply (r : LineRange) (block : Array Line) (b : LineBuffer) :
    change r block b =
      if r.last < r.first ∨ b.size ≤ r.last then .error .invalidAddress b
      else .ok block.size
        { (b.deleteLines r).insertLines r.first block with
          current :=
            if 0 < block.size then some (r.first + block.size - 1)
            else (b.deleteLines r).current } := by
  by_cases h : r.last < r.first ∨ b.size ≤ r.last
  · simp [change, checkRange_apply, h]
  · by_cases hsize : 0 < block.size
    · simp [change, checkRange_apply, h, hsize]
    · have hempty : block.isEmpty := by simpa [Array.isEmpty_iff_size_eq_zero] using hsize
      simp [change, checkRange_apply, h, hsize, insertLines, hempty]

/-- Moving checks the range, then the destination, then that the destination is not in the range.

**Proof sketch.** By which of the three checks is the first to fail, if any. -/
theorem move_apply (r : LineRange) (dest : Option Nat) (b : LineBuffer) :
    move r dest b =
      if r.last < r.first ∨ b.size ≤ r.last then .error .invalidAddress b
      else if dest.any (b.size ≤ ·) then .error .invalidAddress b
      else if dest.any r.contains then .error .invalidDestination b
      else .ok ()
        { b.edit (.move r (moveStart r dest)) with
          current := some (moveStart r dest + r.size - 1) } := by
  by_cases h : r.last < r.first ∨ b.size ≤ r.last
  · simp [move, checkRange_apply, h]
  · by_cases hdest : dest.any (b.size ≤ ·)
    · simp [move, checkRange_apply, checkAfter_apply, h, hdest]
    · by_cases hin : dest.any r.contains <;>
        simp [move, checkRange_apply, checkAfter_apply, h, hdest, hin]

/-- Copying appends the lines of the range behind the destination.

**Proof sketch.** The destination is checked before the lines are looked up and again by the append,
which cannot fail any more. -/
theorem copy_apply (r : LineRange) (dest : Option Nat) (b : LineBuffer) :
    copy r dest b =
      if r.last < r.first ∨ b.size ≤ r.last then .error .invalidAddress b
      else match append dest (r.slice b.lines) b with
        | .ok _ b => .ok () b
        | .error e b => .error e b := by
  by_cases h : r.last < r.first ∨ b.size ≤ r.last
  · simp [copy, checkRange_apply, h]
  · have hrange : checkRange r b = .ok () b := by rw [checkRange_apply, if_neg h]
    rw [if_neg h]
    by_cases hdest : dest.any (b.size ≤ ·)
    · simp [copy, hrange, checkAfter_apply, append_apply, hdest]
    · have hcheck : checkAfter dest b = .ok () b := by rw [checkAfter_apply, if_neg hdest]
      simp only [copy, hrange, hcheck, EState.bind_apply, EState.get_apply]
      cases append dest (r.slice b.lines) b <;> rfl

/-- Joining checks the range and puts its lines into the first one, if there is more than one. -/
theorem join_apply (r : LineRange) (b : LineBuffer) :
    join r b =
      if r.last < r.first ∨ b.size ≤ r.last then .error .invalidAddress b
      else if r.first < r.last then
        let rest := b.edit (.delete ⟨r.first + 1, r.last⟩)
        .ok ()
          { rest with
            lines := rest.lines.setIfInBounds r.first (r.slice b.lines).toList.flatten
            current := some r.first }
      else .ok () { b with current := some r.first } := by
  by_cases h : r.last < r.first ∨ b.size ≤ r.last
  · simp [join, checkRange_apply, h]
  · by_cases hlt : r.first < r.last <;> simp [join, checkRange_apply, h, hlt]

/-! ## Texts of lines -/

/-- Replacing a line marks the buffer as changed if the text is another one. -/
theorem replaceLine_apply (index : Nat) (text : Line) (b : LineBuffer) :
    replaceLine index text b =
      match b.line? index with
      | none => .error .invalidAddress b
      | some old =>
        if old ≠ text then
          .ok () { b with lines := b.lines.setIfInBounds index text, dirty := true }
        else .ok () b := by
  simp only [replaceLine, EState.bind_apply, EState.get_apply]
  cases h : b.line? index with
  | none => rfl
  | some old => by_cases heq : old = text <;> simp [heq]

/-- Substituting fails on the range, or if none of its lines has a new text.

**Proof sketch.** By the check of the range and, behind it, by whether all lines are without a new
text. -/
theorem substitute_apply (r : LineRange) (s : Substitution) (b : LineBuffer) :
    substitute r s b =
      if r.last < r.first ∨ b.size ≤ r.last then .error .invalidAddress b
      else
        let old := (r.slice b.lines).toList
        let texts := old.map s.apply?
        if texts.all (·.isNone) then .error .noMatch b
        else .ok ()
          { b with
            lines := overwrite r.first texts b.lines
            dirty := b.dirty || (old.zip texts).any fun (line, text) => text.any (· != line)
            current := some r.last } := by
  by_cases h : r.last < r.first ∨ b.size ≤ r.last
  · simp [substitute, checkRange_apply, h]
  · simp only [substitute, checkRange_apply, h, if_false, EState.bind_apply, EState.get_apply]
    by_cases hnone : ((r.slice b.lines).toList.map s.apply?).all (·.isNone) <;>
      simp only [hnone, if_true] <;> rfl

/-! ## Undoing and visiting -/

/-- Undoing exchanges the buffer with what was saved. -/
theorem undo_apply (b : LineBuffer) :
    undo b =
      match b.saved with
      | none => .error .nothingToUndo b
      | some s => .ok ()
        { b with
          lines := s.lines
          current := s.current
          marks := s.marks
          saved := some b.snapshot
          targets := #[]
          dirty := true } := by
  simp only [undo, EState.bind_apply, EState.get_apply]
  cases b.saved <;> rfl

/-- The next line to visit is the last of the pending ones, if there are any. -/
theorem nextTarget_apply (b : LineBuffer) :
    nextTarget b =
      match b.targets.back? with
      | none => .ok none b
      | some index => .ok (some index) { b with targets := b.targets.pop } := by
  simp only [nextTarget, EState.bind_apply, EState.get_apply]
  cases b.targets.back? <;> rfl

end LineBuffer

end LineEditor
