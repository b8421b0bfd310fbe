import LineEditor.Proofs.Buffer.Substituting

set_option autoImplicit false
set_option relaxedAutoImplicit false

/-!
# Failures and changes

An operation that fails leaves the buffer as it was. One that succeeds may change lines, but it
never hides this: a buffer that counts as written afterwards counted as written before, and its
lines are the same. Only replacing all lines is not of this kind, since these come from a file.

## Main definitions

* `LineEditor.LineBuffer.Discloses`: changes of lines are not hidden.
* `LineEditor.LineBuffer.Settles`: how an operation on a buffer ends.

## Main results

* `LineEditor.LineBuffer.settles_append`, `settles_delete`, `settles_move` and so on: one for each
  operation.
-/

namespace LineEditor.LineBuffer

/-- Changes of lines are not hidden: if the second buffer counts as written, then so does the first
one, and the lines are the same. -/
def Discloses (b b' : LineBuffer) : Prop :=
  b'.dirty = false → b.dirty = false ∧ b'.lines = b.lines

namespace Discloses

variable {b b' b'' : LineBuffer}

/-- A buffer that is written as much as before, with the same lines, hides nothing. -/
theorem of_eq (hdirty : b'.dirty = b.dirty) (hlines : b'.lines = b.lines) : b.Discloses b' :=
  fun h => ⟨hdirty ▸ h, hlines⟩

/-- A buffer hides nothing from itself. -/
theorem refl (b : LineBuffer) : b.Discloses b := of_eq rfl rfl

/-- Nothing is hidden by two changes of which neither hides anything. -/
theorem trans (h : b.Discloses b') (h' : b'.Discloses b'') : b.Discloses b'' := by
  intro hclean
  obtain ⟨hclean', hlines'⟩ := h' hclean
  obtain ⟨hclean, hlines⟩ := h hclean'
  exact ⟨hclean, hlines'.trans hlines⟩

/-- A buffer with unwritten changes hides nothing. -/
theorem of_dirty (h : b'.dirty = true) : b.Discloses b' := fun hclean => by
  rw [h] at hclean
  cases hclean

end Discloses

/-- How an operation on a buffer ends: it does not hide its changes, or it fails and leaves the
buffer as it was. -/
inductive Settles (b : LineBuffer) {α : Type} : EStateM.Result EditError LineBuffer α → Prop where
  /-- It succeeds. -/
  | ok {a : α} {b' : LineBuffer} (h : b.Discloses b') : Settles b (.ok a b')
  /-- It fails. -/
  | error {e : EditError} : Settles b (.error e b)

variable (b : LineBuffer)

/-- An edit leaves unwritten changes. -/
theorem dirty_edit (e : BlockEdit Line) : (b.edit e).dirty = true := rfl

/-- Inserting lines is not hidden, and inserting none changes nothing. -/
theorem discloses_insertLines (start : Nat) (block : Array Line) :
    b.Discloses (b.insertLines start block) := by
  unfold insertLines
  split
  · exact .refl b
  · exact .of_dirty (b.dirty_edit _)

/-! ## Blocks and ranges -/

/-- Appending settles. -/
theorem settles_append (after : Option Nat) (block : Array Line) :
    b.Settles (append after block b) := by
  rw [append_apply]
  split
  · exact .error
  · exact .ok (b.discloses_insertLines _ block)

/-- Inserting settles, since it fails or appends. -/
theorem settles_insert (index : Nat) (block : Array Line) : b.Settles (insert index block b) := by
  rw [insert_apply]
  split
  · exact .error
  · exact b.settles_append _ block

/-- Deleting settles. -/
theorem settles_delete (r : LineRange) : b.Settles (delete r b) := by
  rw [delete_apply]
  split
  · exact .error
  · exact .ok (.of_dirty rfl)

/-- Changing settles.

**Proof sketch.** It deletes lines, which is not hidden, and inserts others, which is not hidden
either. -/
theorem settles_change (r : LineRange) (block : Array Line) : b.Settles (change r block b) := by
  rw [change_apply]
  split
  · exact .error
  · have hdelete : b.Discloses (b.deleteLines r) := .of_dirty rfl
    exact .ok (hdelete.trans ((b.deleteLines r).discloses_insertLines _ block))

/-- Moving settles. -/
theorem settles_move (r : LineRange) (dest : Option Nat) : b.Settles (move r dest b) := by
  rw [move_apply]
  split
  · exact .error
  · split
    · exact .error
    · split
      · exact .error
      · exact .ok (.of_dirty rfl)

/-- Copying settles, since it fails or appends. -/
theorem settles_copy (r : LineRange) (dest : Option Nat) : b.Settles (copy r dest b) := by
  rw [copy_apply]
  split
  · exact .error
  · have happend := b.settles_append dest (r.slice b.lines)
    generalize append dest (r.slice b.lines) b = result at happend
    cases happend with
    | ok h => exact .ok h
    | error => exact .error

/-- Joining settles: from two lines on it is an edit, and one line is left as it is. -/
theorem settles_join (r : LineRange) : b.Settles (join r b) := by
  rw [join_apply]
  split
  · exact .error
  · split
    · exact .ok (.of_dirty rfl)
    · exact .ok (.of_eq rfl rfl)

/-! ## Texts of lines -/

/-- Replacing a line settles.

**Proof sketch.** If the text is another one, the buffer has unwritten changes; if not, nothing has
changed. -/
theorem settles_replaceLine (index : Nat) (text : Line) :
    b.Settles (replaceLine index text b) := by
  rw [replaceLine_apply]
  cases b.line? index with
  | none => exact .error
  | some old =>
    dsimp only
    split
    · exact .ok (.of_dirty rfl)
    · exact .ok (.refl b)

/-- A substitution that changes no text leaves the lines as they were.

**Proof sketch.** The buffer counts as written afterwards only if it did before and no text was
changed, and then its lines are the same, by `lines_withSubstituted_eq_iff`. -/
theorem settles_substitute (r : LineRange) (s : Substitution) : b.Settles (substitute r s b) := by
  by_cases hvalid : r.first ≤ r.last ∧ r.last < b.size
  · rw [substitute_apply_of_valid hvalid.1 hvalid.2]
    split
    · exact .error
    · refine .ok fun hclean => ?_
      obtain ⟨hclean, hsame⟩ := Bool.or_eq_false_iff.1 hclean
      exact ⟨hclean, lines_withSubstituted_eq_iff.2 hsame⟩
  · rw [substitute_apply, if_pos (by omega)]
    exact .error

/-! ## The current line, marks and undoing -/

/-- Making a line the current one settles. -/
theorem settles_setCurrent (index : Nat) : b.Settles (setCurrent index b) := by
  rw [setCurrent_apply]
  split
  · exact .error
  · exact .ok (.of_eq rfl rfl)

/-- Setting a mark settles. -/
theorem settles_setMark (letter : UInt8) (index : Nat) : b.Settles (setMark letter index b) := by
  rw [setMark_apply]
  split
  · exact .error
  · cases b.marks.set? letter index with
    | none => exact .error
    | some marks => exact .ok (.of_eq rfl rfl)

/-- Undoing settles, since what it brings back counts as not written. -/
theorem settles_undo : b.Settles (undo b) := by
  rw [undo_apply]
  cases b.saved with
  | none => exact .error
  | some s => exact .ok (.of_dirty rfl)

end LineEditor.LineBuffer
