import LineEditor.Proofs.Buffer.Operations
import LineEditor.Proofs.Text.Alphabet

set_option autoImplicit false
set_option relaxedAutoImplicit false

/-!
# The bytes of a buffer

The lines of a buffer, and those that undoing brings back, have only bytes that have come in with
the texts of operations: blocks are put in and taken out as they are, joined lines have the bytes of
their parts, and a substitution adds none but those of its replacement.

## Main definitions

* `LineEditor.LineBuffer.Over`: buffers whose lines are over an alphabet.

## Main results

* `LineEditor.LineBuffer.Over.operation`: operations make up no byte.
-/

namespace LineEditor

variable {A : Set UInt8}

/-- Lines have only bytes of an alphabet. -/
def LinesOver (A : Set UInt8) (lines : Array Line) : Prop := ∀ line ∈ lines.toList, line.Over A

/-- The lines of a buffer have only bytes of an alphabet, and so have those that undoing brings
back. -/
structure LineBuffer.Over (A : Set UInt8) (b : LineBuffer) : Prop where
  /-- The lines have. -/
  lines : LinesOver A b.lines
  /-- The lines of the snapshot have. -/
  saved : ∀ s ∈ b.saved, LinesOver A s.lines

/-- The texts of an operation are over an alphabet. -/
def Operation.Over (A : Set UInt8) : Operation → Prop
  | append _ block | insert _ block | change _ block | replaceAll block => LinesOver A block
  | replaceLine _ text => text.Over A
  | substitute _ s => s.replacement.Over A
  | _ => True

/-! ## Lines -/

namespace LinesOver

variable {block lines : Array Line}

/-- Two arrays of lines over an alphabet make another one. -/
theorem append (h : LinesOver A lines) (h' : LinesOver A block) : LinesOver A (lines ++ block) := by
  unfold LinesOver
  rw [Array.toList_append]
  exact List.forall_mem_append.2 ⟨h, h'⟩

/-- So does a portion of one. -/
theorem extract (h : LinesOver A lines) (start stop : Nat) :
    LinesOver A (lines.extract start stop) := by
  intro line hline
  rw [Array.toList_extract] at hline
  exact h line (List.mem_of_mem_drop (List.mem_of_mem_take hline))

/-- So does one whose line is replaced by one over the alphabet. -/
theorem set (h : LinesOver A lines) {text : Line} (htext : text.Over A) (index : Nat) :
    LinesOver A (lines.setIfInBounds index text) := by
  intro line hline
  rw [Array.toList_setIfInBounds] at hline
  rcases List.mem_or_eq_of_mem_set hline with hline | rfl
  · exact h line hline
  · exact htext

/-- So do the lines of a range. -/
theorem slice (h : LinesOver A lines) (r : LineRange) : LinesOver A (r.slice lines) :=
  h.extract r.first (r.last + 1)

/-- Elementary edits take over lines as they are.

**Proof sketch.** Each edit is put together from portions of the lines and from the block that it
inserts. -/
theorem edit (h : LinesOver A lines) {e : BlockEdit Line}
    (he : ∀ start block, e = .insert start block → LinesOver A block) :
    LinesOver A (e.apply lines) := by
  have hinsert (start : Nat) {block xs : Array Line} (hblock : LinesOver A block)
      (hxs : LinesOver A xs) : LinesOver A (insertBlock start block xs) := by
    rw [insertBlock_eq]
    exact ((hxs.extract _ _).append hblock).append (hxs.extract _ _)
  have hremove (r : LineRange) : LinesOver A (r.remove lines) := by
    rw [LineRange.remove_eq]
    exact (h.extract _ _).append (h.extract _ _)
  cases e with
  | insert start block => exact hinsert start (he start block rfl) h
  | delete r => exact hremove r
  | move r start => exact hinsert start (h.slice r) (hremove r)

/-- Deleting lines leaves such lines. -/
theorem delete (h : LinesOver A lines) (r : LineRange) :
    LinesOver A ((BlockEdit.delete r).apply lines) := h.edit nofun

/-- Overwriting some lines by such lines does as well.

**Proof sketch.** By induction on the new texts: one that is missing leaves its line as it is, and
any other is set in its place. -/
theorem overwrite (h : LinesOver A lines) {texts : List (Option Line)}
    (htexts : ∀ text? ∈ texts, ∀ text ∈ text?, text.Over A) (start : Nat) :
    LinesOver A (LineBuffer.overwrite start texts lines) := by
  induction texts generalizing start lines with
  | nil => exact h
  | cons text? texts ih =>
    obtain ⟨htext, hrest⟩ := List.forall_mem_cons.1 htexts
    cases text? with
    | none => exact ih h hrest _
    | some text => exact ih (h.set (htext text rfl) start) hrest _

end LinesOver

/-! ## Operations -/

namespace LineBuffer.Over

variable {b : LineBuffer}

/-- Inserting such lines keeps a buffer over the alphabet, whether there are any or not. -/
theorem insertLines (h : b.Over A) {block : Array Line} (hblock : LinesOver A block) (start : Nat) :
    (b.insertLines start block).Over A := by
  unfold LineBuffer.insertLines
  split
  · exact h
  · refine ⟨h.lines.edit fun _ _ heq => ?_, h.saved⟩
    cases heq
    exact hblock

/-- Only the lines and the snapshot matter. -/
theorem of_eq {b' : LineBuffer} (h : b.Over A) (hlines : b'.lines = b.lines)
    (hsaved : b'.saved = b.saved) : b'.Over A := ⟨hlines ▸ h.lines, hsaved ▸ h.saved⟩

/-- Appending such lines does. -/
theorem append (h : b.Over A) (after : Option Nat) {block : Array Line}
    (hblock : LinesOver A block) : (EState.after (LineBuffer.append after block) b).Over A := by
  rw [EState.after, append_apply]
  split
  · exact h
  · exact (h.insertLines hblock _).of_eq rfl rfl

/-- So does inserting them before a line, since this fails or appends. -/
theorem insert (h : b.Over A) (index : Nat) {block : Array Line} (hblock : LinesOver A block) :
    (EState.after (LineBuffer.insert index block) b).Over A := by
  have happend := h.append (lastIndex? index) hblock
  rw [EState.after, insert_apply]
  split
  · exact h
  · exact happend

/-- So does taking lines away. -/
theorem deleteLines (h : b.Over A) (r : LineRange) : (b.deleteLines r).Over A :=
  ⟨h.lines.delete r, h.saved⟩

/-- So does deleting, whether it fails or not. -/
theorem delete (h : b.Over A) (r : LineRange) : (EState.after (LineBuffer.delete r) b).Over A := by
  rw [EState.after, delete_apply]
  split
  · exact h
  · exact h.deleteLines r

/-- So does changing lines into such lines. -/
theorem change (h : b.Over A) (r : LineRange) {block : Array Line} (hblock : LinesOver A block) :
    (EState.after (LineBuffer.change r block) b).Over A := by
  rw [EState.after, change_apply]
  split
  · exact h
  · exact ((h.deleteLines r).insertLines hblock _).of_eq rfl rfl

/-- So does moving, which takes lines as they are. -/
theorem move (h : b.Over A) (r : LineRange) (dest : Option Nat) :
    (EState.after (LineBuffer.move r dest) b).Over A := by
  rw [EState.after, move_apply]
  split
  · exact h
  · split
    · exact h
    · split
      · exact h
      · exact ⟨h.lines.edit nofun, h.saved⟩

/-- So does copying.

**Proof sketch.** The copied lines are lines of the buffer, so that this is an append over the
alphabet. -/
theorem copy (h : b.Over A) (r : LineRange) (dest : Option Nat) :
    (EState.after (LineBuffer.copy r dest) b).Over A := by
  have happend := h.append dest (h.lines.slice r)
  rw [EState.after, copy_apply]
  split
  · exact h
  · unfold EState.after at happend
    cases hresult : LineBuffer.append dest (r.slice b.lines) b <;> rw [hresult] at happend <;>
      exact happend

/-- So does joining.

**Proof sketch.** The first line gets the bytes of all lines of the range, which are in the
alphabet, and the others are deleted. -/
theorem join (h : b.Over A) (r : LineRange) : (EState.after (LineBuffer.join r) b).Over A := by
  rw [EState.after, join_apply]
  split
  · exact h
  · split
    · exact ⟨(h.lines.delete _).set (.flatten (h.lines.slice r)) _, h.saved⟩
    · exact h.of_eq rfl rfl

/-- So does replacing a line by such a line. -/
theorem replaceLine (h : b.Over A) (index : Nat) {text : Line} (htext : text.Over A) :
    (EState.after (LineBuffer.replaceLine index text) b).Over A := by
  rw [EState.after, replaceLine_apply]
  split
  · exact h
  · split
    · exact ⟨h.lines.set htext index, h.saved⟩
    · exact h

/-- So does substituting.

**Proof sketch.** A line whose text changes gets one that the substitution renders over the
alphabet, by `Substitution.over_apply?`; the others stay. -/
theorem substitute (h : b.Over A) (r : LineRange) {s : Substitution} (hs : s.replacement.Over A) :
    (EState.after (LineBuffer.substitute r s) b).Over A := by
  rw [EState.after, substitute_apply]
  dsimp only
  split
  · exact h
  · split
    · exact h
    · refine ⟨h.lines.overwrite ?_ _, h.saved⟩
      exact List.forall_mem_map.2 fun line hline => s.over_apply? hs (h.lines.slice r line hline)

/-- So does undoing.

**Proof sketch.** The buffer gets the lines that were saved, and what was saved gets its own. -/
theorem undo (h : b.Over A) : (EState.after LineBuffer.undo b).Over A := by
  rw [EState.after, undo_apply]
  cases hsaved : b.saved with
  | none => exact h
  | some s =>
    refine ⟨h.saved s hsaved, ?_⟩
    rintro _ ⟨⟩
    exact h.lines

/-- So does setting the current line. -/
theorem setCurrent (h : b.Over A) (index : Nat) :
    (EState.after (LineBuffer.setCurrent index) b).Over A := by
  rw [EState.after, setCurrent_apply]
  split
  · exact h
  · exact h.of_eq rfl rfl

/-- So does setting a mark. -/
theorem setMark (h : b.Over A) (letter : UInt8) (index : Nat) :
    (EState.after (LineBuffer.setMark letter index) b).Over A := by
  rw [EState.after, setMark_apply]
  split
  · exact h
  · split
    · exact h
    · exact h.of_eq rfl rfl

/-- So does going on to the next line to visit. -/
theorem nextTarget (h : b.Over A) : (EState.after LineBuffer.nextTarget b).Over A := by
  rw [EState.after, nextTarget_apply]
  cases b.targets.back? with
  | none => exact h
  | some index => exact h.of_eq rfl rfl

/-- So does keeping a snapshot of such lines. -/
theorem storeSnapshot (h : b.Over A) {s : Snapshot} (hs : LinesOver A s.lines) :
    (b.storeSnapshot s).Over A := by
  refine ⟨h.lines, ?_⟩
  rintro _ ⟨⟩
  exact hs

/-- **Operations make up no byte**: what they leave has only bytes of the buffer and of the texts
that they are given.

**Proof sketch.** By the operation, each of which has its lemma above. -/
theorem operation (h : b.Over A) {op : Operation} (hop : op.Over A) :
    (EState.after op.perform b).Over A := by
  have hmap {α : Type} {f : α → Reply} {x : BufferAction α} (hx : (EState.after x b).Over A) :
      (EState.after (f <$> x) b).Over A := by
    rwa [EState.after_map]
  cases op with
  | append after block => exact hmap (h.append after hop)
  | insert index block => exact hmap (h.insert index hop)
  | delete r => exact hmap (h.delete r)
  | change r block => exact hmap (h.change r hop)
  | move r dest => exact hmap (h.move r dest)
  | copy r dest => exact hmap (h.copy r dest)
  | join r => exact hmap (h.join r)
  | replaceLine index text => exact hmap (h.replaceLine index hop)
  | substitute r s => exact hmap (h.substitute r hop)
  | setCurrent index => exact hmap (h.setCurrent index)
  | setMark letter index => exact hmap (h.setMark letter index)
  | undo => exact hmap h.undo
  | replaceAll lines => exact ⟨hop, h.saved⟩

end LineBuffer.Over

end LineEditor
