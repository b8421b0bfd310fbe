import Mathlib.Data.List.Nodup
import LineEditor.Proofs.Buffer.Operations

set_option autoImplicit false
set_option relaxedAutoImplicit false

/-!
# Consistent buffers

In a consistent buffer all indices are those of lines: the current line, which is missing only if
there are no lines, the marks, and the lines that are to be visited, of which no two are the same.
What undoing brings back is consistent in the same way. A new buffer is consistent, and so is what
an operation leaves, also when it fails.

## Main definitions

* `LineEditor.LineBuffer.Consistent`: consistent buffers.

## Main results

* `LineEditor.LineBuffer.Consistent.operation`: operations keep buffers consistent.
-/

namespace LineEditor

/-- A current line for a number of lines: one of them, or none if there are none. -/
structure Fits (current : Option Nat) (size : Nat) : Prop where
  /-- There is no current line exactly if there are no lines. -/
  eq_none_iff : current = none ↔ size = 0
  /-- The current line is a line. -/
  lt : ∀ index ∈ current, index < size

/-- Lines with a current line and marks that belong to them. -/
structure Snapshot.Consistent (s : Snapshot) : Prop where
  /-- The current line is one of the lines. -/
  current : Fits s.current s.lines.size
  /-- The marks are on lines. -/
  marks : s.marks.InRange Set.univ s.lines.size

/-- All indices of a buffer are those of lines. -/
structure LineBuffer.Consistent (b : LineBuffer) : Prop where
  /-- The current line and the marks are. -/
  present : b.snapshot.Consistent
  /-- Those that undoing brings back are. -/
  saved : ∀ s ∈ b.saved, s.Consistent
  /-- The pending lines are. -/
  targets : ∀ index ∈ b.targets.toList, index < b.size
  /-- No line is pending twice. -/
  distinct : b.targets.toList.Nodup

namespace Fits

/-- A line below the size can be the current one. -/
theorem some {index size : Nat} (h : index < size) : Fits (some index) size where
  eq_none_iff := iff_of_false nofun (by omega)
  lt := by
    rintro _ ⟨⟩
    exact h

/-- So can the last line, or none if there are no lines. -/
theorem last (size : Nat) : Fits (lastIndex? size) size := by
  unfold lastIndex?
  split
  · rename_i h
    exact ⟨iff_of_true rfl h, nofun⟩
  · exact .some (by omega)

end Fits

/-! ## Sizes -/

section Sizes

variable {α : Type} {r : LineRange} {xs : Array α}

/-- An inserted block adds its size. -/
theorem size_insertBlock (start : Nat) (block xs : Array α) :
    (insertBlock start block xs).size = xs.size + block.size := by
  rw [← Array.length_toList, toList_insertBlock, putAt]
  simp only [List.length_append, List.length_take, List.length_drop, Array.length_toList]
  omega

/-- A range that is removed takes its size away. -/
theorem size_remove (hr : r.first ≤ r.last) (hlast : r.last < xs.size) :
    (r.remove xs).size + r.size = xs.size := by
  rw [← Array.length_toList, toList_remove]
  exact length_outside hr hlast

/-- The lines of a range are as many as the range says. -/
theorem size_slice (hr : r.first ≤ r.last) (hlast : r.last < xs.size) :
    (r.slice xs).size = r.size := by
  rw [← Array.length_toList, toList_slice hr]
  exact length_inside hr hlast

end Sizes

namespace LineBuffer

variable {b : LineBuffer} {r : LineRange}

/-- Inserting lines adds as many.

**Proof sketch.** An empty block is not inserted at all, which adds as many lines as it has. -/
theorem size_insertLines (b : LineBuffer) (start : Nat) (block : Array Line) :
    (b.insertLines start block).size = b.size + block.size := by
  unfold insertLines
  split
  · rename_i hempty
    rw [Array.isEmpty_iff.1 hempty]
    rfl
  · exact size_insertBlock start block b.lines

/-- Deleting lines takes as many away. -/
theorem size_deleteLines (hr : r.first ≤ r.last) (hlast : r.last < b.size) :
    (b.deleteLines r).size + r.size = b.size := size_remove hr hlast

/-- Moving lines takes none away and adds none.

**Proof sketch.** What is removed is inserted again, and both are counted by `size_remove` and
`size_insertBlock`. -/
theorem size_move (hr : r.first ≤ r.last) (hlast : r.last < b.size) (start : Nat) :
    (b.edit (.move r start)).size = b.size := by
  have hrest := size_remove hr hlast
  have hblock := size_slice hr hlast
  have hinsert := size_insertBlock start (r.slice b.lines) (r.remove b.lines)
  rw [hblock, hrest] at hinsert
  exact hinsert

/-- Deleting makes the line after the range the current one, or else the last line that is left. -/
theorem fits_deleteLines (b : LineBuffer) (r : LineRange) :
    Fits (b.deleteLines r).current (b.deleteLines r).size := by
  show Fits (if r.first < (b.edit (.delete r)).size then some r.first
    else lastIndex? (b.edit (.delete r)).size) (b.edit (.delete r)).size
  split
  · exact .some ‹_›
  · exact .last _

end LineBuffer

/-! ## The current line and the snapshot -/

/-- After an operation the current line is one of the lines, and undoing brings back what it brought
back before. -/
structure LineBuffer.Steady (b b' : LineBuffer) : Prop where
  /-- The current line is one of the lines. -/
  current : Fits b'.current b'.size
  /-- The snapshot is the same. -/
  saved : b'.saved = b.saved

namespace LineBuffer

variable {b : LineBuffer}

/-- Inserting lines changes nothing of what undoing brings back. -/
theorem insertLines_saved (b : LineBuffer) (start : Nat) (block : Array Line) :
    (b.insertLines start block).saved = b.saved := by
  unfold insertLines
  split <;> rfl

/-- Appending leaves a current line.

**Proof sketch.** It is the last of the appended lines. If there are none, it is the line that is
appended after, which is there since the append did not fail, or the one before. -/
theorem steady_append (h : Fits b.current b.size) (after : Option Nat) (block : Array Line) :
    b.Steady (EState.after (append after block) b) := by
  rw [EState.after, append_apply]
  split
  · exact ⟨h, rfl⟩
  · rename_i hafter
    refine ⟨?_, insertLines_saved ..⟩
    show Fits (if 0 < block.size then some (after.elim 0 (· + 1) + block.size - 1)
      else if after.isSome then after else b.current)
      (b.insertLines (after.elim 0 (· + 1)) block).size
    rw [size_insertLines]
    cases after with
    | none =>
      split
      · exact .some (by simp only [Option.elim_none]; omega)
      · rename_i hblock
        rw [Nat.eq_zero_of_not_pos hblock]
        exact h
    | some index =>
      simp only [Option.any_some, decide_eq_true_eq] at hafter
      split
      · exact .some (by simp only [Option.elim_some]; omega)
      · exact .some (by omega)

/-- Inserting leaves a current line, since it fails or appends. -/
theorem steady_insert (h : Fits b.current b.size) (index : Nat) (block : Array Line) :
    b.Steady (EState.after (insert index block) b) := by
  have happend := steady_append h (lastIndex? index) block
  rw [EState.after, insert_apply]
  split
  · exact ⟨h, rfl⟩
  · exact happend

/-- Deleting leaves a current line. -/
theorem steady_delete (h : Fits b.current b.size) (r : LineRange) :
    b.Steady (EState.after (delete r) b) := by
  rw [EState.after, delete_apply]
  split
  · exact ⟨h, rfl⟩
  · exact ⟨fits_deleteLines b r, rfl⟩

/-- Changing leaves a current line.

**Proof sketch.** It is the last of the new lines; without any, it is the one that deleting
leaves. -/
theorem steady_change (h : Fits b.current b.size) (r : LineRange) (block : Array Line) :
    b.Steady (EState.after (change r block) b) := by
  rw [EState.after, change_apply]
  split
  · exact ⟨h, rfl⟩
  · rename_i hr
    have hsize := size_deleteLines (b := b) (r := r) (by omega) (by omega)
    have hrange : r.size = r.last - r.first + 1 := rfl
    refine ⟨?_, (insertLines_saved ..).trans rfl⟩
    show Fits (if 0 < block.size then some (r.first + block.size - 1)
      else (b.deleteLines r).current) ((b.deleteLines r).insertLines r.first block).size
    rw [size_insertLines]
    split
    · exact .some (by omega)
    · rename_i hblock
      rw [Nat.eq_zero_of_not_pos hblock]
      exact fits_deleteLines b r

/-- Moving leaves a current line.

**Proof sketch.** It is the last of the moved lines. These start at `moveStart`, which is at most as
many lines below the end as are moved: behind the destination if that is before the range, and that
much earlier if it is after the range. -/
theorem steady_move (h : Fits b.current b.size) (r : LineRange) (dest : Option Nat) :
    b.Steady (EState.after (move r dest) b) := by
  rw [EState.after, move_apply]
  split
  · exact ⟨h, rfl⟩
  · split
    · exact ⟨h, rfl⟩
    · split
      · exact ⟨h, rfl⟩
      · rename_i hr hdest hin
        have hsize := size_move (b := b) (r := r) (by omega) (by omega) (moveStart r dest)
        have hrange : r.size = r.last - r.first + 1 := rfl
        refine ⟨?_, rfl⟩
        show Fits (some (moveStart r dest + r.size - 1)) (b.edit (.move r (moveStart r dest))).size
        rw [hsize]
        refine .some ?_
        cases dest with
        | none =>
          rw [moveStart]
          omega
        | some d =>
          simp only [Option.any_some, decide_eq_true_eq, LineRange.contains, Bool.and_eq_true]
            at hdest hin
          simp only [moveStart]
          split <;> omega

/-- Copying leaves a current line, since it fails or appends. -/
theorem steady_copy (h : Fits b.current b.size) (r : LineRange) (dest : Option Nat) :
    b.Steady (EState.after (copy r dest) b) := by
  have happend := steady_append h dest (r.slice b.lines)
  rw [EState.after, copy_apply]
  split
  · exact ⟨h, rfl⟩
  · unfold EState.after at happend
    cases hresult : append dest (r.slice b.lines) b <;> rw [hresult] at happend <;> exact happend

/-- Joining leaves a current line.

**Proof sketch.** It is the first of the joined lines, which is the only one of them that is not
deleted. -/
theorem steady_join (h : Fits b.current b.size) (r : LineRange) :
    b.Steady (EState.after (join r) b) := by
  rw [EState.after, join_apply]
  split
  · exact ⟨h, rfl⟩
  · rename_i hr
    split
    · rename_i hlt
      have hsize := size_deleteLines (b := b) (r := ⟨r.first + 1, r.last⟩) hlt (by
        show r.last < b.size
        omega)
      have hrange : LineRange.size ⟨r.first + 1, r.last⟩ = r.last - (r.first + 1) + 1 := rfl
      refine ⟨.some ?_, rfl⟩
      show r.first < (Array.setIfInBounds _ _ _).size
      rw [Array.size_setIfInBounds]
      change (b.edit (.delete ⟨r.first + 1, r.last⟩)).lines.size + _ = _ at hsize
      omega
    · exact ⟨.some (by show r.first < b.size; omega), rfl⟩

/-- Replacing a line leaves the current line, and as many lines. -/
theorem steady_replaceLine (h : Fits b.current b.size) (index : Nat) (text : Line) :
    b.Steady (EState.after (replaceLine index text) b) := by
  rw [EState.after, replaceLine_apply]
  split
  · exact ⟨h, rfl⟩
  · split
    · refine ⟨?_, rfl⟩
      show Fits b.current (b.lines.setIfInBounds index text).size
      rw [Array.size_setIfInBounds]
      exact h
    · exact ⟨h, rfl⟩

/-- Substituting leaves a current line.

**Proof sketch.** It is the last line of the range, and lines are overwritten in place. -/
theorem steady_substitute (h : Fits b.current b.size) (r : LineRange) (s : Substitution) :
    b.Steady (EState.after (substitute r s) b) := by
  rw [EState.after, substitute_apply]
  dsimp only
  split
  · exact ⟨h, rfl⟩
  · split
    · exact ⟨h, rfl⟩
    · refine ⟨.some ?_, rfl⟩
      show r.last < (overwrite _ _ _).size
      rw [size_overwrite]
      show r.last < b.size
      omega

/-- The current line that is set is one of the lines. -/
theorem steady_setCurrent (h : Fits b.current b.size) (index : Nat) :
    b.Steady (EState.after (setCurrent index) b) := by
  rw [EState.after, setCurrent_apply]
  split
  · exact ⟨h, rfl⟩
  · exact ⟨.some (by show index < b.size; omega), rfl⟩

/-- Setting a mark leaves the current line. -/
theorem steady_setMark (h : Fits b.current b.size) (letter : UInt8) (index : Nat) :
    b.Steady (EState.after (setMark letter index) b) := by
  rw [EState.after, setMark_apply]
  split
  · exact ⟨h, rfl⟩
  · split <;> exact ⟨h, rfl⟩

end LineBuffer

/-- An operation leaves a current line that is one of the lines. Only undoing changes what undoing
brings back.

**Proof sketch.** By the operation, each of which has its lemma above; loading other lines makes the
last of them the current one. -/
theorem Operation.steady {b : LineBuffer} (h : Fits b.current b.size) {op : Operation}
    (hop : op ≠ .undo) : b.Steady (EState.after op.perform b) := by
  have hmap {α : Type} {f : α → Reply} {x : BufferAction α} (hx : b.Steady (EState.after x b)) :
      b.Steady (EState.after (f <$> x) b) := by
    rwa [EState.after_map]
  cases op with
  | undo => exact absurd rfl hop
  | append after block => exact hmap (b.steady_append h after block)
  | insert index block => exact hmap (b.steady_insert h index block)
  | delete range => exact hmap (b.steady_delete h range)
  | change range block => exact hmap (b.steady_change h range block)
  | move range dest => exact hmap (b.steady_move h range dest)
  | copy range dest => exact hmap (b.steady_copy h range dest)
  | join range => exact hmap (b.steady_join h range)
  | replaceLine index text => exact hmap (b.steady_replaceLine h index text)
  | substitute range s => exact hmap (b.steady_substitute h range s)
  | setCurrent index => exact hmap (b.steady_setCurrent h index)
  | setMark letter index => exact hmap (b.steady_setMark h letter index)
  | replaceAll lines => exact ⟨.last _, rfl⟩

/-! ## Marks and pending lines -/

/-- Two identities are not found at the same place. -/
theorem eq_of_position? {lines : List TaggedLine} {identity identity' i : Nat}
    (h : position? lines identity = some i) (h' : position? lines identity' = some i) :
    identity = identity' :=
  Option.some.inj ((identity_of_position? h).symm.trans (identity_of_position? h'))

/-- The places of different lines are different. -/
theorem TaggedBuffer.nodup_pending {n : TaggedBuffer} (h : n.targets.Nodup) : n.pending.Nodup :=
  List.Nodup.filterMap (fun _ _ _ hi hj => eq_of_position? hi hj) h

namespace LineBuffer.Consistent

variable {b : LineBuffer}

/-- The marks and the pending lines of a consistent buffer are on its lines. -/
theorem inRange (h : b.Consistent) : b.InRange Set.univ where
  marks := h.present.marks
  saved s hs := (h.saved s hs).marks
  targets := h.targets

/-- Lines with a current line and marks on them. -/
theorem placed {lines : List Line} {current : Option Nat} {marks : Marks}
    (hcurrent : Fits current lines.length) (hmarks : marks.InRange Set.univ lines.length) :
    ({ LineBuffer.ofLines lines with current, marks } : LineBuffer).Consistent where
  present := ⟨hcurrent, hmarks⟩
  saved := nofun
  targets := nofun
  distinct := List.nodup_nil

/-- Undoing exchanges what is consistent with what is consistent.

**Proof sketch.** The buffer and what is saved change places, and both are consistent in their
current line. Without anything saved nothing happens. -/
theorem undo (h : b.Consistent) :
    Fits (EState.after LineBuffer.undo b).current (EState.after LineBuffer.undo b).size ∧
      ∀ s ∈ (EState.after LineBuffer.undo b).saved, s.Consistent := by
  rw [EState.after, undo_apply]
  cases hsaved : b.saved with
  | none => exact ⟨h.present.current, h.saved⟩
  | some s =>
    refine ⟨(h.saved s hsaved).current, ?_⟩
    rintro _ ⟨⟩
    exact h.present

/-- Lines can be told by their identities after an operation as well, and no further ones are
pending.

**Proof sketch.** The lines of a consistent buffer are given identities, the operation is done on
both, and it ends in the same way. The pending identities are those of before, or none after an
operation that resets them. -/
theorem simulates_after (h : b.Consistent) (op : Operation) :
    ∃ n : TaggedBuffer, Simulates Set.univ (EState.after op.perform b) n ∧
      n.targets.Sublist b.targets.toList := by
  have hends := (Simulates.ofBuffer h.inRange).operation op
  unfold EState.after
  generalize op.perform b = x at hends
  generalize htagged : op.tagged (.ofBuffer b) = y at hends
  cases hends with
  | error hsim => exact ⟨_, hsim, .refl _⟩
  | ok hsim =>
    refine ⟨_, hsim, ?_⟩
    rw [(Operation.keeps htagged).targets]
    split
    · exact List.nil_sublist _
    · exact .refl _

/-- **Operations keep buffers consistent.**

**Proof sketch.** Marks and pending lines are where lines with identities stand, also after the
operation (`simulates_after`), and different identities stand at different places. Only undoing
changes the snapshot, and it exchanges it with what was there. -/
theorem operation (h : b.Consistent) (op : Operation) :
    (EState.after op.perform b).Consistent := by
  obtain ⟨n, hsim, hsublist⟩ := h.simulates_after op
  have hdistinct : (EState.after op.perform b).targets.toList.Nodup :=
    hsim.targets ▸ TaggedBuffer.nodup_pending (hsublist.nodup h.distinct)
  obtain ⟨hcurrent, hsaved⟩ : Fits (EState.after op.perform b).current
      (EState.after op.perform b).size ∧ ∀ s ∈ (EState.after op.perform b).saved, s.Consistent := by
    by_cases hop : op = .undo
    · rw [hop, Operation.perform, EState.after_map]
      exact h.undo
    · have hsteady := Operation.steady h.present.current hop
      exact ⟨hsteady.current, hsteady.saved ▸ h.saved⟩
  exact ⟨⟨hcurrent, hsim.inRange.marks⟩, hsaved, hsim.inRange.targets, hdistinct⟩

/-- Where no line is pending an operation makes none pending. -/
theorem targets_after (h : b.Consistent) (hnone : b.targets = #[]) (op : Operation) :
    (EState.after op.perform b).targets = #[] := by
  obtain ⟨n, hsim, hsublist⟩ := h.simulates_after op
  rw [hnone] at hsublist
  have htargets := hsim.targets
  rw [TaggedBuffer.pending, List.sublist_nil.1 hsublist] at htargets
  exact Array.ext' htargets

/-! ### Pending lines -/

/-- The next line to visit is pending no more.

**Proof sketch.** The pending lines lose their last one, and those left are still lines and still
distinct. -/
theorem nextTarget (h : b.Consistent) :
    (EState.after LineBuffer.nextTarget b).Consistent := by
  rw [EState.after, nextTarget_apply]
  cases b.targets.back? with
  | none => exact h
  | some index =>
    have hsublist : b.targets.pop.toList.Sublist b.targets.toList := by
      rw [Array.toList_pop]
      exact List.dropLast_sublist _
    exact ⟨h.present, h.saved, fun index hindex => h.targets index (hsublist.mem hindex),
      hsublist.nodup h.distinct⟩

/-- Distinct lines may be made the pending ones. -/
theorem setTargets (h : b.Consistent) {indices : List Nat}
    (hlt : ∀ index ∈ indices, index < b.size) (hnodup : indices.Nodup) :
    (b.setTargets indices).Consistent := ⟨h.present, h.saved, hlt, hnodup⟩

/-- So may none. -/
theorem clearTargets (h : b.Consistent) : b.clearTargets.Consistent :=
  ⟨h.present, h.saved, nofun, List.nodup_nil⟩

/-- Consistent lines may be kept for undoing. -/
theorem storeSnapshot (h : b.Consistent) {s : Snapshot} (hs : s.Consistent) :
    (b.storeSnapshot s).Consistent where
  present := h.present
  saved := by
    rintro _ ⟨⟩
    exact hs
  targets := h.targets
  distinct := h.distinct

end LineBuffer.Consistent

end LineEditor
