import LineEditor.Proofs.Buffer.Consistency
import LineEditor.Proofs.Regex.Bounds

set_option autoImplicit false
set_option relaxedAutoImplicit false

/-!
# Accesses to the lines of a buffer

The operations of a buffer are carried out once more, and wherever an element or a part of a
sequence is taken, or a difference is computed, it is checked first that there is one. This holds of
the lines of the buffer, of the indices that follow them, and of the texts that are matched and
replaced. The operations do the same with these checks as without them: they check all that they are
given before they use it.

## Main definitions

* `LineEditor.BlockEdit.accesses`, `LineEditor.BlockEdit.followAccesses`: what an edit takes from
  the lines, and what is computed to follow an index.
* `LineEditor.Checked.operate`: the operations of a buffer.

## Main results

* `LineEditor.Checked.operate_eq`: no operation accesses anything out of bounds.
-/

namespace LineEditor

/-! ## Elementary edits -/

/-- The lines that an edit is given are there. -/
def BlockEdit.InBounds {α : Type} (size : Nat) : BlockEdit α → Prop
  | insert start _ => start ≤ size
  | delete r => r.first ≤ r.last ∧ r.last < size
  | move r start => r.first ≤ r.last ∧ r.last < size ∧ start + r.size ≤ size

/-- What an edit takes from an array: the place of a block, and the range that is taken out. -/
def BlockEdit.accesses {α : Type} (size : Nat) : BlockEdit α → List Access
  | insert start _ => [.slice start start size]
  | delete r => [.slice r.first (r.last + 1) size]
  | move r start => [.slice r.first (r.last + 1) size, .slice start start (size - r.size)]

/-- What is computed to find where an edit takes an index. -/
def BlockEdit.followAccesses {α : Type} (index : Nat) : BlockEdit α → List Access
  | insert .. => []
  | delete r =>
    if r.last < index then [.difference r.last r.first, .difference index r.size] else []
  | move r start =>
    .difference r.last r.first ::
      if r.contains index then [.difference index r.first]
      else if r.last < index ∧ index < start + r.size then [.difference index r.size]
      else []

namespace BlockEdit

variable {α : Type} {edit : BlockEdit α} {size : Nat}

/-- An edit within bounds takes only what is there. -/
theorem valid_accesses (h : edit.InBounds size) : ∀ a ∈ edit.accesses size, a.Valid := by
  cases edit with
  | insert start block => exact List.forall_mem_singleton.2 ⟨Nat.le_refl start, h⟩
  | delete r => exact List.forall_mem_singleton.2 ⟨Nat.le_succ_of_le h.1, h.2⟩
  | move r start =>
    obtain ⟨hr, hlast, hstart⟩ := h
    refine List.forall_mem_cons.2 ⟨⟨Nat.le_succ_of_le hr, hlast⟩, List.forall_mem_singleton.2 ?_⟩
    exact ⟨Nat.le_refl start, by omega⟩

/-- Following an edit computes only differences that there are.

**Proof sketch.** By the edit and by where the index is. Behind a range that is deleted, and behind
one that is moved, it is at least as great as the size of the range; inside of one it is at least
its first line. -/
theorem valid_followAccesses (h : edit.InBounds size) (index : Nat) :
    ∀ a ∈ edit.followAccesses index, a.Valid := by
  have hsize (r : LineRange) : r.size = r.last - r.first + 1 := rfl
  cases edit with
  | insert start block => exact List.forall_mem_nil _
  | delete r =>
    obtain ⟨hr, -⟩ := h
    rw [followAccesses]
    split
    · refine List.forall_mem_cons.2 ⟨hr, List.forall_mem_singleton.2 ?_⟩
      show r.size ≤ index
      have := hsize r
      omega
    · exact List.forall_mem_nil _
  | move r start =>
    obtain ⟨hr, -, -⟩ := h
    refine List.forall_mem_cons.2 ⟨hr, ?_⟩
    split
    · rename_i hin
      simp only [LineRange.contains, Bool.and_eq_true, decide_eq_true_eq] at hin
      exact List.forall_mem_singleton.2 hin.1
    · split
      · refine List.forall_mem_singleton.2 ?_
        show r.size ≤ index
        have := hsize r
        omega
      · exact List.forall_mem_nil _

end BlockEdit

/-- The indices that follow the lines of a buffer: those of its marks and of the pending lines. -/
def LineBuffer.followed (b : LineBuffer) : List Nat :=
  b.marks.toList.reduceOption ++ b.targets.toList

/-- What is accessed to substitute on a line. -/
def Substitution.accesses (s : Substitution) (line : Line) : List Access :=
  s.regex.replaceAccesses line s.replacement s.occurrence

/-- What is computed to mark a line by a letter: the place of the letter among all places. -/
def Marks.accesses (letter : UInt8) : List Access :=
  if isLower letter then
    [.difference letter.toNat (ascii 'a').toNat,
      .element (letter.toNat - (ascii 'a').toNat) letterCount]
  else []

/-- The place of a mark is within the marks.

**Proof sketch.** A letter between `a` and `z` is at most as far from `a` as `z` is. -/
theorem Marks.valid_accesses (letter : UInt8) : ∀ a ∈ accesses letter, a.Valid := by
  unfold accesses
  split
  · rename_i h
    rw [isLower, Bool.and_eq_true, decide_eq_true_eq, decide_eq_true_eq, UInt8.le_iff_toNat_le,
      UInt8.le_iff_toNat_le] at h
    obtain ⟨hfirst, hlast⟩ := h
    refine List.forall_mem_cons.2 ⟨hfirst, List.forall_mem_singleton.2 ?_⟩
    have hcount : (ascii 'z').toNat < (ascii 'a').toNat + letterCount := by decide
    show letter.toNat - (ascii 'a').toNat < letterCount
    omega
  · exact List.forall_mem_nil _

namespace Checked

open LineBuffer

/-! ## Operations -/

/-- Carries out an elementary edit. -/
def edit (e : BlockEdit Line) : Checked LineBuffer Unit := do
  let b ← get
  access (e.accesses b.size)
  access (b.followed.flatMap fun index => e.followAccesses index)
  set (b.edit e)

/-- Inserts a block of lines. -/
def insertLines (start : Nat) (block : Array Line) : Checked LineBuffer Unit :=
  if block.isEmpty then pure () else edit (.insert start block)

/-- Deletes a range of lines. -/
def deleteLines (range : LineRange) : Checked LineBuffer Unit := do
  edit (.delete range)
  modify fun b =>
    { b with current := if range.first < b.size then some range.first else lastIndex? b.size }

/-- Inserts a block after a line, or before the first one. -/
def append (after : Option Nat) (block : Array Line) : Checked LineBuffer Nat := do
  of (checkAfter after)
  let start := after.elim 0 (· + 1)
  insertLines start block
  if 0 < block.size then
    access [.difference (start + block.size) 1]
    modify fun b => { b with current := some (start + block.size - 1) }
  else if after.isSome then
    modify fun b => { b with current := after }
  return block.size

/-- Inserts a block before a line, or after the last one. -/
def insert (index : Nat) (block : Array Line) : Checked LineBuffer Nat := do
  let b ← get
  if b.size < index then throw (.refused .invalidAddress)
  append (lastIndex? index) block

/-- Deletes a range. -/
def delete (range : LineRange) : Checked LineBuffer Unit := do
  of (checkRange range)
  deleteLines range

/-- Puts a block in the place of a range. -/
def change (range : LineRange) (block : Array Line) : Checked LineBuffer Nat := do
  of (checkRange range)
  deleteLines range
  insertLines range.first block
  if 0 < block.size then
    access [.difference (range.first + block.size) 1]
    modify fun b => { b with current := some (range.first + block.size - 1) }
  return block.size

/-- Moves a range after a line outside it, or before the first line. -/
def move (range : LineRange) (dest : Option Nat) : Checked LineBuffer Unit := do
  of (checkRange range)
  of (checkAfter dest)
  if dest.any range.contains then throw (.refused .invalidDestination)
  access [.difference range.last range.first]
  if dest.any (range.last < ·) then access [.difference (dest.elim 0 (· + 1)) range.size]
  let start := moveStart range dest
  edit (.move range start)
  access [.difference (start + range.size) 1]
  modify fun b => { b with current := some (start + range.size - 1) }

/-- Copies a range after a line, or before the first one. -/
def copy (range : LineRange) (dest : Option Nat) : Checked LineBuffer Unit := do
  of (checkRange range)
  of (checkAfter dest)
  let b ← get
  access [.slice range.first (range.last + 1) b.size]
  let _ ← append dest (range.slice b.lines)
  return

/-- Joins the lines of a range into the first one. -/
def join (range : LineRange) : Checked LineBuffer Unit := do
  of (checkRange range)
  if range.first < range.last then
    let b ← get
    access [.slice range.first (range.last + 1) b.size]
    let joined := (range.slice b.lines).toList.flatten
    edit (.delete ⟨range.first + 1, range.last⟩)
    let b ← get
    access [.element range.first b.size]
    set { b with lines := b.lines.setIfInBounds range.first joined }
  modify fun b => { b with current := some range.first }

/-- Replaces what a substitution selects on the lines of a range, each of which is searched as it
is in the buffer. Afterwards the lines are counted. -/
def substitute (range : LineRange) (s : Substitution) : Checked LineBuffer Unit := do
  let b ← get
  access ((range.slice b.lines).toList.flatMap s.accesses)
  of (LineBuffer.substitute range s)
  access [.difference range.last range.first]

/-- Marks a line by a letter. -/
def setMark (letter : UInt8) (index : Nat) : Checked LineBuffer Unit := do
  access (Marks.accesses letter)
  of (LineBuffer.setMark letter index)

/-- An operation on a buffer. What is not listed accesses nothing that has to be checked. -/
def operate : Operation → Checked LineBuffer Reply
  | .append after block => Reply.count <$> append after block
  | .insert index block => Reply.count <$> insert index block
  | .delete range => (fun _ => Reply.done) <$> delete range
  | .change range block => Reply.count <$> change range block
  | .move range dest => (fun _ => Reply.done) <$> move range dest
  | .copy range dest => (fun _ => Reply.done) <$> copy range dest
  | .join range => (fun _ => Reply.done) <$> join range
  | .substitute range s => (fun _ => Reply.done) <$> substitute range s
  | .setMark letter index => (fun _ => Reply.done) <$> setMark letter index
  | op => of op.perform

/-! ## Nothing is out of bounds -/

/-- An edit within bounds is carried out.

**Proof sketch.** What it takes is there by `valid_accesses`, and what each index needs by
`valid_followAccesses`. -/
theorem edit_apply {e : BlockEdit Line} {b : LineBuffer} (h : e.InBounds b.size) :
    edit e b = .ok () (b.edit e) := by
  have hfollow : ∀ a ∈ b.followed.flatMap fun index => e.followAccesses index, a.Valid := by
    intro a ha
    obtain ⟨index, -, ha⟩ := List.mem_flatMap.1 ha
    exact BlockEdit.valid_followAccesses h index a ha
  simp only [edit, EState.bind_apply, EState.get_apply,
    access_apply (BlockEdit.valid_accesses h), access_apply hfollow, EState.set_apply]

/-- So is an insertion at a place that is there; an empty one is none. -/
theorem insertLines_apply {start : Nat} {b : LineBuffer} (h : start ≤ b.size)
    (block : Array Line) : insertLines start block b = .ok () (b.insertLines start block) := by
  unfold insertLines LineBuffer.insertLines
  split
  · rfl
  · exact edit_apply h

/-- So is a deletion of a range that is there. -/
theorem deleteLines_apply {r : LineRange} {b : LineBuffer} (hr : r.first ≤ r.last)
    (hlast : r.last < b.size) : deleteLines r b = .ok () (b.deleteLines r) := by
  simp only [deleteLines, EState.bind_apply, edit_apply (e := .delete r) ⟨hr, hlast⟩,
    EState.modify_apply, LineBuffer.deleteLines]

/-- A range that ends behind the last line cannot be deleted. -/
example : edit (.delete ⟨0, 1⟩) (.ofLines [[]]) = .error .outOfBounds (.ofLines [[]]) := rfl

/-- Appending accesses nothing out of bounds.

**Proof sketch.** The check leaves a place within the buffer or behind its last line. The current
line is computed from that place only if there are lines to append, so that one line is counted back
from at least one. -/
theorem append_eq (after : Option Nat) (block : Array Line) :
    append after block = of (LineBuffer.append after block) := by
  funext b
  by_cases hafter : after.any (b.size ≤ ·)
  · simp [append, LineBuffer.append, checkAfter_apply, hafter]
  · have hstart : after.elim 0 (· + 1) ≤ b.size := by
      cases after with
      | none => exact Nat.zero_le _
      | some index =>
        simp only [Option.any_some, decide_eq_true_eq] at hafter
        exact Nat.lt_of_not_le hafter
    by_cases hblock : 0 < block.size
    · have hvalid : (Access.difference (after.elim 0 (· + 1) + block.size) 1).Valid :=
        Nat.le_add_left_of_le hblock
      simp [append, LineBuffer.append, checkAfter_apply, hafter, insertLines_apply hstart, hblock,
        access_singleton_apply hvalid]
    · by_cases hsome : after.isSome <;>
        simp [append, LineBuffer.append, checkAfter_apply, hafter, insertLines_apply hstart, hblock,
          hsome]

/-- Nor does inserting, which appends. -/
theorem insert_eq (index : Nat) (block : Array Line) :
    insert index block = of (LineBuffer.insert index block) := by
  funext b
  by_cases h : b.size < index <;> simp [insert, LineBuffer.insert, append_eq, h]

/-- Nor does deleting, whose range is checked first. -/
theorem delete_eq (range : LineRange) : delete range = of (LineBuffer.delete range) := by
  funext b
  by_cases h : range.last < range.first ∨ b.size ≤ range.last
  · simp [delete, LineBuffer.delete, checkRange_apply, h]
  · obtain ⟨hr, hlast⟩ : range.first ≤ range.last ∧ range.last < b.size := by omega
    simp [delete, LineBuffer.delete, checkRange_apply, h, deleteLines_apply hr hlast]

/-- Nor does changing.

**Proof sketch.** The range is there after its check, and taking it out leaves its first line as a
place to insert at. -/
theorem change_eq (range : LineRange) (block : Array Line) :
    change range block = of (LineBuffer.change range block) := by
  funext b
  by_cases h : range.last < range.first ∨ b.size ≤ range.last
  · simp [change, LineBuffer.change, checkRange_apply, h]
  · obtain ⟨hr, hlast⟩ : range.first ≤ range.last ∧ range.last < b.size := by omega
    have hdelete := deleteLines_apply hr hlast
    have hsize := size_deleteLines hr hlast
    have hrange : range.size = range.last - range.first + 1 := rfl
    have hstart : range.first ≤ (b.deleteLines range).size := by omega
    have hinsert := insertLines_apply hstart block
    by_cases hblock : 0 < block.size
    · have hvalid : (Access.difference (range.first + block.size) 1).Valid :=
        Nat.le_add_left_of_le hblock
      simp [change, LineBuffer.change, checkRange_apply, h, hdelete, hinsert, hblock,
        access_singleton_apply hvalid]
    · simp [change, LineBuffer.change, checkRange_apply, h, hdelete, hinsert, hblock]

/-- Nor does moving.

**Proof sketch.** The cases are those of the checks. If all of them pass, the destination is a line
outside the range, so that the size of the range can be taken from it where the range is before it,
and the moved lines fit in behind it. -/
theorem move_eq (range : LineRange) (dest : Option Nat) :
    move range dest = of (LineBuffer.move range dest) := by
  funext b
  by_cases h : range.last < range.first ∨ b.size ≤ range.last
  · simp [move, LineBuffer.move, checkRange_apply, h]
  by_cases hdest : dest.any (b.size ≤ ·)
  · simp [move, LineBuffer.move, checkRange_apply, checkAfter_apply, h, hdest]
  by_cases hin : dest.any range.contains
  · simp [move, LineBuffer.move, checkRange_apply, checkAfter_apply, h, hdest, hin]
  -- The range is one of the buffer, and its destination is outside it.
  obtain ⟨hr, hlast⟩ : range.first ≤ range.last ∧ range.last < b.size := by omega
  have hsize : range.size = range.last - range.first + 1 := rfl
  have hcount : (Access.difference range.last range.first).Valid := hr
  have hcurrent : (Access.difference (moveStart range dest + range.size) 1).Valid := by
    show 1 ≤ moveStart range dest + range.size
    omega
  have hedit : edit (.move range (moveStart range dest)) b =
      .ok () (b.edit (.move range (moveStart range dest))) := by
    refine edit_apply ⟨hr, hlast, ?_⟩
    cases dest with
    | none =>
      rw [moveStart]
      omega
    | some d =>
      simp only [Option.any_some, decide_eq_true_eq, LineRange.contains, Bool.and_eq_true]
        at hdest hin
      simp only [moveStart]
      split <;> omega
  have hstart : dest.any (range.last < ·) →
      (Access.difference (dest.elim 0 (· + 1)) range.size).Valid := by
    intro hbehind
    cases dest with
    | none => cases hbehind
    | some d =>
      simp only [Option.any_some, decide_eq_true_eq] at hbehind
      show range.size ≤ d + 1
      omega
  by_cases hbehind : dest.any (range.last < ·)
  · simp [move, LineBuffer.move, checkRange_apply, checkAfter_apply, h, hdest, hin, hbehind, hedit,
      access_singleton_apply hcount,
      access_singleton_apply (hstart hbehind),
      access_singleton_apply hcurrent]
  · simp [move, LineBuffer.move, checkRange_apply, checkAfter_apply, h, hdest, hin, hbehind, hedit,
      access_singleton_apply hcount,
      access_singleton_apply hcurrent]

/-- Nor does copying.

**Proof sketch.** After both checks the range is one to take out, and appending is checked
already. -/
theorem copy_eq (range : LineRange) (dest : Option Nat) :
    copy range dest = of (LineBuffer.copy range dest) := by
  funext b
  by_cases h : range.last < range.first ∨ b.size ≤ range.last
  · simp [copy, LineBuffer.copy, checkRange_apply, h]
  by_cases hdest : dest.any (b.size ≤ ·)
  · simp [copy, LineBuffer.copy, checkRange_apply, checkAfter_apply, h, hdest]
  have hslice : (Access.slice range.first (range.last + 1) b.size).Valid :=
    ⟨by omega, by omega⟩
  simp only [copy, LineBuffer.copy, EState.bind_apply, EState.get_apply, of_apply, checkRange_apply,
    checkAfter_apply, if_neg h, if_neg hdest, append_eq, lift_ok,
    access_singleton_apply hslice]
  cases LineBuffer.append dest (range.slice b.lines) b <;> rfl

/-- Nor does joining.

**Proof sketch.** The range is there after its check, and its first line is still there when the
others have been deleted. -/
theorem join_eq (range : LineRange) : join range = of (LineBuffer.join range) := by
  funext b
  by_cases h : range.last < range.first ∨ b.size ≤ range.last
  · simp [join, LineBuffer.join, checkRange_apply, h]
  by_cases hlt : range.first < range.last
  · have hslice : (Access.slice range.first (range.last + 1) b.size).Valid :=
      ⟨by omega, by omega⟩
    have hlast : range.last < b.size := by omega
    have hsize := size_deleteLines (b := b) (r := ⟨range.first + 1, range.last⟩) hlt hlast
    have hedit : edit (.delete ⟨range.first + 1, range.last⟩) b =
        .ok () (b.edit (.delete ⟨range.first + 1, range.last⟩)) := edit_apply ⟨hlt, hlast⟩
    -- The first line is still there when the others have been deleted.
    have hfirst : (Access.element range.first
        (b.edit (.delete ⟨range.first + 1, range.last⟩)).size).Valid := by
      have hrange : LineRange.size ⟨range.first + 1, range.last⟩ =
        range.last - (range.first + 1) + 1 := rfl
      change (b.edit (.delete ⟨range.first + 1, range.last⟩)).size + _ = _ at hsize
      show range.first < _
      omega
    simp [join, LineBuffer.join, checkRange_apply, h, hlt, hedit,
      access_singleton_apply hslice,
      access_singleton_apply hfirst]
  · simp [join, LineBuffer.join, checkRange_apply, h, hlt]

/-- Nor does substituting.

**Proof sketch.** Each line of the range has its matches replaced within bounds, by
`valid_replaceAccesses`. The lines of the range are counted only after the range has been
checked. -/
theorem substitute_eq (range : LineRange) (s : Substitution) :
    substitute range s = of (LineBuffer.substitute range s) := by
  funext b
  have hlines : ∀ a ∈ (range.slice b.lines).toList.flatMap s.accesses, a.Valid := by
    intro a ha
    obtain ⟨line, -, ha⟩ := List.mem_flatMap.1 ha
    exact s.regex.valid_replaceAccesses line s.replacement s.occurrence a ha
  by_cases h : range.last < range.first ∨ b.size ≤ range.last
  · simp [substitute, LineBuffer.substitute, checkRange_apply, h, access_apply hlines]
  have hcount : (Access.difference range.last range.first).Valid := by
    show range.first ≤ range.last
    omega
  simp only [substitute, EState.bind_apply, EState.get_apply, of_apply, access_apply hlines]
  cases LineBuffer.substitute range s b with
  | ok _ t => exact access_singleton_apply hcount t
  | error e t => rfl

/-- Nor does setting a mark. -/
theorem setMark_eq (letter : UInt8) (index : Nat) :
    setMark letter index = of (LineBuffer.setMark letter index) := by
  funext b
  simp only [setMark, EState.bind_apply, access_apply (Marks.valid_accesses letter)]

/-- **No operation accesses anything out of bounds**, whatever lines and ranges it is given and
whatever the buffer is: with all accesses checked it does the same. -/
theorem operate_eq (op : Operation) : operate op = of op.perform := by
  cases op <;>
    simp only [operate, Operation.perform, of_map, append_eq, insert_eq, delete_eq, change_eq,
      move_eq, copy_eq, join_eq, substitute_eq, setMark_eq]

end Checked

end LineEditor
