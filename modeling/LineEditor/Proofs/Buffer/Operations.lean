import LineEditor.Proofs.Buffer.Simulation

set_option autoImplicit false
set_option relaxedAutoImplicit false

/-!
# Operations on lines with identities

The operations that edit a buffer, as data, and what each of them does to lines with identities:
new lines get new identities, moved lines keep theirs, and nothing is ever renumbered. On a buffer
an operation ends in the same way and has the same effect.

## Main definitions

* `LineEditor.Operation`: the operations.
* `LineEditor.Operation.perform`, `LineEditor.Operation.tagged`: on a buffer, and on lines with
  identities.
* `LineEditor.EndsAlike`: both end alike.

## Main results

* `LineEditor.Simulates.operation`: an operation ends alike on both.
* `LineEditor.Operation.keeps`: no line comes back, and none is set to be visited.
-/

namespace LineEditor

/-- What a call on a buffer returns. -/
inductive Reply where
  /-- Nothing. -/
  | done
  /-- A number of lines. -/
  | count (lines : Nat)
  /-- The next line to visit, if there is one. -/
  | target (index : Option Nat)
  deriving Repr, DecidableEq

/-- The operations that edit a buffer. -/
inductive Operation where
  /-- Inserts a block after a line, or before all. -/
  | append (after : Option Nat) (block : Array Line)
  /-- Inserts a block before a line, or after all. -/
  | insert (index : Nat) (block : Array Line)
  /-- Deletes a range. -/
  | delete (range : LineRange)
  /-- Puts a block in the place of a range. -/
  | change (range : LineRange) (block : Array Line)
  /-- Moves a range after a line, or before all. -/
  | move (range : LineRange) (dest : Option Nat)
  /-- Copies a range after a line, or before all. -/
  | copy (range : LineRange) (dest : Option Nat)
  /-- Joins the lines of a range. -/
  | join (range : LineRange)
  /-- Gives a line another text. -/
  | replaceLine (index : Nat) (text : Line)
  /-- Replaces matches on the lines of a range, which is checked before any of them is replaced. -/
  | substitute (range : LineRange) (s : Substitution)
  /-- Makes a line the current one. -/
  | setCurrent (index : Nat)
  /-- Marks a line. -/
  | setMark (letter : UInt8) (index : Nat)
  /-- Exchanges lines and marks with the snapshot. -/
  | undo
  /-- Replaces all lines. -/
  | replaceAll (lines : Array Line)
  deriving Repr, DecidableEq

namespace Operation

/-- Whether an operation makes all pending lines be forgotten. -/
def resets : Operation → Bool
  | undo | replaceAll _ => true
  | _ => false

/-- An operation on a buffer. -/
def perform : Operation → BufferAction Reply
  | append after block => Reply.count <$> LineBuffer.append after block
  | insert index block => Reply.count <$> LineBuffer.insert index block
  | delete range => (fun _ => Reply.done) <$> LineBuffer.delete range
  | change range block => Reply.count <$> LineBuffer.change range block
  | move range dest => (fun _ => Reply.done) <$> LineBuffer.move range dest
  | copy range dest => (fun _ => Reply.done) <$> LineBuffer.copy range dest
  | join range => (fun _ => Reply.done) <$> LineBuffer.join range
  | replaceLine index text => (fun _ => Reply.done) <$> LineBuffer.replaceLine index text
  | substitute range s => (fun _ => Reply.done) <$> LineBuffer.substitute range s
  | setCurrent index => (fun _ => Reply.done) <$> LineBuffer.setCurrent index
  | setMark letter index => (fun _ => Reply.done) <$> LineBuffer.setMark letter index
  | undo => (fun _ => Reply.done) <$> LineBuffer.undo
  | replaceAll lines => (fun _ => Reply.done) <$> modify (·.replaceAll lines)

end Operation

/-! ## Operations on lines with identities -/

namespace TaggedBuffer

variable (n : TaggedBuffer)

/-- The result of an operation on a line, which must exist. -/
def onLine (index : Nat) (result : Except EditError (Reply × TaggedBuffer)) :
    Except EditError (Reply × TaggedBuffer) :=
  if index < n.lines.length then result else .error .invalidAddress

/-- The result of an operation behind a line, which must exist, or before all lines. -/
def onPlace (after : Option Nat) (result : Except EditError (Reply × TaggedBuffer)) :
    Except EditError (Reply × TaggedBuffer) :=
  after.elim result fun index => n.onLine index result

/-- The result of an operation on a range, which must not be empty and whose lines must exist. -/
def onRange (range : LineRange) (result : Except EditError (Reply × TaggedBuffer)) :
    Except EditError (Reply × TaggedBuffer) :=
  if range.first ≤ range.last then n.onLine range.last result else .error .invalidAddress

end TaggedBuffer

/-- An operation on lines with identities: its reply and the lines afterwards. An operation that
fails leaves them as they were. -/
def Operation.tagged (n : TaggedBuffer) : Operation → Except EditError (Reply × TaggedBuffer)
  | append after block =>
    n.onPlace after (.ok (.count block.size, n.insertFresh (after.elim 0 (· + 1)) block.toList))
  | insert index block =>
    n.onPlace (lastIndex? index) (.ok (.count block.size, n.insertFresh index block.toList))
  | delete range => n.onRange range (.ok (.done, n.remove range))
  | change range block =>
    n.onRange range (.ok (.count block.size, (n.remove range).insertFresh range.first block.toList))
  | move range dest =>
    n.onRange range (n.onPlace dest
      (if dest.any range.contains then .error .invalidDestination
      else .ok (.done, n.move range dest)))
  | copy range dest =>
    n.onRange range (n.onPlace dest
      (.ok (.done, n.insertFresh (dest.elim 0 (· + 1)) ((range.inside n.lines).map (·.text)))))
  | join range => n.onRange range (.ok (.done, n.join range))
  | replaceLine index text => n.onLine index (.ok (.done, n.retext index text))
  | substitute range s =>
    n.onRange range
      (if (range.inside n.lines).all fun line => s.apply? line.text |>.isNone then .error .noMatch
      else .ok (.done, n.retextRange range fun text => s.apply? text |>.getD text))
  | setCurrent index => n.onLine index (.ok (.done, n))
  | setMark letter index =>
    n.onLine index
      (match Marks.place? letter with
      | none => .error .invalidMark
      | some place => .ok (.done, n.setMark place index))
  | undo =>
    match n.saved with
    | none => .error .nothingToUndo
    | some s => .ok (.done, n.exchange s)
  | replaceAll lines => .ok (.done, n.replaceAll lines.toList)

/-! ## Operations have the same effect -/

/-- An operation ends alike on a buffer and on lines with identities `n`: with the same error, the
lines being as before, or with the same reply and lines that agree again. -/
inductive EndsAlike (places : Set (Fin letterCount)) (n : TaggedBuffer) {α : Type}
    (reply : α → Reply) :
    EStateM.Result EditError LineBuffer α → Except EditError (Reply × TaggedBuffer) → Prop where
  /-- Both succeed. -/
  | ok {a : α} {b : LineBuffer} {n' : TaggedBuffer} (h : Simulates places b n') :
    EndsAlike places n reply (.ok a b) (.ok (reply a, n'))
  /-- Both fail. -/
  | error {e : EditError} {b : LineBuffer} (h : Simulates places b n) :
    EndsAlike places n reply (.error e b) (.error e)

namespace EndsAlike

variable {places : Set (Fin letterCount)} {b : LineBuffer} {n : TaggedBuffer} {α : Type}
  {reply : α → Reply} {x : EStateM.Result EditError LineBuffer α}
  {y : Except EditError (Reply × TaggedBuffer)}

/-- Both still end alike when their answers are read in another way. -/
theorem map {x : BufferAction α} (h : EndsAlike places n reply (x b) y) :
    EndsAlike places n id ((reply <$> x) b) y := by
  rw [EState.map_apply]
  generalize x b = result at h
  cases h with
  | ok h => exact .ok h
  | error h => exact .error h

/-- Both check a line alike.

**Proof sketch.** The index is a line of the buffer exactly if it is the place of one of the lines
with identities. -/
theorem onLine (h : Simulates places b n) {index : Nat}
    (hx : index < b.size → EndsAlike places n reply x y) :
    EndsAlike places n reply (if b.size ≤ index then .error .invalidAddress b else x)
      (n.onLine index y) := by
  have hsize := h.size
  unfold TaggedBuffer.onLine
  by_cases hlt : index < b.size
  · rw [if_neg (by omega), if_pos (by omega)]
    exact hx hlt
  · rw [if_pos (by omega), if_neg (by omega)]
    exact .error h

/-- Both check a line to put something behind alike. -/
theorem onPlace (h : Simulates places b n) {after : Option Nat}
    (hx : (∀ index ∈ after, index < b.size) → EndsAlike places n reply x y) :
    EndsAlike places n reply (if after.any (b.size ≤ ·) then .error .invalidAddress b else x)
      (n.onPlace after y) := by
  cases after with
  | none => exact hx fun _ hmem => nomatch hmem
  | some index =>
    simp only [Option.any_some, decide_eq_true_eq]
    exact onLine h fun hlt => hx fun _ hmem => Option.some.inj hmem ▸ hlt

/-- Both check a range alike.

**Proof sketch.** A range with its ends in order is checked by its last line alone; one without is
refused by both. -/
theorem onRange (h : Simulates places b n) {r : LineRange}
    (hx : r.first ≤ r.last → r.last < b.size → EndsAlike places n reply x y) :
    EndsAlike places n reply
      (if r.last < r.first ∨ b.size ≤ r.last then .error .invalidAddress b else x)
      (n.onRange r y) := by
  unfold TaggedBuffer.onRange
  by_cases hr : r.first ≤ r.last
  · simp only [Nat.not_lt.2 hr, false_or, if_pos hr]
    exact onLine h (hx hr)
  · rw [if_pos (Or.inl (Nat.lt_of_not_le hr)), if_neg hr]
    exact .error h

end EndsAlike

namespace Simulates

variable {places : Set (Fin letterCount)} {b : LineBuffer} {n : TaggedBuffer}

/-- Only lines, marks, snapshot and pending indices have to agree. -/
theorem congr {b' : LineBuffer} (h : Simulates places b n) (hlines : b'.lines = b.lines)
    (hmarks : b'.marks = b.marks) (hsaved : b'.saved = b.saved)
    (htargets : b'.targets = b.targets) : Simulates places b' n where
  live := by
    rw [hlines, hmarks]
    exact h.live
  saved := hsaved ▸ h.saved
  targets := htargets ▸ h.targets
  targets_lt := h.targets_lt

/-- Appending ends alike: the block is put behind the line, in fresh lines, and nothing if there is
no such line.

**Proof sketch.** The place is behind the line that is appended after, which is at most at the end
since that line is there. What is put there agrees by `insertLines`. -/
theorem append (h : Simulates places b n) (reply : Nat → Reply) (after : Option Nat)
    (block : Array Line) :
    EndsAlike places n reply (LineBuffer.append after block b)
      (n.onPlace after
        (.ok (reply block.size, n.insertFresh (after.elim 0 (· + 1)) block.toList))) := by
  rw [LineBuffer.append_apply]
  refine .onPlace h fun hafter => .ok ?_
  have hstart : after.elim 0 (· + 1) ≤ b.size := by
    cases after with
    | none => exact Nat.zero_le _
    | some index => exact hafter index rfl
  exact (h.insertLines hstart block).congr rfl rfl rfl rfl

/-- Inserting ends alike.

**Proof sketch.** Inserting before the line `index` is appending after the one before it, or before
all lines, so that `append` applies; only the check of the index itself comes first, which both fail
alike. -/
theorem insert (h : Simulates places b n) (index : Nat) (block : Array Line) :
    EndsAlike places n .count (LineBuffer.insert index block b)
      (Operation.tagged n (.insert index block)) := by
  have hsize := h.size
  have hstart : (lastIndex? index).elim 0 (· + 1) = index := by
    unfold lastIndex?
    split
    · rename_i hzero
      exact hzero.symm
    · simp only [Option.elim_some]
      omega
  have happend := h.append .count (lastIndex? index) block
  rw [hstart] at happend
  rw [LineBuffer.insert_apply, Operation.tagged]
  split
  · rename_i hlt
    have hlast : lastIndex? index = some (index - 1) := if_neg (by omega)
    rw [hlast, TaggedBuffer.onPlace, Option.elim_some, TaggedBuffer.onLine, if_neg (by omega)]
    exact .error h
  · exact happend

/-- Changing ends alike.

**Proof sketch.** The range is deleted, which leaves room enough for the new lines to be put where
it began. -/
theorem change (h : Simulates places b n) (r : LineRange) (block : Array Line) :
    EndsAlike places n .count (LineBuffer.change r block b)
      (Operation.tagged n (.change r block)) := by
  rw [LineBuffer.change_apply]
  refine .onRange h fun hr hlast => .ok ?_
  have hdelete := h.deleteLines hr hlast
  have hstart : r.first ≤ (b.deleteLines r).size := by
    have hsize := h.size
    have hlen : (r.outside n.lines).length + r.size = n.lines.length :=
      length_outside hr (by omega)
    have hrange : r.size = r.last - r.first + 1 := rfl
    have hremove : (n.remove r).lines = r.outside n.lines := rfl
    rw [hdelete.size, hremove]
    omega
  exact (hdelete.insertLines hstart block).congr rfl rfl rfl rfl

/-- Moving ends alike.

**Proof sketch.** Both check the range and the destination, and refuse a destination inside the
range. Otherwise the lines keep their identities by `Simulates.move`. -/
theorem moveRange (h : Simulates places b n) (r : LineRange) (dest : Option Nat) :
    EndsAlike places n (fun _ => .done) (LineBuffer.move r dest b)
      (Operation.tagged n (.move r dest)) := by
  rw [LineBuffer.move_apply]
  refine .onRange h fun hr hlast => .onPlace h fun hdest => ?_
  split
  · exact .error h
  · rename_i hcontains
    refine .ok ((h.move hr hlast fun d hd => ⟨hdest d hd, fun hin => hcontains ?_⟩).congr
      rfl rfl rfl rfl)
    rw [Option.mem_def.1 hd]
    exact hin

/-- Copying ends alike.

**Proof sketch.** The lines of the range have the same texts on both sides, and these texts are
appended. -/
theorem copy (h : Simulates places b n) (r : LineRange) (dest : Option Nat) :
    EndsAlike places n (fun _ => .done) (LineBuffer.copy r dest b)
      (Operation.tagged n (.copy r dest)) := by
  rw [LineBuffer.copy_apply]
  refine .onRange h fun hr hlast => ?_
  have htexts : (r.slice b.lines).toList = (r.inside n.lines).map (·.text) := by
    rw [toList_slice hr, h.live.texts, map_inside]
  have happend := h.append (fun _ => .done) dest (r.slice b.lines)
  rw [htexts] at happend
  generalize LineBuffer.append dest (r.slice b.lines) b = x at happend
  generalize n.onPlace dest _ = y at happend
  cases happend with
  | ok h => exact .ok h
  | error h => exact .error h

/-- Joining a single line changes nothing.

**Proof sketch.** Nothing is deleted, and the text of the line is put together from itself alone. -/
theorem join_of_eq {r : LineRange} (hr : r.first = r.last) (hlast : r.last < n.lines.length) :
    n.join r = n := by
  have hremove : n.remove ⟨r.first + 1, r.last⟩ = n := by
    rw [TaggedBuffer.remove, LineRange.outside, hr, List.take_append_drop]
  have hinside : r.inside n.lines = [n.lines[r.last]] := by
    rw [LineRange.inside, LineRange.size, hr, Nat.sub_self, List.drop_eq_getElem_cons hlast]
    rfl
  rw [TaggedBuffer.join, hremove, hinside, TaggedBuffer.retext, hr]
  have hmodify : n.lines.modify r.last (fun line => { line with text := n.lines[r.last].text }) =
      n.lines := by
    apply List.ext_getElem?
    intro i
    rw [List.getElem?_modify]
    by_cases heq : r.last = i
    · subst heq
      simp [List.getElem?_eq_getElem hlast]
    · simp [heq]
  simp only [List.map_cons, List.map_nil, List.flatten_cons, List.flatten_nil, List.append_nil,
    hmodify]

/-- Joining ends alike.

**Proof sketch.** From two lines on, the first line gets the text of all, and the others are
deleted. A single line is left as it is by both. -/
theorem joinRange (h : Simulates places b n) (r : LineRange) :
    EndsAlike places n (fun _ => .done) (LineBuffer.join r b)
      (Operation.tagged n (.join r)) := by
  rw [LineBuffer.join_apply]
  refine .onRange h fun hr hlast => ?_
  split
  · rename_i hlt
    exact .ok ((h.join hlt hlast _ rfl).congr rfl rfl rfl rfl)
  · rename_i hlt
    rw [join_of_eq (by omega) (by rw [← h.size]; exact hlast)]
    exact .ok (h.congr rfl rfl rfl rfl)

/-- Replacing a line ends alike.

**Proof sketch.** The line gets the text, which changes nothing if it was its text before. Both fail
where there is no such line. -/
theorem replaceLine (h : Simulates places b n) (index : Nat) (text : Line) :
    EndsAlike places n (fun _ => .done) (LineBuffer.replaceLine index text b)
      (Operation.tagged n (.replaceLine index text)) := by
  have hretext := h.retext index text
  rw [LineBuffer.replaceLine_apply, LineBuffer.line?, Operation.tagged, TaggedBuffer.onLine,
    ← h.size, LineBuffer.size]
  by_cases hlt : index < b.lines.size
  · rw [Array.getElem?_eq_getElem hlt, if_pos hlt]
    dsimp only
    split
    · exact .ok (hretext.congr rfl rfl rfl rfl)
    · rename_i heq
      have htext : b.lines[index] = text := Decidable.not_not.1 heq
      have hset : b.lines.setIfInBounds index text = b.lines := by
        rw [Array.setIfInBounds, dif_pos hlt, ← htext, Array.set_getElem_self]
      rw [hset] at hretext
      exact .ok hretext
  · rw [Array.getElem?_eq_none (Nat.le_of_not_lt hlt), if_neg hlt]
    exact .error h

/-- Substituting ends alike.

**Proof sketch.** Both look at the same texts, so that both fail when no text changes; otherwise
each line that changes gets its new text. -/
theorem substitute (h : Simulates places b n) (r : LineRange) (s : Substitution) :
    EndsAlike places n (fun _ => .done) (LineBuffer.substitute r s b)
      (Operation.tagged n (.substitute r s)) := by
  rw [LineBuffer.substitute_apply]
  refine .onRange h fun hr hlast => ?_
  have htexts : (r.slice b.lines).toList = (r.inside n.lines).map (·.text) := by
    rw [toList_slice hr, h.live.texts, map_inside]
  have hall : ((r.slice b.lines).toList.map s.apply?).all (·.isNone) =
      (r.inside n.lines).all fun line => s.apply? line.text |>.isNone := by
    rw [htexts, List.map_map, List.all_map]
    rfl
  dsimp only
  rw [hall]
  split
  · exact .error h
  · exact .ok ((h.retextRange hr hlast s.apply?).congr rfl rfl rfl rfl)

/-- Setting the current line ends alike. -/
theorem setCurrent (h : Simulates places b n) (index : Nat) :
    EndsAlike places n (fun _ => .done) (LineBuffer.setCurrent index b)
      (Operation.tagged n (.setCurrent index)) := by
  rw [LineBuffer.setCurrent_apply]
  exact .onLine h fun _ => .ok (h.congr rfl rfl rfl rfl)

/-- Setting a mark ends alike.

**Proof sketch.** Both check the line first, then whether the letter names a mark. -/
theorem setLetter (h : Simulates places b n) (letter : UInt8) (index : Nat) :
    EndsAlike places n (fun _ => .done) (LineBuffer.setMark letter index b)
      (Operation.tagged n (.setMark letter index)) := by
  rw [LineBuffer.setMark_apply]
  refine .onLine h fun hlt => ?_
  rw [Marks.set?]
  cases Marks.place? letter with
  | none => exact .error h
  | some place => exact .ok (h.setMark place hlt)

/-- Undoing ends alike.

**Proof sketch.** What is saved agrees, so that it is missing on both sides or brought back on
both. -/
theorem undo (h : Simulates places b n) :
    EndsAlike places n (fun _ => .done) (LineBuffer.undo b) (Operation.tagged n .undo) := by
  have hsaved := h.saved
  rw [LineBuffer.undo_apply, Operation.tagged]
  generalize b.saved = s at hsaved
  generalize n.saved = t at hsaved
  cases hsaved with
  | none => exact .error h
  | some hsnapshot => exact .ok (h.exchange hsnapshot)

/-- **An operation has the same effect** on a buffer and on lines with identities.

**Proof sketch.** One case for each operation. The checks are the same (`EndsAlike.onLine`,
`onPlace`, `onRange`); behind them stands an edit that was followed before. -/
theorem operation (h : Simulates places b n) (op : Operation) :
    EndsAlike places n id (op.perform b) (op.tagged n) := by
  cases op with
  | append after block => exact (h.append .count after block).map
  | insert index block => exact (h.insert index block).map
  | delete range =>
    have hdelete : EndsAlike places n (fun _ => .done) (LineBuffer.delete range b)
        (Operation.tagged n (.delete range)) := by
      rw [LineBuffer.delete_apply]
      exact .onRange h fun hr hlast => .ok (h.deleteLines hr hlast)
    exact hdelete.map
  | change range block => exact (h.change range block).map
  | move range dest => exact (h.moveRange range dest).map
  | copy range dest => exact (h.copy range dest).map
  | join range => exact (h.joinRange range).map
  | replaceLine index text => exact (h.replaceLine index text).map
  | substitute range s => exact (h.substitute range s).map
  | setCurrent index => exact (h.setCurrent index).map
  | setMark letter index => exact (h.setLetter letter index).map
  | undo => exact h.undo.map
  | replaceAll lines => exact .ok (h.replaceAll lines)

end Simulates

/-! ## What operations keep -/

namespace TaggedBuffer

variable {n : TaggedBuffer} {y : Except EditError (Reply × TaggedBuffer)} {z : Reply × TaggedBuffer}

/-- What is done on a line is done after the check. -/
theorem of_onLine {index : Nat} (h : n.onLine index y = .ok z) : y = .ok z := by
  unfold onLine at h
  split at h
  · exact h
  · cases h

/-- What is done behind a line is done after the check. -/
theorem of_onPlace {after : Option Nat} (h : n.onPlace after y = .ok z) : y = .ok z := by
  cases after with
  | none => exact h
  | some index => exact of_onLine h

/-- What is done on a range is done after the check. -/
theorem of_onRange {r : LineRange} (h : n.onRange r y = .ok z) : y = .ok z := by
  unfold onRange at h
  split at h
  · exact of_onLine h
  · cases h

end TaggedBuffer

/-- Lines after an operation: their identities are old or new, and the pending lines are the same
unless the operation makes them be forgotten. -/
structure Operation.Keeps (op : Operation) (n n' : TaggedBuffer) : Prop where
  /-- Identities that were given are not given again. -/
  fresh : n.fresh ≤ n'.fresh
  /-- The pending lines stay or are forgotten. -/
  targets : n'.targets = if op.resets then [] else n.targets
  /-- A line was there before or is new. -/
  old_or_new : op.resets = false → ∀ identity ∈ identities n'.lines,
    identity ∈ identities n.lines ∨ n.fresh ≤ identity

section Membership

variable {lines : List TaggedLine} {identity k : Nat}

/-- An identity after an insertion is an old one or a fresh one.

**Proof sketch.** The new lines are put among the old ones, so that each identity is one of an old
line or of a new one, and those of new lines count from the fresh identity on. -/
theorem mem_putAt_tagFrom {fresh : Nat} {texts : List Line}
    (h : identity ∈ identities (putAt k (tagFrom fresh texts) lines)) :
    identity ∈ identities lines ∨ fresh ≤ identity := by
  have hperm := (putAt_perm k (tagFrom fresh texts) lines).map (·.identity)
  have hmem := hperm.mem_iff.1 h
  rw [List.map_append, List.mem_append] at hmem
  rcases hmem with hmem | hmem
  · refine .inr ?_
    change identity ∈ identities (tagFrom fresh texts) at hmem
    rw [identities_tagFrom, List.mem_range'_1] at hmem
    exact hmem.1
  · exact .inl hmem

/-- A line of a range is one of the lines. -/
theorem mem_inside {α : Type} {r : LineRange} {x : α} {xs : List α} (h : x ∈ r.inside xs) :
    x ∈ xs := List.mem_of_mem_drop (List.mem_of_mem_take h)

/-- So is one outside of it. -/
theorem mem_outside {α : Type} {r : LineRange} {x : α} {xs : List α} (h : x ∈ r.outside xs) :
    x ∈ xs := by
  rcases List.mem_append.1 h with h | h
  · exact List.mem_of_mem_take h
  · exact List.mem_of_mem_drop h

/-- Lines that are put behind another one add no others.

**Proof sketch.** By induction on the lines, up to the one behind which the block goes. -/
theorem mem_putBehind {block : List TaggedLine} {line : TaggedLine}
    (h : line ∈ TaggedBuffer.putBehind identity block lines) : line ∈ block ∨ line ∈ lines := by
  induction lines with
  | nil => exact .inl h
  | cons first lines ih =>
    rw [TaggedBuffer.putBehind] at h
    split at h
    · simp only [List.mem_cons, List.mem_append] at h ⊢
      tauto
    · rcases List.mem_cons.1 h with rfl | h
      · exact .inr List.mem_cons_self
      · exact (ih h).imp_right (List.mem_cons_of_mem _)

/-- Moving adds no lines. -/
theorem mem_move {r : LineRange} {dest : Option Nat} {n : TaggedBuffer} {line : TaggedLine}
    (h : line ∈ (n.move r dest).lines) : line ∈ n.lines := by
  rw [TaggedBuffer.move] at h
  split at h
  · exact (List.mem_append.1 h).elim mem_inside mem_outside
  · exact (mem_putBehind h).elim mem_inside mem_outside

/-- Giving the lines of a range other texts adds no identities.

**Proof sketch.** A line keeps its identity whether it is before, in or after the range. -/
theorem mem_retextRange {r : LineRange} {f : Line → Line} {n : TaggedBuffer} {line : TaggedLine}
    (h : line ∈ (n.retextRange r f).lines) : line.identity ∈ identities n.lines := by
  simp only [TaggedBuffer.retextRange, List.mem_append, List.mem_map] at h
  rcases h with (h | ⟨old, hold, rfl⟩) | h
  · exact List.mem_map_of_mem (List.mem_of_mem_take h)
  · exact List.mem_map_of_mem (f := (·.identity)) (mem_inside hold)
  · exact List.mem_map_of_mem (List.mem_of_mem_drop h)

end Membership

namespace Operation.Keeps

variable {op : Operation} {n : TaggedBuffer}

/-- Inserting fresh lines keeps what keeping asks for. -/
theorem insertFresh (hresets : op.resets = false) (start : Nat) (block : List Line) :
    op.Keeps n (n.insertFresh start block) :=
  ⟨Nat.le_add_right .., by rw [hresets]; rfl, fun _ _ => mem_putAt_tagFrom⟩

/-- Lines of which none is new. -/
theorem of_identities (hresets : op.resets = false) {n' : TaggedBuffer}
    (hfresh : n'.fresh = n.fresh) (htargets : n'.targets = n.targets)
    (hlines : ∀ identity ∈ identities n'.lines, identity ∈ identities n.lines) : op.Keeps n n' :=
  ⟨Nat.le_of_eq hfresh.symm, by rw [hresets]; exact htargets,
    fun _ identity hmem => .inl (hlines identity hmem)⟩

end Operation.Keeps

open TaggedBuffer in
/-- **An operation makes no line come back** and sets no line to be visited.

**Proof sketch.** By the operation, after its checks. Where fresh lines are put in, the identities
that were there are old ones; where lines only move, change their text or go, no identity is added
at all; and where everything is replaced, nothing of this is said. -/
theorem Operation.keeps {op : Operation} {n n' : TaggedBuffer} {reply : Reply}
    (h : op.tagged n = .ok (reply, n')) : op.Keeps n n' := by
  cases op with
  | append after block =>
    cases of_onPlace h
    exact .insertFresh rfl _ _
  | insert index block =>
    cases of_onPlace h
    exact .insertFresh rfl _ _
  | delete range =>
    cases of_onRange h
    exact .of_identities rfl rfl rfl (List.map_subset _ fun _ => mem_outside)
  | change range block =>
    cases of_onRange h
    refine ⟨Nat.le_add_right .., rfl, fun _ identity hmem => ?_⟩
    exact (mem_putAt_tagFrom hmem).imp_left fun hmem =>
      List.map_subset _ (fun _ => mem_outside) hmem
  | move range dest =>
    have h := of_onPlace (of_onRange h)
    split at h
    · cases h
    · cases h
      exact .of_identities rfl rfl rfl (List.map_subset _ fun _ => mem_move)
  | copy range dest =>
    cases of_onPlace (of_onRange h)
    exact .insertFresh rfl _ _
  | join range =>
    cases of_onRange h
    refine .of_identities rfl rfl rfl fun identity hmem => ?_
    rw [TaggedBuffer.join, identities_retext] at hmem
    exact List.map_subset _ (fun _ => mem_outside) hmem
  | replaceLine index text =>
    cases of_onLine h
    refine .of_identities rfl rfl rfl fun identity hmem => ?_
    rwa [identities_retext] at hmem
  | substitute range s =>
    have h := of_onRange h
    split at h
    · cases h
    · cases h
      refine .of_identities rfl rfl rfl fun identity hmem => ?_
      obtain ⟨line, hline, rfl⟩ := List.mem_map.1 hmem
      exact mem_retextRange hline
  | setCurrent index =>
    cases of_onLine h
    exact .of_identities rfl rfl rfl fun _ => id
  | setMark letter index =>
    have h := of_onLine h
    split at h
    · cases h
    · cases h
      exact .of_identities rfl rfl rfl fun _ => id
  | undo =>
    rw [tagged] at h
    split at h
    · cases h
    · cases h
      exact ⟨Nat.le_refl _, rfl, nofun⟩
  | replaceAll lines =>
    cases h
    exact ⟨Nat.le_add_right .., rfl, nofun⟩

end LineEditor
