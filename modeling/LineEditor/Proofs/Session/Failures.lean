import LineEditor.Proofs.Session.Refusals

set_option autoImplicit false
set_option relaxedAutoImplicit false

/-!
# Calls that fail

A call on the buffer that fails leaves the whole buffer as it was: lines, current line, marks, the
name of the file, snapshot and pending lines, and whether the lines count as written. Only a call
that writes to a file with a name of its own is different, since it takes over the name before it
checks the range and opens the file. Then the name is all that has changed.

## Main definitions

* `LineEditor.BufferCall`: operations that edit the buffer, printing, and calls that read or write
  files.
* `LineEditor.BufferCall.leftover`: the buffer that a call leaves when it fails.

## Main results

* `LineEditor.BufferCall.buffer_of_error`: what a call leaves when it fails.
* `LineEditor.BufferCall.exists_error_changing_filename`: this is not always what was there before.
-/

namespace LineEditor

/-- No operation that fails has changed anything.

**Proof sketch.** Each operation makes all of its checks before its first change, so that it settles
with a result or with the buffer that it found. -/
theorem Operation.eq_of_error {op : Operation} {b b' : LineBuffer} {e : EditError}
    (h : op.perform b = .error e b') : b' = b := by
  have hmap {α : Type} {f : α → Reply} {x : BufferAction α} (hx : b.Settles (x b))
      (h : (f <$> x) b = .error e b') : b' = b := by
    rw [EState.map_apply] at h
    generalize x b = result at hx h
    cases hx with
    | ok _ => cases h
    | error =>
      cases h
      rfl
  cases op with
  | append after block => exact hmap (b.settles_append after block) h
  | insert index block => exact hmap (b.settles_insert index block) h
  | delete range => exact hmap (b.settles_delete range) h
  | change range block => exact hmap (b.settles_change range block) h
  | move range dest => exact hmap (b.settles_move range dest) h
  | copy range dest => exact hmap (b.settles_copy range dest) h
  | join range => exact hmap (b.settles_join range) h
  | replaceLine index text => exact hmap (b.settles_replaceLine index text) h
  | substitute range s => exact hmap (b.settles_substitute range s) h
  | setCurrent index => exact hmap (b.settles_setCurrent index) h
  | setMark letter index => exact hmap (b.settles_setMark letter index) h
  | undo => exact hmap b.settles_undo h
  | replaceAll lines => cases h

/-- A buffer after a call that writes to a file, by the name that was given to it. -/
def LineBuffer.adopting (b : LineBuffer) (path : Option FileName) (adopt : Bool) : LineBuffer :=
  path.elim b (b.renamed · adopt)

/-- A name that was not given is the one that is remembered already. -/
theorem LineBuffer.renamed_of_or {b : LineBuffer} {path : Option FileName} {name : FileName}
    {adopt : Bool} (h : path.or b.filename = some name) :
    b.renamed name adopt = b.adopting path adopt := by
  cases path with
  | some given =>
    cases h
    rfl
  | none =>
    rw [Option.none_or] at h
    show { b with filename := if adopt ∨ b.filename.isNone then some name else b.filename } = b
    rw [h, ite_self, ← h]

namespace Action

variable {α β : Type} {s t : Session} {e : EditError}

/-- An action that fails has failed in its first part, or in its second part.

**Proof sketch.** Either the first part fails, or it succeeds and the second part fails behind
it. -/
theorem Within.of_bind_error {R : Session → Session → Prop} [IsPreorder Session R] {x : Action α}
    {f : α → Action β} (hx : Within R x)
    (hf : ∀ {a s e t}, f a s = .error e t → R s t) (h : (x >>= f) s = .error e t) : R s t := by
  have hfirst := hx s
  rw [EState.bind_apply] at h
  cases hxs : x s with
  | ok a u =>
    rw [EState.after_of_ok hxs] at hfirst
    rw [hxs] at h
    exact trans_of R hfirst (hf h)
  | error e u =>
    rw [EState.after_of_error hxs] at hfirst
    rw [hxs] at h
    cases h
    exact hfirst

/-- Checking a range changes neither the buffer nor the disk. -/
theorem sameStore_checkRange (range : LineRange) :
    Within SameStore (onBuffer (LineBuffer.checkRange range)) := by
  intro s
  have hcheck : EState.after (LineBuffer.checkRange range) s.buffer = s.buffer := by
    rw [EState.after, LineBuffer.checkRange_apply]
    split <;> rfl
  rw [after_onBuffer, hcheck]
  exact ⟨rfl, rfl⟩

/-- An operation of the buffer that fails has changed neither the buffer nor the disk. -/
theorem sameStore_of_onBuffer_error {x : BufferAction α}
    (hx : ∀ {b b' e}, x b = .error e b' → b' = b) (h : onBuffer x s = .error e t) :
    SameStore s t := by
  rw [onBuffer_apply] at h
  cases hxs : x s.buffer with
  | ok a b =>
    rw [hxs] at h
    cases h
  | error e b =>
    obtain rfl := hx hxs
    rw [hxs] at h
    cases h
    exact ⟨rfl, rfl⟩

/-- Going to a line that is not there changes nothing. -/
theorem eq_of_setCurrent_error {index : Nat} {b b' : LineBuffer}
    (h : LineBuffer.setCurrent index b = .error e b') : b' = b := by
  rw [LineBuffer.setCurrent_apply] at h
  split at h
  · cases h
    rfl
  · cases h

/-- Printing that fails leaves the buffer as it was, also if a part has been printed. -/
theorem sameStore_of_print_error {range : LineRange} {mode : PrintMode}
    (h : print range mode s = .error e t) : SameStore s t := by
  refine (sameStore_checkRange range).of_bind_error (fun h => ?_) h
  refine Within.get.of_bind_error (fun h => ?_) h
  refine (Reports.emitAll _).same.of_bind_error (fun h => ?_) h
  exact sameStore_of_onBuffer_error eq_of_setCurrent_error h

/-- A file that cannot be read leaves the buffer as it was. -/
theorem buffer_of_load_error {name : FileName} (h : load name s = .error e t) :
    t.buffer = s.buffer := by
  unfold load at h
  simp only [EState.bind_apply, EState.get_apply] at h
  cases hread : s.disk.readLines name with
  | error e' =>
    rw [hread] at h
    cases h
    rfl
  | ok file =>
    rw [hread] at h
    cases h

/-- A whole buffer that cannot be written has taken over the name that was given.

**Proof sketch.** A write fails for want of a name, and then none was given. Or it fails at the
disk, and then the name has been taken over. -/
theorem buffer_of_write_error {path : Option FileName} (h : write path s = .error e t) :
    t.buffer = s.buffer.adopting path true := by
  rw [write_apply] at h
  cases hname : path.or s.buffer.filename with
  | none =>
    rw [hname] at h
    cases h
    rw [(Option.or_eq_none_iff.mp hname).1]
    rfl
  | some name =>
    rw [hname] at h
    dsimp only at h
    split at h
    · cases h
      exact LineBuffer.renamed_of_or hname
    · cases h

/-- A range that cannot be written has taken over the name that was given, also if it is no range
of the buffer.

**Proof sketch.** As for the whole buffer, but the range is checked as well, and this is done when
the name has been taken over. -/
theorem buffer_of_writeRange_error {range : Option LineRange} {path : Option FileName}
    {append : Bool} (h : writeRange range path append s = .error e t) :
    t.buffer = s.buffer.adopting path !append := by
  rw [writeRange_apply] at h
  cases hname : path.or s.buffer.filename with
  | none =>
    rw [hname] at h
    cases h
    rw [(Option.or_eq_none_iff.mp hname).1]
    rfl
  | some name =>
    rw [hname] at h
    dsimp only at h
    split at h
    · cases h
      exact LineBuffer.renamed_of_or hname
    · split at h
      · cases h
        exact LineBuffer.renamed_of_or hname
      · cases h

end Action

/-- A call on the buffer that may fail. -/
inductive BufferCall where
  /-- Edits the buffer. A substitution is made on a range that is checked before. -/
  | operate (op : Operation)
  /-- Prints a range. -/
  | print (range : LineRange) (mode : PrintMode)
  /-- Edits a file. -/
  | load (name : FileName)
  /-- Writes the whole buffer to a file. -/
  | write (name : Option FileName)
  /-- Writes a range to a file, or appends it. -/
  | writeRange (range : Option LineRange) (name : Option FileName) (append : Bool)
  /-- Appends a range to a file. -/
  | writeAppend (range : Option LineRange) (name : Option FileName)
  deriving Repr, DecidableEq

namespace BufferCall

open LineEditor.Action

/-- Makes a call. -/
def perform : BufferCall → Action Unit
  | operate op => (fun _ => ()) <$> Action.onBuffer op.perform
  | print range mode => Action.print range mode
  | load name => (fun _ => ()) <$> Action.load name
  | write name => (fun _ => ()) <$> Action.write name
  | writeRange range name append => (fun _ => ()) <$> Action.writeRange range name append
  | writeAppend range name => (fun _ => ()) <$> Action.writeAppend range name

/-- The buffer that a call leaves when it fails. A name that is given to write to is remembered all
the same, and in the place of another one unless lines are appended. -/
def leftover (b : LineBuffer) : BufferCall → LineBuffer
  | write name => b.adopting name true
  | writeRange _ name append => b.adopting name !append
  | writeAppend _ name => b.adopting name false
  | operate _ | print .. | load _ => b

variable {call : BufferCall} {s t : Session} {e : EditError}

/-- **A call that fails changes nothing** of the buffer, except that a name that was given to write
to is remembered.

**Proof sketch.** One case for each kind of call. Operations and printing check first and leave the
buffer alone when they fail; a file that cannot be read is not loaded; and what is written to a file
takes over the name first. -/
theorem buffer_of_error (h : call.perform s = .error e t) : t.buffer = call.leftover s.buffer := by
  have hmap {α : Type} {x : Action α} (h : ((fun _ => ()) <$> x) s = .error e t) :
      x s = .error e t := by
    rw [EState.map_apply] at h
    cases hx : x s with
    | ok a u =>
      rw [hx] at h
      cases h
    | error e u =>
      rw [hx] at h
      cases h
      rfl
  cases call with
  | operate op => exact (sameStore_of_onBuffer_error Operation.eq_of_error (hmap h)).buffer
  | print range mode => exact (sameStore_of_print_error h).buffer
  | load name => exact buffer_of_load_error (hmap h)
  | write name => exact buffer_of_write_error (hmap h)
  | writeRange range name append => exact buffer_of_writeRange_error (hmap h)
  | writeAppend range name => exact buffer_of_writeRange_error (hmap h)

/-- A call that writes a single line into a directory that does not exist. -/
theorem perform_write_oneLine :
    (write (some (Line.ofString "missing/out"))).perform oneLine =
      .error (Disk.writeError (Line.ofString "missing/out") .notFound)
        (EState.after (write (some (Line.ofString "missing/out"))).perform oneLine) :=
  EState.eq_error_of_error? (by decide +kernel)

/-- The line stays as it was, but the name of the file that was not written is remembered. -/
theorem buffer_of_error_oneLine :
    let call := write (some (Line.ofString "missing/out"))
    ∃ e t, call.perform oneLine = .error e t ∧ t.buffer = call.leftover oneLine.buffer :=
  ⟨_, _, perform_write_oneLine, buffer_of_error perform_write_oneLine⟩

/-- A call that fails may change the name of the file.

**Proof sketch.** Writing to a file in a directory that does not exist fails and leaves the name. -/
theorem exists_error_changing_filename :
    ¬∀ (call : BufferCall) (s t : Session) (e : EditError),
      call.perform s = .error e t → t.buffer = s.buffer := by
  intro h
  have hsame := h _ _ _ _ perform_write_oneLine
  have hname : (EState.after (write (some (Line.ofString "missing/out"))).perform
      oneLine).buffer.filename = some (Line.ofString "missing/out") := by
    decide +kernel
  rw [hsame] at hname
  exact absurd hname (by decide)

end BufferCall

end LineEditor
