import LineEditor.Proofs.Session.Orderly

set_option autoImplicit false
set_option relaxedAutoImplicit false

/-!
# Lines that are written or loaded

A command may write all lines of the buffer to a file, or load lines from one. Only then may a
buffer with unwritten changes count as written afterwards. All other commands disclose their
changes, and a command that fails so that the user can correct it makes none.

## Main definitions

* `LineEditor.Command.recorded?`: the lines that a command writes to a file or loads from one.
* `LineEditor.Action.Stores`: actions that write to a file.
* `LineEditor.Action.printSuffix`: what a command line does after its command.

## Main results

* `LineEditor.Action.orderly_perform`: every command is orderly.
* `LineEditor.Action.orderly_update`: so is a command line without global command and print suffix.
-/

namespace LineEditor

/-! ## What is recorded -/

/-- The lines of the buffer, if a range is given that has all of them or no range at all, and if
they can be written to the file that is meant. -/
def Session.written? (s : Session) (range? : Option LineRange) (path : Option FileName) :
    Option (Array Line) :=
  if range?.all (·.size = s.buffer.size) then do
    let name ← path.or s.buffer.filename
    let _ ← (s.disk.writeLines name s.buffer.lines.toList false).toOption
    return s.buffer.lines
  else none

/-- The lines that a command writes to a file, if these are all and are not appended to it, or loads
from a file. -/
def Command.recorded? (s : Session) (addresses : Addresses) : Command → Option (Array Line)
  | write path false _ =>
    if addresses.count = 0 then s.written? none path
    else do
      let range ← s.range? addresses 1 s.buffer.size
      s.written? range path
  | edit path force => if s.buffer.dirty ∧ force = false then none else s.file? path
  | _ => none

namespace Action

variable {α : Type} {recorded? : Option (Array Line)} {s : Session}

/-! ## Writing to files -/

/-- Writing a buffer needs a name, adopts the one that is given, and marks the buffer as written
once the disk has taken the lines.

**Proof sketch.** The name is resolved first, and then the disk takes the lines of the renamed
buffer, which are its own, or fails. -/
theorem write_apply (path : Option FileName) (s : Session) :
    write path s =
      match path.or s.buffer.filename with
      | none => .error .noFilename s
      | some name =>
        let b := s.buffer.renamed name true
        match s.disk.writeLines name b.lines.toList false with
        | .error e => .error e (s.withBuffer b)
        | .ok (bytes, disk) =>
          .ok bytes ({ s with disk }.withBuffer { b with dirty := false }) := by
  unfold write
  rw [EState.bind_apply, onBuffer_apply, LineBuffer.resolveFilename_apply]
  cases path.or s.buffer.filename with
  | none => rfl
  | some name =>
    simp only [EState.bind_apply, EState.get_apply, writeLines_apply, Session.buffer_withBuffer,
      Session.disk_withBuffer]
    cases s.disk.writeLines name (s.buffer.renamed name true).lines.toList false <;> rfl

/-- Writing a part of a buffer does so after the check of its range, and the buffer counts as
written if all lines have been written and none appended.

**Proof sketch.** The part behind the name and the check is the same with a range and without, and
is stated for any lines. -/
theorem writeRange_apply (range : Option LineRange) (path : Option FileName) (append : Bool)
    (s : Session) :
    writeRange range path append s =
      match path.or s.buffer.filename with
      | none => .error .noFilename s
      | some name =>
        let b := s.buffer.renamed name !append
        if range.any fun r => r.last < r.first ∨ b.size ≤ r.last then
          .error .invalidAddress (s.withBuffer b)
        else
          let lines := range.elim #[] (·.slice b.lines)
          match s.disk.writeLines name lines.toList append with
          | .error e => .error e (s.withBuffer b)
          | .ok (bytes, disk) => .ok bytes ({ s with disk }.withBuffer
            { b with
              dirty := if lines.size = b.size ∧ append = false then false else b.dirty }) := by
  unfold writeRange
  rw [EState.bind_apply, onBuffer_apply, LineBuffer.resolveFilename_apply]
  cases path.or s.buffer.filename with
  | none => rfl
  | some name =>
    dsimp only
    generalize s.buffer.renamed name (!append) = b
    have hrest (lines : Array Line) : (do
        let bytes ← writeLines name lines append
        if lines.size = b.size ∧ append = false then
          changeBuffer fun b => { b with dirty := false }
        return bytes : Action Nat) (s.withBuffer b) =
        match s.disk.writeLines name lines.toList append with
          | .error e => .error e (s.withBuffer b)
          | .ok (bytes, disk) => .ok bytes ({ s with disk }.withBuffer
            { b with
              dirty := if lines.size = b.size ∧ append = false then false else b.dirty }) := by
      simp only [EState.bind_apply, writeLines_apply, Session.disk_withBuffer]
      cases s.disk.writeLines name lines.toList append with
      | error e => rfl
      | ok written =>
        dsimp only
        split <;> rfl
    cases range with
    | none => exact hrest #[]
    | some r =>
      simp only [EState.bind_apply, onBuffer_apply, LineBuffer.checkRange_apply,
        Session.buffer_withBuffer, Option.any_some, decide_eq_true_eq]
      by_cases hr : r.last < r.first ∨ b.size ≤ r.last
      · simp only [hr, if_true]
        rfl
      · simp only [hr, if_false]
        exact hrest (r.slice b.lines)

/-- An action writes to a file. If `recorded?` are all lines of the buffer it counts as written
then; otherwise nothing but the name of the file may be another one. -/
structure Stores (recorded? : Option (Array Line)) (x : Action Nat) (s : Session) : Prop where
  /-- If nothing can be written, nothing is recorded. -/
  error : ∀ {e t}, x s = .error e t → recorded? = none ∧ s.buffer.SameButName t.buffer
  /-- What is written is recorded if these are all lines. -/
  ok : ∀ {bytes t}, x s = .ok bytes t →
    (∀ lines ∈ recorded?, lines = s.buffer.lines ∧ s.disk.Records t.disk lines) ∧
    t.buffer = { s.buffer with
      filename := t.buffer.filename, dirty := s.buffer.dirty && recorded?.isNone }

namespace Stores

variable {x : Action Nat} {t : Session}

/-- An action that fails stores nothing, if only the name of the buffer may be another one then. -/
theorem of_error {e : EditError} (h : x s = .error e t) (hrecorded : recorded? = none)
    (ht : s.buffer.SameButName t.buffer) : Stores recorded? x s where
  error hx := by
    rw [h] at hx
    cases hx
    exact ⟨hrecorded, ht⟩
  ok hx := by
    rw [h] at hx
    cases hx

/-- One that succeeds stores what the disk records. -/
theorem of_ok {bytes : Nat} (h : x s = .ok bytes t)
    (hrecorded : ∀ lines ∈ recorded?, lines = s.buffer.lines ∧ s.disk.Records t.disk lines)
    (ht : t.buffer = { s.buffer with
      filename := t.buffer.filename, dirty := s.buffer.dirty && recorded?.isNone }) :
    Stores recorded? x s where
  error hx := by
    rw [h] at hx
    cases hx
  ok hx := by
    rw [h] at hx
    cases hx
    exact ⟨hrecorded, ht⟩

end Stores

/-- Writing all lines stores them.

**Proof sketch.** By `write_apply`: without a name, and where the disk fails, nothing is stored;
otherwise all lines are, under the name that was meant. -/
theorem stores_write (path : Option FileName) : Stores (s.written? none path) (write path) s := by
  have happly := write_apply path s
  unfold Session.written?
  cases hname : path.or s.buffer.filename with
  | none =>
    rw [hname] at happly
    exact .of_error happly rfl (.refl _)
  | some name =>
    rw [hname] at happly
    have hlines : (s.buffer.renamed name true).lines = s.buffer.lines := rfl
    cases hwrite : s.disk.writeLines name s.buffer.lines.toList false with
    | error e =>
      simp only [hlines, hwrite] at happly
      refine .of_error happly ?_ (.renamed _ name true)
      simp [hwrite, Except.toOption]
    | ok written =>
      simp only [hlines, hwrite] at happly
      refine .of_ok happly ?_ ?_
      · simpa [hwrite, Except.toOption] using ⟨name, written.1, .inl hwrite⟩
      · simp [hwrite, Except.toOption, Session.withBuffer, LineBuffer.renamed]

/-- A range of the buffer is all lines if it has as many. -/
theorem slice_eq_self {r : LineRange} {lines : Array Line} (hr : r.first ≤ r.last)
    (hlast : r.last < lines.size) (hsize : r.size = lines.size) : r.slice lines = lines := by
  have hrange : r.size = r.last - r.first + 1 := rfl
  have hfirst : r.first = 0 := by omega
  have hend : r.last + 1 = lines.size := by omega
  rw [LineRange.slice, hfirst, hend, Array.extract_size]

/-- Writing a range stores the lines if these are all.

**Proof sketch.** By `writeRange_apply`, whose check passes since the range is there. A range as
long as the buffer has all of its lines; a shorter one records nothing. -/
theorem stores_writeRange {r : LineRange} (hr : r.first ≤ r.last) (hlast : r.last < s.buffer.size)
    (path : Option FileName) :
    Stores (s.written? (some r) path) (writeRange (some r) path false) s := by
  have happly := writeRange_apply (some r) path false s
  unfold Session.written?
  cases hname : path.or s.buffer.filename with
  | none =>
    rw [hname] at happly
    refine .of_error happly ?_ (.refl _)
    simp
  | some name =>
    have hsize : (s.buffer.renamed name true).size = s.buffer.size := rfl
    have hlines : (s.buffer.renamed name true).lines = s.buffer.lines := rfl
    have hslice : (r.slice s.buffer.lines).size = r.size := by
      have hrange : r.size = r.last - r.first + 1 := rfl
      have hall : s.buffer.size = s.buffer.lines.size := rfl
      rw [LineRange.slice, Array.size_extract]
      omega
    have hinside : ¬((some r).any fun r => r.last < r.first ∨ s.buffer.size ≤ r.last) := by
      simpa using ⟨hr, hlast⟩
    rw [hname] at happly
    simp only [Bool.not_false, hsize, hlines, hinside, Option.elim_some, hslice] at happly
    by_cases hwhole : r.size = s.buffer.size
    · have hall : r.slice s.buffer.lines = s.buffer.lines := slice_eq_self hr hlast hwhole
      rw [hall] at happly
      cases hwrite : s.disk.writeLines name s.buffer.lines.toList false with
      | error e =>
        simp only [hwrite] at happly
        refine .of_error happly ?_ (.renamed _ name true)
        simp [hwrite, Except.toOption, hwhole]
      | ok written =>
        simp only [hwrite] at happly
        refine .of_ok happly ?_ ?_
        · simpa [hwrite, Except.toOption, hwhole] using ⟨name, written.1, .inl hwrite⟩
        · simp [hwrite, Except.toOption, hwhole, Session.withBuffer, LineBuffer.renamed]
    · cases hwrite : s.disk.writeLines name (r.slice s.buffer.lines).toList false with
      | error e =>
        simp only [hwrite] at happly
        refine .of_error happly ?_ (.renamed _ name true)
        simp [hwhole]
      | ok written =>
        simp only [hwrite] at happly
        refine .of_ok happly ?_ ?_
        · simp [hwhole]
        · simp [hwhole, Session.withBuffer, LineBuffer.renamed]

/-- Appending to a file stores nothing, since it does not write all lines to it alone. -/
theorem stores_writeAppend (range : Option LineRange) (path : Option FileName) :
    Stores none (writeAppend range path) s := by
  have happly := writeRange_apply range path true s
  cases hname : path.or s.buffer.filename with
  | none =>
    rw [hname] at happly
    exact .of_error happly rfl (.refl _)
  | some name =>
    simp only [hname] at happly
    split at happly
    · exact .of_error happly rfl (.renamed _ name _)
    · split at happly
      · exact .of_error happly rfl (.renamed _ name _)
      · refine .of_ok happly (by simp) ?_
        simp [Session.withBuffer, LineBuffer.renamed]

/-- What comes after writing may fail so that the user can correct it only if there are unwritten
changes.

**Proof sketch.** If the write fails, nothing more happens. If it succeeds, what follows keeps the
buffer and the disk, so that it is the state that the write has left. Where all lines have been
recorded, that buffer has no unwritten changes, and then what follows fails fatally or not at
all. -/
theorem Stores.orderly {x : Action Nat} (h : Stores recorded? x s) {f : Nat → Action Outcome}
    (hsame : ∀ bytes, Within SameStore (f bytes))
    (hfatal : ∀ {bytes t e u}, t.buffer.dirty = false → f bytes t = .error e u →
      e.isFatal = true) : Orderly recorded? (x >>= f) s := by
  cases hx : x s with
  | error e t =>
    obtain ⟨rfl, ht⟩ := h.error hx
    exact .of_error hx ht
  | ok bytes t =>
    obtain ⟨hrecorded, ht⟩ := h.ok hx
    have hrest := hsame bytes t
    have hafter := EState.after_bind_of_ok hx f
    cases recorded? with
    | none =>
      rw [Option.isNone_none, Bool.and_true] at ht
      have hname : s.buffer.SameButName t.buffer := ht
      refine .of_discloses ?_ fun herror _ => ?_
      · rw [hafter, hrest.buffer]
        exact hname.discloses
      · rw [EState.bind_apply, hx] at herror
        exact hname.trans (.of_eq (EState.after_of_error herror ▸ hrest.buffer))
    | some lines =>
      rw [Option.isNone_some, Bool.and_false] at ht
      obtain ⟨hlines, hdisk⟩ := hrecorded lines rfl
      refine ⟨nofun, ?_, ?_, fun herror he => ?_⟩
      · rintro _ ⟨⟩
        rw [hafter, hrest.buffer, ht, hlines]
      · rintro _ ⟨⟩
        rw [hafter, hrest.disk]
        exact hdisk
      · rw [EState.bind_apply, hx] at herror
        have hclean : t.buffer.dirty = false := by rw [ht]
        simp [hfatal hclean herror] at he

/-- After writing, the size is reported and the session may end.

**Proof sketch.** The report of the size fails fatally or not at all. Quitting keeps the buffer and
the disk, and refuses only a buffer with unwritten changes. -/
theorem Stores.conclude {x : Action Nat} (h : Stores recorded? x s) (quit : Bool) :
    Orderly recorded? (do
      let bytes ← x
      reportSize bytes
      if quit then quitSession false else return Outcome.continued) s := by
  refine h.orderly (fun bytes => ?_) fun {bytes t e u} hclean herror => ?_
  · refine .bind (Reports.reportSize bytes).same fun _ => ?_
    exact .ite (sameStore_quitSession false) (.pure _)
  · rw [EState.bind_apply] at herror
    cases hreport : reportSize bytes t with
    | error e' t' =>
      rw [hreport] at herror
      cases herror
      exact (Reports.reportSize bytes).fatal hreport
    | ok _ t' =>
      have hsame : SameStore t t' :=
        EState.after_of_ok hreport ▸ (Reports.reportSize bytes).same t
      rw [hreport] at herror
      dsimp only at herror
      cases quit with
      | false => cases herror
      | true =>
        rw [if_pos rfl, quitSession_apply, hsame.buffer, hclean, if_neg (by simp)] at herror
        cases herror

/-! ## Every command is orderly -/

/-- A command that writes records what it writes.

**Proof sketch.** Without addresses, all lines are written; with them, the range they give is there.
If they give none, nothing is written, and nothing is recorded. -/
theorem orderly_write (addresses : Addresses) (path : Option FileName) (append quit : Bool) :
    Orderly (Command.recorded? s addresses (.write path append quit))
      (perform refuseGlobal addresses (.write path append quit)) s := by
  refine .get ?_
  by_cases hcount : addresses.count = 0
  · simp only [hcount, if_true]
    refine .of_ok rfl ⟨rfl, rfl⟩ ?_
    cases append with
    | true => exact (stores_writeAppend _ path).conclude quit
    | false =>
      rw [Command.recorded?, if_pos hcount]
      exact (stores_write path).conclude quit
  · simp only [hcount, if_false]
    cases hrange : addresses.range s.buffer 1 s.buffer.size with
    | error e =>
      have hnone : Command.recorded? s addresses (.write path append quit) = none := by
        cases append with
        | true => rfl
        | false =>
          rw [Command.recorded?, if_neg hcount, Session.range?, hrange]
          rfl
      rw [hnone]
      exact .of_error (e := e) (t := s) rfl (.refl _)
    | ok range =>
      refine .of_ok (a := some range) (t := s) rfl ⟨rfl, rfl⟩ ?_
      cases append with
      | true => exact (stores_writeAppend _ path).conclude quit
      | false =>
        rw [Command.recorded?, if_neg hcount, Session.range?, hrange]
        refine Stores.conclude (stores_writeRange ?_ ?_ path) quit
        · exact Addresses.first_le_last_of_range hrange
        · exact Addresses.last_lt_size_of_range hrange

/-- Loading records the lines of the file.

**Proof sketch.** If the file can be read, the buffer has its lines afterwards, which are those of
the file under that name. -/
theorem orderly_load (name : FileName) :
    Orderly ((s.disk.readLines name).toOption.map fun file => file.1.toArray) (load name) s := by
  refine .get ?_
  cases hread : s.disk.readLines name with
  | error e => exact .of_error (e := e) (t := s) rfl (.refl _)
  | ok file =>
    refine .of_ok (a := file) (t := s) rfl ⟨rfl, rfl⟩ ⟨nofun, ?_, ?_, nofun⟩
    · rintro _ ⟨⟩
      rfl
    · rintro _ ⟨⟩
      exact ⟨name, file.2, .inr hread⟩

/-- A command that edits another file records what it loads.

**Proof sketch.** It refuses to lose changes, unless it is forced, and needs a name. What it loads
is recorded by `orderly_load`, and the report follows. -/
theorem orderly_edit (addresses : Addresses) (path : Option FileName) (force : Bool) :
    Orderly (Command.recorded? s addresses (.edit path force))
      (perform refuseGlobal addresses (.edit path force)) s := by
  refine .get ?_
  dsimp only [Command.recorded?]
  by_cases hdirty : s.buffer.dirty = true ∧ force = false
  · rw [if_pos hdirty, if_pos hdirty]
    exact .of_error (e := .bufferModified) (t := s) rfl (.refl _)
  · rw [if_neg hdirty, if_neg hdirty]
    unfold Session.file?
    cases hname : path.or s.buffer.filename with
    | none =>
      refine .of_error (e := .noFilename) (t := s) ?_ (.refl _)
      simp [nameOrStored, hname]
    | some name =>
      have hload := orderly_load (s := s) name
      rw [Option.map_eq_bind] at hload
      refine .of_ok (a := name) (t := s) ?_ ⟨rfl, rfl⟩ ?_
      · simp [nameOrStored, hname]
      · exact hload.then_reports fun bytes => .bind (.reportSize bytes) fun _ => .pure _

/-- Reading a file into the buffer records nothing. -/
theorem orderly_insertFile (name : FileName) (after : Option Nat) :
    Orderly none (insertFile name after) s := by
  refine .after_spares .get fun t _ => .after_spares (.ofResult _) fun file _ => ?_
  refine .after_spares (.rename _) fun _ u => ?_
  exact (Orderly.onBuffer (u.buffer.settles_append after _)).then_reports fun _ => .pure _

section

variable {addresses : Addresses} {command : Command}

/-- An operation after checks that spare the buffer, with which a command ends. -/
theorem orderly_edit_of_settles {x : BufferAction α} (h : s.buffer.Settles (x s.buffer)) :
    Orderly none (onBuffer x >>= fun _ => pure Outcome.continued) s :=
  (Orderly.onBuffer h).then_reports fun _ => .pure _

/-- What is done on a range makes no changes unless there is one. -/
theorem orderly_onRange {b : LineBuffer} {first last : Nat} {f : LineRange → Action Outcome}
    (hf : ∀ range t, Orderly none (f range) t) :
    Orderly none (ofResult (addresses.range b first last) >>= f) s :=
  .after_spares (.ofResult _) hf

/-- A block of text is read before the buffer is touched.

**Proof sketch.** By the command. The range or the place comes first, then the block is read, and
then one operation is carried out, which settles. -/
theorem orderly_input (h : command.family = .input) :
    Orderly none (perform refuseGlobal addresses command) s := by
  refine .after_spares .get fun _ _ => ?_
  cases command with
  | append =>
    exact .after_spares (.onInput _) fun _ t => orderly_edit_of_settles (t.buffer.settles_append ..)
  | insert =>
    exact .after_spares (.onInput _) fun _ t => orderly_edit_of_settles (t.buffer.settles_insert ..)
  | change =>
    refine orderly_onRange fun range _ => .after_spares (.onInput _) fun _ t => ?_
    exact orderly_edit_of_settles (t.buffer.settles_change range _)
  | _ => cases h

/-- Lines are changed by one operation after all checks.

**Proof sketch.** By the command, whose operation settles. The mark of line zero is refused before
there is an operation. -/
theorem orderly_lines (h : command.family = .lines) :
    Orderly none (perform refuseGlobal addresses command) s := by
  refine .after_spares .get fun b t => ?_
  cases command with
  | delete =>
    exact orderly_onRange fun range t => orderly_edit_of_settles (t.buffer.settles_delete range)
  | move dest =>
    exact orderly_onRange fun range t => orderly_edit_of_settles (t.buffer.settles_move range _)
  | copy dest =>
    exact orderly_onRange fun range t => orderly_edit_of_settles (t.buffer.settles_copy range _)
  | join =>
    exact orderly_onRange fun range t => orderly_edit_of_settles (t.buffer.settles_join range)
  | undo => exact orderly_edit_of_settles t.buffer.settles_undo
  | mark letter =>
    dsimp only
    cases indexOf? (addresses.target b.buffer.currentNumber) with
    | none => exact .of_spares (.bind (.throw _) fun _ => .pure _)
    | some index => exact orderly_edit_of_settles (t.buffer.settles_setMark letter index)
  | _ => cases h

/-- The substitution is remembered before it is carried out, which is no change of the buffer.

**Proof sketch.** By the command, whose operation settles. -/
theorem orderly_substitution (h : command.family = .substitution) :
    Orderly none (perform refuseGlobal addresses command) s := by
  have hrepeated (occurrence : Option Regex.Occurrence) : Spares (repeated occurrence) := by
    refine .bind .get fun t => ?_
    cases t.editor.lastSubstitution with
    | none => exact .throw _
    | some _ => exact .pure _
  refine .after_spares .get fun _ _ => ?_
  cases command with
  | substitute substitution =>
    refine orderly_onRange fun range _ => .after_spares (.changeEditor fun _ => rfl) fun _ t => ?_
    exact orderly_edit_of_settles (t.buffer.settles_substitute range substitution)
  | repeatSubstitute occurrence =>
    refine orderly_onRange fun range _ => .after_spares (hrepeated occurrence) fun s t => ?_
    exact orderly_edit_of_settles (t.buffer.settles_substitute range s)
  | _ => cases h

/-- Printing makes at most another line the current one, after all output. -/
theorem orderly_printing (h : command.family = .printing) :
    Orderly none (perform refuseGlobal addresses command) s := by
  refine .after_spares .get fun _ _ => ?_
  cases command with
  | null =>
    exact .after_spares (.ofResult _) fun range t =>
      (Orderly.print range .plain).then_reports fun _ => .pure _
  | print mode =>
    exact orderly_onRange fun range t => (Orderly.print range mode).then_reports fun _ => .pure _
  | lineNumber => exact .of_spares (.bind (Reports.emitLine _).spares fun _ => .pure _)
  | _ => cases h

/-- A command on a file records what it writes or loads.

**Proof sketch.** By the command. Reading inserts lines and reports how many bytes there were;
showing the name spares all of the buffer but its name. -/
theorem orderly_file (h : command.family = .file) :
    Orderly (command.recorded? s addresses) (perform refuseGlobal addresses command) s := by
  cases command with
  | write path append quit => exact orderly_write addresses path append quit
  | edit path force => exact orderly_edit addresses path force
  | read path =>
    refine .after_spares .get fun _ _ => .after_spares (.nameOrStored path) fun name t => ?_
    exact (orderly_insertFile name _).then_reports fun bytes =>
      .bind (.reportSize bytes) fun _ => .pure _
  | filename path =>
    have hshow : Spares showFilename :=
      .bind (Spares.nameOrStored none) fun _ => .bind (Reports.emitAll _).spares fun _ => .pure _
    refine .of_spares (.bind .get fun _ => .ite ?_ hshow)
    exact .bind (Spares.rename fun _ => path) fun _ => hshow
  | _ => cases h

/-- What a session remembers is no part of the buffer.

**Proof sketch.** By the command. None of them acts on the lines of the buffer or on its name. -/
theorem orderly_session (h : command.family = .session) :
    Orderly none (perform refuseGlobal addresses command) s := by
  have hexplain (e? : Option EditError) : Spares (explain e?) := by
    cases e? with
    | none => exact .pure _
    | some e => exact .bind (Reports.emitLine _).spares fun _ => .pure _
  refine .of_spares (.bind .get fun _ => ?_)
  cases command with
  | quit force => exact (sameStore_quitSession force).spares
  | help => exact .bind .get fun t => hexplain t.editor.lastError
  | toggleVerbose =>
    refine .bind (Spares.changeEditor fun _ => rfl) fun _ => .bind .get fun t => ?_
    exact .ite (hexplain t.editor.lastError) (.pure _)
  | togglePrompt => exact .bind (Spares.changeEditor fun _ => rfl) fun _ => .pure _
  | _ => cases h

end

/-- Only commands on files write or load lines. -/
theorem recorded?_eq_none {command : Command} (h : command.family ≠ .file) (s : Session)
    (addresses : Addresses) : command.recorded? s addresses = none := by
  cases command with
  | write | edit => exact absurd rfl h
  | _ => rfl

/-- **Every command is orderly**: it makes no changes if it fails so that the user can correct it,
and hides none unless it writes or loads all lines.

**Proof sketch.** One case for each family of commands: first checks, then one operation on the
buffer, then output. Only writing and loading are of another kind, since only they record lines. -/
theorem orderly_perform (addresses : Addresses) (command : Command) (s : Session) :
    Orderly (command.recorded? s addresses) (perform refuseGlobal addresses command) s := by
  by_cases hfile : command.family = .file
  · exact orderly_file hfile
  rw [recorded?_eq_none hfile]
  cases h : command.family with
  | input => exact orderly_input h
  | lines => exact orderly_lines h
  | substitution => exact orderly_substitution h
  | printing => exact orderly_printing h
  | file => exact absurd h hfile
  | session => exact orderly_session h
  | global =>
    obtain ⟨invert, regex, list, rfl⟩ := Command.eq_global h
    exact .of_spares (.bind .get fun _ => .bind (.ofResult _) fun _ => .throw _)

/-! ## Command lines -/

/-- The command that a line asks for, if it can be read. -/
def command? (text : Line) (s : Session) : Option Command :=
  match parse text s with
  | .ok line _ => some line.command
  | .error .. => none

/-- Reading a command line leaves the buffer alone. -/
theorem buffer_after_parse (text : Line) (s : Session) :
    (EState.after (parse text) s).buffer = s.buffer := by
  unfold EState.after parse
  rw [EState.bind_apply, EState.get_apply]
  dsimp only [onPattern]
  cases CommandLine.read s.buffer.addressContext text s.editor.lastPattern <;> rfl

/-- Reading a command line changes only the remembered pattern.

**Proof sketch.** The addresses are looked up in the buffer, and only the remembered pattern may be
another one when the command is known. -/
theorem parse_ok {text : Line} {line : CommandLine} {t : Session} (h : parse text s = .ok line t) :
    ∃ pattern, t = { s with editor := { s.editor with lastPattern := pattern } } ∧
      CommandLine.read s.buffer.addressContext text s.editor.lastPattern = .ok line pattern := by
  unfold parse at h
  rw [EState.bind_apply, EState.get_apply] at h
  dsimp only [onPattern] at h
  cases hline : CommandLine.read s.buffer.addressContext text s.editor.lastPattern with
  | ok _ pattern =>
    rw [hline] at h
    cases h
    exact ⟨pattern, rfl, rfl⟩
  | error e pattern =>
    rw [hline] at h
    cases h

/-- Commands other than global ones do not depend on what these do. -/
theorem perform_eq_refuseGlobal {command : Command} (h : command.isGlobal = false)
    (runGlobal : GlobalAction) (addresses : Addresses) :
    perform runGlobal addresses command = perform refuseGlobal addresses command := by
  cases command with
  | global => cases h
  | _ => rfl

/-- What a print suffix does after a command. -/
def printSuffix (print : Option PrintMode) (outcome : Outcome) : Action Outcome := do
  if let some mode := print then printCurrent mode
  return outcome

/-- A print suffix stays within a relation, if printing the current line does. -/
theorem Within.printSuffix {R : Session → Session → Prop} [IsPreorder Session R]
    (h : ∀ mode, Within R (Action.printCurrent mode)) (print : Option PrintMode)
    (outcome : Outcome) : Within R (Action.printSuffix print outcome) := by
  unfold Action.printSuffix
  cases print with
  | none => exact .pure _
  | some mode => exact .bind (h mode) fun _ => .pure _

/-- A print suffix acts after the command line without it. -/
theorem update_eq_bind (runGlobal : GlobalAction) (line : CommandLine) :
    update runGlobal line =
      update runGlobal { line with print := none } >>= printSuffix line.print := by
  funext s
  simp only [update, EState.bind_apply, EState.get_apply, bind_pure]
  split <;> rfl

/-- Without a print suffix a command line carries out its command, and keeps a snapshot if it can be
undone. -/
theorem update_bare_apply (runGlobal : GlobalAction) (line : CommandLine) (s : Session) :
    update runGlobal { line with print := none } s =
      (if (line.command.isMutating || line.command.isGlobal) && !s.editor.inGlobal then
        undoably line.command.isGlobal s.buffer.snapshot
          (perform runGlobal line.addresses line.command)
      else perform runGlobal line.addresses line.command) s := by
  simp only [update, EState.bind_apply, EState.get_apply, bind_pure]

/-! ### Keeping a snapshot -/

/-- What keeps a snapshot is what it keeps it for, and the snapshot put into the buffer. -/
theorem undoably_ok {partly : Bool} {snapshot : Snapshot} {x : Action Outcome} {outcome : Outcome}
    {t : Session} (h : undoably partly snapshot x s = .ok outcome t) :
    ∃ u, x s = .ok outcome u ∧ t = u.withBuffer (u.buffer.storeSnapshot snapshot) := by
  unfold undoably at h
  cases hx : x s with
  | ok _ u =>
    rw [hx] at h
    cases h
    exact ⟨u, rfl, rfl⟩
  | error e u =>
    simp only [hx] at h
    split at h <;> cases h

/-- If that fails, the snapshot is put into the buffer only if lines have changed and it is to be
kept then. -/
theorem undoably_error {partly : Bool} {snapshot : Snapshot} {x : Action Outcome} {e : EditError}
    {t : Session} (h : undoably partly snapshot x s = .error e t) :
    ∃ u, x s = .error e u ∧ t =
      if partly ∧ u.buffer.lines ≠ snapshot.lines then
        u.withBuffer (u.buffer.storeSnapshot snapshot)
      else u := by
  unfold undoably at h
  cases hx : x s with
  | ok _ u =>
    rw [hx] at h
    cases h
  | error e u =>
    simp only [hx] at h
    refine ⟨u, ?_⟩
    split at h
    · rename_i hkept
      cases h
      exact ⟨rfl, (if_pos hkept).symm⟩
    · rename_i hkept
      cases h
      exact ⟨rfl, (if_neg hkept).symm⟩

/-- Keeping a snapshot is no change of the text. -/
theorem sameText_undoably (partly : Bool) (snapshot : Snapshot) (x : Action Outcome) (s : Session) :
    SameText (EState.after x s) (EState.after (undoably partly snapshot x) s) := by
  unfold EState.after undoably
  cases x s with
  | ok outcome t => exact ⟨⟨rfl, rfl⟩, rfl⟩
  | error e t =>
    dsimp only
    split <;> exact ⟨⟨rfl, rfl⟩, rfl⟩

/-- Keeping a snapshot does no harm to an orderly action. -/
theorem Orderly.undoably {x : Action Outcome} (h : Orderly recorded? x s) (snapshot : Snapshot) :
    Orderly recorded? (undoably false snapshot x) s := by
  refine h.of_sameText (sameText_undoably false snapshot x s) fun herror he => ?_
  obtain ⟨u, hu, rfl⟩ := undoably_error herror
  exact h.userError hu he

/-- A command line without a global command and without a print suffix is orderly.

**Proof sketch.** Its command is orderly by `orderly_perform`. The snapshot that may be kept for it
is no part of what has to be orderly. -/
theorem orderly_update {line : CommandLine} (hcommand : line.command.isGlobal = false)
    (runGlobal : GlobalAction) (s : Session) :
    Orderly (line.command.recorded? s line.addresses)
      (update runGlobal { line with print := none }) s := by
  have hperform := orderly_perform line.addresses line.command s
  rw [← perform_eq_refuseGlobal hcommand runGlobal] at hperform
  have hbare := update_bare_apply runGlobal line s
  rw [hcommand] at hbare
  refine Orderly.congr hbare ?_
  split
  · exact hperform.undoably _
  · exact hperform

end Action

end LineEditor
