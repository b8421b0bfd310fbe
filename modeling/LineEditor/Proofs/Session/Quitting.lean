import LineEditor.Proofs.Session.Recording

set_option autoImplicit false
set_option relaxedAutoImplicit false

/-!
# Writing and quitting

A command that writes and quits first writes the lines it is given, or all lines, and reports the
size of the file. If this succeeds the session ends, but not if changes would be lost: the buffer
has to count as written then. It does if it did so before, and if the lines that were written are
all its lines. So only a command that writes a part of a buffer with unwritten changes does not end
the session. The file has been written all the same.

## Main definitions

* `LineEditor.Addresses.written`: the lines that a command writes.
* `LineEditor.Action.writeAddressed`: writes them and reports the size of the file.

## Main results

* `LineEditor.Action.writeAddressed_ok`: what has been written.
* `LineEditor.Action.execute_writeAndQuit`: when a command that writes and quits ends the session.
* `LineEditor.Action.exists_written_not_quit`: it does not always do so when it has written.
-/

namespace LineEditor

/-- The lines that a command writes: those of its range, or all lines if it is given no address. -/
def Addresses.written (a : Addresses) (b : LineBuffer) : Except EditError (Array Line) :=
  if a.count = 0 then .ok b.lines else (a.range b 1 b.size).map (·.slice b.lines)

namespace Action

variable {addresses : Addresses} {path : Option FileName} {s t : Session}

/-! ## Writing -/

/-- Writes the lines of a range, or all lines, to a file, and reports the size of the file. -/
def writeAddressed (addresses : Addresses) (path : Option FileName) : Action Unit := do
  let b := (← get).buffer
  if addresses.count = 0 then
    reportSize (← write path)
  else
    let range ← ofResult (addresses.range b 1 b.size)
    reportSize (← writeRange (some range) path false)

/-- A command that writes does nothing else but perhaps quit. -/
theorem perform_write (runGlobal : GlobalAction) (addresses : Addresses) (path : Option FileName)
    (quit : Bool) :
    perform runGlobal addresses (.write path false quit) =
      writeAddressed addresses path >>= fun _ =>
        if quit then quitSession false else return .continued := by
  unfold perform writeAddressed
  by_cases hcount : addresses.count = 0
  · simp only [hcount, if_true, bind_assoc, pure_bind]
    rfl
  · simp only [hcount, if_false, bind_assoc, map_eq_pure_bind, pure_bind]
    rfl

/-- Lines have been written to a file, and the buffer counts as written if it did so before or if
these are all its lines. -/
structure Wrote (path : Option FileName) (lines : Array Line) (s t : Session) : Prop where
  /-- The lines are in the file that is meant. -/
  file : ∃ name bytes, path.or s.buffer.filename = some name ∧
    s.disk.writeLines name lines.toList false = .ok (bytes, t.disk)
  /-- Unwritten changes are left only if other lines than all have been written. -/
  dirty : t.buffer.dirty = true ↔ s.buffer.dirty = true ∧ lines ≠ s.buffer.lines

/-- A write that succeeds has written all lines. -/
theorem wrote_of_write {bytes : Nat} (h : write path s = .ok bytes t) :
    Wrote path s.buffer.lines s t := by
  rw [write_apply] at h
  cases hname : path.or s.buffer.filename with
  | none =>
    rw [hname] at h
    cases h
  | some name =>
    rw [hname] at h
    have hlines : (s.buffer.renamed name true).lines = s.buffer.lines := rfl
    cases hwrite : s.disk.writeLines name s.buffer.lines.toList false with
    | error e =>
      simp only [hlines, hwrite] at h
      cases h
    | ok written =>
      simp only [hlines, hwrite] at h
      cases h
      exact ⟨⟨name, _, hname, hwrite⟩, by simp [Session.withBuffer]⟩

/-- A part of an array is all of it only if it has as many elements. -/
theorem slice_size_eq_iff {r : LineRange} {lines : Array Line} (hr : r.first ≤ r.last)
    (hlast : r.last < lines.size) : (r.slice lines).size = lines.size ↔ r.slice lines = lines := by
  refine ⟨fun h => slice_eq_self hr hlast ?_, fun h => congrArg Array.size h⟩
  have hrange : r.size = r.last - r.first + 1 := rfl
  rw [LineRange.slice, Array.size_extract] at h
  omega

/-- A write of a range that succeeds has written the lines of the range.

**Proof sketch.** The range is in the buffer, so that it is checked without an error. Its lines are
all lines if they are as many, and only then the buffer counts as written. -/
theorem wrote_of_writeRange {r : LineRange} (hr : r.first ≤ r.last) (hlast : r.last < s.buffer.size)
    {bytes : Nat} (h : writeRange (some r) path false s = .ok bytes t) :
    Wrote path (r.slice s.buffer.lines) s t := by
  rw [writeRange_apply] at h
  cases hname : path.or s.buffer.filename with
  | none =>
    rw [hname] at h
    cases h
  | some name =>
    have hlines : (s.buffer.renamed name true).lines = s.buffer.lines := rfl
    have hsize : (s.buffer.renamed name true).size = s.buffer.lines.size := rfl
    have hdirty : (s.buffer.renamed name true).dirty = s.buffer.dirty := rfl
    have hinside : ¬((some r).any fun r => r.last < r.first ∨ s.buffer.lines.size ≤ r.last) := by
      simpa using ⟨hr, hlast⟩
    simp only [hname, Bool.not_false, hsize, hinside, hlines, hdirty, Option.elim_some] at h
    cases hwrite : s.disk.writeLines name (r.slice s.buffer.lines).toList false with
    | error e =>
      simp only [hwrite] at h
      cases h
    | ok written =>
      simp only [hwrite] at h
      cases h
      refine ⟨⟨name, _, hname, hwrite⟩, ?_⟩
      simp [Session.withBuffer, slice_size_eq_iff hr hlast, and_comm]

/-- Reporting the size changes nothing of what has been written. -/
theorem Wrote.reportSize {lines : Array Line} {bytes : Nat} {u : Session} (h : Wrote path lines s t)
    (hreport : reportSize bytes t = .ok () u) : Wrote path lines s u := by
  have hsame := EState.after_of_ok hreport ▸ (Reports.reportSize bytes).same t
  exact ⟨hsame.disk ▸ h.file, hsame.buffer ▸ h.dirty⟩

/-- What has been written when the writing succeeds.

**Proof sketch.** Without addresses the whole buffer is written, and with addresses a range that is
one of the buffer. Reporting the size afterwards changes neither the buffer nor the disk. -/
theorem writeAddressed_ok (h : writeAddressed addresses path s = .ok () t) :
    ∃ lines, addresses.written s.buffer = .ok lines ∧ Wrote path lines s t := by
  obtain ⟨_, _, ⟨⟩, h⟩ := EState.exists_of_bind_ok h
  unfold Addresses.written
  by_cases hcount : addresses.count = 0
  · rw [if_pos hcount] at h ⊢
    obtain ⟨bytes, u, hwrite, hreport⟩ := EState.exists_of_bind_ok h
    exact ⟨_, rfl, (wrote_of_write hwrite).reportSize hreport⟩
  · rw [if_neg hcount] at h ⊢
    cases hrange : addresses.range s.buffer 1 s.buffer.size with
    | error e =>
      rw [hrange] at h
      cases h
    | ok r =>
      rw [hrange] at h
      obtain ⟨_, _, ⟨⟩, h⟩ := EState.exists_of_bind_ok h
      obtain ⟨bytes, u, hwrite, hreport⟩ := EState.exists_of_bind_ok h
      have hwrote := wrote_of_writeRange (Addresses.first_le_last_of_range hrange)
        (Addresses.last_lt_size_of_range hrange) hwrite
      exact ⟨_, rfl, hwrote.reportSize hreport⟩

/-! ## Quitting -/

/-- A command line with the letters `wq` behind its addresses writes and quits.

**Proof sketch.** What follows the letters is the name of the file, and a command that writes reads
no print suffix. -/
theorem command_writeAndQuit {ctx : AddressContext} {text rest : Line} {list : AddressList}
    (hread : readAddresses text = (list, ascii 'w' :: ascii 'q' :: rest)) {line : CommandLine}
    {pattern pattern' : Option Regex} (h : CommandLine.read ctx text pattern = .ok line pattern') :
    ∃ path, readFilename rest = .ok path ∧ line.command = .write path false true ∧
      line.print = none := by
  have hcommand : readCommand ctx (ascii 'w') (ascii 'q' :: rest) = (do
      let path ← ofResult (readFilename rest)
      return (.write path false true, none, [])) := rfl
  unfold CommandLine.read at h
  rw [hread] at h
  obtain ⟨addresses, _, -, h⟩ := EState.exists_of_bind_ok h
  dsimp only at h
  rw [hcommand] at h
  cases hpath : readFilename rest with
  | error e =>
    rw [hpath] at h
    cases h
  | ok path =>
    rw [hpath] at h
    have htakes : ¬(0 < addresses.count ∧ (Command.write path false true).takesAddresses = false) :=
      fun hnot => nomatch hnot.2
    simp only [ofResult, pure_bind, htakes, if_false, readPrintSuffix] at h
    cases h
    exact ⟨path, rfl, rfl, rfl⟩

/-- **A command that writes and quits ends the session when it has written**, unless this would lose
changes: if there were unwritten changes and other lines than all have been written, the file has
been written, but the session goes on with an error. If the writing fails the command fails with the
same error.

**Proof sketch.** The command line is read without changing the buffer or the disk. What is carried
out then are a write and a quit. The write has written its lines and left the changes as unwritten
only if there were some and not all lines have been written; and the quit looks at nothing else. -/
theorem execute_writeAndQuit {text rest : Line} {list : AddressList}
    (hread : readAddresses text = (list, ascii 'w' :: ascii 'q' :: rest)) {line : CommandLine}
    (hparse : parse text s = .ok line t) :
    ∃ path, readFilename rest = .ok path ∧
      (∀ u, writeAddressed line.addresses path t = .ok () u →
        ∃ lines name bytes, line.addresses.written s.buffer = .ok lines ∧
          path.or s.buffer.filename = some name ∧
          s.disk.writeLines name lines.toList false = .ok (bytes, u.disk) ∧
          execute text s =
            if s.buffer.dirty = true ∧ lines ≠ s.buffer.lines then .error .bufferModified u
            else .ok .quit u) ∧
      ∀ e u, writeAddressed line.addresses path t = .error e u →
        execute text s = .error e u := by
  obtain ⟨pattern, rfl, hline⟩ := parse_ok hparse
  obtain ⟨path, hpath, hcommand, hprint⟩ := command_writeAndQuit hread hline
  obtain ⟨addresses, command, print⟩ := line
  dsimp only at hcommand hprint ⊢
  subst hcommand hprint
  generalize ht : { s with editor := { s.editor with lastPattern := pattern } } = t at hparse ⊢
  have hbuffer : t.buffer = s.buffer := by rw [← ht]
  have hdisk : t.disk = s.disk := by rw [← ht]
  have hexecute : execute text s =
      (writeAddressed addresses path >>= fun _ => quitSession false) t := by
    have hupdate := update_bare_apply runGlobal ⟨addresses, .write path false true, none⟩ t
    rw [perform_write] at hupdate
    unfold execute
    rw [EState.bind_apply, hparse]
    exact hupdate
  refine ⟨path, hpath, fun u hu => ?_, fun e u hu => ?_⟩
  · obtain ⟨lines, hlines, hwrote⟩ := writeAddressed_ok hu
    obtain ⟨name, bytes, hname, hfile⟩ := hwrote.file
    rw [hbuffer] at hlines hname
    rw [hdisk] at hfile
    refine ⟨lines, name, bytes, hlines, hname, hfile, ?_⟩
    rw [hexecute, EState.bind_apply, hu]
    dsimp only
    rw [quitSession_apply]
    simp [hwrote.dirty, hbuffer]
  · rw [hexecute, EState.bind_apply, hu]

/-- A session of two lines, after the third one has been deleted. -/
def shortened : Session :=
  EState.after (execute (Line.ofString "3d"))
    ⟨.ofLines [[ascii 'a'], [ascii 'b'], [ascii 'c']], .script [], .direct none "", ⟨[], []⟩⟩

/-- Both lines are written, so the session ends.

**Proof sketch.** The write of both lines is computed, and the general statement says that the
session ends. -/
theorem execute_writeAndQuit_shortened :
    let text := Line.ofString "wq f"
    let line : CommandLine := ⟨.none, .write (some [ascii 'f']) false true, none⟩
    let t := EState.after (parse text) shortened
    let u := EState.after (writeAddressed .none (some [ascii 'f'])) t
    readAddresses text = (⟨[], none⟩, Line.ofString "wq f") ∧
      parse text shortened = .ok line t ∧
      writeAddressed .none (some [ascii 'f']) t = .ok () u ∧
      shortened.buffer.dirty = true ∧ execute text shortened = .ok .quit u := by
  intro text line t u
  have hread : readAddresses text = (⟨[], none⟩, Line.ofString "wq f") := by decide +kernel
  have hparse : parse text shortened = .ok line t := EState.eq_ok_of_value? (by decide +kernel)
  have hwrite : writeAddressed .none (some [ascii 'f']) t = .ok () u :=
    EState.eq_ok_of_value? (by decide +kernel)
  have hlines : Addresses.none.written shortened.buffer = .ok shortened.buffer.lines := rfl
  obtain ⟨path, hpath, hwritten, -⟩ := execute_writeAndQuit hread hparse
  obtain rfl : path = some [ascii 'f'] := by
    have hname : readFilename (Line.ofString " f") = .ok (some [ascii 'f']) := by decide +kernel
    exact (Except.ok.inj (hname.symm.trans hpath)).symm
  obtain ⟨lines, name, bytes, hlines', -, -, hexecute⟩ := hwritten u hwrite
  obtain rfl : shortened.buffer.lines = lines := Except.ok.inj (hlines.symm.trans hlines')
  refine ⟨hread, hparse, hwrite, by decide +kernel, ?_⟩
  rw [hexecute]
  simp

/-- A command that writes and quits does not always end the session when it has written: if one of
two lines is written and there are unwritten changes, the session goes on with an error.

**Proof sketch.** The line `1wq f` is run on two lines with unwritten changes. The write succeeds
and the quit fails. -/
theorem exists_written_not_quit :
    ¬∀ (text rest : Line) (list : AddressList) (line : CommandLine) (path : Option FileName)
        (s t u : Session),
      readAddresses text = (list, ascii 'w' :: ascii 'q' :: rest) →
      s.editor.inGlobal = false →
      parse text s = .ok line t → readFilename rest = .ok path →
      writeAddressed line.addresses path t = .ok () u →
      execute text s = .ok .quit u := by
  intro hquits
  let text := Line.ofString "1wq f"
  let line : CommandLine := ⟨⟨some 1, some 1, 1, false⟩, .write (some [ascii 'f']) false true, none⟩
  have hparse : parse text shortened = .ok line (EState.after (parse text) shortened) :=
    EState.eq_ok_of_value? (by decide +kernel)
  have hquit := hquits text (Line.ofString " f") ⟨[], some ⟨.number 1, []⟩⟩ line
    (some [ascii 'f']) shortened _ _ (by decide +kernel) (by decide +kernel) hparse
    (by decide +kernel) (EState.eq_ok_of_value? (by decide +kernel))
  have hfails : EState.error? (execute text) shortened = some .bufferModified := by decide +kernel
  rw [EState.eq_error_of_error? hfails] at hquit
  cases hquit

end Action

end LineEditor
