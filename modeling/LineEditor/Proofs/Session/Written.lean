import LineEditor.Proofs.Session.Recording

set_option autoImplicit false
set_option relaxedAutoImplicit false

/-!
# Lines that were written or loaded last

A command that is carried out tells which lines it writes to a file or loads from one. If it is
known before a command which lines were written or loaded last, then it is known afterwards as well,
and if the buffer counts as written, these are its lines. So no command that ends the session or
edits another file loses any other lines unless it is told to.

## Main definitions

* `LineEditor.Action.KeepsText`: actions that keep the lines and whether they count as written.
* `LineEditor.JournalEntry`: a command that is carried out.
* `LineEditor.JournalEntry.Honest`: what it shows of the lines that were written or loaded last.

## Main results

* `LineEditor.JournalEntry.honest`: all commands show this.
-/

namespace LineEditor

namespace Action

variable {α β : Type}

/-! ## Actions that keep the text -/

/-- An action keeps the lines, whether they count as written, and the disk, also when it fails. -/
def KeepsText (x : Action α) : Prop := Within SameText x

/-- What only reports keeps the text. -/
theorem Reports.keepsText {x : Action α} (h : Reports x) : KeepsText x :=
  fun s => (h.same s).sameText

namespace KeepsText

/-- The input is no part of the text. -/
theorem onInput (x : EStateM EditError Source α) : KeepsText (onInput x) :=
  Within.onInput (fun _ _ => ⟨.refl _, rfl⟩) x

/-- The remembered pattern is no part of the text. -/
theorem onPattern (x : EStateM EditError (Option Regex) α) : KeepsText (onPattern x) :=
  Within.onPattern (fun _ _ => ⟨.refl _, rfl⟩) x

/-- Parsing a command line does. -/
theorem parse (text : Line) : KeepsText (parse text) := .bind .get fun _ => onPattern _

/-- What keeps the text of the buffer keeps that of the session. -/
theorem onBuffer {x : BufferAction α} (hx : ∀ b : LineBuffer, b.SameText (EState.after x b)) :
    KeepsText (onBuffer x) := Within.onBuffer (fun _ _ h => ⟨h, rfl⟩) hx

/-- Setting the current line does. -/
theorem setCurrent (index : Nat) : KeepsText (Action.onBuffer (LineBuffer.setCurrent index)) := by
  refine onBuffer fun b => ?_
  unfold EState.after
  rw [LineBuffer.setCurrent_apply]
  split <;> exact ⟨rfl, rfl⟩

/-- Taking the next line to visit does. -/
theorem nextTarget : KeepsText (Action.onBuffer LineBuffer.nextTarget) := by
  refine onBuffer fun b => ?_
  unfold EState.after
  rw [LineBuffer.nextTarget_apply]
  cases b.targets.back? <;> exact ⟨rfl, rfl⟩

/-- Checking a range does. -/
theorem checkRange (r : LineRange) : KeepsText (Action.onBuffer (LineBuffer.checkRange r)) := by
  refine onBuffer fun b => ?_
  unfold EState.after
  rw [LineBuffer.checkRange_apply]
  split <;> exact .refl b

/-- Printing the current line does. -/
theorem printCurrent (mode : PrintMode) : KeepsText (printCurrent mode) :=
  Within.printCurrent
    (Within.print checkRange (fun pieces => (Reports.emitAll pieces).keepsText) setCurrent) mode

end KeepsText

/-- A command line changes no more of the text than its command.

**Proof sketch.** The command is carried out with or without a snapshot, which is no part of the
text, and printing the current line afterwards keeps the text, too. -/
theorem sameText_update (runGlobal : GlobalAction) (line : CommandLine) (s : Session) :
    SameText (EState.after (perform runGlobal line.addresses line.command) s)
      (EState.after (update runGlobal line) s) := by
  have hbare : SameText (EState.after (perform runGlobal line.addresses line.command) s)
      (EState.after (update runGlobal { line with print := none }) s) := by
    rw [EState.after, EState.after, update_bare_apply]
    split
    · exact sameText_undoably _ _ _ s
    · exact refl_of SameText _
  rw [update_eq_bind]
  have hprint (outcome : Outcome) : Within SameText (printSuffix line.print outcome) :=
    Within.printSuffix KeepsText.printCurrent line.print outcome
  exact trans_of SameText hbare (Within.after_bind hprint _ s)

/-- A print suffix does not change how a command ends. -/
theorem outcome_of_printSuffix_ok {print : Option PrintMode} {outcome outcome' : Outcome}
    {s t : Session} (h : printSuffix print outcome s = .ok outcome' t) : outcome' = outcome := by
  cases print with
  | none =>
    cases h
    rfl
  | some mode =>
    obtain ⟨_, _, _, hpure⟩ := EState.exists_of_bind_ok h
    cases hpure
    rfl

/-- A command line that succeeds carries out its command.

**Proof sketch.** The suffix and the snapshot are peeled off the success, and the text is the same
by `sameText_update`. -/
theorem exists_perform_of_update_ok {runGlobal : GlobalAction} {line : CommandLine} {s t : Session}
    {outcome : Outcome} (h : update runGlobal line s = .ok outcome t) :
    ∃ u, perform runGlobal line.addresses line.command s = .ok outcome u ∧ SameText u t := by
  have hsame := sameText_update runGlobal line s
  rw [EState.after_of_ok h] at hsame
  rw [update_eq_bind] at h
  obtain ⟨_, v, hbare, hprint⟩ := EState.exists_of_bind_ok h
  obtain rfl := outcome_of_printSuffix_ok hprint
  obtain ⟨u, hu⟩ : ∃ u, perform runGlobal line.addresses line.command s = .ok outcome u := by
    rw [update_bare_apply] at hbare
    split at hbare
    · obtain ⟨u, hu, -⟩ := undoably_ok hbare
      exact ⟨u, hu⟩
    · exact ⟨v, hbare⟩
  exact ⟨u, hu, EState.after_of_ok hu ▸ hsame⟩

/-! ## Commands that would lose lines -/

variable {addresses : Addresses} {s t : Session}

/-- Ending the session needs a buffer that counts as written. -/
theorem quitSession_ok (h : quitSession false s = .ok .quit t) :
    s.buffer.dirty = false ∧ t = s := by
  rw [quitSession_apply] at h
  cases hdirty : s.buffer.dirty with
  | true =>
    rw [if_pos ⟨hdirty, rfl⟩] at h
    cases h
  | false =>
    rw [if_neg (by simp [hdirty])] at h
    cases h
    exact ⟨rfl, rfl⟩

/-- A command that writes ends the session only if the buffer counts as written afterwards.

**Proof sketch.** The buffer is written, with a range or without one, or appended to; in any case
the quit behind it was not refused, and it refuses a buffer with unwritten changes. -/
theorem clean_of_writeQuit {path : Option FileName} {append : Bool}
    (h : perform refuseGlobal addresses (.write path append true) s = .ok .quit t) :
    t.buffer.dirty = false := by
  have hreport {u : Session} {bytes : Nat}
      (h : (do reportSize bytes; quitSession false : Action Outcome) u = .ok .quit t) :
      t.buffer.dirty = false := by
    obtain ⟨_, v, -, hquit⟩ := EState.exists_of_bind_ok h
    obtain ⟨hclean, rfl⟩ := quitSession_ok hquit
    exact hclean
  obtain ⟨_, _, ⟨⟩, h⟩ := EState.exists_of_bind_ok h
  dsimp only at h
  have hwrite (range : Option LineRange) {u : Session} (h : (do
      let bytes ←
        if append then writeAppend (range.or s.buffer.fullRange?) path
        else if range.isSome then writeRange range path false
        else write path
      reportSize bytes
      quitSession false : Action Outcome) u = .ok .quit t) : t.buffer.dirty = false := by
    split at h
    · obtain ⟨_, _, -, h⟩ := EState.exists_of_bind_ok h
      exact hreport h
    · split at h
      · obtain ⟨_, _, -, h⟩ := EState.exists_of_bind_ok h
        exact hreport h
      · obtain ⟨_, _, -, h⟩ := EState.exists_of_bind_ok h
        exact hreport h
  split at h
  · obtain ⟨_, _, -, h⟩ := EState.exists_of_bind_ok h
    exact hwrite _ h
  · obtain ⟨_, _, -, h⟩ := EState.exists_of_bind_ok h
    exact hwrite _ h

/-- Another file is not edited if there are unwritten changes. -/
theorem perform_edit_of_dirty (addresses : Addresses) (path : Option FileName)
    (h : s.buffer.dirty = true) :
    perform refuseGlobal addresses (.edit path false) s = .error .bufferModified s := by
  unfold perform
  rw [EState.bind_apply, EState.get_apply]
  dsimp only
  rw [if_pos ⟨h, rfl⟩]
  rfl

end Action

/-! ## Entries -/

open LineEditor.Action

/-- A command that is carried out, alone or in the list of a global command. -/
structure JournalEntry where
  /-- The command line. -/
  line : CommandLine
  /-- The session before it. -/
  before : Session

namespace JournalEntry

/-- How it ends. -/
def result (entry : JournalEntry) : EStateM.Result EditError Session Outcome :=
  update refuseGlobal entry.line entry.before

/-- The session after it. -/
def after (entry : JournalEntry) : Session := EState.final entry.result

/-- The lines that it writes or loads. -/
def recorded? (entry : JournalEntry) : Option (Array Line) :=
  entry.line.command.recorded? entry.before entry.line.addresses

end JournalEntry

/-- If a buffer counts as written, then with these lines. -/
def LineBuffer.WrittenAs (b : LineBuffer) (kept : Array Line) : Prop :=
  b.dirty = false → b.lines = kept

/-- Lines that a buffer was written as are those that a buffer with the same text was written as. -/
theorem LineBuffer.WrittenAs.of_sameText {b b' : LineBuffer} {kept : Array Line}
    (h : b.WrittenAs kept) (hsame : b.SameText b') : b'.WrittenAs kept := by
  intro hclean
  rw [hsame.dirty] at hclean
  rw [hsame.lines]
  exact h hclean

/-- What a command must show of the lines `kept` that were written or loaded last. -/
structure JournalEntry.Honest (kept : Array Line) (entry : JournalEntry) : Prop where
  /-- If the buffer counts as written before, it has these lines. -/
  before : entry.before.buffer.WrittenAs kept
  /-- Also afterwards, unless other lines are recorded. -/
  after : entry.after.buffer.WrittenAs (entry.recorded?.getD kept)
  /-- Lines that are recorded are those of the buffer and of a file. -/
  recorded : ∀ lines ∈ entry.recorded?,
    entry.after.buffer.lines = lines ∧ entry.before.disk.Records entry.after.disk lines
  /-- The session does not end with other lines unless it is told to. -/
  quit : entry.line.command = .quit false → ∀ t, entry.result = .ok .quit t →
    t.buffer.lines = kept
  /-- It does not end with other lines after writing either. -/
  writeQuit : ∀ path append, entry.line.command = .write path append true →
    ∀ t, entry.result = .ok .quit t → t.buffer.lines = entry.recorded?.getD kept
  /-- No other lines are replaced by those of a file unless it is told to. -/
  edit : ∀ path, entry.line.command = .edit path false →
    (∃ outcome t, entry.result = .ok outcome t) ∨
      entry.after.buffer.lines ≠ entry.before.buffer.lines →
    entry.before.buffer.lines = kept

/-- **A command shows which lines were written or loaded last**, if these are known before it.

**Proof sketch.** By `orderly_perform`. If the buffer counts as written afterwards, either the
command recorded something, which then are its lines, or it counted as written before and has the
same lines. A quit keeps the lines of a buffer that counts as written, a write that quits leaves
one, and an edit of a buffer with unwritten changes is refused. -/
theorem JournalEntry.honest {kept : Array Line} {entry : JournalEntry}
    (h : entry.before.buffer.WrittenAs kept) : entry.Honest kept := by
  obtain ⟨line, before⟩ := entry
  have hperform := orderly_perform line.addresses line.command before
  have hsame : SameText (EState.after (perform refuseGlobal line.addresses line.command) before)
      (JournalEntry.after ⟨line, before⟩) := sameText_update refuseGlobal line before
  have hafter : (JournalEntry.after ⟨line, before⟩).buffer.WrittenAs
      ((JournalEntry.recorded? ⟨line, before⟩).getD kept) := by
    intro hclean
    rw [hsame.buffer.dirty] at hclean
    rw [hsame.buffer.lines]
    cases hrecorded : JournalEntry.recorded? ⟨line, before⟩ with
    | none =>
      obtain ⟨hbefore, hlines⟩ := hperform.discloses hrecorded hclean
      rw [hlines]
      exact h hbefore
    | some lines => exact hperform.lines lines hrecorded
  refine ⟨h, hafter, fun lines hlines => ⟨?_, ?_⟩, ?_, ?_, ?_⟩
  · rw [hsame.buffer.lines]
    exact hperform.lines lines hlines
  · rw [hsame.disk]
    exact hperform.disk lines hlines
  · rintro hline t ht
    obtain ⟨u, hu, hut⟩ := exists_perform_of_update_ok ht
    dsimp only at hline
    rw [hline] at hu
    obtain ⟨hclean, rfl⟩ := quitSession_ok hu
    rw [hut.buffer.lines]
    exact h hclean
  · rintro path append hline t ht
    obtain ⟨u, hu, hut⟩ := exists_perform_of_update_ok ht
    dsimp only at hline
    rw [hline] at hu
    have hclean : t.buffer.dirty = false := hut.buffer.dirty.trans (clean_of_writeQuit hu)
    have ht' : JournalEntry.after ⟨line, before⟩ = t := congrArg EState.final ht
    rw [← ht'] at hclean ⊢
    exact hafter hclean
  · rintro path hline hdone
    refine h (Bool.eq_false_iff.2 fun hdirty => ?_)
    have hrefused := perform_edit_of_dirty line.addresses path hdirty
    dsimp only at hline
    rw [← hline] at hrefused
    obtain ⟨outcome, t, ht⟩ | hlines := hdone
    · obtain ⟨u, hu, -⟩ := exists_perform_of_update_ok ht
      rw [hrefused] at hu
      cases hu
    · rw [EState.after_of_error hrefused] at hsame
      exact hlines hsame.buffer.lines

end LineEditor
