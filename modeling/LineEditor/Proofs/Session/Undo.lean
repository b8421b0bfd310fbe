import LineEditor.Proofs.Session.Recording

set_option autoImplicit false
set_option relaxedAutoImplicit false

/-!
# Undoing a command line

The snapshot that undoing brings back is taken before a command line and kept after it. It is kept
if the command is one that changes the buffer and succeeds, and also if a global command is stopped
half-way. So whenever a command line has changed lines, the state before it is kept, unless the
session ends. Undoing exchanges this snapshot with the present state, so that undoing twice changes
nothing.

## Main results

* `LineEditor.Action.saved_update`: the snapshot after a command line.
* `LineEditor.Action.undo_execute`: undoing brings back what was there before a command line.
-/

namespace LineEditor

/-- Setting a mark leaves the lines alone, whether or not the letter is one. -/
theorem LineBuffer.lines_setMark (b : LineBuffer) (letter : UInt8) (index : Nat) :
    (EState.after (setMark letter index) b).lines = b.lines := by
  unfold EState.after
  rw [setMark_apply]
  split
  · rfl
  · cases b.marks.set? letter index <;> rfl

namespace Action

variable {s t : Session} {line : CommandLine}

/-! ## Carrying out the undo command -/

/-- The line of the undo command. -/
def undoLine : Line := Line.ofString "u"

/-- The line `u` is read as the command that undoes, without addresses. -/
theorem parse_undoLine (s : Session) :
    parse undoLine s = .ok ⟨⟨none, none, 0, false⟩, .undo, none⟩ s := by
  with_unfolding_all rfl

/-- It does nothing but to undo. -/
theorem execute_undoLine (s : Session) :
    execute undoLine s = (do onBuffer LineBuffer.undo; return Outcome.continued : Action _) s := by
  unfold execute
  rw [EState.bind_apply, parse_undoLine]
  simp only [update, perform, Command.isMutating, Command.isGlobal, EState.bind_apply,
    EState.get_apply, Bool.or_false, Bool.false_and, Bool.false_eq_true, if_false]
  cases onBuffer LineBuffer.undo s <;> rfl

/-- Undoing exchanges the snapshot with the present state. -/
theorem exists_execute_undoLine {snapshot : Snapshot} (h : s.buffer.saved = some snapshot) :
    ∃ t, execute undoLine s = .ok .continued t ∧ t.buffer.snapshot = snapshot ∧
      t.buffer.saved = some s.buffer.snapshot := by
  rw [execute_undoLine, EState.bind_apply, onBuffer_apply, LineBuffer.undo_apply, h]
  exact ⟨_, rfl, rfl, rfl⟩

/-! ## The snapshot after a command line -/

/-- Commands that neither change lines nor undo such a change leave the lines alone.

**Proof sketch.** The buffer is changed by the one operation that the command has, if it has one.
Commands whose operation changes lines are among those that store a snapshot, and setting a mark
leaves the lines alone. -/
theorem lines_perform {command : Command} (hmutating : command.isMutating = false)
    (hglobal : command.isGlobal = false) (hundo : command ≠ .undo) (addresses : Addresses)
    (s : Session) :
    (EState.after (perform runGlobal addresses command) s).buffer.lines = s.buffer.lines := by
  rw [perform_eq_refuseGlobal hglobal]
  rw [(carries_perform addresses command s).buffer.lines]
  cases command with
  | mark letter =>
    unfold Operation.applied Command.operation?
    cases indexOf? (addresses.target s.buffer.currentNumber) with
    | none => rfl
    | some index =>
      change (EState.after (Operation.perform (.setMark letter index)) s.buffer).lines = _
      rw [Operation.perform, EState.after_map]
      exact s.buffer.lines_setMark letter index
  | undo => exact absurd rfl hundo
  | append | insert | change | delete | move | copy | join | read | edit => cases hmutating
  | substitute | repeatSubstitute => cases hmutating
  | _ => rfl

/-- A command line without a print suffix keeps the state before it if its command can be undone and
it succeeds. -/
theorem saved_bare_of_ok {outcome : Outcome} (hglobal : s.editor.inGlobal = false)
    (hcommand : line.command.isMutating || line.command.isGlobal)
    (h : update runGlobal { line with print := none } s = .ok outcome t) :
    t.buffer.saved = some s.buffer.snapshot := by
  rw [update_bare_apply, if_pos (by rw [hcommand, hglobal]; rfl)] at h
  obtain ⟨_, -, rfl⟩ := undoably_ok h
  rfl

/-- A command line without a print suffix that changes lines keeps the state before it, unless the
session ends.

**Proof sketch.** A command that stores no snapshot changes no lines. Of the others, one that
succeeds has stored its snapshot. One that fails with an error that the user can correct has changed
nothing, unless it is a global command, which then stores the snapshot if lines have changed. -/
theorem saved_bare (hglobal : s.editor.inGlobal = false) (hundo : line.command ≠ .undo)
    (ht : EState.after (update runGlobal { line with print := none }) s = t)
    (hfatal : ∀ e, update runGlobal { line with print := none } s = .error e t →
      e.isFatal = false)
    (hlines : t.buffer.lines ≠ s.buffer.lines) : t.buffer.saved = some s.buffer.snapshot := by
  have hbare := update_bare_apply runGlobal line s
  cases hcommand : line.command.isMutating || line.command.isGlobal with
  | false =>
    -- Such a command does not change lines.
    obtain ⟨hmutating, hisGlobal⟩ := Bool.or_eq_false_iff.1 hcommand
    have hsame := lines_perform hmutating hisGlobal hundo line.addresses s
    rw [hcommand, if_neg (by simp)] at hbare
    unfold EState.after at ht hsame
    rw [hbare] at ht
    rw [ht] at hsame
    contradiction
  | true =>
    cases hresult : update runGlobal { line with print := none } s with
    | ok outcome u =>
      rw [EState.after_of_ok hresult] at ht
      subst ht
      exact saved_bare_of_ok hglobal hcommand hresult
    | error e u =>
      rw [EState.after_of_error hresult] at ht
      subst ht
      cases hisGlobal : line.command.isGlobal with
      | false =>
        have hsame := (orderly_update hisGlobal runGlobal s).userError hresult (hfatal e hresult)
        exact absurd (congrArg LineBuffer.lines hsame) hlines
      | true =>
        rw [hresult, if_pos (by rw [hcommand, hglobal]; rfl), hisGlobal] at hbare
        obtain ⟨v, -, hv⟩ := undoably_error hbare.symm
        by_cases hkept : v.buffer.lines ≠ s.buffer.lines
        · rw [hv, if_pos ⟨rfl, hkept⟩]
          rfl
        · rw [hv, if_neg fun h => hkept h.2] at hlines
          contradiction

/-- A command line keeps the state before it if it changes lines, unless the session ends, and also
if its command can be undone and it succeeds.

**Proof sketch.** What stands before the print suffix keeps the state, and printing changes neither
lines nor the snapshot. -/
theorem saved_update (hglobal : s.editor.inGlobal = false) (hundo : line.command ≠ .undo)
    (ht : EState.after (update runGlobal line) s = t)
    (hfatal : ∀ e, update runGlobal line s = .error e t → e.isFatal = false)
    (hchanged : t.buffer.lines ≠ s.buffer.lines ∨
      (line.command.isMutating || line.command.isGlobal) ∧
        ∃ outcome, update runGlobal line s = .ok outcome t) :
    t.buffer.saved = some s.buffer.snapshot := by
  rw [update_eq_bind] at ht
  simp only [update_eq_bind runGlobal line] at hfatal hchanged
  cases hbare : update runGlobal { line with print := none } s with
  | error e u =>
    rw [EState.after_bind_of_error hbare] at ht
    subst ht
    obtain hlines | ⟨-, outcome, hok⟩ := hchanged
    · refine saved_bare hglobal hundo (EState.after_of_error hbare) ?_ hlines
      exact fun e' he' => hfatal e' (by rw [EState.bind_apply, he'])
    · rw [EState.bind_apply, hbare] at hok
      cases hok
  | ok outcome u =>
    rw [EState.after_bind_of_ok hbare] at ht
    -- Printing changes neither lines nor the snapshot.
    have hquiet : u.buffer.SameLines t.buffer :=
      ht ▸ (Within.printSuffix Quiet.printCurrent line.print outcome u).buffer
    rw [hquiet.saved]
    rw [hquiet.lines] at hchanged
    obtain hlines | ⟨hcommand, -⟩ := hchanged
    · refine saved_bare hglobal hundo (EState.after_of_ok hbare) ?_ hlines
      exact fun e he => by rw [hbare] at he; cases he
    · exact saved_bare_of_ok hglobal hcommand hbare

/-- So does a command line that is still to be read.

**Proof sketch.** Reading the command line leaves the buffer alone, and what is read is then carried
out. -/
theorem saved_execute {text : Line} (hglobal : s.editor.inGlobal = false)
    (hundo : command? text s ≠ some .undo) (ht : EState.after (execute text) s = t)
    (hfatal : ∀ e, execute text s = .error e t → e.isFatal = false)
    (hchanged : t.buffer.lines ≠ s.buffer.lines ∨
      (∃ command ∈ command? text s, command.isMutating || command.isGlobal) ∧
        ∃ outcome, execute text s = .ok outcome t) :
    t.buffer.saved = some s.buffer.snapshot := by
  have hbuffer := buffer_after_parse text s
  have hinside := (Quiet.parse text s).inGlobal
  unfold command? at hundo hchanged
  unfold execute at ht hfatal hchanged
  cases hparse : parse text s with
  | error e s' =>
    rw [EState.after_of_error hparse] at hbuffer
    rw [EState.after_bind_of_error hparse] at ht
    rw [hparse] at hchanged
    obtain hlines | ⟨⟨_, ⟨⟩, _⟩, _⟩ := hchanged
    rw [← ht, hbuffer] at hlines
    contradiction
  | ok line s' =>
    rw [EState.after_of_ok hparse] at hbuffer hinside
    rw [EState.after_bind_of_ok hparse] at ht
    simp only [EState.bind_apply, hparse] at hundo hfatal hchanged
    rw [← hbuffer] at hchanged ⊢
    refine saved_update (hinside.trans hglobal) ?_ ht hfatal ?_
    · exact fun h => hundo (congrArg some h)
    · refine hchanged.imp_right fun ⟨hcommand, hok⟩ => ⟨?_, hok⟩
      obtain ⟨_, ⟨⟩, hcommand⟩ := hcommand
      exact hcommand

/-- **Undoing brings back what was there before a command line**: the lines, the current line and
the marks, if the command line has changed lines, or if its command can be undone and has succeeded.
Undoing again brings back what was there before. In between, everything but the buffer may change.

**Proof sketch.** The state before the command line is what it keeps (`saved_execute`), and undoing
exchanges it with the present state (`exists_execute_undoLine`). -/
theorem undo_execute {text : Line} (hglobal : s.editor.inGlobal = false)
    (hundo : command? text s ≠ some .undo) (ht : EState.after (execute text) s = t)
    (hfatal : ∀ e, execute text s = .error e t → e.isFatal = false)
    (hchanged : t.buffer.lines ≠ s.buffer.lines ∨
      (∃ command ∈ command? text s, command.isMutating || command.isGlobal) ∧
        ∃ outcome, execute text s = .ok outcome t)
    (t' : Session) (ht' : t'.buffer = t.buffer) :
    ∃ u, execute undoLine t' = .ok .continued u ∧ u.buffer.snapshot = s.buffer.snapshot ∧
      ∀ u' : Session, u'.buffer = u.buffer →
        ∃ v, execute undoLine u' = .ok .continued v ∧ v.buffer.snapshot = t.buffer.snapshot := by
  have hsaved := saved_execute hglobal hundo ht hfatal hchanged
  obtain ⟨u, hu, hrestored, hkept⟩ := exists_execute_undoLine (ht' ▸ hsaved)
  refine ⟨u, hu, hrestored, fun u' hu' => ?_⟩
  obtain ⟨v, hv, hagain, -⟩ := exists_execute_undoLine (hu' ▸ hkept)
  exact ⟨v, hv, ht' ▸ hagain⟩

/-- Three lines, of which two have the letter `a`. -/
def threeLines : Session where
  editor := .ofLines (["a1", "b", "a2"].map Line.ofString)
  input := .script []
  output := .direct none ""
  disk := ⟨[], []⟩

/-- A global command that deletes the third line twice is stopped half-way, and can be undone.

**Proof sketch.** The command line is run, which gives its error and the lines that it leaves. The
general statement applies. -/
theorem undo_execute_threeLines :
    let text := Line.ofString "g/a/3d"
    let t := EState.after (execute text) threeLines
    threeLines.editor.inGlobal = false ∧
      command? text threeLines ≠ some .undo ∧
      (∀ e, execute text threeLines = .error e t → e.isFatal = false) ∧
      t.buffer.lines ≠ threeLines.buffer.lines ∧
      ∃ u, execute undoLine t = .ok .continued u ∧
        u.buffer.snapshot = threeLines.buffer.snapshot ∧
        ∃ v, execute undoLine u = .ok .continued v ∧ v.buffer.snapshot = t.buffer.snapshot := by
  intro text t
  have hundo : command? text threeLines ≠ some .undo := by decide +kernel
  have hends : execute text threeLines = .error .invalidAddress t :=
    EState.eq_error_of_error? (by decide +kernel)
  have hfatal : ∀ e, execute text threeLines = .error e t → e.isFatal = false := by
    intro e he
    rw [hends] at he
    cases he
    rfl
  have hlines : t.buffer.lines ≠ threeLines.buffer.lines := by decide +kernel
  obtain ⟨u, hu, hrestored, hagain⟩ := undo_execute rfl hundo rfl hfatal (.inl hlines) t rfl
  exact ⟨rfl, hundo, hfatal, hlines, u, hu, hrestored, hagain u rfl⟩

end Action

end LineEditor
