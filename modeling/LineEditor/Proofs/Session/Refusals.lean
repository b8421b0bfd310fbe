import LineEditor.Proofs.Session.Recording

set_option autoImplicit false
set_option relaxedAutoImplicit false

/-!
# Errors that the user can correct

An error that does not end the session should leave the buffer as it was. All commands keep to
this, but for global ones, which are stopped half-way. A print suffix does not: it acts after its
command, and if this leaves no line to print, then the whole command line fails although the command
has been carried out. There is no other exception.

## Main results

* `LineEditor.Action.sameButName_or_printed`: what a command line has changed that ends in such an
  error.
-/

namespace LineEditor.Action

variable {s t : Session} {e : EditError}

/-- Printing fails because of its range, and then before it has changed anything.

**Proof sketch.** The range is checked first. If it is in the buffer, then writing the lines fails
only if the output does, which the user cannot correct, and going to the last line does not fail
since printing keeps the buffer. -/
theorem print_error {r : LineRange} {mode : PrintMode} (h : print r mode s = .error e t)
    (he : e.isFatal = false) :
    e = .invalidAddress ∧ t = s ∧ (r.last < r.first ∨ s.buffer.size ≤ r.last) := by
  unfold print at h
  rw [EState.bind_apply, onBuffer_apply, LineBuffer.checkRange_apply] at h
  by_cases hr : r.last < r.first ∨ s.buffer.size ≤ r.last
  · rw [if_pos hr] at h
    cases h
    exact ⟨rfl, rfl, hr⟩
  · rw [if_neg hr] at h
    dsimp only at h
    rw [EState.bind_apply, EState.get_apply] at h
    dsimp only at h
    rw [EState.bind_apply] at h
    generalize hpieces : List.flatMap _ _ = pieces at h
    cases hemit : emitAll pieces (s.withBuffer s.buffer) with
    | error e' t' =>
      rw [hemit] at h
      cases h
      have hfatal := (Reports.emitAll pieces).fatal hemit
      rw [he] at hfatal
      cases hfatal
    | ok _ t' =>
      have hsame : SameStore s t' := EState.after_of_ok hemit ▸ (Reports.emitAll pieces).same _
      rw [hemit] at h
      dsimp only at h
      rw [onBuffer_apply, LineBuffer.setCurrent_apply, hsame.buffer, if_neg (by omega)] at h
      cases h

/-- Printing the current line fails if there is none, and then changes nothing.

**Proof sketch.** A current line is printed as a range of a single line, which fails only if the
line is not in the buffer. -/
theorem printCurrent_error {mode : PrintMode} (h : printCurrent mode s = .error e t)
    (he : e.isFatal = false) :
    e = .invalidAddress ∧ t = s ∧ s.buffer.current.bind s.buffer.line? = none := by
  unfold printCurrent at h
  rw [EState.bind_apply, EState.get_apply] at h
  dsimp only at h
  cases hcurrent : s.buffer.current with
  | none =>
    rw [hcurrent] at h
    cases h
    exact ⟨rfl, rfl, rfl⟩
  | some index =>
    rw [hcurrent] at h
    obtain ⟨rfl, rfl, hindex⟩ := print_error h he
    refine ⟨rfl, rfl, Array.getElem?_eq_none ?_⟩
    exact hindex.resolve_left (Nat.lt_irrefl index)

/-- **Errors that the user can correct change nothing**, unless they come from a print suffix. If a
command line other than a global one ends in such an error, then the buffer is as before but perhaps
for the name of the file; or the command line has been carried out up to its print suffix, and there
is no current line that this could print.

**Proof sketch.** Reading the command line leaves the buffer alone. If the command without its print
suffix fails, it has changed nothing but perhaps the name of the file. Otherwise the suffix fails,
and it fails only if there is no current line. -/
theorem sameButName_or_printed {text : Line} (h : execute text s = .error e t)
    (he : e.isFatal = false)
    (hcommand : ∀ command ∈ command? text s, command.isGlobal = false) :
    s.buffer.SameButName t.buffer ∨
      e = .invalidAddress ∧ t.buffer.current.bind t.buffer.line? = none ∧
        ∃ line s' outcome, parse text s = .ok line s' ∧ line.print.isSome ∧
          update runGlobal { line with print := none } s' = .ok outcome t := by
  have hbuffer := buffer_after_parse text s
  unfold execute at h
  rw [EState.bind_apply] at h
  unfold command? at hcommand
  cases hparse : parse text s with
  | error e' s' =>
    rw [EState.after_of_error hparse] at hbuffer
    rw [hparse] at h
    cases h
    exact .inl (.of_eq hbuffer)
  | ok line s' =>
    rw [EState.after_of_ok hparse] at hbuffer
    rw [hparse] at h hcommand
    dsimp only at h
    have hbare := orderly_update (hcommand line.command rfl) runGlobal s'
    rw [update_eq_bind, EState.bind_apply] at h
    cases hupdate : update runGlobal { line with print := none } s' with
    | error e' t' =>
      rw [hupdate] at h
      cases h
      exact .inl (hbuffer ▸ hbare.userError hupdate he)
    | ok outcome t' =>
      rw [hupdate] at h
      dsimp only [printSuffix] at h
      cases hprint : line.print with
      | none =>
        rw [hprint] at h
        cases h
      | some mode =>
        rw [hprint] at h
        dsimp only at h
        rw [EState.bind_apply] at h
        cases hcurrent : printCurrent mode t' with
        | ok _ u =>
          rw [hcurrent] at h
          cases h
        | error e' u =>
          rw [hcurrent] at h
          cases h
          obtain ⟨rfl, rfl, hnone⟩ := printCurrent_error hcurrent he
          exact .inr ⟨rfl, hnone, line, s', outcome, rfl, by rw [hprint]; rfl, hupdate⟩

/-- A session with a single line. -/
def oneLine : Session where
  editor := .ofLines [Line.ofString "a"]
  input := .script []
  output := .direct none ""
  disk := ⟨[], []⟩

/-- The line `dp` is no global command. -/
theorem isGlobal_of_command_oneLine :
    ∀ command ∈ command? (Line.ofString "dp") oneLine, command.isGlobal = false := by
  have hcommand : command? (Line.ofString "dp") oneLine = some .delete := by decide +kernel
  rw [hcommand]
  rintro _ ⟨⟩
  rfl

/-- Deleting the only line and printing ends in an error. -/
theorem execute_oneLine :
    execute (Line.ofString "dp") oneLine =
      .error .invalidAddress (EState.after (execute (Line.ofString "dp")) oneLine) :=
  EState.eq_error_of_error? (by decide +kernel)

/-- Deleting the only line and printing what is then the current line fails: the line is deleted,
but there is none to print. -/
theorem sameButName_or_printed_oneLine :
    let text := Line.ofString "dp"
    ∃ t, execute text oneLine = .error .invalidAddress t ∧
      EditError.invalidAddress.isFatal = false ∧
      (∀ command ∈ command? text oneLine, command.isGlobal = false) ∧
      (oneLine.buffer.SameButName t.buffer ∨
        EditError.invalidAddress = .invalidAddress ∧
          t.buffer.current.bind t.buffer.line? = none ∧
          ∃ line s' outcome, parse text oneLine = .ok line s' ∧ line.print.isSome ∧
            update runGlobal { line with print := none } s' = .ok outcome t) := by
  exact ⟨_, execute_oneLine, rfl, isGlobal_of_command_oneLine,
    sameButName_or_printed execute_oneLine rfl isGlobal_of_command_oneLine⟩

/-- An error that the user can correct may change the lines, if it comes from a print suffix.

**Proof sketch.** The lines that `dp` leaves are computed: there are none. -/
theorem exists_error_changing_lines :
    ¬∀ (text : Line) (s t : Session) (e : EditError),
      s.editor.inGlobal = false →
      (∀ command ∈ command? text s, command.isGlobal = false) →
      execute text s = .error e t → e.isFatal = false →
      t.buffer.lines = s.buffer.lines ∧ t.buffer.current = s.buffer.current ∧
        t.buffer.marks = s.buffer.marks ∧ t.buffer.dirty = s.buffer.dirty ∧
        t.buffer.saved = s.buffer.saved := by
  intro h
  obtain ⟨hsame, -⟩ := h _ oneLine _ _ rfl isGlobal_of_command_oneLine execute_oneLine rfl
  have hlines : (EState.after (execute (Line.ofString "dp")) oneLine).buffer.lines = #[] := by
    decide +kernel
  rw [hlines] at hsame
  exact absurd hsame (by decide)

end LineEditor.Action
