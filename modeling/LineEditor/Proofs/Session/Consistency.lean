import LineEditor.Proofs.Buffer.Consistency
import LineEditor.Proofs.Session.Bounds
import LineEditor.Proofs.Session.Invariants
import LineEditor.Proofs.Session.Visits

set_option autoImplicit false
set_option relaxedAutoImplicit false

/-!
# Consistent editors

Along a run of command lines the buffer stays consistent, whatever is read, whatever is on the disk,
and whatever happens to the output: the current line, the marks, and those of the snapshot are
lines. Lines are pending only while a global command is running; they are different lines of the
buffer then. No access of a command is out of bounds, from reading its text and its patterns to
matching, replacing and changing the buffer.

## Main definitions

* `LineEditor.Editor.Consistent`: editors with a consistent buffer.
* `LineEditor.Turn.run`, `LineEditor.Turn.journal`: a run of command lines, and the commands that it
  carries out.

## Main results

* `LineEditor.Editor.invariant_consistent`: consistency is an invariant.
* `LineEditor.Turn.consistent_run`: runs keep editors consistent.
-/

namespace LineEditor

open EState

/-- The buffer of an editor is consistent. No lines are pending unless a global command is
running. -/
structure Editor.Consistent (running : Bool) (e : Editor) : Prop where
  /-- The buffer is consistent. -/
  buffer : e.buffer.Consistent
  /-- Whether a global command is running. -/
  inGlobal : e.inGlobal = running
  /-- If there is none, no line is to be visited. -/
  targets : running = false → e.buffer.targets = #[]

namespace LineBuffer.Consistent

variable {b b' : LineBuffer}

/-- Neither the name of the file nor whether the lines count as written matters. -/
theorem of_eq (h : b.Consistent) (hpresent : b'.snapshot = b.snapshot) (hsaved : b'.saved = b.saved)
    (htargets : b'.targets = b.targets) : b'.Consistent := by
  have hsize : b'.size = b.size := congrArg (·.lines.size) hpresent
  refine ⟨hpresent ▸ h.present, hsaved ▸ h.saved, ?_, htargets ▸ h.distinct⟩
  rw [htargets, hsize]
  exact h.targets

end LineBuffer.Consistent

/-- **Consistency is an invariant** of all steps of commands.

**Proof sketch.** Operations keep the buffer consistent, and none of them makes lines pending. A
global command begins with pending lines that are different lines of the buffer, taking the next one
only removes it, and at the end the list is cleared. -/
theorem Editor.invariant_consistent : Editor.Invariant Set.univ Editor.Consistent where
  alphabet := Set.subset_univ _
  alike h halike := by
    refine ⟨h.buffer.of_eq halike.present halike.saved halike.targets, ?_, fun hg => ?_⟩
    · rw [halike.inGlobal, h.inGlobal]
    · rw [halike.targets, h.targets hg]
  operation h _ :=
    ⟨h.buffer.operation _, h.inGlobal, fun hg => h.buffer.targets_after (h.targets hg) _⟩
  nextTarget h := by
    refine ⟨h.buffer.nextTarget, h.inGlobal, fun hg => ?_⟩
    rw [after, LineBuffer.nextTarget_apply, h.targets hg]
    exact h.targets hg
  storeSnapshot h h' := ⟨h'.buffer.storeSnapshot h.buffer.present, h'.inGlobal, h'.targets⟩
  remember h _ := ⟨h.buffer, h.inGlobal, h.targets⟩
  remembered _ _ _ _ _ := Set.mem_univ _
  enter h range invert regex :=
    ⟨h.buffer.setTargets (fun _ => Action.lt_size_of_mem_selectLines)
      (Action.pairwise_selectLines.imp Nat.ne_of_lt), rfl, nofun⟩
  leave h := ⟨h.buffer.clearTargets, rfl, fun _ => rfl⟩

/-- Every line is over the alphabet of all bytes. -/
theorem Session.meets_univ {J : Editor → Prop} {s : Session} (h : J s.editor) :
    s.Meets Set.univ J := by
  refine ⟨h, ?_⟩
  cases s.input with
  | script lines => exact fun _ _ _ _ => Set.mem_univ _
  | stream bytes broken => trivial

/-- The visits of a global command leave a consistent editor, however many there have been. -/
theorem Action.consistent_replay {s : Session} (h : s.editor.Consistent false) (range : LineRange)
    (invert : Bool) (regex : Regex) (list : List Line) (isInline : Bool) (visits : Nat)
    (tally : Tally) :
    (after (replay list isInline visits tally)
      (begun (selectLines s.buffer range invert regex) s)).editor.Consistent true := by
  have hlist : ∀ line ∈ list, line.Over Set.univ := fun _ _ _ _ => Set.mem_univ _
  have hbegun := Editor.invariant_consistent.begun range invert regex (Session.meets_univ h)
  have hreplay := Editor.invariant_consistent.replay (g := true) hlist isInline visits tally
  exact (hreplay.after hbegun).editor

/-! ## Runs -/

/-- A command line and what it finds around the editor. -/
structure Turn where
  /-- The text of the command line. -/
  text : Line
  /-- The lines that it can read. -/
  input : Source
  /-- Where its output goes. -/
  output : Sink
  /-- The files. -/
  disk : Disk

namespace Turn

/-- The session in which an editor carries out a command line. -/
def session (turn : Turn) (e : Editor) : Session := ⟨e, turn.input, turn.output, turn.disk⟩

/-- The editor after a command line, also if it fails. -/
def next (turn : Turn) (e : Editor) : Editor :=
  (after (Action.execute turn.text) (turn.session e)).editor

/-- The editor after a run. -/
def run : List Turn → Editor → Editor
  | [], e => e
  | turn :: turns, e => run turns (turn.next e)

/-- The commands that a run carries out, also those in the lists of global commands. -/
def journal : List Turn → Editor → List JournalEntry
  | [], _ => []
  | turn :: turns, e =>
    Action.entries turn.text (turn.session e) ++ journal turns (turn.next e)

/-- A command line leaves a consistent editor, also when it fails. -/
theorem consistent_next (turn : Turn) {e : Editor} (h : e.Consistent false) :
    (turn.next e).Consistent false := by
  have htext : turn.text.Over Set.univ := fun _ _ => Set.mem_univ _
  have hexecute := Editor.invariant_consistent.execute htext
  exact (hexecute.after (Session.meets_univ h)).editor

/-- Commands find a consistent editor and leave one. -/
theorem consistent_entries (turn : Turn) {e : Editor} (h : e.Consistent false) :
    ∀ entry ∈ Action.entries turn.text (turn.session e), ∃ running,
      entry.before.editor.Consistent running ∧ entry.after.editor.Consistent running := by
  intro entry hentry
  have htext : turn.text.Over Set.univ := fun _ _ => Set.mem_univ _
  obtain ⟨running, hmeets⟩ :=
    Editor.invariant_consistent.entries htext (Session.meets_univ h) entry hentry
  exact ⟨running, hmeets.before.editor, hmeets.after.editor⟩

/-- **Runs keep editors consistent**, whatever the command lines read, write and print: at the end
no global command is running, and each command on the way has found a consistent editor and left
one. While a global command makes its visits the pending lines are different lines of the buffer. No
command line accesses anything out of bounds: every place of a text, of a pattern, of what is being
matched or replaced, of the buffer and of its marks that is read, cut out or counted back from is
within its bounds.

**Proof sketch.** Consistency is maintained by each step of a command, and no line is pending before
the first command line; so it holds before and after each command of the run, by induction on the
command lines. A command line that stops at an access out of bounds does the same as one that does
not look, since each part of it does, whatever the session is. -/
theorem consistent_run (turns : List Turn) {e : Editor} (h : e.Consistent false) :
    (run turns e).Consistent false ∧
      (∀ entry ∈ journal turns e, ∃ running,
        entry.before.editor.Consistent running ∧ entry.after.editor.Consistent running) ∧
      (∀ s : Session, s.editor.Consistent false → ∀ range invert regex list isInline visits tally,
        (after (Action.replay list isInline visits tally)
          (Action.begun (Action.selectLines s.buffer range invert regex) s)).editor.Consistent
            true) ∧
      ∀ text, Checked.execute text = Checked.of (Action.execute text) := by
  refine ⟨?_, ?_, fun s hs => Action.consistent_replay hs, Checked.execute_eq⟩
  · induction turns generalizing e with
    | nil => exact h
    | cons turn turns ih => exact ih (turn.consistent_next h)
  · induction turns generalizing e with
    | nil => exact List.forall_mem_nil _
    | cons turn turns ih =>
      exact List.forall_mem_append.2 ⟨turn.consistent_entries h, ih (turn.consistent_next h)⟩

/-- Two lines of which the first is the current one and the second one is marked. -/
def twoLines : Editor :=
  { Editor.ofLines [] with
    buffer :=
      { LineBuffer.ofLines [Line.ofString "a", Line.ofString "b"] with
        current := some 0
        marks := Marks.empty.set 0 (some 1) } }

/-- The current line and the mark are lines of the buffer. -/
theorem consistent_twoLines : twoLines.Consistent false where
  buffer := by
    refine .placed (.some (by decide)) ?_
    intro place _
    revert place
    decide
  inGlobal := rfl
  targets _ := rfl

/-- A global command moves both lines, and the line that is left after a deletion cannot be
printed. -/
theorem consistent_run_twoLines :
    let turns := ["g/./m0", "1dp"].map fun text =>
      Turn.mk (Line.ofString text) (.script []) (.direct (some 0) "") ⟨[], []⟩
    twoLines.Consistent false ∧ (run turns twoLines).Consistent false :=
  ⟨consistent_twoLines, (consistent_run _ consistent_twoLines).1⟩

end Turn

end LineEditor
