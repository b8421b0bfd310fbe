import LineEditor.Proofs.Session.Invariants
import LineEditor.Proofs.Text.Files

set_option autoImplicit false
set_option relaxedAutoImplicit false

/-!
# Newlines end lines only

Everything that a session reads is cut into lines at its newlines, and no command makes up a newline
that was not read. So no line has a newline in it, neither one of the buffer nor one that undoing
brings back, at any time of a session. Writing the buffer to a file and loading the file brings back
the same lines for this reason.

## Main definitions

* `LineEditor.Editor.Over`: editors whose texts are over an alphabet.
* `LineEditor.Session.NewlineFree`: sessions in which no line has a newline in it.

## Main results

* `LineEditor.Editor.invariant_over`: having only bytes of an alphabet is an invariant.
* `LineEditor.Session.newlineFree_steps`: in a session no line has a newline in it, and a file that
  was written has the lines of the buffer.
-/

namespace LineEditor

open EState

variable {A : Set UInt8}

/-- All texts that an editor keeps and that may come into its buffer are over an alphabet. -/
structure Editor.Over (A : Set UInt8) (e : Editor) : Prop where
  /-- The lines of the buffer and of its snapshot are. -/
  buffer : e.buffer.Over A
  /-- The replacement of the remembered substitution is. -/
  remembered : ∀ s ∈ e.lastSubstitution, s.replacement.Over A

/-- **Having only bytes of an alphabet is an invariant** of all steps of commands, if the alphabet
has all bytes that may come in: any but the newline.

**Proof sketch.** No step puts a byte into the buffer, its slot or the remembered substitution that
was not there or did not come in. -/
theorem Editor.invariant_over (hA : notNewline ⊆ A) :
    Editor.Invariant A fun _ => Editor.Over A where
  alphabet := hA
  alike h halike :=
    ⟨h.buffer.of_eq (congrArg (·.lines) halike.present) halike.saved,
      halike.lastSubstitution ▸ h.remembered⟩
  operation h hop := ⟨h.buffer.operation hop, h.remembered⟩
  nextTarget h := ⟨h.buffer.nextTarget, h.remembered⟩
  storeSnapshot h h' := ⟨h'.buffer.storeSnapshot h.buffer.lines, h'.remembered⟩
  remember h hs := by
    refine ⟨h.buffer, ?_⟩
    rintro _ ⟨⟩
    exact hs
  remembered h := h.remembered
  enter h _ _ _ := ⟨h.buffer.of_eq rfl rfl, h.remembered⟩
  leave h := ⟨h.buffer.of_eq rfl rfl, h.remembered⟩

/-! ## Writing and loading -/

namespace Action

/-- **A file that was written has the lines of the buffer**, if no line has a newline in it. Writing
and loading report the same size.

**Proof sketch.** The write has put the lines on the disk, each with a newline behind it, and has
counted these bytes. A file of such lines is read back as the same lines, and loading puts them into
the buffer. -/
theorem load_of_write {name : FileName} {bytes : Nat} {s t : Session}
    (hlines : LinesOver notNewline s.buffer.lines) (h : write (some name) s = .ok bytes t) :
    bytes = (s.buffer.lines.toList.map fun line => line.length + 1).sum ∧
      ∀ u : Session, u.disk = t.disk →
        ∃ v, load name u = .ok bytes v ∧ v.buffer.lines = s.buffer.lines := by
  rw [write_apply] at h
  dsimp only [Option.some_or] at h
  cases hwrite : s.disk.writeLines name (s.buffer.renamed name true).lines.toList false with
  | error e =>
    rw [hwrite] at h
    cases h
  | ok written =>
    obtain ⟨size, disk⟩ := written
    rw [hwrite] at h
    cases h
    obtain ⟨hsize, hread⟩ := Disk.readLines_of_writeLines hlines hwrite
    refine ⟨hsize.trans (byteCount_eq_sum _), fun u hdisk => ?_⟩
    change u.disk = disk at hdisk
    rw [← hdisk] at hread
    refine ⟨u.withBuffer { u.buffer.replaceAll s.buffer.lines with filename := some name }, ?_, rfl⟩
    unfold load
    rw [EState.bind_apply, EState.get_apply]
    dsimp only
    rw [hread]
    rfl

end Action

/-! ## Sessions -/

/-- The bytes of a line are not newlines if the newline is not one of them. -/
theorem Line.over_notNewline_iff {line : Line} : line.Over notNewline ↔ newline ∉ line :=
  ⟨fun h hmem => h newline hmem rfl, fun h _ hb heq => h (heq ▸ hb)⟩

/-- The same holds of all lines of an array. -/
theorem linesOver_notNewline_iff {lines : Array Line} :
    LinesOver notNewline lines ↔ ∀ line ∈ lines, newline ∉ line := by
  simp only [LinesOver, Line.over_notNewline_iff, Array.mem_toList_iff]

/-- No line of a session has a newline in it, and writing the buffer to a file and loading the file
brings back its lines. -/
structure Session.NewlineFree (s : Session) : Prop where
  /-- No line of the buffer has a newline in it. -/
  lines : ∀ line ∈ s.buffer.lines, newline ∉ line
  /-- No line of the snapshot has. -/
  saved : ∀ snapshot ∈ s.buffer.saved, ∀ line ∈ snapshot.lines, newline ∉ line
  /-- Writing and loading report the same size, and the lines are the same. -/
  reload : ∀ {name : FileName} {bytes : Nat} {t : Session},
    Action.write (some name) s = .ok bytes t →
      bytes = (s.buffer.lines.toList.map fun line => line.length + 1).sum ∧
        ∀ u : Session, u.disk = t.disk →
          ∃ v, Action.load name u = .ok bytes v ∧ v.buffer.lines = s.buffer.lines

namespace Session

variable {s : Session}

/-- A session over the alphabet without the newline has no newline in any of its lines. -/
theorem Meets.newlineFree (h : s.Meets notNewline (Editor.Over notNewline)) : s.NewlineFree where
  lines := linesOver_notNewline_iff.1 h.editor.buffer.lines
  saved snapshot hsnapshot := linesOver_notNewline_iff.1 (h.editor.buffer.saved snapshot hsnapshot)
  reload := Action.load_of_write h.editor.buffer.lines

/-- **No line has a newline in it, at any time of a session** that reads a stream of bytes: neither
between two command lines, nor before or after any command in the list of a global command, nor at
the end. So writing the buffer and loading the file brings back the lines at each of these times.
What undoing brings back and what can be substituted again is among the texts at the beginning; a
new editor has neither.

**Proof sketch.** What is read is cut at its newlines, and no step of a command makes one up
(`Editor.invariant_over`); the rest is induction on the command lines (`Editor.Invariant.steps`) and
the round trip of lines through a file (`Action.load_of_write`). -/
theorem newlineFree_steps {bytes : List UInt8} {broken : Option String}
    (hinput : s.input = .stream bytes broken) (hlines : ∀ line ∈ s.buffer.lines, newline ∉ line)
    (hsaved : ∀ snapshot ∈ s.buffer.saved, ∀ line ∈ snapshot.lines, newline ∉ line)
    (hremembered : ∀ last ∈ s.editor.lastSubstitution, newline ∉ last.replacement) :
    s.run.2.NewlineFree ∧
      ∀ rounds, (after (Action.steps rounds) s).NewlineFree ∧
        ∀ entry ∈ Action.stepsEntries rounds s,
          entry.before.NewlineFree ∧ entry.after.NewlineFree := by
  have hI := Editor.invariant_over (Set.Subset.refl notNewline)
  have hmeets : s.Meets notNewline (Editor.Over notNewline) := by
    refine ⟨⟨⟨linesOver_notNewline_iff.2 hlines, fun snapshot hsnapshot => ?_⟩, ?_⟩, ?_⟩
    · exact linesOver_notNewline_iff.2 (hsaved snapshot hsnapshot)
    · exact fun last hlast => Line.over_notNewline_iff.2 (hremembered last hlast)
    · rw [hinput]
      trivial
  have hsteps (rounds : Nat) : (after (Action.steps rounds) s).NewlineFree :=
    ((hI.steps rounds).after hmeets).newlineFree
  have hrun : s.run.2 = after (Action.steps (s.input.size + 1)) s := by
    unfold run after
    cases Action.steps (s.input.size + 1) s <;> rfl
  refine ⟨hrun ▸ hsteps _, fun rounds => ⟨hsteps rounds, fun entry hentry => ?_⟩⟩
  obtain ⟨_, hentry⟩ := hI.stepsEntries rounds hmeets entry hentry
  exact ⟨hentry.before.newlineFree, hentry.after.newlineFree⟩

/-- A single line is substituted, copied and joined, and what has become of it is written. -/
def joinedLine : Session where
  editor := .ofLines [Line.ofString "a"]
  input := .stream (Line.ofString "s/a/ab/\ng/b/t.\n1,$j\nw out\nu\n") none
  output := .direct none ""
  disk := ⟨[], []⟩

/-- Between any two steps of this session, and at its end, no line has a newline in it. -/
theorem newlineFree_steps_joinedLine :
    joinedLine.run.2.NewlineFree ∧
      ∀ rounds, (after (Action.steps rounds) joinedLine).NewlineFree ∧
        ∀ entry ∈ Action.stepsEntries rounds joinedLine,
          entry.before.NewlineFree ∧ entry.after.NewlineFree :=
  newlineFree_steps rfl (by decide) (by decide) (by decide)

end Session

end LineEditor
