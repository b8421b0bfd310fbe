import Mathlib.Data.List.Forall2
import LineEditor.Proofs.Buffer.Operations

set_option autoImplicit false
set_option relaxedAutoImplicit false

/-!
# Sequences of calls

A buffer is used by one call after the other: operations edit it, snapshots are taken of it and
stored for undoing, lines are set to be visited and taken off again. Lines with identities answer
every such sequence in the same way, although nothing is ever renumbered there.

## Main definitions

* `LineEditor.Call`: the calls.
* `LineEditor.Workbench`, `LineEditor.TaggedWorkbench`: a buffer and lines with identities, each
  with the snapshots that were taken.
* `LineEditor.Workbench.run`, `LineEditor.TaggedWorkbench.run`: a sequence of calls.

## Main results

* `LineEditor.WorksAlike.run`: both answer a sequence of calls alike.
* `LineEditor.Workbench.run_eq_tagged`: what this means for texts, marks and pending lines.
-/

namespace LineEditor

/-- The calls on a buffer. -/
inductive Call where
  /-- Edits the buffer. Operations on a range check it before they change anything, substitutions
  included: `LineBuffer.substituteInTurn_pastEnd` tells what dealing with one line after the other
  does on a range that goes beyond the end. -/
  | operate (op : Operation)
  /-- Takes a snapshot. -/
  | capture
  /-- Stores a snapshot for undoing. They are counted from 0 in the order they were taken. -/
  | store (number : Nat)
  /-- Sets the lines that are to be visited. -/
  | setTargets (indices : List Nat)
  /-- Takes off the next line to visit. -/
  | nextTarget
  deriving Repr, DecidableEq

/-! ## Calls on a buffer -/

/-- A buffer with the snapshots that were taken of it. -/
structure Workbench where
  /-- The buffer. -/
  buffer : LineBuffer
  /-- The snapshots, the first one taken first. -/
  snapshots : List Snapshot
  deriving Repr, DecidableEq

namespace Workbench

/-- The result of an action on the buffer. -/
def act (w : Workbench) (x : BufferAction Reply) : Except EditError Reply × Workbench :=
  match x w.buffer with
  | .ok reply buffer => (.ok reply, { w with buffer })
  | .error e buffer => (.error e, { w with buffer })

/-- A call: what it returns, and what is left. -/
def call (w : Workbench) : Call → Except EditError Reply × Workbench
  | .operate op => w.act op.perform
  | .capture => (.ok .done, { w with snapshots := w.snapshots ++ [w.buffer.snapshot] })
  | .store number =>
    (.ok .done, { w with buffer := w.snapshots[number]?.elim w.buffer w.buffer.storeSnapshot })
  | .setTargets indices => (.ok .done, { w with buffer := w.buffer.setTargets indices })
  | .nextTarget => w.act (Reply.target <$> LineBuffer.nextTarget)

/-- Calls one after the other. -/
def run : List Call → Workbench → List (Except EditError Reply) × Workbench
  | [], w => ([], w)
  | call :: calls, w => ((w.call call).1 :: (run calls (w.call call).2).1,
    (run calls (w.call call).2).2)

/-- Only lines that exist may be set to be visited. -/
def Admits (w : Workbench) : Call → Prop
  | .setTargets indices => ∀ index ∈ indices, index < w.buffer.size
  | _ => True

instance (w : Workbench) (call : Call) : Decidable (w.Admits call) :=
  match call with
  | .setTargets indices =>
    inferInstanceAs (Decidable (∀ index ∈ indices, index < w.buffer.size))
  | .operate _ | .capture | .store _ | .nextTarget => inferInstanceAs (Decidable True)

/-- Each call is admitted when its turn comes. -/
def AdmitsAll : List Call → Workbench → Prop
  | [], _ => True
  | call :: calls, w => w.Admits call ∧ AdmitsAll calls (w.call call).2

instance decidableAdmitsAll : (calls : List Call) → (w : Workbench) → Decidable (AdmitsAll calls w)
  | [], _ => inferInstanceAs (Decidable True)
  | call :: calls, w =>
    have := decidableAdmitsAll calls (w.call call).2
    inferInstanceAs (Decidable (w.Admits call ∧ AdmitsAll calls (w.call call).2))

end Workbench

/-! ## Calls on lines with identities -/

/-- Lines with identities and the snapshots that were taken of them. -/
structure TaggedWorkbench where
  /-- The lines. -/
  buffer : TaggedBuffer
  /-- The snapshots, the first one taken first. -/
  snapshots : List TaggedSnapshot
  deriving Repr, DecidableEq

namespace TaggedWorkbench

/-- A call: what it returns, and what is left. -/
def call (t : TaggedWorkbench) : Call → Except EditError Reply × TaggedWorkbench
  | .operate op =>
    match op.tagged t.buffer with
    | .ok (reply, buffer) => (.ok reply, { t with buffer })
    | .error e => (.error e, t)
  | .capture => (.ok .done, { t with snapshots := t.snapshots ++ [t.buffer.toTaggedSnapshot] })
  | .store number =>
    (.ok .done,
      { t with buffer := t.snapshots[number]?.elim t.buffer fun s => { t.buffer with saved := s } })
  | .setTargets indices => (.ok .done, { t with buffer := t.buffer.setTargets indices })
  | .nextTarget =>
    (.ok (.target (t.buffer.live.getLast?.bind (position? t.buffer.lines))),
      { t with buffer := t.buffer.dropTarget })

/-- Calls one after the other. -/
def run : List Call → TaggedWorkbench → List (Except EditError Reply) × TaggedWorkbench
  | [], t => ([], t)
  | call :: calls, t => ((t.call call).1 :: (run calls (t.call call).2).1,
    (run calls (t.call call).2).2)

end TaggedWorkbench

/-! ## Both answer alike -/

/-- A buffer and lines with identities agree, and so do the snapshots that were taken. -/
structure WorksAlike (w : Workbench) (t : TaggedWorkbench) : Prop where
  /-- The buffer agrees. -/
  buffer : Simulates Set.univ w.buffer t.buffer
  /-- The snapshots agree one by one. -/
  snapshots : List.Forall₂ (fun s u => Labels t.buffer.fresh Set.univ s.lines s.marks u)
    w.snapshots t.snapshots

namespace WorksAlike

variable {w : Workbench} {t : TaggedWorkbench}

/-- Snapshots stay labelled when more numbers have been given away. -/
theorem snapshots_mono {fresh fresh' : Nat} {ss : List Snapshot} {us : List TaggedSnapshot}
    (h : List.Forall₂ (fun s u => Labels fresh Set.univ s.lines s.marks u) ss us)
    (hle : fresh ≤ fresh') :
    List.Forall₂ (fun s u => Labels fresh' Set.univ s.lines s.marks u) ss us :=
  h.imp fun _ _ hlabels => hlabels.mono hle

/-- Snapshots of the same number agree, if there are any.

**Proof sketch.** Induction on the two lists of snapshots, which have the same length. -/
theorem getElem?_snapshots {fresh : Nat} {ss : List Snapshot} {us : List TaggedSnapshot}
    (h : List.Forall₂ (fun s u => Labels fresh Set.univ s.lines s.marks u) ss us) (number : Nat) :
    Option.Rel (fun s u => Labels fresh Set.univ s.lines s.marks u) ss[number]? us[number]? := by
  induction h generalizing number with
  | nil => exact .none
  | cons hhead _ ih =>
    cases number with
    | zero => exact .some hhead
    | succ number => exact ih number

/-- An operation on the buffer has the same reply and the same effect.

**Proof sketch.** The operation fails on both buffers or succeeds on both with the same reply, and
identities that are given away are only more than before, so that the snapshots stay labelled. -/
theorem operate (h : WorksAlike w t) (op : Operation) :
    (w.call (.operate op)).1 = (t.call (.operate op)).1 ∧
      WorksAlike (w.call (.operate op)).2 (t.call (.operate op)).2 := by
  have hends := h.buffer.operation op
  have hkeeps : ∀ reply n', op.tagged t.buffer = .ok (reply, n') → op.Keeps t.buffer n' :=
    fun _ _ => Operation.keeps
  simp only [Workbench.call, Workbench.act, TaggedWorkbench.call]
  generalize op.perform w.buffer = x at hends
  generalize op.tagged t.buffer = y at hends hkeeps
  cases hends with
  | ok hbuffer => exact ⟨rfl, hbuffer, snapshots_mono h.snapshots (hkeeps _ _ rfl).fresh⟩
  | error hbuffer => exact ⟨rfl, hbuffer, h.snapshots⟩

/-- Taking the next target has the same reply and the same effect.

**Proof sketch.** The last target is the same on both. If there is none, the array stays as it
is. -/
theorem nextTarget (h : WorksAlike w t) :
    (w.call .nextTarget).1 = (t.call .nextTarget).1 ∧
      WorksAlike (w.call .nextTarget).2 (t.call .nextTarget).2 := by
  have hdrop := h.buffer.dropTarget
  simp only [Workbench.call, Workbench.act, TaggedWorkbench.call, EState.map_apply,
    LineBuffer.nextTarget_apply]
  rw [← h.buffer.back?_targets]
  cases hback : w.buffer.targets.back? with
  | none =>
    have hpop : w.buffer.targets.pop = w.buffer.targets := by
      rw [Array.back?_eq_none_iff.1 hback]
      rfl
    rw [hpop] at hdrop
    exact ⟨rfl, hdrop, h.snapshots⟩
  | some index => exact ⟨rfl, hdrop, h.snapshots⟩

/-- A call has the same reply and the same effect.

**Proof sketch.** One case for each call. A snapshot that is taken labels the lines as the buffer
does, and one that is stored has been labelled when it was taken. -/
theorem call (h : WorksAlike w t) {call : Call} (hcall : w.Admits call) :
    (w.call call).1 = (t.call call).1 ∧ WorksAlike (w.call call).2 (t.call call).2 := by
  cases call with
  | operate op => exact h.operate op
  | capture =>
    refine ⟨rfl, h.buffer, List.rel_append h.snapshots ?_⟩
    exact .cons h.buffer.live .nil
  | store number =>
    refine ⟨rfl, ?_, ?_⟩
    · have hsnapshot := getElem?_snapshots h.snapshots number
      simp only [Workbench.call, TaggedWorkbench.call]
      generalize w.snapshots[number]? = s at hsnapshot
      generalize t.snapshots[number]? = u at hsnapshot
      cases hsnapshot with
      | none => exact h.buffer
      | some hlabels => exact h.buffer.storeSnapshot hlabels
    · simp only [Workbench.call, TaggedWorkbench.call]
      cases t.snapshots[number]? <;> exact h.snapshots
  | setTargets indices => exact ⟨rfl, h.buffer.setTargets hcall, h.snapshots⟩
  | nextTarget => exact h.nextTarget

/-- **A sequence of calls** has the same replies and the same effect.

**Proof sketch.** Induction on the calls; what one call preserves is `WorksAlike.call`. -/
theorem run (h : WorksAlike w t) {calls : List Call} (hcalls : w.AdmitsAll calls) :
    (w.run calls).1 = (t.run calls).1 ∧ WorksAlike (w.run calls).2 (t.run calls).2 := by
  induction calls generalizing w t with
  | nil => exact ⟨rfl, h⟩
  | cons call calls ih =>
    obtain ⟨hcall, hrest⟩ := hcalls
    obtain ⟨hreply, hnext⟩ := h.call hcall
    obtain ⟨hreplies, hend⟩ := ih hnext hrest
    refine ⟨?_, hend⟩
    rw [Workbench.run, TaggedWorkbench.run, hreply, hreplies]

end WorksAlike

/-- Marks are where the marked lines stand.

**Proof sketch.** A mark that is set keeps the number of a line or the identity of one, and the line
with this identity stands at this number, within the buffer. -/
theorem Simulates.mark? {b : LineBuffer} {n : TaggedBuffer} (h : Simulates Set.univ b n)
    (letter : UInt8) : b.mark? letter = n.mark? letter := by
  rw [LineBuffer.mark?, Marks.get?, TaggedBuffer.mark?]
  cases Marks.place? letter with
  | none => rfl
  | some place =>
    rw [Option.bind_some, Option.bind_some, h.live.marks place (Set.mem_univ _)]
    cases hmark : n.marks[place].bind (position? n.lines) with
    | none => rfl
    | some index =>
      obtain ⟨identity, -, hposition⟩ := Option.bind_eq_some_iff.1 hmark
      have hlt := lt_length_of_position? hposition
      rw [← h.size] at hlt
      simp [hlt]

/-- **Indices stay on their lines.** Whatever calls a buffer is used by, lines with identities give
the same replies, and afterwards the texts are theirs, each mark is where the line stands that it
marks, if this line still exists, and so are the pending indices.

**Proof sketch.** A buffer agrees with itself when its lines get identities (`Simulates.ofBuffer`),
and calls preserve that (`WorksAlike.run`). -/
theorem Workbench.run_eq_tagged {b : LineBuffer} (hb : b.InRange Set.univ) {calls : List Call}
    (hcalls : AdmitsAll calls ⟨b, []⟩) :
    let (replies, w) := Workbench.run calls ⟨b, []⟩
    let (replies', t) := TaggedWorkbench.run calls ⟨.ofBuffer b, []⟩
    replies = replies' ∧
      w.buffer.lines.toList = t.buffer.texts ∧
      (identities t.buffer.lines).Nodup ∧
      (∀ identity ∈ identities t.buffer.lines, identity < t.buffer.fresh) ∧
      (∀ letter, w.buffer.mark? letter = t.buffer.mark? letter) ∧
      w.buffer.targets.toList = t.buffer.pending := by
  have hstart : WorksAlike ⟨b, []⟩ ⟨.ofBuffer b, []⟩ := ⟨.ofBuffer hb, .nil⟩
  obtain ⟨hreplies, hend⟩ := hstart.run hcalls
  exact ⟨hreplies, hend.buffer.live.texts, hend.buffer.live.nodup, hend.buffer.live.lt_fresh,
    hend.buffer.mark?, hend.buffer.targets⟩

/-- Marks, targets, a move and a deletion that are undone together. -/
def moveAndUndo : List Call :=
  [.operate (.setMark (ascii 'b') 1), .setTargets [0, 2], .capture,
    .operate (.move ⟨0, 0⟩ (some 2)), .store 0, .nextTarget, .operate (.delete ⟨0, 0⟩),
    .operate .undo]

/-- Three lines, of which the first one is moved and the next one deleted, and the deletion undone.
The snapshot that is stored in between is from before the move. -/
theorem Workbench.run_eq_tagged_moveAndUndo :
    let b : LineBuffer := .ofLines [[ascii 'x'], [ascii 'y'], [ascii 'z']]
    let (replies, w) := Workbench.run moveAndUndo ⟨b, []⟩
    let (replies', t) := TaggedWorkbench.run moveAndUndo ⟨.ofBuffer b, []⟩
    b.InRange Set.univ ∧ AdmitsAll moveAndUndo ⟨b, []⟩ ∧
      replies = replies' ∧
      w.buffer.lines.toList = t.buffer.texts ∧
      (identities t.buffer.lines).Nodup ∧
      (∀ identity ∈ identities t.buffer.lines, identity < t.buffer.fresh) ∧
      (∀ letter, w.buffer.mark? letter = t.buffer.mark? letter) ∧
      w.buffer.targets.toList = t.buffer.pending :=
  have hrange := LineBuffer.inRange_ofLines _
  have hcalls : AdmitsAll moveAndUndo ⟨.ofLines _, []⟩ := by decide
  ⟨hrange, hcalls, Workbench.run_eq_tagged hrange hcalls⟩

end LineEditor
