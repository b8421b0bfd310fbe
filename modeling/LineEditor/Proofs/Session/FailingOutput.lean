import LineEditor.Proofs.Session.Truncation

set_option autoImplicit false
set_option relaxedAutoImplicit false

/-!
# Sessions whose output fails

A session that runs with a device which accepts only so many bytes does what it does with one that
accepts everything, up to the command line that writes one byte too many. There it ends, with the
error of the output, and whoever runs it is called once, with the buffer as that command line left
it. If there is room for everything, the session ends in the same way and leaves the same behind.

A session never ends because of an error of the user's, and so it does not die at all if neither the
output nor the input fails.

## Main definitions

* `LineEditor.Session.turn?`: the session as one of its command lines finds it.

## Main results

* `LineEditor.Session.turn?_limited`: up to the failure both sessions are the same.
* `LineEditor.Session.runWith_limited`: what a failure of the output leaves of a session.
-/

namespace LineEditor

open EState
open Session (Reliable)

/-! ## What ends a session -/

/-- Reading fails only with an error that ends the session. -/
theorem Source.failsWith_next : FailsWith (·.isFatal = true) next := by
  intro source e source' h
  unfold next at h
  split at h
  · cases h
  · cases h
  · split at h
    · cases h
    · split at h <;> cases h
      rfl

namespace Action

variable {α : Type} {E : EditError → Prop} {s t : Session} {e : EditError}

/-- Reading from the input fails as the reader does. -/
theorem failsWith_onInput {x : EStateM EditError Source α} (hx : FailsWith E x) :
    FailsWith E (onInput x) := by
  intro s e t h
  unfold onInput at h
  split at h
  · cases h
  · rename_i hresult
    cases h
    exact hx _ _ _ hresult

/-- Emitting fails fatally, if it does. -/
theorem failsWith_emit (bytes : Line) : FailsWith (·.isFatal = true) (emit bytes) :=
  fun _ _ _ h => (Reports.emit bytes).fatal h

/-- So does flushing. -/
theorem failsWith_flush : FailsWith (·.isFatal = true) flush := by
  intro ⟨editor, input, output, disk⟩ e t h
  unfold flush onOutput at h
  dsimp only at h
  split at h
  · cases h
  · rename_i hflush
    cases h
    exact Sink.isFatal_of_send hflush

/-- So does showing the prompt. -/
theorem failsWith_showPrompt : FailsWith (·.isFatal = true) showPrompt := by
  refine .get_bind fun s => ?_
  cases s.editor.prompt.visible? with
  | none => exact failsWith_flush
  | some prompt => exact (failsWith_emit prompt).bind fun _ => failsWith_flush

/-- So does reporting an error. -/
theorem failsWith_report (e : EditError) : FailsWith (·.isFatal = true) (report e) :=
  (FailsWith.modify _).bind fun _ => .get_bind fun _ =>
    .ite (fun _ _ _ h => (Reports.emitLine _).fatal h) (failsWith_emit _)

/-- An error that is the user's to correct does not end a command line, but is reported. -/
theorem failsWith_attempt (text : Line) : FailsWith (·.isFatal = true) (attempt text) := by
  intro s e t h
  unfold attempt at h
  split at h
  · cases h
  · exact (failsWith_flush.bind fun _ => .pure Outcome.quit) _ e t h
  · rename_i e' u _
    split at h
    · rename_i hfatal
      cases h
      exact hfatal
    · exact ((failsWith_report e').bind fun _ => .pure Outcome.continued) u e t h

/-- So does a command line of a session.

**Proof sketch.** The prompt and the input fail fatally, and an attempt fails fatally since the
errors of the user are reported. -/
theorem failsWith_step : FailsWith (·.isFatal = true) step := by
  rw [step_eq_bind]
  refine (failsWith_showPrompt.bind fun _ => failsWith_onInput Source.failsWith_next).bind
    fun text? => ?_
  cases text? with
  | none => exact .pure _
  | some text => exact failsWith_attempt text

/-- **No error of the user's ends a session.** -/
theorem failsWith_steps (rounds : Nat) : FailsWith (·.isFatal = true) (steps rounds) := by
  induction rounds with
  | zero => exact .pure _
  | succ rounds ih =>
    refine failsWith_step.bind fun outcome => ?_
    cases outcome with
    | quit => exact .pure _
    | continued => exact ih

end Action

/-! ## The command lines of a session -/

namespace Session

open LineEditor.Action

variable {s t u : Session} {e : EditError}

/-- The session as the command line of a given number finds it, counted from 0; `none` if the
session does not get that far. -/
def turn? : Nat → Session → Option Session
  | 0, s => some s
  | k + 1, s =>
    match step s with
    | .ok .continued t => t.turn? k
    | _ => none

/-- A session that dies does so at one of its command lines, and is left as that one left it.

**Proof sketch.** By induction on the command lines: the first one fails, or it does not end the
session and the others fail. -/
theorem exists_turn?_of_steps_error {rounds : Nat} (h : steps rounds s = .error e u) :
    ∃ k t, s.turn? k = some t ∧ step t = .error e u := by
  induction rounds generalizing s with
  | zero => cases h
  | succ rounds ih =>
    rw [steps, bind_apply] at h
    cases hstep : step s with
    | error e' u' =>
      rw [hstep] at h
      cases h
      exact ⟨0, s, rfl, hstep⟩
    | ok outcome t =>
      rw [hstep] at h
      cases outcome with
      | quit => cases h
      | continued =>
        obtain ⟨k, t', hturn, hend⟩ := ih h
        refine ⟨k + 1, t', ?_, hend⟩
        rw [turn?, hstep]
        exact hturn

/-- **Up to the failure both sessions are the same** but for the room that is left, by induction on
the command lines.

**Proof sketch.** By induction on the command lines. With room for what the first one writes, both
sessions go on from the same session but for that room; with less, the limited one has ended. -/
theorem turn?_limited {k n : Nat} (hs : s.output.Endless) (h : (s.limited n).turn? k = some t) :
    ∃ m u, t = u.limited m ∧ s.turn? k = some u := by
  induction k generalizing s n with
  | zero =>
    cases h
    exact ⟨n, s, rfl, rfl⟩
  | succ k ih =>
    obtain ⟨bytes, hcut⟩ := truncates_step.cut s hs
    by_cases hn : n < bytes.size
    · obtain ⟨u, hfail, -⟩ := hcut.short n hn
      rw [turn?, hfail] at h
      cases h
    · rw [turn?, hcut.enough n (Nat.not_lt.1 hn)] at h
      have houtput := hcut.output
      rw [turn?]
      cases hstep : step s with
      | error e u =>
        rw [hstep] at h
        cases h
      | ok outcome u =>
        rw [hstep] at h
        cases outcome with
        | quit => cases h
        | continued =>
          rw [after_of_ok hstep] at houtput
          exact ih (houtput ▸ ⟨hs.buffers, hs.room⟩) h

/-- A session that dies returns its error and what it has left. -/
theorem run_of_error (h : steps (s.input.size + 1) s = .error e u) : s.run = (.fatal e, u) := by
  rw [run, h]

/-- What a session leaves is what its command lines leave. -/
theorem after_steps_eq (s : Session) : after (steps (s.input.size + 1)) s = s.run.2 := by
  unfold run after
  cases steps (s.input.size + 1) s <;> rfl

/-- With room for all that is written, a session ends in the same way and leaves the same behind. -/
theorem runWith_of_enough {bytes : Array UInt8} {n : Nat} (hook : FatalHook)
    (hcut : Cut (steps (s.input.size + 1)) s bytes) (hn : bytes.size ≤ n) :
    (s.limited n).runWith hook =
      ((s.runWith hook).1, (s.runWith hook).2.limited (n - bytes.size)) := by
  have henough := hcut.enough n hn
  have hinput : (s.limited n).input = s.input := rfl
  unfold runWith run
  rw [hinput, henough]
  cases steps (s.input.size + 1) s <;> rfl

/-- Where neither the output nor the input fails, a session does not die. -/
theorem run_of_reliable (hs : s.Reliable) : s.run.1 = .quit := by
  unfold run
  cases h : steps (s.input.size + 1) s with
  | ok _ t => rfl
  | error e t =>
    obtain ⟨he, -⟩ := (truncates_steps _).recovers.of_error hs h
    exact absurd (he.symm.trans (failsWith_steps _ s e t h)) Bool.false_ne_true

/-- **What a failure of the output leaves of a session**, for every editor, input and disk, and
every number of bytes that the device accepts. If this is enough for all that the session writes to
a device without limit, it ends in the same way, and editor, input, output and disk are the same.
Otherwise the output is as much of this as the device accepts. Then the session dies from the error
of the output: there is a command line up to which both sessions are the same, but which fails with
the limited device, and the hook is called once, with the buffer and the disk as this command line
left them. Where neither the output nor the input fails, a session does not die.

**Proof sketch.** The command lines of a session are cut short by the device
(`Action.truncates_steps`), which tells the output and the error. A session dies at one of its
command lines (`exists_turn?_of_steps_error`), before which the device has not been full
(`turn?_limited`). All errors that end a session are those of the device or of the source
(`Action.failsWith_steps`), and these two are unfailing in the last case. -/
theorem runWith_limited (editor : Editor) (input : Source) (disk : Disk) (reason : String) :
    let start (room : Option Nat) : Session := ⟨editor, input, .direct room reason, disk⟩
    let written := (start none).run.2.output.delivered
    (∀ n, written.size ≤ n → ∀ hook,
      let (ending, final) := (start none).runWith hook
      (start (some n)).runWith hook = (ending, final.limited (n - written.size))) ∧
    (∀ n, n < written.size → ∃ k t m u,
      (start none).turn? k = some t ∧ (start (some n)).turn? k = some (t.limited m) ∧
        step (t.limited m) = .error (.output reason) u ∧
        u.output.delivered = written.extract 0 n ∧
        ∀ hook, (start (some n)).runWith hook =
          (.fatal (.output reason), { u with disk := hook u.buffer u.disk })) ∧
    (input.Unbroken → ∀ output : Sink, output.room = none →
      (⟨editor, input, output, disk⟩ : Session).run.1 = .quit) := by
  intro start written
  have hendless : (start none).output.Endless := ⟨rfl, rfl⟩
  have hlimited (n : Nat) : start (some n) = (start none).limited n := rfl
  obtain ⟨bytes, hcut⟩ := (truncates_steps (input.size + 1)).cut (start none) hendless
  have hwritten : written = bytes := by
    have houtput := congrArg Sink.delivered (hcut.output)
    have hafter : after (steps (input.size + 1)) (start none) = (start none).run.2 :=
      after_steps_eq (start none)
    rw [hafter] at houtput
    exact houtput.trans (Array.empty_append ..)
  refine ⟨fun n hn hook => ?_, fun n hn => ?_, fun hinput output hroom => ?_⟩
  · rw [hlimited, hwritten]
    exact runWith_of_enough hook hcut (hwritten ▸ hn)
  · obtain ⟨u, hfail, hfull⟩ := hcut.short n (hwritten ▸ hn)
    obtain ⟨k, t', hturn, hstep⟩ := exists_turn?_of_steps_error hfail
    obtain ⟨m, t, rfl, hfree⟩ := turn?_limited hendless hturn
    refine ⟨k, t, m, u, hfree, hturn, hstep, ?_, fun hook => ?_⟩
    · rw [hfull, hwritten]
      exact Array.empty_append ..
    · have hrun : (start (some n)).run = (.fatal (.output reason), u) := run_of_error hfail
      unfold runWith
      rw [hrun]
      rfl
  · exact run_of_reliable ⟨hroom, hinput⟩

/-- A line is printed, then the number of lines, of which only the digit is accepted. The third
command line, which deletes a line, is not carried out any more. -/
example :
    let start (room : Option Nat) : Session :=
      ⟨.ofLines [Line.ofString "a", Line.ofString "b"],
        .stream (Line.ofString "1p\n$=\n1d\n") none, .direct room "full", ⟨[], []⟩⟩
    (start none).run.2.output.delivered = (Line.ofString "a\n2\n").toArray ∧
      (start none).run.2.buffer.size = 1 ∧
      (start (some 3)).run.1 = .fatal (.output "full") ∧
      (start (some 3)).run.2.output.delivered = (Line.ofString "a\n2").toArray ∧
      (start (some 3)).run.2.buffer.size = 2 := by
  decide +kernel

end Session

end LineEditor
