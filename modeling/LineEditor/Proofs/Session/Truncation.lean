import LineEditor.Proofs.Session.Invariants
import LineEditor.Proofs.Session.UserErrors

set_option autoImplicit false
set_option relaxedAutoImplicit false

/-!
# Output that breaks off

A device may accept no more bytes while a session runs. What an action does is then told by what it
does with a device that accepts everything: if there is room for all that it writes, it does the
same; otherwise the device gets as many of the bytes as it has room for, and the action fails at the
first one that is too many, with the error of the output. Nothing is written after that, since no
part of a command takes that error for one of the user's.

The same rules show that without a failure of the device or of the input all errors are the user's
to correct.

## Main definitions

* `LineEditor.Session.limited`: a session whose device has room for some more bytes.
* `LineEditor.Action.Cut`: what an action does with a limited device, from one session.
* `LineEditor.Action.Truncates`: actions that are cut short in this way.

## Main results

* `LineEditor.Action.Truncates.resume`: an action may go on after a failure, but not after one of
  the output.
* `LineEditor.Action.truncates_execute`: command lines are cut short in this way.
-/

namespace LineEditor

open EState

/-! ## Devices -/

namespace Sink

/-- A device without buffers that accepts everything. -/
structure Endless (sink : Sink) : Prop where
  /-- There are no buffers. -/
  buffers : sink.buffers = []
  /-- There is no limit. -/
  room : sink.room = none

/-- A device that has room for a number of bytes more. -/
def limited (sink : Sink) (n : Nat) : Sink := { sink with room := some n }

/-- A device that has accepted some bytes more. -/
def appended (sink : Sink) (bytes : Array UInt8) : Sink :=
  { sink with delivered := sink.delivered ++ bytes }

/-- A device that accepts nothing stays as it is. -/
theorem appended_empty (sink : Sink) : sink.appended #[] = sink := by
  unfold appended
  rw [Array.append_empty]

/-- Accepting bytes in two portions is accepting them all. -/
theorem appended_append (sink : Sink) (bytes more : Array UInt8) :
    sink.appended (bytes ++ more) = (sink.appended bytes).appended more := by
  unfold appended
  rw [Array.append_assoc]

/-- An endless device accepts all that is sent to it. -/
theorem send_of_endless {sink : Sink} (h : sink.Endless) (flushed : Bool)
    (pieces : List (Array UInt8)) :
    send flushed pieces sink = .ok () (sink.appended (joinPieces pieces)) := by
  obtain ⟨delivered, buffers, room, reason⟩ := sink
  obtain ⟨rfl, rfl⟩ := h
  rfl

/-- An endless device that is limited accepts what it has room for. If that is not all, the rest is
lost and sending fails. -/
theorem send_limited {sink : Sink} (h : sink.Endless) (flushed : Bool)
    (pieces : List (Array UInt8)) (n : Nat) :
    send flushed pieces (sink.limited n) =
      if (joinPieces pieces).size ≤ n then
        .ok () ((sink.appended (joinPieces pieces)).limited (n - (joinPieces pieces).size))
      else
        .error (.output sink.reason)
          ((sink.appended ((joinPieces pieces).extract 0 n)).limited 0) := by
  obtain ⟨delivered, buffers, room, reason⟩ := sink
  obtain ⟨rfl, rfl⟩ := h
  rfl

/-- Without a limit nothing can fail, whatever stands in front of the device. -/
theorem send_of_room {sink : Sink} (h : sink.room = none) (flushed : Bool)
    (pieces : List (Array UInt8)) :
    ∃ sink', send flushed pieces sink = .ok () sink' ∧ sink'.room = none := by
  obtain ⟨delivered, buffers, room, reason⟩ := sink
  obtain rfl : room = none := h
  exact ⟨_, rfl, rfl⟩

end Sink

namespace Session

/-- A session with another output. -/
def withOutput (s : Session) (output : Sink) : Session := { s with output }

/-- A session whose device has room for a number of bytes more. -/
def limited (s : Session) (n : Nat) : Session := s.withOutput (s.output.limited n)

/-- Neither the output nor the input of a session can fail. -/
structure Reliable (s : Session) : Prop where
  /-- The device accepts everything. -/
  output : s.output.room = none
  /-- The source does not break. -/
  input : s.input.Unbroken

/-- A function changes neither the input nor the output of a session, and does not look at them. -/
def Aside (h : Session → Session) : Prop :=
  ∀ s input output, h { s with input, output } = { h s with input, output }

variable {h : Session → Session}

/-- What is done aside leaves the output alone. -/
theorem Aside.output (hh : Aside h) (s : Session) : (h s).output = s.output := by
  have hself := congrArg Session.output (hh s s.input s.output)
  exact hself

/-- What is done aside leaves the input alone. -/
theorem Aside.input (hh : Aside h) (s : Session) : (h s).input = s.input := by
  have hself := congrArg Session.input (hh s s.input s.output)
  exact hself

/-- What is done aside does not depend on the output. -/
theorem Aside.withOutput (hh : Aside h) (s : Session) (output : Sink) :
    h (s.withOutput output) = (h s).withOutput output := by
  rw [Session.withOutput, Session.withOutput, hh s s.input output, hh.input]

/-- What is done aside keeps a session reliable. -/
theorem Aside.reliable (hh : Aside h) {s : Session} (hs : s.Reliable) : (h s).Reliable :=
  ⟨(congrArg Sink.room (hh.output s)).trans hs.output, hh.input s ▸ hs.input⟩

end Session

open EditError (Recoverable)
open Session (Aside Reliable)

namespace Action

variable {α β : Type} {s t : Session} {bytes more : Array UInt8}

/-! ## What is cut off -/

/-- An action writes some bytes to the endless device of a session, and with a limited device it is
cut short. -/
structure Cut (x : Action α) (s : Session) (bytes : Array UInt8) : Prop where
  /-- This is what it writes. -/
  output : (after x s).output = s.output.appended bytes
  /-- With room for all of it the same happens. -/
  enough : ∀ n, bytes.size ≤ n →
    x (s.limited n) = mapState (·.limited (n - bytes.size)) (x s)
  /-- With less room it fails, and the device is full. -/
  short : ∀ n, n < bytes.size → ∃ t, x (s.limited n) = .error (.output s.output.reason) t ∧
    t.output = (s.output.appended (bytes.extract 0 n)).limited 0

/-- An action that starts with another one and goes on from where that one ends.

**Proof sketch.** Let the whole write `bytes ++ more`. With room for both, the first action ends
with `n - bytes.size` bytes left, which is room enough for the second. With room for `bytes` only,
the second action is the one that is cut short. With less, the first is, and by hypothesis the whole
fails with it. -/
theorem Cut.andThen {x : Action α} {y z : Action β} (hx : Cut x s bytes) (hy : Cut y t more)
    (ht : after x s = t) (hz : z s = y t)
    (henough : ∀ n, bytes.size ≤ n → z (s.limited n) = y (t.limited (n - bytes.size)))
    (hshort : ∀ n, n < bytes.size → ∃ u, z (s.limited n) = .error (.output s.output.reason) u ∧
      u.output = (s.output.appended (bytes.extract 0 n)).limited 0) :
    Cut z s (bytes ++ more) := by
  have houtput : t.output = s.output.appended bytes := ht ▸ hx.output
  refine ⟨?_, fun n hn => ?_, fun n hn => ?_⟩
  · rw [after, hz, ← after, hy.output, houtput, Sink.appended_append]
  · rw [Array.size_append] at hn
    rw [henough n (by omega), hy.enough _ (by omega), hz, Array.size_append, Nat.sub_sub]
  · rw [Array.size_append] at hn
    rw [Array.extract_append, Nat.zero_sub]
    by_cases hlt : n < bytes.size
    · obtain ⟨u, hu, hfull⟩ := hshort n hlt
      rw [show n - bytes.size = 0 by omega, Array.extract_zero, Array.append_empty]
      exact ⟨u, hu, hfull⟩
    · rw [Nat.not_lt] at hlt
      obtain ⟨u, hu, hfull⟩ := hy.short (n - bytes.size) (by omega)
      refine ⟨u, ?_, ?_⟩
      · rw [henough n hlt, hu, houtput]
        rfl
      · rw [hfull, houtput, Sink.appended_append, Array.extract_eq_self_of_le hlt]

/-- An action is cut short by a limited device, and from a session in which nothing can fail it
fails with errors of the user's only. -/
structure Truncates (x : Action α) : Prop where
  /-- It writes something, and with a limited device it is cut short. -/
  cut : ∀ s : Session, s.output.Endless → ∃ bytes, Cut x s bytes
  /-- Where nothing can fail, errors are the user's. -/
  recovers : Recovers Reliable x

/-- An action that fails with an error and does something aside. -/
def Relays (e : EditError) (x : Action α) : Prop := ∃ h, Aside h ∧ ∀ s, x s = .error e (h s)

/-- Throwing an error does nothing aside. -/
theorem Relays.throw (e : EditError) : Relays e (MonadExcept.throw e : Action α) :=
  ⟨id, fun _ _ _ => rfl, fun _ => rfl⟩

/-- A failure writes nothing. -/
theorem Relays.cut {e : EditError} {x : Action α} (hx : Relays e x) (s : Session) :
    Cut x s #[] := by
  obtain ⟨h, hh, hx⟩ := hx
  refine ⟨?_, fun n _ => ?_, fun n hn => absurd hn (Nat.not_lt_zero n)⟩
  · rw [after_of_error (hx s), hh.output, Sink.appended_empty]
  · rw [hx, hx, Session.limited, hh.withOutput, ← hh.output s]
    rfl

namespace Truncates

/-! ## Rules -/

/-- What does not look at the output writes nothing. -/
theorem of_silent {x : Action α}
    (hsilent : ∀ s output, x (s.withOutput output) = mapState (·.withOutput output) (x s))
    (hrecovers : Recovers Reliable x) : Truncates x := by
  refine ⟨fun s _ => ?_, hrecovers⟩
  have houtput : (after x s).output = s.output := by
    have hself := congrArg final (hsilent s s.output)
    rw [final_mapState] at hself
    have houtput := congrArg Session.output hself
    exact houtput
  refine ⟨#[], ?_, fun n _ => ?_, fun n hn => absurd hn (Nat.not_lt_zero n)⟩
  · rw [houtput, Sink.appended_empty]
  · rw [Session.limited, hsilent]
    unfold after at houtput
    cases hx : x s with
    | ok a t =>
      rw [hx] at houtput
      rw [← houtput]
      rfl
    | error e t =>
      rw [hx] at houtput
      rw [← houtput]
      rfl

/-- **What follows an action may go on after a failure**, if it does not after one of the output.

**Proof sketch.** From an endless device the first action writes some bytes, and what follows it
writes more, whether it succeeded or not: the two are put together by `Cut.andThen`. Where the
device is full already in the first action, the error is the output's. The handler passes that error
on by hypothesis, so that no more is written. -/
theorem resume {x : Action α} {f : α → Action β} {g : EditError → Action β} (hx : Truncates x)
    (hf : ∀ a, Truncates (f a)) (hg : ∀ e, e.Recoverable → Truncates (g e))
    (hrelay : ∀ e, ¬ e.Recoverable → Relays e (g e)) : Truncates (EState.resume x f g) := by
  refine ⟨fun s hs => ?_, hx.recovers.resume (fun a => (hf a).recovers) fun e he =>
    (hg e he).recovers⟩
  obtain ⟨bytes, hcut⟩ := hx.cut s hs
  have hshort : ∀ n, n < bytes.size → ∃ u,
      EState.resume x f g (s.limited n) = .error (.output s.output.reason) u ∧
        u.output = (s.output.appended (bytes.extract 0 n)).limited 0 := by
    intro n hn
    obtain ⟨u, hu, hfull⟩ := hcut.short n hn
    obtain ⟨h, hh, hrelayed⟩ := hrelay (.output s.output.reason) Bool.noConfusion
    refine ⟨h u, ?_, (hh.output u).trans hfull⟩
    rw [EState.resume, hu]
    exact hrelayed u
  have hendless {t : Session} (ht : after x s = t) : t.output.Endless := by
    rw [← ht, hcut.output]
    exact ⟨hs.buffers, hs.room⟩
  cases hxs : x s with
  | ok a t =>
    obtain ⟨more, hmore⟩ := (hf a).cut t (hendless (after_of_ok hxs))
    refine ⟨bytes ++ more, hcut.andThen hmore (after_of_ok hxs) ?_ (fun n hn => ?_) hshort⟩
    · rw [EState.resume, hxs]
    · rw [EState.resume, hcut.enough n hn, hxs]
      rfl
  | error e t =>
    have hnext : ∃ more, Cut (g e) t more := by
      by_cases he : e.Recoverable
      · exact (hg e he).cut t (hendless (after_of_error hxs))
      · exact ⟨#[], (hrelay e he).cut t⟩
    obtain ⟨more, hmore⟩ := hnext
    refine ⟨bytes ++ more, hcut.andThen hmore (after_of_error hxs) ?_ (fun n hn => ?_) hshort⟩
    · rw [EState.resume, hxs]
    · rw [EState.resume, hcut.enough n hn, hxs]
      rfl

/-- An action that only answers is not cut short. -/
theorem pure (a : α) : Truncates (Pure.pure a : Action α) := of_silent (fun _ _ => rfl) (.pure a)

/-- An action that fails with an error of the user is not cut short. -/
theorem throw {e : EditError} (he : e.Recoverable) :
    Truncates (MonadExcept.throw e : Action α) := of_silent (fun _ _ => rfl) (.throw he)

/-- Nor is a result that is taken over from a computation without a state. -/
theorem ofResult {r : Except EditError α} (h : ∀ e, r = .error e → e.Recoverable) :
    Truncates (LineEditor.ofResult r : Action α) := by
  cases r with
  | ok a => exact pure a
  | error e => exact throw (h e rfl)

/-- Actions can be put one after the other.

**Proof sketch.** This is `resume` with a handler that throws every error again. -/
theorem bind {x : Action α} {f : α → Action β} (hx : Truncates x) (hf : ∀ a, Truncates (f a)) :
    Truncates (x >>= f) := by
  rw [← resume_throw]
  exact hx.resume hf (fun _ he => throw he) fun e _ => .throw e

/-- A choice between two actions is cut short as they are. -/
theorem ite {c : Prop} [Decidable c] {x y : Action α} (hx : Truncates x) (hy : Truncates y) :
    Truncates (if c then x else y) := by
  split
  · exact hx
  · exact hy

/-- The session that is asked for may be looked at, but for its output. -/
theorem get_bind {f : Session → Action α} (hblind : ∀ s output, f (s.withOutput output) = f s)
    (hf : ∀ s, Truncates (f s)) : Truncates (get >>= f) := by
  refine ⟨fun s hs => ?_, fun s hs => (hf s).recovers s hs⟩
  obtain ⟨bytes, hcut⟩ := (hf s).cut s hs
  have hlimited (n : Nat) : (get >>= f) (s.limited n) = f s (s.limited n) :=
    congrFun (hblind s (s.output.limited n)) (s.limited n)
  refine ⟨bytes, hcut.output, fun n hn => ?_, fun n hn => ?_⟩
  · rw [hlimited]
    exact hcut.enough n hn
  · rw [hlimited]
    exact hcut.short n hn

/-- Changing a session aside writes nothing. -/
theorem modify {h : Session → Session} (hh : Aside h) :
    Truncates (MonadState.modifyGet fun s => (PUnit.unit, h s) : Action PUnit) :=
  of_silent (fun s output => congrArg (EStateM.Result.ok PUnit.unit) (hh.withOutput s output))
    fun _ hs => hh.reliable hs

/-- What is done aside after an action, whether it fails or not. -/
theorem afterwards {x : Action α} (hx : Truncates x) {h h' : Session → Session} (hh : Aside h)
    (hh' : Aside h') :
    Truncates (EState.resume x (fun a t => .ok a (h t)) fun e t => .error e (h' t)) := by
  refine hx.resume (fun a => ?_) (fun e he => ?_) fun e _ => ⟨h', hh', fun _ => rfl⟩
  · exact of_silent (fun s output => congrArg (EStateM.Result.ok a) (hh.withOutput s output))
      fun _ hs => hh.reliable hs
  · exact of_silent (fun s output => congrArg (EStateM.Result.error e) (hh'.withOutput s output))
      fun _ hs => ⟨he, hh'.reliable hs⟩

/-! ## Parts of a session -/

/-- An operation on the buffer writes nothing. -/
theorem onBuffer {x : BufferAction α} (hx : FailsWith Recoverable x) :
    Truncates (Action.onBuffer x) := by
  refine of_silent (fun s output => ?_) fun s hs => ?_
  · have hbuffer : (s.withOutput output).buffer = s.buffer := rfl
    rw [onBuffer_apply, onBuffer_apply, hbuffer]
    cases x s.buffer <;> rfl
  · rw [onBuffer_apply]
    cases hresult : x s.buffer with
    | ok a b => exact ⟨hs.output, hs.input⟩
    | error e b => exact ⟨hx _ _ _ hresult, hs.output, hs.input⟩

/-- Recalling a pattern writes nothing. -/
theorem onPattern {x : Recall α} (hx : FailsWith Recoverable x) :
    Truncates (Action.onPattern x) := by
  refine of_silent (fun s output => ?_) fun s hs => ?_
  · have heditor : (s.withOutput output).editor = s.editor := rfl
    unfold Action.onPattern
    rw [heditor]
    cases x s.editor.lastPattern <;> rfl
  · unfold Action.onPattern
    cases hresult : x s.editor.lastPattern with
    | ok a p => exact ⟨hs.output, hs.input⟩
    | error e p => exact ⟨hx _ _ _ hresult, hs.output, hs.input⟩

/-- Reading from the input writes nothing.

**Proof sketch.** The input is not the output, so that the action is silent. It recovers because the
source it reads from is unbroken, and stays so. -/
theorem onInput {x : EStateM EditError Source α} (hx : Recovers Source.Unbroken x) :
    Truncates (Action.onInput x) := by
  refine of_silent (fun s output => ?_) fun s hs => ?_
  · have hinput : (s.withOutput output).input = s.input := rfl
    unfold Action.onInput
    rw [hinput]
    cases x s.input <;> rfl
  · unfold Action.onInput
    cases hresult : x s.input with
    | ok a source => exact ⟨hs.output, hx.of_ok hs.input hresult⟩
    | error e source =>
      obtain ⟨he, hsource⟩ := hx.of_error hs.input hresult
      exact ⟨he, hs.output, hsource⟩

/-- Changing the editor writes nothing. -/
theorem changeEditor (f : Editor → Editor) : Truncates (Action.changeEditor f) :=
  modify fun _ _ _ => rfl

/-- Changing the buffer writes nothing. -/
theorem changeBuffer (f : LineBuffer → LineBuffer) : Truncates (Action.changeBuffer f) :=
  modify fun _ _ _ => rfl

/-- What is handed to the device is what is cut off.

**Proof sketch.** By what `Sink.send` does with an endless device, limited or not. -/
theorem send (flushed : Bool) (pieces : List (Array UInt8)) :
    Truncates (onOutput (Sink.send flushed pieces)) := by
  refine ⟨fun s hs => ⟨joinPieces pieces, ?_, fun n hn => ?_, fun n hn => ?_⟩, fun s hs => ?_⟩
  · unfold onOutput after
    dsimp only
    rw [Sink.send_of_endless hs]
    rfl
  · unfold onOutput Session.limited Session.withOutput
    dsimp only
    rw [Sink.send_limited hs, if_pos hn, Sink.send_of_endless hs]
    rfl
  · unfold onOutput Session.limited Session.withOutput
    dsimp only
    rw [Sink.send_limited hs, if_neg (Nat.not_le.2 hn)]
    exact ⟨_, rfl, rfl⟩
  · obtain ⟨sink, hsend, hroom⟩ := Sink.send_of_room hs.output flushed pieces
    unfold onOutput
    dsimp only
    rw [hsend]
    exact ⟨hroom, hs.input⟩

/-- Bytes that are emitted are cut off. -/
theorem emit (bytes : Line) : Truncates (Action.emit bytes) := send _ _

/-- Flushing writes what the buffers hold, which for an endless device is nothing. -/
theorem flush : Truncates Action.flush := send _ _

/-- So are several pieces that are emitted at once. -/
theorem emitAll (pieces : List Line) : Truncates (Action.emitAll pieces) := by
  induction pieces with
  | nil => exact pure _
  | cons piece pieces ih => exact (emit piece).bind fun _ => ih

/-- So is a line. -/
theorem emitLine (line : Line) : Truncates (Action.emitLine line) := emitAll _

/-- The lines that an action reads instead of the input cannot fail.

**Proof sketch.** The action runs on the script, which is as unbroken as a source can be, and the
session gets its own input back whatever happens. Nothing of this touches the output. -/
theorem withInput {x : Action α} (hx : Truncates x) (lines : List Line) :
    Truncates (Action.withInput (.script lines) x) := by
  refine ⟨fun s hs => ?_, fun s hs => ?_⟩
  · obtain ⟨bytes, hcut⟩ := hx.cut { s with input := .script lines } hs
    refine ⟨bytes, ?_, fun n hn => ?_, fun n hn => ?_⟩
    · have houtput := hcut.output
      unfold Action.withInput after
      dsimp only
      unfold after at houtput
      generalize x _ = result at houtput
      cases result <;> exact houtput
    · have henough := hcut.enough n hn
      unfold Action.withInput Session.limited Session.withOutput
      dsimp only
      unfold Session.limited Session.withOutput at henough
      rw [henough]
      cases x { s with input := .script lines } <;> rfl
    · obtain ⟨t, ht, hfull⟩ := hcut.short n hn
      unfold Action.withInput Session.limited Session.withOutput
      dsimp only
      unfold Session.limited Session.withOutput at ht
      rw [ht]
      exact ⟨_, rfl, hfull⟩
  · have hs' : ({ s with input := .script lines } : Session).Reliable := ⟨hs.output, trivial⟩
    unfold Action.withInput
    dsimp only
    cases hresult : x { s with input := .script lines } with
    | ok a t => exact ⟨(hx.recovers.of_ok hs' hresult).output, hs.input⟩
    | error e t =>
      obtain ⟨he, ht⟩ := hx.recovers.of_error hs' hresult
      exact ⟨he, ht.output, hs.input⟩

end Truncates

/-! ## Printing -/

/-- Printed lines are cut off. -/
theorem truncates_print (r : LineRange) (mode : PrintMode) : Truncates (print r mode) :=
  (Truncates.onBuffer (LineBuffer.failsWith_checkRange r)).bind fun _ =>
    .get_bind (fun _ _ => rfl) fun _ => (Truncates.emitAll _).bind fun _ =>
      .onBuffer (LineBuffer.failsWith_setCurrent r.last)

/-- So is the current line. -/
theorem truncates_printCurrent (mode : PrintMode) : Truncates (printCurrent mode) := by
  refine .get_bind (fun _ _ => rfl) fun s => ?_
  cases s.buffer.current with
  | none => exact .throw rfl
  | some index => exact truncates_print _ mode

/-- So is the size of a file. -/
theorem truncates_reportSize (size : Nat) : Truncates (reportSize size) :=
  .get_bind (fun _ _ => rfl) fun _ => .ite (.pure _) (.emitLine _)

/-- The message of the last error, if it is shown. -/
theorem truncates_explain (e? : Option EditError) : Truncates (explain e?) := by
  cases e? with
  | none => exact .pure _
  | some e => exact (Truncates.emitLine _).bind fun _ => .pure _

/-! ## Files -/

/-- Quitting writes nothing. -/
theorem truncates_quitSession (force : Bool) : Truncates (quitSession force) :=
  .get_bind (fun _ _ => rfl) fun _ =>
    .ite ((Truncates.throw (e := .bufferModified) rfl).bind fun _ => .pure _) (.pure _)

/-- A file name that is asked for writes nothing. -/
theorem truncates_nameOrStored (path : Option FileName) : Truncates (nameOrStored path) := by
  refine .get_bind (fun _ _ => rfl) fun s => ?_
  cases path.or s.buffer.filename with
  | none => exact .throw rfl
  | some name => exact .pure name

/-- Loading a file writes nothing to the output. -/
theorem truncates_load (name : FileName) : Truncates (load name) :=
  .get_bind (fun _ _ => rfl) fun _ =>
    (Truncates.ofResult fun _ => Disk.recoverable_of_readLines).bind fun _ =>
      (Truncates.changeBuffer _).bind fun _ => .pure _

/-- Nor does reading a file into the buffer. -/
theorem truncates_insertFile (name : FileName) (after : Option Nat) :
    Truncates (insertFile name after) :=
  .get_bind (fun _ _ => rfl) fun _ =>
    (Truncates.ofResult fun _ => Disk.recoverable_of_readLines).bind fun _ =>
      (Truncates.changeBuffer _).bind fun _ =>
        (Truncates.onBuffer (LineBuffer.failsWith_append _ _)).bind fun _ => .pure _

/-- Nor does writing lines to the disk.

**Proof sketch.** The disk is not the device of the session: changing the output changes neither the
answer of the disk nor the disk afterwards. -/
theorem truncates_writeLines (name : FileName) (lines : Array Line) (append : Bool) :
    Truncates (writeLines name lines append) := by
  refine .of_silent (fun s output => ?_) fun s hs => ?_
  · have hdisk : (s.withOutput output).disk = s.disk := rfl
    rw [writeLines_apply, writeLines_apply, hdisk]
    cases s.disk.writeLines name lines.toList append <;> rfl
  · rw [writeLines_apply]
    cases hwrite : s.disk.writeLines name lines.toList append with
    | error e => exact ⟨Disk.recoverable_of_writeLines hwrite, hs⟩
    | ok written => exact ⟨hs.output, hs.input⟩

/-- Nor does writing the buffer. -/
theorem truncates_write (path : Option FileName) : Truncates (write path) :=
  (Truncates.onBuffer (LineBuffer.failsWith_resolveFilename path true)).bind fun _ =>
    .get_bind (fun _ _ => rfl) fun _ => (truncates_writeLines _ _ _).bind fun _ =>
      (Truncates.changeBuffer _).bind fun _ => .pure _

/-- Nor does writing a part of it.

**Proof sketch.** The name is resolved, the range is checked if there is one, and the lines are
written and the buffer marked as saved. Each of these steps is silent. -/
theorem truncates_writeRange (range : Option LineRange) (path : Option FileName) (append : Bool) :
    Truncates (writeRange range path append) := by
  have hname := LineBuffer.failsWith_resolveFilename path !append
  refine (Truncates.onBuffer hname).bind fun name => ?_
  have hrest (lines : LineBuffer → Array Line) : Truncates (do
      let b := (← get).buffer
      let bytes ← writeLines name (lines b) append
      if (lines b).size = b.size ∧ append = false then
        changeBuffer fun b => { b with dirty := false }
      return bytes) :=
    .get_bind (fun _ _ => rfl) fun _ => (truncates_writeLines _ _ _).bind fun _ =>
      .ite ((Truncates.changeBuffer _).bind fun _ => .pure _) (.pure _)
  cases range with
  | none => exact hrest fun _ => #[]
  | some r =>
    exact (Truncates.onBuffer (LineBuffer.failsWith_checkRange r)).bind fun _ =>
      hrest fun b => r.slice b.lines

/-! ## Commands -/

/-- Parsing a command line writes nothing. -/
theorem truncates_parse (text : Line) : Truncates (parse text) :=
  .get_bind (fun _ _ => rfl) fun _ => .onPattern (CommandLine.failsWith_read _ text)

/-- Nor does looking up the last substitution. -/
theorem truncates_repeated (occurrence : Option Regex.Occurrence) :
    Truncates (repeated occurrence) := by
  refine .get_bind (fun _ _ => rfl) fun s => ?_
  cases s.editor.lastSubstitution with
  | none => exact .throw rfl
  | some substitution => exact .pure _

/-- A range that addresses give, and what is done on it. -/
theorem truncates_onRange {addresses : Addresses} {b : LineBuffer} {first last : Nat}
    {f : LineRange → Action α} (hf : ∀ range, Truncates (f range)) :
    Truncates (ofResult (addresses.range b first last) >>= f) :=
  (Truncates.ofResult fun _ => Addresses.recoverable_of_range).bind hf

/-- An operation on the buffer, after which a command ends. -/
theorem truncates_edit {x : BufferAction α} (hx : FailsWith Recoverable x) :
    Truncates (onBuffer x >>= fun _ => pure Outcome.continued) :=
  (Truncates.onBuffer hx).bind fun _ => .pure _

/-- A block of text is read before the buffer is touched. -/
theorem truncates_readBlock {f : List Line → Action α} (hf : ∀ block, Truncates (f block)) :
    Truncates (onInput Source.readBlock >>= f) :=
  (Truncates.onInput Source.recovers_readBlock).bind hf

section

variable {runGlobal : GlobalAction} {addresses : Addresses} {command : Command}

/-- A command that takes a block of text writes nothing. -/
theorem truncates_input (h : command.family = .input) :
    Truncates (perform runGlobal addresses command) := by
  refine .get_bind (fun _ _ => rfl) fun s => ?_
  cases command with
  | append => exact truncates_readBlock fun _ => truncates_edit (LineBuffer.failsWith_append _ _)
  | insert => exact truncates_readBlock fun _ => truncates_edit (LineBuffer.failsWith_insert _ _)
  | change =>
    exact truncates_onRange fun r => truncates_readBlock fun _ =>
      truncates_edit (LineBuffer.failsWith_change r _)
  | _ => cases h

/-- Nor does a command on lines that are there. -/
theorem truncates_lines (h : command.family = .lines) :
    Truncates (perform runGlobal addresses command) := by
  refine .get_bind (fun _ _ => rfl) fun s => ?_
  cases command with
  | delete => exact truncates_onRange fun r => truncates_edit (LineBuffer.failsWith_delete r)
  | move dest => exact truncates_onRange fun r => truncates_edit (LineBuffer.failsWith_move r _)
  | copy dest => exact truncates_onRange fun r => truncates_edit (LineBuffer.failsWith_copy r _)
  | join => exact truncates_onRange fun r => truncates_edit (LineBuffer.failsWith_join r)
  | undo => exact truncates_edit LineBuffer.failsWith_undo
  | mark letter =>
    dsimp only
    cases indexOf? (addresses.target s.buffer.currentNumber) with
    | none => exact (Truncates.throw (e := .invalidAddress) rfl).bind fun _ => .pure _
    | some index => exact truncates_edit (LineBuffer.failsWith_setMark letter index)
  | _ => cases h

/-- Nor does a substitution. -/
theorem truncates_substitution (h : command.family = .substitution) :
    Truncates (perform runGlobal addresses command) := by
  refine .get_bind (fun _ _ => rfl) fun s => ?_
  cases command with
  | substitute substitution =>
    exact truncates_onRange fun r => (Truncates.changeEditor _).bind fun _ =>
      truncates_edit (LineBuffer.failsWith_substitute r substitution)
  | repeatSubstitute occurrence =>
    exact truncates_onRange fun r => (truncates_repeated occurrence).bind fun substitution =>
      truncates_edit (LineBuffer.failsWith_substitute r substitution)
  | _ => cases h

/-- Printing is cut short where the output breaks off. -/
theorem truncates_printing (h : command.family = .printing) :
    Truncates (perform runGlobal addresses command) := by
  refine .get_bind (fun _ _ => rfl) fun s => ?_
  cases command with
  | null =>
    exact (Truncates.ofResult fun _ => LineBuffer.recoverable_of_numberedRange).bind fun r =>
      (truncates_print r .plain).bind fun _ => .pure _
  | print mode => exact truncates_onRange fun r => (truncates_print r mode).bind fun _ => .pure _
  | lineNumber => exact (Truncates.emitLine _).bind fun _ => .pure _
  | _ => cases h

/-- Writing a file is not cut short, but the report of its size is. A range decides only which lines
are written. -/
theorem truncates_writeAndEnd (b : LineBuffer) (path : Option FileName) (append quit : Bool)
    (range : Option LineRange) : Truncates (writeAndEnd b path append quit range) := by
  have hend (bytes : Nat) : Truncates (do
      reportSize bytes
      if quit then quitSession false else return Outcome.continued) :=
    (truncates_reportSize bytes).bind fun _ => .ite (truncates_quitSession false) (.pure _)
  exact .ite ((truncates_writeRange _ path true).bind hend)
    (.ite ((truncates_writeRange range path false).bind hend)
      ((truncates_write path).bind hend))

/-- A command on a file writes the size or the name of the file. -/
theorem truncates_file (h : command.family = .file) :
    Truncates (perform runGlobal addresses command) := by
  refine .get_bind (fun _ _ => rfl) fun s => ?_
  cases command with
  | read path =>
    exact (truncates_nameOrStored path).bind fun name => (truncates_insertFile name _).bind fun _ =>
      (truncates_reportSize _).bind fun _ => .pure _
  | write path append quit =>
    have hwrite := truncates_writeAndEnd s.buffer path append quit
    refine .ite ((Truncates.pure _).bind hwrite) ?_
    have hrange : Truncates (some <$> ofResult (addresses.range s.buffer 1 s.buffer.size)) := by
      rw [map_eq_pure_bind]
      exact truncates_onRange fun _ => .pure _
    exact hrange.bind hwrite
  | edit path force =>
    have hload : Truncates (do
        let name ← nameOrStored path
        reportSize (← load name)
        return Outcome.continued) :=
      (truncates_nameOrStored path).bind fun name => (truncates_load name).bind fun _ =>
        (truncates_reportSize _).bind fun _ => .pure _
    exact .ite ((Truncates.throw (e := .bufferModified) rfl).bind fun _ => hload) hload
  | filename path =>
    have hshow : Truncates showFilename :=
      (truncates_nameOrStored none).bind fun _ => (Truncates.emitAll _).bind fun _ => .pure _
    exact .ite ((Truncates.changeBuffer _).bind fun _ => hshow) hshow
  | _ => cases h

/-- An explanation of an error is all that commands on the session write. -/
theorem truncates_session (h : command.family = .session) :
    Truncates (perform runGlobal addresses command) := by
  refine .get_bind (fun _ _ => rfl) fun s => ?_
  cases command with
  | quit force => exact truncates_quitSession force
  | help => exact .get_bind (fun _ _ => rfl) fun s => truncates_explain s.editor.lastError
  | toggleVerbose =>
    exact (Truncates.changeEditor _).bind fun _ => .get_bind (fun _ _ => rfl) fun s =>
      .ite (truncates_explain s.editor.lastError) (.pure _)
  | togglePrompt => exact (Truncates.changeEditor _).bind fun _ => .pure _
  | _ => cases h

end

/-- A command is cut short by a limited device, if global commands are. -/
theorem truncates_perform {runGlobal : GlobalAction} (addresses : Addresses) (command : Command)
    (hglobal : ∀ range invert regex list, Truncates (runGlobal range invert regex list)) :
    Truncates (perform runGlobal addresses command) := by
  cases h : command.family with
  | input => exact truncates_input h
  | lines => exact truncates_lines h
  | substitution => exact truncates_substitution h
  | printing => exact truncates_printing h
  | file => exact truncates_file h
  | session => exact truncates_session h
  | global =>
    obtain ⟨invert, regex, list, rfl⟩ := Command.eq_global h
    exact .get_bind (fun _ _ => rfl) fun s => truncates_onRange fun r =>
      hglobal r invert regex list

/-- A snapshot is kept aside.

**Proof sketch.** Both outcomes of the command are followed by something aside: `keep` after a
success, `keepPart` after a failure. -/
theorem truncates_undoably {x : Action Outcome} (hx : Truncates x) (partly : Bool)
    (snapshot : Snapshot) : Truncates (undoably partly snapshot x) := by
  let keep (t : Session) : Session := t.withBuffer (t.buffer.storeSnapshot snapshot)
  let keepPart (t : Session) : Session :=
    if partly ∧ t.buffer.lines ≠ snapshot.lines then keep t else t
  have hkeep : Aside keep := fun _ _ _ => rfl
  have hkeepPart : Aside keepPart := by
    intro s input output
    dsimp only [keepPart, Session.buffer]
    split <;> rfl
  have hundoably : undoably partly snapshot x =
      resume x (fun outcome t => .ok outcome (keep t)) fun e t => .error e (keepPart t) := by
    funext s
    unfold undoably resume
    cases x s with
    | ok outcome t => rfl
    | error e t =>
      dsimp only [keepPart]
      split <;> rfl
  rw [hundoably]
  exact hx.afterwards hkeep hkeepPart

/-- A parsed command line is cut short, if global commands are.

**Proof sketch.** The command itself is cut short, with or without a snapshot kept aside, and after
it the print suffix is. -/
theorem truncates_update {runGlobal : GlobalAction} (line : CommandLine)
    (hglobal : ∀ range invert regex list, Truncates (runGlobal range invert regex list)) :
    Truncates (update runGlobal line) := by
  have hperform := truncates_perform line.addresses line.command hglobal
  have hprint (outcome : Outcome) : Truncates (printSuffix line.print outcome) := by
    unfold printSuffix
    cases line.print with
    | none => exact .pure _
    | some mode => exact (truncates_printCurrent mode).bind fun _ => .pure _
  exact .get_bind (fun _ _ => rfl) fun _ =>
    .ite ((truncates_undoably hperform _ _).bind hprint) (hperform.bind hprint)

/-! ## Global commands -/

/-- A substitution that finds nothing is told from a failure of the output.

**Proof sketch.** Written with `resume`, the handler has two branches. The first answers for a
substitution that finds nothing, whose error is the user's; the second throws the error again, so
that an error of the output is passed on. -/
theorem truncates_runListed (line : CommandLine) (tally : Tally) :
    Truncates (runListed line tally) := by
  have hlisted : runListed line tally =
      resume (update refuseGlobal line)
        (fun outcome => pure (outcome, { tally with
          substituted := tally.substituted || line.command.isSubstitution }))
        fun e =>
          if e = .noMatch ∧ line.command.isSubstitution then
            pure (.continued, { tally with missed := true })
          else throw e := by
    funext s
    unfold runListed resume
    cases update refuseGlobal line s with
    | ok outcome t => rfl
    | error e t =>
      dsimp only
      split <;> rfl
  rw [hlisted]
  have hupdate : Truncates (update refuseGlobal line) :=
    truncates_update line fun _ _ _ _ => Truncates.throw (e := .nestedGlobal) rfl
  refine hupdate.resume (fun _ => .pure _) (fun e he => .ite (.pure _) (.throw he)) fun e he => ?_
  have hother : ¬ (e = .noMatch ∧ line.command.isSubstitution) := by
    rintro ⟨rfl, -⟩
    exact he rfl
  rw [if_neg hother]
  exact .throw e

/-- A command list is cut short.

**Proof sketch.** By induction on the rounds. Each reads a line of the list, parses it and runs it,
and either ends the list or goes on with one round less. -/
theorem truncates_runList (isInline : Bool) (target rounds : Nat) (tally : Tally) :
    Truncates (runList isInline target rounds tally) := by
  induction rounds generalizing tally with
  | zero => exact .pure _
  | succ rounds ih =>
    refine (Truncates.onInput Source.recovers_next).bind fun text? => ?_
    cases text? with
    | none => exact .pure _
    | some text =>
      refine (truncates_parse text).bind fun line => ?_
      refine (truncates_runListed _ tally).bind fun ⟨outcome, tally⟩ => ?_
      cases outcome with
      | quit => exact .pure _
      | continued => exact ih tally

/-- So are the visits of the selected lines.

**Proof sketch.** By induction on the rounds, each of which visits one line with the list as its
input. -/
theorem truncates_replay (list : List Line) (isInline : Bool) (rounds : Nat) (tally : Tally) :
    Truncates (replay list isInline rounds tally) := by
  induction rounds generalizing tally with
  | zero => exact .ite (.throw rfl) (.pure _)
  | succ rounds ih =>
    refine (Truncates.onBuffer LineBuffer.failsWith_nextTarget).bind fun target? => ?_
    cases target? with
    | none => exact .ite (.throw rfl) (.pure _)
    | some target =>
      refine (Truncates.onBuffer (LineBuffer.failsWith_setCurrent target)).bind fun _ => ?_
      refine ((truncates_runList _ _ _ tally).withInput list).bind fun ⟨outcome, tally⟩ => ?_
      cases outcome with
      | quit => exact .pure _
      | continued => exact ih tally

/-- Choosing targets for an action and leaving them is done aside.

**Proof sketch.** The action starts with a change aside, `begun`, and is followed by one, `leave`,
whether it fails or not. -/
theorem truncates_withTargets {x : Action α} (hx : Truncates x) (targets : List Nat) :
    Truncates (withTargets targets x) := by
  let leave (t : Session) : Session :=
    { t with editor := { t.editor with inGlobal := false, buffer := t.buffer.clearTargets } }
  have hleave : Aside leave := fun _ _ _ => rfl
  have hbegin : Aside (begun targets) := fun _ _ _ => rfl
  have hvisits : Truncates (modify (begun targets) >>= fun _ => x) :=
    (Truncates.modify hbegin).bind fun _ => hx
  have hwith : withTargets targets x =
      resume (modify (begun targets) >>= fun _ => x) (fun a t => .ok a (leave t))
        fun e t => .error e (leave t) := by
    funext s
    have hbegun : (modify (begun targets) >>= fun _ => x : Action α) s = x (begun targets s) := rfl
    unfold resume withTargets
    rw [hbegun, begun]
    cases x _ <;> rfl
  rw [hwith]
  exact hvisits.afterwards hleave hleave

/-- A global command is cut short.

**Proof sketch.** The list is read first, unless it stands on the line; what remains is the same for
both forms of the list, and is stated once. -/
theorem truncates_runGlobal (range : LineRange) (invert : Bool) (regex : Regex)
    (list : CommandList) : Truncates (runGlobal range invert regex list) := by
  have hvisits (read : List Line × Bool) : Truncates (do
      let targets := selectLines (← get).buffer range invert regex
      withTargets targets (replay read.1 read.2 targets.length ⟨false, false⟩)) :=
    .get_bind (fun _ _ => rfl) fun _ => truncates_withTargets (truncates_replay _ _ _ _) _
  refine .get_bind (fun _ _ => rfl) fun s => ?_
  cases list with
  | inline line =>
    exact .ite ((Truncates.throw (e := .nestedGlobal) rfl).bind fun _ => hvisits ([line], true))
      (hvisits ([line], true))
  | block =>
    have hblock : Truncates (onInput Source.readCommandList >>= fun lines => do
        let targets := selectLines (← get).buffer range invert regex
        withTargets targets (replay lines false targets.length ⟨false, false⟩)) :=
      (Truncates.onInput Source.recovers_readCommandList).bind fun lines => hvisits (lines, false)
    exact .ite ((Truncates.throw (e := .nestedGlobal) rfl).bind fun _ => hblock) hblock

/-- **A command line is cut short by a limited device**, and without a failure of the device or of
the input its errors are the user's to correct.

**Proof sketch.** One case for each command (`truncates_perform`), with the pieces of text that it
writes. For a global command, induction on the lines that it visits (`truncates_replay`) and on the
commands in its list (`truncates_runList`). -/
theorem truncates_execute (text : Line) : Truncates (execute text) :=
  (truncates_parse text).bind fun line => truncates_update line truncates_runGlobal

/-! ## Command lines of a session -/

/-- The prompt is cut off. -/
theorem truncates_showPrompt : Truncates showPrompt := by
  refine .get_bind (fun _ _ => rfl) fun s => ?_
  cases s.editor.prompt.visible? with
  | none => exact .flush
  | some prompt => exact (Truncates.emit prompt).bind fun _ => .flush

/-- The report of an error is cut off. -/
theorem truncates_report (e : EditError) : Truncates (report e) :=
  (Truncates.changeEditor _).bind fun _ => .get_bind (fun _ _ => rfl) fun _ =>
    .ite (.emitLine _) (.emit _)

/-- An error of the user is reported, and one of the output is not.

**Proof sketch.** The attempt is a `resume` of the command line. The handler throws a fatal error
again, which passes an error of the output on, and reports every other one. -/
theorem truncates_attempt (text : Line) : Truncates (attempt text) := by
  have hattempt : attempt text =
      resume (execute text)
        (fun outcome => if outcome = .quit then do flush; return .quit else pure .continued)
        fun e => if e.isFatal then throw e else do report e; return .continued := by
    funext s
    unfold attempt resume
    cases execute text s with
    | ok outcome t => cases outcome <;> rfl
    | error e t =>
      dsimp only
      split <;> rfl
  rw [hattempt]
  refine (truncates_execute text).resume (fun outcome => ?_) (fun e he => ?_) fun e he => ?_
  · cases outcome with
    | continued => exact .pure _
    | quit => exact Truncates.flush.bind fun _ => .pure _
  · rw [if_neg (Bool.eq_false_iff.1 he)]
    exact (truncates_report e).bind fun _ => .pure _
  · rw [if_pos (Bool.eq_true_of_not_eq_false he)]
    exact .throw e

/-- One command line of a session is cut short by a limited device. -/
theorem truncates_step : Truncates step := by
  rw [step_eq_bind]
  refine (truncates_showPrompt.bind fun _ => .onInput Source.recovers_next).bind fun text? => ?_
  cases text? with
  | none => exact .pure _
  | some text => exact truncates_attempt text

/-- **So are all command lines of a session**, by induction. -/
theorem truncates_steps (rounds : Nat) : Truncates (steps rounds) := by
  induction rounds with
  | zero => exact .pure _
  | succ rounds ih =>
    refine truncates_step.bind fun outcome => ?_
    cases outcome with
    | quit => exact .pure _
    | continued => exact ih

end Action

end LineEditor
