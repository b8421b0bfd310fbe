import LineEditor.Session.Global
import LineEditor.Proofs.Buffer.Operations

set_option autoImplicit false
set_option relaxedAutoImplicit false

/-!
# What commands do to the buffer

A command carries out at most one operation on the buffer. Which one it is depends on the
addresses, on the state of the session, and for a block of text or a file also on what can be read.
Everything else that a command does, such as printing, asking for names or writing files, leaves
the lines, the marks, the snapshot and the pending lines alone.

Here this is shown for commands that a global command carries out: these keep no snapshot of their
own, and no global command is among them.

## Main definitions

* `LineEditor.Command.operation?`: the operation that a command carries out.
* `LineEditor.Command.Family`: what a command works on.
* `LineEditor.Action.Within`: actions that relate the session before to the one after.
* `LineEditor.Action.Quiet`: actions that leave lines, marks, snapshot and pending lines alone.
* `LineEditor.Action.Carries`: actions that carry out one operation.

## Main results

* `LineEditor.Action.carries_perform`: a command carries out its operation.
* `LineEditor.Action.carries_update`: and so does a command line of a command list.
-/

namespace LineEditor

/-- Two buffers have the same lines, marks, snapshot and pending lines. -/
structure LineBuffer.SameLines (b b' : LineBuffer) : Prop where
  /-- The lines are the same. -/
  lines : b'.lines = b.lines
  /-- The marks are the same. -/
  marks : b'.marks = b.marks
  /-- The snapshot is the same. -/
  saved : b'.saved = b.saved
  /-- The pending lines are the same. -/
  targets : b'.targets = b.targets

namespace LineBuffer.SameLines

variable {b b' b'' : LineBuffer}

/-- A buffer has its own lines. -/
theorem refl (b : LineBuffer) : b.SameLines b := ⟨rfl, rfl, rfl, rfl⟩

/-- Having the same lines is transitive. -/
theorem trans (h : b.SameLines b') (h' : b'.SameLines b'') : b.SameLines b'' :=
  ⟨h'.lines.trans h.lines, h'.marks.trans h.marks, h'.saved.trans h.saved,
    h'.targets.trans h.targets⟩

/-- It is kept by inserting the same lines in both. -/
theorem insertLines (h : b.SameLines b') (start : Nat) (block : Array Line) :
    (b.insertLines start block).SameLines (b'.insertLines start block) := by
  unfold LineBuffer.insertLines
  split
  · exact h
  · constructor <;> simp only [LineBuffer.edit, h.lines, h.marks, h.saved, h.targets]

/-- Inserting lines does not look at anything else.

**Proof sketch.** Both buffers have the same size, so that the append fails in both or in none, and
otherwise the lines are inserted. -/
theorem append (h : b.SameLines b') (after : Option Nat) (block : Array Line) :
    (EState.after (LineBuffer.append after block) b).SameLines
      (EState.after (LineBuffer.append after block) b') := by
  have hsize : b'.size = b.size := congrArg Array.size h.lines
  have hinsert := h.insertLines (after.elim 0 (· + 1)) block
  unfold EState.after
  rw [LineBuffer.append_apply, LineBuffer.append_apply, hsize]
  by_cases hafter : after.any (b.size ≤ ·)
  · rw [if_pos hafter, if_pos hafter]
    exact h
  · rw [if_neg hafter, if_neg hafter]
    exact ⟨hinsert.lines, hinsert.marks, hinsert.saved, hinsert.targets⟩

end LineBuffer.SameLines

/-- Lines with identities agree with all buffers that have the same lines. -/
theorem Simulates.of_sameLines {places : Set (Fin letterCount)} {b b' : LineBuffer}
    {n : TaggedBuffer} (h : Simulates places b n) (hsame : b.SameLines b') :
    Simulates places b' n :=
  h.congr hsame.lines hsame.marks hsame.saved hsame.targets

/-- The buffer after an operation, if there is one. -/
def Operation.applied (op? : Option Operation) (b : LineBuffer) : LineBuffer :=
  op?.elim b fun op => EState.after op.perform b

/-- The lines with identities after an operation, if there is one. -/
def Operation.tracked (op? : Option Operation) (n : TaggedBuffer) : TaggedBuffer :=
  op?.elim n fun op =>
    match op.tagged n with
    | .ok (_, n') => n'
    | .error _ => n

/-- Agreement with lines that have identities is kept by an operation, if there is one.

**Proof sketch.** The buffer and the lines with identities do the same for every operation, and end
with the same success or failure; in both cases what they end with agrees. -/
theorem Simulates.applied {places : Set (Fin letterCount)} {b : LineBuffer} {n : TaggedBuffer}
    (h : Simulates places b n) (op? : Option Operation) :
    Simulates places (Operation.applied op? b) (Operation.tracked op? n) := by
  cases op? with
  | none => exact h
  | some op =>
    have hends := h.operation op
    unfold Operation.applied Operation.tracked EState.after
    dsimp only [Option.elim_some]
    generalize op.perform b = x at hends
    generalize op.tagged n = y at hends
    cases hends with
    | ok h => exact h
    | error h => exact h

/-! ## The operation of a command -/

namespace Session

/-- The block of text that can be read. -/
def block? (s : Session) : Option (Array Line) :=
  match Source.readBlock s.input with
  | .ok block _ => some block.toArray
  | .error .. => none

/-- The lines of the file that is meant, if it can be read. -/
def file? (s : Session) (path : Option FileName) : Option (Array Line) := do
  let name ← path.or s.buffer.filename
  let (lines, _) ← (s.disk.readLines name).toOption
  return lines.toArray

/-- The range that addresses give, or the lines from `first` to `last`. -/
def range? (s : Session) (addresses : Addresses) (first last : Nat) : Option LineRange :=
  (addresses.range s.buffer first last).toOption

end Session

/-- The operation that a command carries out on the buffer. -/
def Command.operation? (s : Session) (addresses : Addresses) : Command → Option Operation
  | append => do
    let block ← s.block?
    return .append (Action.indexOf? (addresses.target s.buffer.size)) block
  | insert => do
    let block ← s.block?
    return .insert (addresses.target s.buffer.currentNumber - 1) block
  | change => do
    let range ← s.range? addresses s.buffer.currentNumber s.buffer.currentNumber
    let block ← s.block?
    return .change range block
  | delete => do
    let range ← s.range? addresses s.buffer.currentNumber s.buffer.currentNumber
    return .delete range
  | mark letter => do
    let index ← Action.indexOf? (addresses.target s.buffer.currentNumber)
    return .setMark letter index
  | move dest => do
    let range ← s.range? addresses s.buffer.currentNumber s.buffer.currentNumber
    return .move range (Action.indexOf? dest)
  | copy dest => do
    let range ← s.range? addresses s.buffer.currentNumber s.buffer.currentNumber
    return .copy range (Action.indexOf? dest)
  | join => do
    let range ← s.range? addresses s.buffer.currentNumber (s.buffer.currentNumber + 1)
    return .join range
  | read path => do
    let lines ← s.file? path
    return .append (Action.indexOf? (addresses.target s.buffer.size)) lines
  | edit path force =>
    if s.buffer.dirty ∧ force = false then none
    else do
      let lines ← s.file? path
      return .replaceAll lines
  | undo => some .undo
  | substitute substitution => do
    let range ← s.range? addresses s.buffer.currentNumber s.buffer.currentNumber
    return .substitute range substitution
  | repeatSubstitute occurrence => do
    let range ← s.range? addresses s.buffer.currentNumber s.buffer.currentNumber
    let substitution ← s.editor.lastSubstitution
    return .substitute range
      { substitution with occurrence := occurrence.getD substitution.occurrence }
  | _ => none

/-- What a command works on. -/
inductive Command.Family where
  /-- It takes a block of text from the input. -/
  | input
  /-- It carries out one operation on lines that are there, or on a mark. -/
  | lines
  /-- It replaces what matches in a range. -/
  | substitution
  /-- It prints lines or the number of one. -/
  | printing
  /-- It reads or writes a file, or names one. -/
  | file
  /-- It changes or shows what the session remembers, or ends it. -/
  | session
  /-- It carries out a list of other commands. -/
  | global
  deriving Repr, DecidableEq

/-- The family of a command. -/
def Command.family : Command → Family
  | append | insert | change => .input
  | delete | move _ | copy _ | join | mark _ | undo => .lines
  | substitute _ | repeatSubstitute _ => .substitution
  | null | print _ | lineNumber => .printing
  | read _ | write _ _ _ | edit _ _ | filename _ => .file
  | quit _ | help | toggleVerbose | togglePrompt => .session
  | global _ _ _ => .global

/-- Only global commands are in the family of these. -/
theorem Command.eq_global {command : Command} (h : command.family = .global) :
    ∃ invert regex list, command = .global invert regex list := by
  cases command with
  | global invert regex list => exact ⟨invert, regex, list, rfl⟩
  | _ => cases h

/-- Only undoing and editing another file make pending lines be forgotten.

**Proof sketch.** By the command. Every command that has an operation has it for a block, a range or
a name that is there, and its operation is known then. -/
theorem Command.eq_of_resets {s : Session} {addresses : Addresses} {command : Command}
    {op : Operation} (h : command.operation? s addresses = some op) (hop : op.resets = true) :
    command = .undo ∨ ∃ path force, command = .edit path force := by
  cases command with
  | undo => exact .inl rfl
  | edit path force => exact .inr ⟨path, force, rfl⟩
  | append | insert | delete | mark | move | copy | join | read | substitute =>
    obtain ⟨_, _, h⟩ := Option.bind_eq_some_iff.1 h
    cases h
    cases hop
  | change | repeatSubstitute =>
    obtain ⟨_, _, h⟩ := Option.bind_eq_some_iff.1 h
    obtain ⟨_, _, h⟩ := Option.bind_eq_some_iff.1 h
    cases h
    cases hop
  | _ => cases h

namespace Action

variable {α β : Type}

/-! ## Actions that change little -/

/-- An action on the buffer leaves everything else alone, also when it fails. -/
theorem after_onBuffer (x : BufferAction α) (s : Session) :
    EState.after (onBuffer x) s = s.withBuffer (EState.after x s.buffer) := by
  unfold EState.after
  rw [onBuffer_apply]
  cases x s.buffer <;> rfl

/-- An action changes a session only as a relation says, also when it fails. -/
def Within (R : Session → Session → Prop) (x : Action α) : Prop := ∀ s, R s (EState.after x s)

namespace Within

variable {R : Session → Session → Prop} [IsPreorder Session R]

/-- Answering changes nothing. -/
theorem pure (a : α) : Within R (Pure.pure a : Action α) := fun s => refl_of R s

/-- Nor does failing. -/
theorem throw (e : EditError) : Within R (MonadExcept.throw e : Action α) := fun s => refl_of R s

/-- Nor does asking for the session. -/
theorem get : Within R (MonadState.get : Action Session) := fun s => refl_of R s

/-- Nor does taking over a result. -/
theorem ofResult (r : Except EditError α) : Within R (LineEditor.ofResult r : Action α) := by
  cases r with
  | ok a => exact pure a
  | error e => exact throw e

/-- What comes after an action. -/
theorem after_bind {f : α → Action β} (hf : ∀ a, Within R (f a)) (x : Action α) (s : Session) :
    R (EState.after x s) (EState.after (x >>= f) s) := by
  cases hxs : x s with
  | ok a t =>
    rw [EState.after_of_ok hxs, EState.after_bind_of_ok hxs]
    exact hf a t
  | error e t =>
    rw [EState.after_of_error hxs, EState.after_bind_of_error hxs]
    exact refl_of R t

/-- Two actions that stay within a relation do so one after the other.

**Proof sketch.** The relation is transitive, and holds of the first action also where that
fails. -/
theorem bind {x : Action α} {f : α → Action β} (hx : Within R x) (hf : ∀ a, Within R (f a)) :
    Within R (x >>= f) :=
  fun s => trans_of R (hx s) (after_bind hf x s)

omit [IsPreorder Session R] in
/-- So does a choice between two actions. -/
theorem ite {c : Prop} [Decidable c] {x y : Action α} (hx : Within R x) (hy : Within R y) :
    Within R (if c then x else y) := by
  split
  · exact hx
  · exact hy

omit [IsPreorder Session R] in
/-- Reading changes only the input. -/
theorem onInput (h : ∀ s source, R s { s with input := source }) (x : EStateM EditError Source α) :
    Within R (onInput x) := by
  intro s
  unfold EState.after Action.onInput
  cases x s.input <;> exact h s _

omit [IsPreorder Session R] in
/-- Reading a command line changes only the remembered pattern. -/
theorem onPattern
    (h : ∀ s pattern, R s { s with editor := { s.editor with lastPattern := pattern } })
    (x : EStateM EditError (Option Regex) α) : Within R (onPattern x) := by
  intro s
  unfold EState.after Action.onPattern
  cases x s.editor.lastPattern <;> exact h s _

omit [IsPreorder Session R] in
/-- What acts on the buffer changes the session as it changes the buffer. -/
theorem onBuffer {S : LineBuffer → LineBuffer → Prop}
    (h : ∀ s b, S (Session.buffer s) b → R s (s.withBuffer b)) {x : BufferAction α}
    (hx : ∀ b, S b (EState.after x b)) : Within R (onBuffer x) := by
  intro s
  rw [after_onBuffer]
  exact h s _ (hx s.buffer)

/-- Printing checks a range, writes and makes a line the current one. -/
theorem print (hcheck : ∀ r, Within R (Action.onBuffer (LineBuffer.checkRange r)))
    (hemit : ∀ pieces, Within R (emitAll pieces))
    (hset : ∀ index, Within R (Action.onBuffer (LineBuffer.setCurrent index)))
    (r : LineRange) (mode : PrintMode) : Within R (print r mode) :=
  bind (hcheck r) fun _ => bind get fun _ => bind (hemit _) fun _ => hset r.last

/-- Printing the current line stays within a relation, if printing does. -/
theorem printCurrent (hprint : ∀ r mode, Within R (Action.print r mode)) (mode : PrintMode) :
    Within R (printCurrent mode) := by
  refine bind get fun s => ?_
  cases s.buffer.current with
  | none => exact throw _
  | some index => exact hprint _ mode

end Within

/-! ## Actions that leave the lines alone -/

/-- Two sessions have the same lines, marks, snapshot and pending lines, and are both in a global
command or both not. -/
structure SameLines (s t : Session) : Prop where
  /-- The buffers have the same lines. -/
  buffer : s.buffer.SameLines t.buffer
  /-- A global command is running in both or in none. -/
  inGlobal : t.editor.inGlobal = s.editor.inGlobal

instance : IsPreorder Session SameLines where
  refl _ := ⟨.refl _, rfl⟩
  trans _ _ _ h h' := ⟨h.buffer.trans h'.buffer, h'.inGlobal.trans h.inGlobal⟩

/-- An action leaves lines, marks, snapshot and pending lines alone, also when it fails. -/
def Quiet (x : Action α) : Prop := ∀ s, SameLines s (EState.after x s)

namespace Quiet

/-- Answering is quiet. -/
theorem pure (a : α) : Quiet (Pure.pure a : Action α) := Within.pure a

/-- Failing is quiet. -/
theorem throw (e : EditError) : Quiet (MonadExcept.throw e : Action α) := Within.throw e

/-- Asking for the session is quiet. -/
theorem get : Quiet (MonadState.get : Action Session) := Within.get

/-- Taking over a result is quiet. -/
theorem ofResult (r : Except EditError α) : Quiet (LineEditor.ofResult r : Action α) :=
  Within.ofResult r

/-- Quiet actions can be put one after the other. -/
theorem bind {x : Action α} {f : α → Action β} (hx : Quiet x) (hf : ∀ a, Quiet (f a)) :
    Quiet (x >>= f) := Within.bind hx hf

/-- Changing the answer of a quiet action is quiet. -/
theorem map {x : Action α} (f : α → β) (hx : Quiet x) : Quiet (f <$> x) := bind hx fun _ => pure _

/-- A choice between quiet actions is quiet. -/
theorem ite {c : Prop} [Decidable c] {x y : Action α} (hx : Quiet x) (hy : Quiet y) :
    Quiet (if c then x else y) := Within.ite hx hy

/-- The input is no part of the buffer. -/
theorem onInput (x : EStateM EditError Source α) : Quiet (onInput x) :=
  Within.onInput (fun _ _ => ⟨.refl _, rfl⟩) x

/-- Writing changes only the output. -/
theorem onOutput (x : EStateM EditError Sink α) : Quiet (onOutput x) := by
  intro ⟨editor, input, output, disk⟩
  unfold EState.after Action.onOutput
  dsimp only
  cases x output <;> exact ⟨.refl _, rfl⟩

/-- The remembered pattern is no part of the buffer. -/
theorem onPattern (x : EStateM EditError (Option Regex) α) : Quiet (onPattern x) :=
  Within.onPattern (fun _ _ => ⟨.refl _, rfl⟩) x

/-- Changing the editor apart from its buffer is quiet. -/
theorem changeEditor {f : Editor → Editor} (hbuffer : ∀ e, (f e).buffer = e.buffer)
    (hglobal : ∀ e, (f e).inGlobal = e.inGlobal) : Quiet (changeEditor f) := by
  intro s
  refine ⟨?_, hglobal s.editor⟩
  change s.buffer.SameLines (f s.editor).buffer
  rw [hbuffer]
  exact .refl _

/-- Changing the buffer apart from its lines is quiet. -/
theorem changeBuffer {f : LineBuffer → LineBuffer} (hf : ∀ b : LineBuffer, b.SameLines (f b)) :
    Quiet (changeBuffer f) := fun s => ⟨hf s.buffer, rfl⟩

/-- What leaves the lines of the buffer alone is quiet. -/
theorem onBuffer {x : BufferAction α} (hx : ∀ b : LineBuffer, b.SameLines (EState.after x b)) :
    Quiet (onBuffer x) := Within.onBuffer (fun _ _ h => ⟨h, rfl⟩) hx

/-! Output -/

/-- Emitting pieces is quiet. -/
theorem emitAll (pieces : List Line) : Quiet (emitAll pieces) := by
  induction pieces with
  | nil => exact pure ()
  | cons piece pieces ih => exact bind (onOutput _) fun _ => ih

/-- Emitting a line is quiet. -/
theorem emitLine (line : Line) : Quiet (emitLine line) := emitAll _

/-- Checking a range is quiet. -/
theorem checkRange (r : LineRange) : Quiet (Action.onBuffer (LineBuffer.checkRange r)) := by
  refine onBuffer fun b => ?_
  unfold EState.after
  rw [LineBuffer.checkRange_apply]
  by_cases h : r.last < r.first ∨ b.size ≤ r.last
  · rw [if_pos h]
    exact .refl _
  · rw [if_neg h]
    exact .refl _

/-- Making a line the current one is quiet: the lines stay where they are. -/
theorem setCurrent (index : Nat) : Quiet (Action.onBuffer (LineBuffer.setCurrent index)) := by
  refine onBuffer fun b => ?_
  unfold EState.after
  rw [LineBuffer.setCurrent_apply]
  by_cases h : b.size ≤ index
  · rw [if_pos h]
    exact .refl _
  · rw [if_neg h]
    exact ⟨rfl, rfl, rfl, rfl⟩

/-- Printing is quiet. -/
theorem print (r : LineRange) (mode : PrintMode) : Quiet (print r mode) :=
  Within.print checkRange emitAll setCurrent r mode

/-- Printing the current line is quiet. -/
theorem printCurrent (mode : PrintMode) : Quiet (printCurrent mode) :=
  Within.printCurrent print mode

/-- Reporting a size is quiet. -/
theorem reportSize (bytes : Nat) : Quiet (reportSize bytes) :=
  bind get fun _ => ite (pure ()) (emitLine _)

/-- Quitting is quiet. -/
theorem quitSession (force : Bool) : Quiet (quitSession force) := by
  refine bind get fun s => ?_
  dsimp only
  split
  · exact bind (throw _) fun _ => pure _
  · exact pure _

/-! Files -/

/-- Resolving a file name is quiet, whether the name is adopted or not. -/
theorem resolveFilename (name : Option FileName) (adopt : Bool) :
    Quiet (Action.onBuffer (LineBuffer.resolveFilename name adopt)) := by
  refine onBuffer fun b => ?_
  unfold EState.after
  simp only [LineBuffer.resolveFilename, EState.bind_apply, EState.get_apply]
  cases name with
  | none => cases b.filename <;> exact .refl _
  | some name =>
    by_cases hadopt : adopt = true ∨ b.filename.isNone = true
    · simp only [hadopt, if_true]
      exact ⟨rfl, rfl, rfl, rfl⟩
    · simp only [hadopt, if_false]
      exact .refl _

/-- Asking for a file name is quiet. -/
theorem nameOrStored (name : Option FileName) : Quiet (nameOrStored name) := by
  refine bind get fun s => ?_
  cases name.or s.buffer.filename with
  | none => exact throw _
  | some name => exact pure _

/-- Writing to the disk is quiet. -/
theorem writeLines (name : FileName) (lines : Array Line) (append : Bool) :
    Quiet (writeLines name lines append) := by
  intro s
  unfold EState.after Action.writeLines
  simp only [EState.bind_apply, EState.get_apply]
  cases s.disk.writeLines name lines.toList append with
  | error e => exact ⟨.refl _, rfl⟩
  | ok written => exact ⟨.refl _, rfl⟩

/-- Whether the buffer counts as written is no part of the lines. -/
theorem setWritten : Quiet (Action.changeBuffer fun b => { b with dirty := false }) :=
  changeBuffer fun _ => ⟨rfl, rfl, rfl, rfl⟩

/-- Writing the buffer is quiet. -/
theorem write (name : Option FileName) : Quiet (write name) :=
  bind (resolveFilename name true) fun name => bind get fun s =>
    bind (writeLines name s.buffer.lines false) fun _ => bind setWritten fun _ => pure _

/-- Writing a part of it is quiet.

**Proof sketch.** The name is resolved, the range is checked if there is one, the lines are written,
and the buffer may then count as written. Each of these is quiet. -/
theorem writeRange (range : Option LineRange) (name : Option FileName) (append : Bool) :
    Quiet (writeRange range name append) := by
  refine bind (resolveFilename name !append) fun name => ?_
  cases range with
  | none =>
    refine bind get fun s => bind (writeLines name _ append) fun bytes => ?_
    exact ite (bind setWritten fun _ => pure _) (pure _)
  | some range =>
    refine bind (checkRange range) fun _ => ?_
    refine bind get fun s => bind (writeLines name _ append) fun bytes => ?_
    exact ite (bind setWritten fun _ => pure _) (pure _)

/-- Reading a command line changes at most the remembered pattern. -/
theorem parse (text : Line) : Quiet (parse text) := bind get fun _ => onPattern _

end Quiet

/-! ## Actions that carry out one operation -/

/-- An action does to the lines of a session what an operation does, if there is one, and nothing
else, also when it fails. -/
structure Carries (op? : Option Operation) (x : Action α) (s : Session) : Prop where
  /-- The buffer has the lines that the operation leaves. -/
  buffer : (Operation.applied op? s.buffer).SameLines (EState.after x s).buffer
  /-- A global command is running afterwards if it was before. -/
  inGlobal : (EState.after x s).editor.inGlobal = s.editor.inGlobal

namespace Carries

variable {op? : Option Operation} {s : Session}

/-- A quiet action carries out no operation. -/
theorem of_quiet {x : Action α} (h : Quiet x) : Carries none x s := ⟨(h s).buffer, (h s).inGlobal⟩

/-- What is quiet may follow an operation.

**Proof sketch.** If the action succeeds, what follows leaves the lines that the operation left; if
it fails, nothing follows. -/
theorem bind {x : Action α} {f : α → Action β} (hx : Carries op? x s) (hf : ∀ a, Quiet (f a)) :
    Carries op? (x >>= f) s := by
  obtain ⟨hbuffer, hglobal⟩ := hx
  cases hxs : x s with
  | ok a t =>
    rw [EState.after_of_ok hxs] at hbuffer hglobal
    have hrest := hf a t
    refine ⟨?_, ?_⟩
    · rw [EState.after_bind_of_ok hxs]
      exact hbuffer.trans hrest.buffer
    · rw [EState.after_bind_of_ok hxs]
      exact hrest.inGlobal.trans hglobal
  | error e t =>
    rw [EState.after_of_error hxs] at hbuffer hglobal
    refine ⟨?_, ?_⟩
    · rw [EState.after_bind_of_error hxs]
      exact hbuffer
    · rw [EState.after_bind_of_error hxs]
      exact hglobal

/-- An operation on the buffer carries out itself. -/
theorem onBuffer {op : Operation} {x : BufferAction α} {f : α → Reply}
    (h : op.perform = f <$> x) : Carries (some op) (onBuffer x) s := by
  have hafter : EState.after op.perform s.buffer = EState.after x s.buffer := by
    rw [h, EState.after_map]
  constructor
  · change (EState.after op.perform s.buffer).SameLines _
    rw [hafter, after_onBuffer]
    exact .refl _
  · rw [after_onBuffer]
    rfl

/-- What comes after an action that does not touch the buffer. -/
theorem of_ok {x : Action α} {f : α → Action β} {a : α} {t : Session} (hx : x s = .ok a t)
    (hbuffer : t.buffer = s.buffer) (hglobal : t.editor.inGlobal = s.editor.inGlobal)
    (hf : Carries op? (f a) t) : Carries op? (x >>= f) s := by
  have hafter := EState.after_bind_of_ok hx f
  constructor
  · rw [hafter, ← hbuffer]
    exact hf.buffer
  · rw [hafter, ← hglobal]
    exact hf.inGlobal

/-- Nothing comes after an action that fails. -/
theorem of_error {x : Action α} {f : α → Action β} {e : EditError} {t : Session}
    (hx : x s = .error e t) (hbuffer : t.buffer = s.buffer)
    (hglobal : t.editor.inGlobal = s.editor.inGlobal) : Carries none (x >>= f) s := by
  have hafter := EState.after_bind_of_error hx f
  constructor
  · rw [hafter, hbuffer]
    exact .refl _
  · rw [hafter, hglobal]

/-- Looking at the session carries out nothing. -/
theorem get {f : Session → Action β} (hf : Carries op? (f s) s) :
    Carries op? (MonadState.get >>= f) s :=
  of_ok rfl rfl rfl hf

/-- An operation may depend on a result, and there is none if that is an error. -/
theorem ofResult {r : Except EditError α} {op : α → Option Operation} {f : α → Action β}
    (hf : ∀ a, Carries (op a) (f a) s) :
    Carries (r.toOption.bind op) (LineEditor.ofResult r >>= f) s := by
  cases r with
  | ok a => exact of_ok rfl rfl rfl (hf a)
  | error e => exact of_error rfl rfl rfl

/-- An operation may depend on a block of text, and there is none if the block cannot be read.

**Proof sketch.** The block that `Session.block?` tells of is the one that is read, and reading
changes only the input. -/
theorem readBlock {op : Array Line → Option Operation} {f : List Line → Action β}
    (hf : ∀ block t, Carries (op block.toArray) (f block) t) :
    Carries (s.block?.bind op) (onInput Source.readBlock >>= f) s := by
  unfold Session.block?
  cases hread : Source.readBlock s.input with
  | ok block source =>
    exact of_ok (t := { s with input := source }) (by rw [onInput, hread]) rfl rfl (hf block _)
  | error e source =>
    exact of_error (t := { s with input := source }) (by rw [onInput, hread]) rfl rfl

/-- An operation may depend on a file name, and there is none without a name. -/
theorem nameOrStored {path : Option FileName} {op : FileName → Option Operation}
    {f : FileName → Action β} (hf : ∀ name, Carries (op name) (f name) s) :
    Carries ((path.or s.buffer.filename).bind op) (nameOrStored path >>= f) s := by
  cases hname : path.or s.buffer.filename with
  | none =>
    refine of_error (e := .noFilename) (t := s) ?_ rfl rfl
    simp [Action.nameOrStored, hname]
  | some name =>
    refine of_ok (a := name) (t := s) ?_ rfl rfl (hf name)
    simp [Action.nameOrStored, hname]

/-- An operation may depend on the lines of a file, and there is none if the file cannot be read.

**Proof sketch.** `Session.file?` first asks for the name and then for the lines under it, so that
this is `nameOrStored` with an operation that depends on these lines. -/
theorem file {path : Option FileName} {op : Array Line → Option Operation}
    {f : FileName → Action β}
    (hf : ∀ name, Carries ((s.disk.readLines name).toOption.bind fun file => op file.1.toArray)
      (f name) s) :
    Carries ((s.file? path).bind op) (Action.nameOrStored path >>= f) s := by
  have hop : (s.file? path).bind op = (path.or s.buffer.filename).bind fun name =>
      (s.disk.readLines name).toOption.bind fun file => op file.1.toArray := by
    simp only [Session.file?, Option.bind_eq_bind, Option.pure_def, Option.bind_assoc,
      Option.bind_some]
  rw [hop]
  exact nameOrStored hf

/-- The name of the file is not looked at when lines are inserted.

**Proof sketch.** A buffer with another name has the same lines, and appending to both leaves the
same lines. -/
theorem append (name : LineBuffer → Option FileName) (after : Option Nat) (block : Array Line) :
    Carries (some (.append after block)) (do
      changeBuffer fun b => { b with filename := name b }
      Action.onBuffer (LineBuffer.append after block)) s := by
  obtain ⟨hbuffer, hglobal⟩ : Carries (some (.append after block))
      (Action.onBuffer (LineBuffer.append after block))
      (s.withBuffer { s.buffer with filename := name s.buffer }) := onBuffer rfl
  have hname : s.buffer.SameLines { s.buffer with filename := name s.buffer } :=
    ⟨rfl, rfl, rfl, rfl⟩
  refine ⟨.trans ?_ hbuffer, hglobal⟩
  simp only [Operation.applied, Option.elim_some, Operation.perform, EState.after_map]
  exact hname.append after block

end Carries

/-! ## Families of commands -/

/-- What is written of a buffer, and how a command ends that writes. -/
def writeAndEnd (b : LineBuffer) (path : Option FileName) (append quit : Bool)
    (range : Option LineRange) : Action Outcome := do
  let bytes ←
    if append then writeAppend (range.or b.fullRange?) path
    else if range.isSome then writeRange range path false
    else write path
  reportSize bytes
  if quit then quitSession false else return .continued

/-- Shows the name of the file. -/
def showFilename : Action Outcome := do
  let name ← nameOrStored none
  emitAll ((Utf8.lossyPieces name).map Line.ofString ++ [[newline]])
  return .continued

/-- Explains an error, if there is one. -/
def explain (e? : Option EditError) : Action Outcome := do
  if let some e := e? then emitLine (Line.ofString e.message)
  return .continued

variable {addresses : Addresses} {command : Command}

/-- Commands that take a block of text carry out their operation with it. -/
theorem carries_input (h : command.family = .input) (s : Session) :
    Carries (command.operation? s addresses) (perform refuseGlobal addresses command) s := by
  refine .get ?_
  cases command with
  | append => exact .readBlock fun block t => .bind (.onBuffer rfl) fun _ => .pure _
  | insert => exact .readBlock fun block t => .bind (.onBuffer rfl) fun _ => .pure _
  | change =>
    exact .ofResult fun range => .readBlock fun block t => .bind (.onBuffer rfl) fun _ => .pure _
  | _ => cases h

/-- Commands on lines that are there carry out their operation on them.

**Proof sketch.** By the command. Ranges and operations are those of `Command.operation?`; a mark on
line zero is no operation, and fails. -/
theorem carries_lines (h : command.family = .lines) (s : Session) :
    Carries (command.operation? s addresses) (perform refuseGlobal addresses command) s := by
  refine .get ?_
  cases command with
  | delete => exact .ofResult fun range => .bind (.onBuffer rfl) fun _ => .pure _
  | move dest => exact .ofResult fun range => .bind (.onBuffer rfl) fun _ => .pure _
  | copy dest => exact .ofResult fun range => .bind (.onBuffer rfl) fun _ => .pure _
  | join => exact .ofResult fun range => .bind (.onBuffer rfl) fun _ => .pure _
  | undo => exact .bind (.onBuffer rfl) fun _ => .pure _
  | mark letter =>
    dsimp only [Command.operation?]
    cases indexOf? (addresses.target s.buffer.currentNumber) with
    | none => exact .of_quiet (.bind (.throw _) fun _ => .pure _)
    | some index => exact .bind (.onBuffer rfl) fun _ => .pure _
  | _ => cases h

/-- A substitution is carried out on its range, also if it is the one that is remembered.

**Proof sketch.** Remembering a substitution changes no lines before it is carried out. The one that
is remembered is carried out with the occurrence given, if there is one, and without one that is
remembered the command fails. -/
theorem carries_substitution (h : command.family = .substitution) (s : Session) :
    Carries (command.operation? s addresses) (perform refuseGlobal addresses command) s := by
  refine .get ?_
  cases command with
  | substitute substitution =>
    refine .ofResult fun range => .of_ok rfl rfl rfl ?_
    exact .bind (.onBuffer rfl) fun _ => .pure _
  | repeatSubstitute occurrence =>
    refine .ofResult fun range => ?_
    cases hlast : s.editor.lastSubstitution with
    | none =>
      refine .of_error (e := .noPreviousSubstitution) (t := s) ?_ rfl rfl
      simp [repeated, hlast]
    | some substitution =>
      let repeats := { substitution with occurrence := occurrence.getD substitution.occurrence }
      refine .of_ok (t := s) (a := repeats) ?_ rfl rfl ?_
      · simp [repeated, hlast, repeats]
      · exact .bind (.onBuffer rfl) fun _ => .pure _
  | _ => cases h

/-- Printing changes no lines. -/
theorem carries_printing (h : command.family = .printing) (s : Session) :
    Carries (command.operation? s addresses) (perform refuseGlobal addresses command) s := by
  refine .get ?_
  cases command with
  | null =>
    exact .of_quiet (.bind (.ofResult _) fun range => .bind (.print range .plain) fun _ => .pure _)
  | print mode =>
    exact .of_quiet (.bind (.ofResult _) fun range => .bind (.print range mode) fun _ => .pure _)
  | lineNumber => exact .of_quiet (.bind (.emitLine _) fun _ => .pure _)
  | _ => cases h

/-- Writing and what follows it change no lines. -/
theorem Quiet.writeAndEnd (b : LineBuffer) (path : Option FileName) (append quit : Bool)
    (range : Option LineRange) : Quiet (writeAndEnd b path append quit range) := by
  have hend (bytes : Nat) : Quiet (do
      Action.reportSize bytes
      if quit then Action.quitSession false else return Outcome.continued) :=
    .bind (.reportSize bytes) fun _ => .ite (.quitSession false) (.pure _)
  refine .ite ?_ (.ite ?_ ?_)
  · exact .bind (.writeRange _ path true) hend
  · exact .bind (.writeRange range path false) hend
  · exact .bind (.write path) hend

/-- Commands on files insert the lines of one, replace all lines by them, or change no lines.

**Proof sketch.** The lines of the file that is named are inserted by `Carries.append` and replaced
by the operation of `load`. An edit of a buffer with changes fails before it looks for the file, as
`Command.operation?` says. The commands that write or show a name are quiet. -/
theorem carries_file (h : command.family = .file) (s : Session) :
    Carries (command.operation? s addresses) (perform refuseGlobal addresses command) s := by
  refine .get ?_
  cases command with
  | read path =>
    refine .file fun name => .bind ?_ fun bytes => .bind (.reportSize bytes) fun _ => .pure _
    refine .get (.ofResult fun file => ?_)
    exact (Carries.append (fun b => b.filename.or (some name)) _ _).bind fun _ => .pure _
  | write path append quit =>
    refine .of_quiet (.ite ?_ ?_)
    · exact .bind (.pure _) (.writeAndEnd s.buffer path append quit)
    · exact .bind (.map _ (.ofResult _)) (.writeAndEnd s.buffer path append quit)
  | edit path force =>
    dsimp only [Command.operation?]
    by_cases hdirty : s.buffer.dirty = true ∧ force = false
    · rw [if_pos hdirty, if_pos hdirty]
      exact .of_error (e := .bufferModified) (t := s) rfl rfl rfl
    · rw [if_neg hdirty, if_neg hdirty]
      refine .file fun name => .bind ?_ fun bytes => .bind (.reportSize bytes) fun _ => .pure _
      refine .get (.ofResult fun file => .bind ?_ fun _ => .pure _)
      exact ⟨⟨rfl, rfl, rfl, rfl⟩, rfl⟩
  | filename path =>
    have hshow : Quiet showFilename :=
      .bind (.nameOrStored none) fun _ => .bind (.emitAll _) fun _ => .pure _
    refine .of_quiet (.ite ?_ hshow)
    exact .bind (.changeBuffer fun _ => ⟨rfl, rfl, rfl, rfl⟩) fun _ => hshow
  | _ => cases h

/-- What a session remembers is no part of the lines.

**Proof sketch.** No command of this kind has an operation, and each is made of quiet steps. -/
theorem carries_session (h : command.family = .session) (s : Session) :
    Carries (command.operation? s addresses) (perform refuseGlobal addresses command) s := by
  have hexplain (e? : Option EditError) : Quiet (explain e?) := by
    cases e? with
    | none => exact .pure _
    | some e => exact .bind (.emitLine _) fun _ => .pure _
  refine .get ?_
  cases command with
  | quit force => exact .of_quiet (.quitSession force)
  | help => exact .of_quiet (.bind .get fun s => hexplain s.editor.lastError)
  | toggleVerbose =>
    refine .of_quiet (.bind (.changeEditor (fun _ => rfl) fun _ => rfl) fun _ => ?_)
    exact .bind .get fun s => .ite (hexplain s.editor.lastError) (.pure _)
  | togglePrompt =>
    exact .of_quiet (.bind (.changeEditor (fun _ => rfl) fun _ => rfl) fun _ => .pure _)
  | _ => cases h

/-- **A command carries out its operation** on the buffer, and does nothing else to the lines.

**Proof sketch.** One case for each family of commands. What is read before the operation decides
which one it is; what is done afterwards is quiet. A global command is refused. -/
theorem carries_perform (addresses : Addresses) (command : Command) (s : Session) :
    Carries (command.operation? s addresses) (perform refuseGlobal addresses command) s := by
  cases h : command.family with
  | input => exact carries_input h s
  | lines => exact carries_lines h s
  | substitution => exact carries_substitution h s
  | printing => exact carries_printing h s
  | file => exact carries_file h s
  | session => exact carries_session h s
  | global =>
    obtain ⟨invert, regex, list, rfl⟩ := Command.eq_global h
    exact .get (.of_quiet (.bind (.ofResult _) fun range => .throw _))

/-- A command line of a command list carries out the operation of its command. It keeps no
snapshot, since a global command is running. -/
theorem carries_update (line : CommandLine) {s : Session} (hs : s.editor.inGlobal = true) :
    Carries (line.command.operation? s line.addresses) (update refuseGlobal line) s := by
  have hperform := carries_perform line.addresses line.command s
  refine .get ?_
  simp only [hs, Bool.not_true, Bool.and_false, Bool.false_eq_true, if_false]
  refine hperform.bind fun outcome => ?_
  cases line.print with
  | none => exact .pure _
  | some mode => exact .bind (.printCurrent mode) fun _ => .pure _

/-- A substitution that finds nothing leaves the same session as one that fails.

**Proof sketch.** The tally looks at the error only after the command line has failed, and passes
the session on as it is. -/
theorem after_runListed (line : CommandLine) (tally : Tally) (s : Session) :
    EState.after (runListed line tally) s = EState.after (update refuseGlobal line) s := by
  unfold EState.after runListed
  cases update refuseGlobal line s with
  | ok outcome t => rfl
  | error e t =>
    dsimp only
    by_cases hmissed : e = .noMatch ∧ line.command.isSubstitution
    · rw [if_pos hmissed]
      rfl
    · rw [if_neg hmissed]
      rfl

/-- A substitution that finds nothing has changed nothing more than one that fails. -/
theorem carries_runListed (line : CommandLine) (tally : Tally) {s : Session}
    (hs : s.editor.inGlobal = true) :
    Carries (line.command.operation? s line.addresses) (runListed line tally) s := by
  have hafter := after_runListed line tally s
  have hupdate := carries_update line hs
  exact ⟨hafter ▸ hupdate.buffer, hafter ▸ hupdate.inGlobal⟩

end Action

end LineEditor
