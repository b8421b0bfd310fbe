import LineEditor.Proofs.Buffer.Discipline
import LineEditor.Proofs.Session.Commands

set_option autoImplicit false
set_option relaxedAutoImplicit false

/-!
# Actions that fail without changes

An error that the user can correct should find the buffer as it was before; only the name of its
file may be another one, since a given name is remembered before the file is opened. And a change
of lines should not be hidden: a buffer counts as written only if it did so before and has the same
lines, or if its lines have just been written or loaded. Actions with both properties are put
together here from checks, which change nothing, one operation on the buffer, and output, which does
not fail in a way that the user can correct.

## Main definitions

* `LineEditor.LineBuffer.SameButName`: buffers that differ at most in the name of the file.
* `LineEditor.LineBuffer.SameText`: buffers with the same lines, written or not.
* `LineEditor.Disk.Records`: lines that are written to a file or read from one.
* `LineEditor.Action.Spares`: actions that leave everything but that name alone.
* `LineEditor.Action.Reports`: actions that only write output.
* `LineEditor.Action.Orderly`: actions with both properties.

## Main results

* `LineEditor.Action.Orderly.after_spares`, `LineEditor.Action.Orderly.then_reports`: what may come
  before and after an orderly action.
-/

namespace LineEditor

/-- Two buffers differ at most in the name of the file. -/
def LineBuffer.SameButName (b b' : LineBuffer) : Prop := b' = { b with filename := b'.filename }

namespace LineBuffer.SameButName

variable {b b' b'' : LineBuffer}

/-- Renaming changes nothing but the name. -/
theorem rename (b : LineBuffer) (name : Option FileName) :
    b.SameButName { b with filename := name } := rfl

/-- A buffer has itself apart from its name. -/
theorem refl (b : LineBuffer) : b.SameButName b := rfl

/-- Equal buffers do. -/
theorem of_eq (h : b' = b) : b.SameButName b' := h ▸ refl b

/-- Differing at most in the name is transitive. -/
theorem trans (h : b.SameButName b') (h' : b'.SameButName b'') : b.SameButName b'' := by
  unfold SameButName at h h' ⊢
  rw [h'] at *
  rw [h]

/-- Another name hides no change of lines. -/
theorem discloses (h : b.SameButName b') : b.Discloses b' := by
  rw [h]
  exact .of_eq rfl rfl

end LineBuffer.SameButName

/-- Two buffers have the same lines, which count as written in both or in neither. -/
structure LineBuffer.SameText (b b' : LineBuffer) : Prop where
  /-- The lines are the same. -/
  lines : b'.lines = b.lines
  /-- They count as written in both or in neither. -/
  dirty : b'.dirty = b.dirty

namespace LineBuffer.SameText

variable {b b' b'' : LineBuffer}

/-- A buffer has its own text. -/
theorem refl (b : LineBuffer) : b.SameText b := ⟨rfl, rfl⟩

/-- Having the same text is transitive. -/
theorem trans (h : b.SameText b') (h' : b'.SameText b'') : b.SameText b'' :=
  ⟨h'.lines.trans h.lines, h'.dirty.trans h.dirty⟩

/-- Equal buffers have the same text. -/
theorem of_eq (h : b' = b) : b.SameText b' := h ▸ refl b

end LineBuffer.SameText

/-- Lines are written to a file, or read from one: `disk'` is what writing them leaves. -/
def Disk.Records (disk disk' : Disk) (lines : Array Line) : Prop :=
  ∃ name bytes, disk.writeLines name lines.toList false = .ok (bytes, disk') ∨
    disk.readLines name = .ok (lines.toList, bytes)

/-! ## Equations -/

/-- A buffer after a name was given for its file: the name is remembered if none is, or if `adopt`
says so. -/
def LineBuffer.renamed (b : LineBuffer) (name : FileName) (adopt : Bool) : LineBuffer :=
  { b with filename := if adopt ∨ b.filename.isNone then some name else b.filename }

/-- A buffer that adopts a name, or does not, differs at most in it. -/
theorem LineBuffer.SameButName.renamed (b : LineBuffer) (name : FileName) (adopt : Bool) :
    b.SameButName (b.renamed name adopt) := rfl

/-- A name that is given is adopted or not, one that is stored is used, and without either there is
no name.

**Proof sketch.** The stored name leaves the buffer as it is. A given one renames it if it is to be
adopted or no name is stored. -/
theorem LineBuffer.resolveFilename_apply (name : Option FileName) (adopt : Bool) (b : LineBuffer) :
    resolveFilename name adopt b =
      match name.or b.filename with
      | none => .error .noFilename b
      | some name => .ok name (b.renamed name adopt) := by
  simp only [resolveFilename, renamed, EState.bind_apply, EState.get_apply]
  cases name with
  | none =>
    cases hname : b.filename with
    | none => rfl
    | some name =>
      rw [Option.none_or]
      dsimp only
      rw [ite_self, ← hname]
      rfl
  | some name =>
    rw [Option.some_or]
    by_cases hadopt : adopt = true ∨ b.filename.isNone = true
    · simp only [hadopt, if_true]
      rfl
    · simp only [hadopt, if_false]
      rfl

/-- Output fails only when the device does, which ends the session. -/
theorem Sink.isFatal_of_send {flushed : Bool} {pieces : List (Array UInt8)} {sink sink' : Sink}
    {e : EditError} (h : Sink.send flushed pieces sink = .error e sink') : e.isFatal = true := by
  unfold Sink.send at h
  simp only [EState.bind_apply, EState.get_apply, EState.set_apply] at h
  unfold Sink.deliver at h
  split at h
  · cases h
  · split at h
    · cases h
    · cases h
      rfl

/-- The buffer of a session is the one it was given. -/
theorem Session.buffer_withBuffer (s : Session) (b : LineBuffer) : (s.withBuffer b).buffer = b :=
  rfl

/-- Giving it another one does not touch the disk. -/
theorem Session.disk_withBuffer (s : Session) (b : LineBuffer) :
    (s.withBuffer b).disk = s.disk := rfl

namespace Action

variable {α β : Type}

/-- Lines are written to the disk of a session, and nothing is left of a write that fails. -/
theorem writeLines_apply (name : FileName) (lines : Array Line) (append : Bool) (s : Session) :
    writeLines name lines append s =
      match s.disk.writeLines name lines.toList append with
      | .error e => .error e s
      | .ok (bytes, disk) => .ok bytes { s with disk } := by
  simp only [writeLines, EState.bind_apply, EState.get_apply]
  cases s.disk.writeLines name lines.toList append <;> rfl

/-- Quitting refuses to lose changes, unless it is forced. -/
theorem quitSession_apply (force : Bool) (s : Session) :
    quitSession force s =
      if s.buffer.dirty ∧ force = false then .error .bufferModified s else .ok .quit s := by
  simp only [quitSession, EState.bind_apply, EState.get_apply]
  split
  · simp
  · simp

/-! ## Actions that spare the buffer -/

/-- The buffers of two sessions differ at most in the name of the file. -/
def SameButName (s t : Session) : Prop := s.buffer.SameButName t.buffer

instance : IsPreorder Session SameButName where
  refl _ := .refl _
  trans _ _ _ h h' := h.trans h'

/-- An action leaves everything in the buffer alone but the name of the file, also when it
fails. -/
def Spares (x : Action α) : Prop := Within SameButName x

namespace Spares

/-- The input is no part of the buffer. -/
theorem onInput (x : EStateM EditError Source α) : Spares (onInput x) :=
  Within.onInput (fun _ _ => .refl _) x

/-- What changes the editor apart from its buffer spares the buffer. -/
theorem changeEditor {f : Editor → Editor} (hf : ∀ e, (f e).buffer = e.buffer) :
    Spares (changeEditor f) := fun s => .of_eq (hf s.editor)

/-- So does what renames the buffer. -/
theorem rename (name : LineBuffer → Option FileName) :
    Spares (changeBuffer fun b => { b with filename := name b }) := fun _ => .rename _ _

/-- So does a check of a range. -/
theorem checkRange (r : LineRange) : Spares (Action.onBuffer (LineBuffer.checkRange r)) := by
  intro s
  rw [after_onBuffer]
  refine .of_eq ?_
  unfold EState.after
  rw [LineBuffer.checkRange_apply]
  split <;> rfl

/-- So does asking for a name. -/
theorem nameOrStored (name : Option FileName) : Spares (nameOrStored name) := by
  refine .bind .get fun s => ?_
  cases name.or s.buffer.filename with
  | none => exact .throw _
  | some name => exact .pure _

end Spares

/-! ## Actions that write output -/

/-- Two sessions have the same buffer and the same disk. -/
structure SameStore (s t : Session) : Prop where
  /-- The buffers are the same. -/
  buffer : t.buffer = s.buffer
  /-- The disks are the same. -/
  disk : t.disk = s.disk

/-- So does what keeps the buffer and the disk. -/
theorem Within.spares {x : Action α} (h : Within SameStore x) : Spares x :=
  fun s => .of_eq (h s).buffer

instance : IsPreorder Session SameStore where
  refl _ := ⟨rfl, rfl⟩
  trans _ _ _ h h' := ⟨h'.buffer.trans h.buffer, h'.disk.trans h.disk⟩

/-- Quitting keeps both, whether it is refused or not. -/
theorem sameStore_quitSession (force : Bool) : Within SameStore (quitSession force) := by
  intro s
  unfold EState.after
  rw [quitSession_apply]
  split <;> exact ⟨rfl, rfl⟩

/-- Two sessions have the same lines, which count as written in both or in neither, and the same
disk. -/
structure SameText (s t : Session) : Prop where
  /-- The buffers have the same lines. -/
  buffer : s.buffer.SameText t.buffer
  /-- The disks are the same. -/
  disk : t.disk = s.disk

instance : IsPreorder Session SameText where
  refl _ := ⟨.refl _, rfl⟩
  trans _ _ _ h h' := ⟨h.buffer.trans h'.buffer, h'.disk.trans h.disk⟩

/-- Keeping both keeps the text. -/
theorem SameStore.sameText {s t : Session} (h : SameStore s t) : SameText s t :=
  ⟨.of_eq h.buffer, h.disk⟩

/-- An action leaves the buffer and the disk alone and fails only in a way that ends the
session. -/
structure Reports (x : Action α) : Prop where
  /-- Buffer and disk are the same. -/
  same : Within SameStore x
  /-- A failure ends the session. -/
  fatal : ∀ {s t e}, x s = .error e t → e.isFatal = true

namespace Reports

/-- Reporting spares the buffer. -/
theorem spares {x : Action α} (h : Reports x) : Spares x := h.same.spares

/-- Answering is a report. -/
theorem pure (a : α) : Reports (Pure.pure a : Action α) := ⟨.pure a, fun h => nomatch h⟩

/-- So is asking for the session. -/
theorem get : Reports (MonadState.get : Action Session) := ⟨.get, fun h => nomatch h⟩

/-- Reports can be put one after the other.

**Proof sketch.** A failure of both is one of the first or of the second, and fatal in either
case. -/
theorem bind {x : Action α} {f : α → Action β} (hx : Reports x) (hf : ∀ a, Reports (f a)) :
    Reports (x >>= f) where
  same := hx.same.bind fun a => (hf a).same
  fatal {s t e} h := by
    rw [EState.bind_apply] at h
    cases hxs : x s with
    | ok a u =>
      rw [hxs] at h
      exact (hf a).fatal h
    | error e u =>
      rw [hxs] at h
      cases h
      exact hx.fatal hxs

/-- A choice between reports is one. -/
theorem ite {c : Prop} [Decidable c] {x y : Action α} (hx : Reports x) (hy : Reports y) :
    Reports (if c then x else y) := by
  split
  · exact hx
  · exact hy

/-- Emitting bytes is a report, since a device fails fatally or not at all. -/
theorem emit (bytes : Line) : Reports (emit bytes) where
  same := by
    intro ⟨editor, input, output, disk⟩
    unfold EState.after Action.emit Action.onOutput
    dsimp only
    cases Sink.write bytes.toArray output <;> exact ⟨rfl, rfl⟩
  fatal {s t e} h := by
    obtain ⟨editor, input, output, disk⟩ := s
    unfold Action.emit Action.onOutput at h
    dsimp only at h
    cases hwrite : Sink.write bytes.toArray output with
    | ok _ output' =>
      rw [hwrite] at h
      cases h
    | error e output' =>
      rw [hwrite] at h
      cases h
      exact Sink.isFatal_of_send hwrite

/-- So is emitting pieces. -/
theorem emitAll (pieces : List Line) : Reports (emitAll pieces) := by
  induction pieces with
  | nil => exact pure ()
  | cons piece pieces ih => exact bind (emit piece) fun _ => ih

/-- So is emitting a line. -/
theorem emitLine (line : Line) : Reports (emitLine line) := emitAll _

/-- So is reporting a size. -/
theorem reportSize (bytes : Nat) : Reports (reportSize bytes) :=
  bind get fun _ => ite (pure ()) (emitLine _)

end Reports

/-! ## Actions that fail without changes -/

/-- An action may write the buffer to a file or load a file, and then `recorded?` are its lines
afterwards. Otherwise it hides no changes of lines. If it fails so that the user can correct it, the
buffer is as before but for the name of the file. -/
structure Orderly (recorded? : Option (Array Line)) (x : Action α) (s : Session) : Prop where
  /-- If nothing is recorded, no changes are hidden, also when the action fails. -/
  discloses : recorded? = none → s.buffer.Discloses (EState.after x s).buffer
  /-- Recorded lines are those of the buffer. -/
  lines : ∀ lines ∈ recorded?, (EState.after x s).buffer.lines = lines
  /-- Recorded lines are those of a file. -/
  disk : ∀ lines ∈ recorded?, s.disk.Records (EState.after x s).disk lines
  /-- A failure that the user can correct changes nothing. -/
  userError : ∀ {e t}, x s = .error e t → e.isFatal = false → s.buffer.SameButName t.buffer

namespace Orderly

variable {recorded? : Option (Array Line)} {s : Session}

/-- An action that records nothing. -/
theorem of_discloses {x : Action α} (h : s.buffer.Discloses (EState.after x s).buffer)
    (huser : ∀ {e t}, x s = .error e t → e.isFatal = false → s.buffer.SameButName t.buffer) :
    Orderly none x s :=
  ⟨fun _ => h, nofun, nofun, huser⟩

/-- What spares the buffer records nothing and is orderly. -/
theorem of_spares {x : Action α} (h : Spares x) : Orderly none x s :=
  of_discloses (h s).discloses fun hx _ => EState.after_of_error hx ▸ h s

/-- An action that leaves the same text as another one.

**Proof sketch.** Whether a change was hidden, and what was recorded, is told from the text and the
disk alone, and both actions leave the same. Only what holds after an error of the user is asked of
the second action itself. -/
theorem of_sameText {x : Action α} {y : Action β} (hx : Orderly recorded? x s)
    (hsame : SameText (EState.after x s) (EState.after y s))
    (huser : ∀ {e t}, y s = .error e t → e.isFatal = false → s.buffer.SameButName t.buffer) :
    Orderly recorded? y s := by
  refine ⟨fun hnone hclean => ?_, fun lines hlines => ?_, ?_, huser⟩
  · rw [hsame.buffer.dirty] at hclean
    rw [hsame.buffer.lines]
    exact hx.discloses hnone hclean
  · rw [hsame.buffer.lines]
    exact hx.lines lines hlines
  · rw [hsame.disk]
    exact hx.disk

/-- Only the result counts. -/
theorem congr {x y : Action α} (h : x s = y s) (hy : Orderly recorded? y s) :
    Orderly recorded? x s := by
  have hafter : EState.after y s = EState.after x s := congrArg EState.final h.symm
  refine hy.of_sameText ?_ fun hx he => hy.userError (h ▸ hx) he
  rw [hafter]
  exact refl_of SameText _

/-- What comes after an action that leaves the buffer and the disk alone.

**Proof sketch.** The session after the whole is the one after what follows, which starts from the
same buffer and disk. -/
theorem of_ok {x : Action α} {f : α → Action β} {a : α} {t : Session} (hx : x s = .ok a t)
    (hsame : SameStore s t) (hf : Orderly recorded? (f a) t) : Orderly recorded? (x >>= f) s := by
  have hafter := EState.after_bind_of_ok hx f
  refine ⟨?_, ?_, ?_, fun herror he => ?_⟩
  · rw [hafter, ← hsame.buffer]
    exact hf.discloses
  · rw [hafter]
    exact hf.lines
  · rw [hafter, ← hsame.disk]
    exact hf.disk
  · rw [EState.bind_apply, hx] at herror
    rw [← hsame.buffer]
    exact hf.userError herror he

/-- Nothing comes after an action that fails. -/
theorem of_error {x : Action α} {f : α → Action β} {e : EditError} {t : Session}
    (hx : x s = .error e t) (ht : s.buffer.SameButName t.buffer) : Orderly none (x >>= f) s := by
  refine of_discloses ?_ fun herror _ => ?_
  · rw [EState.after_bind_of_error hx]
    exact ht.discloses
  · rw [EState.bind_apply, hx] at herror
    cases herror
    exact ht

/-- Asking for the session first makes no difference. -/
theorem get {f : Session → Action β} (hf : Orderly recorded? (f s) s) :
    Orderly recorded? (MonadState.get >>= f) s := of_ok rfl ⟨rfl, rfl⟩ hf

/-- What comes after an action that spares the buffer.

**Proof sketch.** If the first action succeeds, the buffer differs in its name before the second
does what is orderly, and differing in the name is passed on both by `discloses` and after an error.
If it fails, it has spared the buffer. -/
theorem after_spares {x : Action α} {f : α → Action β} (hx : Spares x)
    (hf : ∀ a t, Orderly none (f a) t) : Orderly none (x >>= f) s := by
  have hfirst := hx s
  cases hxs : x s with
  | ok a t =>
    rw [EState.after_of_ok hxs] at hfirst
    refine of_discloses ?_ fun herror he => ?_
    · rw [EState.after_bind_of_ok hxs]
      exact hfirst.discloses.trans ((hf a t).discloses rfl)
    · rw [EState.bind_apply, hxs] at herror
      exact hfirst.trans ((hf a t).userError herror he)
  | error e t =>
    rw [EState.after_of_error hxs] at hfirst
    exact of_error hxs hfirst

/-- Output may come after the changes, since it cannot fail so that the user can correct it.

**Proof sketch.** The output leaves the same text, so that `of_sameText` applies; and an error of
the whole that the user can correct can only be one of the first action. -/
theorem then_reports {x : Action α} {f : α → Action β} (hx : Orderly recorded? x s)
    (hf : ∀ a, Reports (f a)) : Orderly recorded? (x >>= f) s := by
  have hsame : SameStore (EState.after x s) (EState.after (x >>= f) s) :=
    Within.after_bind (fun a => (hf a).same) x s
  refine hx.of_sameText hsame.sameText fun herror he => ?_
  rw [EState.bind_apply] at herror
  cases hxs : x s with
  | ok a t =>
    rw [hxs] at herror
    exact absurd ((hf a).fatal herror) (by simp [he])
  | error e t =>
    rw [hxs] at herror
    cases herror
    exact hx.userError hxs he

/-- An operation that settles is orderly.

**Proof sketch.** Settling is known of both outcomes: after a success no change is hidden, and after
a failure the buffer is the one before. -/
theorem onBuffer {x : BufferAction α} (h : s.buffer.Settles (x s.buffer)) :
    Orderly none (onBuffer x) s := by
  have happly := onBuffer_apply x s
  cases hx : x s.buffer with
  | ok a b =>
    rw [hx] at h happly
    cases h with
    | ok h =>
      refine of_discloses ?_ fun herror _ => ?_
      · rw [EState.after_of_ok happly]
        exact h
      · rw [happly] at herror
        cases herror
  | error e b =>
    rw [hx] at h happly
    cases h with
    | error =>
      refine of_discloses ?_ fun herror _ => ?_
      · rw [EState.after_of_error happly]
        exact .refl _
      · rw [happly] at herror
        cases herror
        exact .refl _

/-- Printing is orderly. -/
theorem print (r : LineRange) (mode : PrintMode) : Orderly none (print r mode) s :=
  .after_spares (.checkRange r) fun _ _ => .after_spares .get fun _ _ =>
    .after_spares (Reports.emitAll _).spares fun _ t => .onBuffer (t.buffer.settles_setCurrent _)

end Orderly

end Action

end LineEditor
