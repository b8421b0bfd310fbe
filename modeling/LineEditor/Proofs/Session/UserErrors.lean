import LineEditor.Proofs.Buffer.Equations
import LineEditor.Proofs.Session.Orderly

set_option autoImplicit false
set_option relaxedAutoImplicit false

/-!
# Errors of the user

All errors but two are the user's to correct, and leave the session running. The two are those of
the output and of the input, and nothing but writing and reading can raise them: neither the
operations of the buffer, nor files, nor what is wrong with a command line.

## Main definitions

* `LineEditor.EditError.Recoverable`: errors that leave the session running.
* `LineEditor.EState.Recovers`: computations that fail with such errors only.
* `LineEditor.Source.Unbroken`: sources that do not break.

## Main results

* `LineEditor.CommandLine.failsWith_read`: what is wrong with a command line is the user's to
  correct.
-/

namespace LineEditor

open EState

/-- An error that leaves the session running. -/
def EditError.Recoverable (e : EditError) : Prop := e.isFatal = false

open EditError (Recoverable)

/-- A computation keeps up a property of the state, and it fails only with errors that leave the
session running. -/
def EState.Recovers {σ α : Type} (I : σ → Prop) (x : EStateM EditError σ α) : Prop :=
  ∀ s, I s → match x s with
    | .ok _ t => I t
    | .error e t => e.Recoverable ∧ I t

namespace EState.Recovers

variable {σ α β : Type} {I : σ → Prop} {x : EStateM EditError σ α} {s t : σ}

/-- The property holds after a recovering computation that succeeds. -/
theorem of_ok (hx : Recovers I x) (hs : I s) {a : α} (h : x s = .ok a t) : I t := by
  have hx := hx s hs
  rw [h] at hx
  exact hx

/-- A recovering computation that fails has an error of the user, and the property still holds. -/
theorem of_error (hx : Recovers I x) (hs : I s) {e : EditError} (h : x s = .error e t) :
    e.Recoverable ∧ I t := by
  have hx := hx s hs
  rw [h] at hx
  exact hx

/-- A computation that only answers recovers. -/
theorem pure (a : α) : Recovers I (Pure.pure a : EStateM EditError σ α) := fun _ hs => hs

/-- Failing with an error of the user is recovering. -/
theorem throw {e : EditError} (h : e.Recoverable) :
    Recovers I (MonadExcept.throw e : EStateM EditError σ α) := fun _ hs => ⟨h, hs⟩

/-- A choice between two recovering computations recovers. -/
theorem ite {c : Prop} [Decidable c] {y : EStateM EditError σ α} (hx : Recovers I x)
    (hy : Recovers I y) : Recovers I (if c then x else y) := by
  split
  · exact hx
  · exact hy

/-- What follows a computation may go on after a failure.

**Proof sketch.** Both outcomes of the computation come with the property, by `of_ok` and
`of_error`; what follows is given either of them. -/
theorem resume {f : α → EStateM EditError σ β} {g : EditError → EStateM EditError σ β}
    (hx : Recovers I x) (hf : ∀ a, Recovers I (f a)) (hg : ∀ e, e.Recoverable → Recovers I (g e)) :
    Recovers I (resume x f g) := by
  intro s hs
  unfold EState.resume
  cases hxs : x s with
  | ok a t => exact hf a t (hx.of_ok hs hxs)
  | error e t =>
    obtain ⟨he, ht⟩ := hx.of_error hs hxs
    exact hg e he t ht

/-- Recovering computations can be put one after the other.

**Proof sketch.** The second runs from where a success of the first leaves the state; a failure of
the first is the failure of both. -/
theorem bind {f : α → EStateM EditError σ β} (hx : Recovers I x) (hf : ∀ a, Recovers I (f a)) :
    Recovers I (x >>= f) := by
  rw [← resume_throw]
  exact hx.resume hf fun _ he => .throw he

end EState.Recovers

/-! ## Operations of the buffer -/

namespace LineBuffer

/-- A range that does not fit the buffer is the user's error. -/
theorem failsWith_checkRange (r : LineRange) : FailsWith Recoverable (checkRange r) := by
  intro b e b' h
  rw [checkRange_apply] at h
  split at h <;> cases h
  rfl

/-- A line that is no current line of the buffer is the user's error. -/
theorem failsWith_setCurrent (index : Nat) : FailsWith Recoverable (setCurrent index) := by
  intro b e b' h
  rw [setCurrent_apply] at h
  split at h <;> cases h
  rfl

/-- Setting a mark fails with errors of the user only.

**Proof sketch.** The equation of `setMark` fails in two places, on the line and on the letter. -/
theorem failsWith_setMark (letter : UInt8) (index : Nat) :
    FailsWith Recoverable (setMark letter index) := by
  intro b e b' h
  rw [setMark_apply] at h
  split at h
  · cases h
    rfl
  · split at h <;> cases h
    rfl

/-- A missing file name is the user's error. -/
theorem failsWith_resolveFilename (name : Option FileName) (adopt : Bool) :
    FailsWith Recoverable (resolveFilename name adopt) := by
  intro b e b' h
  rw [resolveFilename_apply] at h
  split at h <;> cases h
  rfl

/-- Appending fails on the line to append after only. -/
theorem failsWith_append (after : Option Nat) (block : Array Line) :
    FailsWith Recoverable (append after block) := by
  intro b e b' h
  rw [append_apply] at h
  split at h <;> cases h
  rfl

/-- Inserting fails on its own line, or as the append does that it stands for. -/
theorem failsWith_insert (index : Nat) (block : Array Line) :
    FailsWith Recoverable (insert index block) := by
  intro b e b' h
  rw [insert_apply] at h
  split at h
  · cases h
    rfl
  · exact failsWith_append _ _ b e b' h

/-- Deleting fails on its range only. -/
theorem failsWith_delete (r : LineRange) : FailsWith Recoverable (delete r) := by
  intro b e b' h
  rw [delete_apply] at h
  split at h <;> cases h
  rfl

/-- Changing fails on its range only. -/
theorem failsWith_change (r : LineRange) (block : Array Line) :
    FailsWith Recoverable (change r block) := by
  intro b e b' h
  rw [change_apply] at h
  split at h <;> cases h
  rfl

/-- Moving fails on the range, on the destination, or on a destination inside the range.

**Proof sketch.** The equation of `move` is a chain of three choices, and the errors of all three
are listed as recoverable. -/
theorem failsWith_move (r : LineRange) (dest : Option Nat) :
    FailsWith Recoverable (move r dest) := by
  intro b e b' h
  rw [move_apply] at h
  split at h
  · cases h
    rfl
  · split at h
    · cases h
      rfl
    · split at h <;> cases h
      rfl

/-- Copying fails on the range, or as the append does that it stands for. -/
theorem failsWith_copy (r : LineRange) (dest : Option Nat) :
    FailsWith Recoverable (copy r dest) := by
  intro b e b' h
  rw [copy_apply] at h
  split at h
  · cases h
    rfl
  · split at h
    · cases h
    · rename_i hcopy
      cases h
      exact failsWith_append _ _ b e b' hcopy

/-- Joining fails on its range only. -/
theorem failsWith_join (r : LineRange) : FailsWith Recoverable (join r) := by
  intro b e b' h
  rw [join_apply] at h
  split at h
  · cases h
    rfl
  · split at h <;> cases h

/-- Substituting fails on the range, or with no match.

**Proof sketch.** By the equation of `substitute`, which checks the range first and then looks at
whether any line was rewritten. -/
theorem failsWith_substitute (r : LineRange) (s : Substitution) :
    FailsWith Recoverable (substitute r s) := by
  intro b e b' h
  rw [substitute_apply] at h
  split at h
  · cases h
    rfl
  · dsimp only at h
    split at h <;> cases h
    rfl

/-- Undoing fails when there is nothing to undo, which the user can see. -/
theorem failsWith_undo : FailsWith Recoverable undo := by
  intro b e b' h
  rw [undo_apply] at h
  split at h <;> cases h
  rfl

/-- Asking for the next target never fails. -/
theorem failsWith_nextTarget : FailsWith Recoverable nextTarget := by
  intro b e b' h
  rw [nextTarget_apply] at h
  split at h <;> cases h

/-- A numbered range fails on its bounds only. -/
theorem recoverable_of_numberedRange {b : LineBuffer} {first last : Nat} {e : EditError}
    (h : b.numberedRange first last = .error e) : e.Recoverable := by
  unfold numberedRange at h
  split at h <;> cases h
  rfl

end LineBuffer

/-- So does the range the addresses of a command stand for. -/
theorem Addresses.recoverable_of_range {a : Addresses} {b : LineBuffer} {first last : Nat}
    {e : EditError} (h : a.range b first last = .error e) : e.Recoverable := by
  unfold Addresses.range at h
  split at h <;> exact LineBuffer.recoverable_of_numberedRange h

/-! ## Files -/

/-- A file that cannot be read is the user's error, whatever the cause.

**Proof sketch.** Every cause the disk may give is turned into a read error, and none of those is
fatal. -/
theorem Disk.recoverable_of_readLines {disk : Disk} {name : FileName} {e : EditError}
    (h : disk.readLines name = .error e) : e.Recoverable := by
  have herror (cause : DiskError) : (readError name cause).Recoverable := by
    cases cause <;> rfl
  unfold readLines at h
  split at h <;> cases h <;> exact herror _

/-- A file that cannot be written is the user's error. -/
theorem Disk.recoverable_of_writeLines {disk : Disk} {name : FileName} {lines : List Line}
    {append : Bool} {e : EditError} (h : disk.writeLines name lines append = .error e) :
    e.Recoverable := by
  unfold writeLines at h
  split at h <;> cases h
  rfl

/-! ## Input -/

/-- A source that does not break. -/
def Source.Unbroken : Source → Prop
  | script _ => True
  | stream _ broken => broken = none

namespace Source

/-- Reading a line from an unbroken source recovers, since the source stays unbroken.

**Proof sketch.** A script only loses its first line. A stream that is not broken gives a line or
its end, and the line cut off it leaves it not broken. -/
theorem recovers_next : Recovers Unbroken next := by
  intro source hsource
  cases source with
  | script lines => cases lines <;> exact trivial
  | stream bytes broken =>
    obtain rfl : broken = none := hsource
    unfold next
    dsimp only
    obtain ⟨line, rest?⟩ := cutLine bytes
    cases rest? <;> rfl

/-- So does reading lines until one of them closes the text.

**Proof sketch.** By induction along the recursion of `readUntilAfter`: each line it keeps is one
more read from an unbroken source. -/
theorem recovers_readUntil (closes : Line → Bool) : Recovers Unbroken (readUntil closes) := by
  have hafter (before : List Line) : Recovers Unbroken (readUntilAfter closes before) := by
    intro source hsource
    fun_induction readUntilAfter closes before source with
    | case1 before source e after h => exact recovers_next.of_error hsource h
    | case2 before source after h => exact recovers_next.of_ok hsource h
    | case3 before source line after h => exact recovers_next.of_ok hsource h
    | case4 before source line after h _ ih => exact ih (recovers_next.of_ok hsource h)
  exact hafter []

/-- So does reading a text. -/
theorem recovers_readBlock : Recovers Unbroken readBlock :=
  (recovers_readUntil _).bind fun _ => .pure _

/-- So does reading a command list. -/
theorem recovers_readCommandList : Recovers Unbroken readCommandList :=
  (recovers_readUntil _).bind fun _ => .ite (.pure _) (.throw rfl)

end Source

/-! ## Addresses -/

/-- A pattern that does not compile, or none to recall, is the user's error.

**Proof sketch.** An empty pattern recalls the last one and fails when there is none; any other is
compiled, and fails with what the compiler says. -/
theorem failsWith_recallPattern (pattern : Line) :
    FailsWith Recoverable (recallPattern pattern) := by
  refine .ite (.get_bind fun r? => ?_) ?_
  · cases r? with
    | none => exact .throw rfl
    | some r => exact .pure r
  · cases Regex.ofPattern pattern with
    | error e => exact .throw rfl
    | ok r => exact .bind (.set _) fun _ => .pure r

/-- An address out of the words is the user's error. -/
theorem failsWith_checkWord (v : Int) : FailsWith Recoverable (checkWord v) :=
  .ite (.pure v) (.throw rfl)

/-- What an anchor stands for is computed with errors of the user only.

**Proof sketch.** By the anchor. Numbers are checked to be words; marks, and searches once their
pattern is recalled, fail when they find no line; malformed anchors fail at once. -/
theorem Anchor.failsWith_value (ctx : AddressContext) (anchor : Anchor) :
    FailsWith Recoverable (anchor.value ctx) := by
  cases anchor with
  | number n => exact failsWith_checkWord n
  | current => exact .pure _
  | last => exact .pure _
  | mark letter =>
    unfold Anchor.value
    dsimp only
    cases ctx.mark letter with
    | none => exact .throw rfl
    | some line => exact .pure _
  | badMark => exact .throw rfl
  | search direction pattern =>
    refine .bind (failsWith_recallPattern pattern) fun r => ?_
    cases ctx.search direction r with
    | none => exact .throw rfl
    | some line => exact .pure _
  | unclosedSearch => exact .throw rfl

/-- So is the sum of its offsets.

**Proof sketch.** By induction on the offsets: one check of the offset and one of the sum come
before the rest. -/
theorem failsWith_addOffsets (v : Int) (offsets : List Int) :
    FailsWith Recoverable (addOffsets v offsets) := by
  induction offsets generalizing v with
  | nil => exact .pure v
  | cons offset offsets ih =>
    exact .bind (failsWith_checkWord _) fun _ => .bind (failsWith_checkWord _) ih

/-- So is an address. -/
theorem Address.failsWith_value (ctx : AddressContext) (a : Address) :
    FailsWith Recoverable (a.value ctx) :=
  .bind (a.anchor.failsWith_value ctx) fun _ => .bind (failsWith_addOffsets _ _) fun _ =>
    .ite (.bind (.throw rfl) fun _ => .pure _) (.pure _)

/-- So are the addresses before the last.

**Proof sketch.** By induction on the list, a link with an address being evaluated and a link
without being skipped. -/
theorem AddressProgress.failsWith_links (ctx : AddressContext) (p : AddressProgress)
    (rest : List (Option Address × Separator)) : FailsWith Recoverable (p.links ctx rest) := by
  induction rest generalizing p with
  | nil => exact .pure p
  | cons entry rest ih =>
    obtain ⟨address, separator⟩ := entry
    refine .bind ?_ ih
    cases address with
    | some a => exact .bind (a.failsWith_value _) fun _ => .pure _
    | none => exact .pure _

/-- So is a whole list of addresses. -/
theorem AddressList.failsWith_values (ctx : AddressContext) (list : AddressList) :
    FailsWith Recoverable (list.values ctx) := by
  refine .bind (AddressProgress.failsWith_links ctx _ list.links) fun p => ?_
  cases list.final with
  | some a => exact .bind (a.failsWith_value _) fun _ => .pure _
  | none =>
    dsimp only
    cases p.pending with
    | some line => exact .pure _
    | none => exact .pure _

/-! ## Command lines -/

/-- A malformed file name is the user's error. -/
theorem recoverable_of_readFilename {rest : Line} {e : EditError}
    (h : readFilename rest = .error e) : e.Recoverable := by
  unfold readFilename at h
  split at h
  · cases h
  · split at h
    · split at h <;> cases h
    · cases h
      rfl

/-- So is a malformed print suffix.

**Proof sketch.** By induction along the reader, which fails on the first byte that is no suffix. -/
theorem recoverable_of_readPrintSuffix {mode : Option PrintMode} {rest : Line} {e : EditError}
    (h : readPrintSuffix mode rest = .error e) : e.Recoverable := by
  fun_induction readPrintSuffix mode rest with
  | case1 => cases h
  | case2 =>
    cases h
    rfl
  | case3 _ _ _ _ _ ih => exact ih h

/-- Reads one byte that passes a test. -/
def readByte (accepts : UInt8 → Bool) (error : EditError) : Line → Except EditError (UInt8 × Line)
  | [] => .error error
  | b :: rest => if accepts b then .ok (b, rest) else .error error

/-- Such a reader has one error only. -/
theorem recoverable_of_readByte {accepts : UInt8 → Bool} {error : EditError}
    (herror : error.Recoverable) {rest : Line} {e : EditError}
    (h : readByte accepts error rest = .error e) : e.Recoverable := by
  unfold readByte at h
  split at h
  · exact Except.error.inj h ▸ herror
  · split at h
    · cases h
    · exact Except.error.inj h ▸ herror

/-- The letter of a mark is one byte. -/
theorem readMark_eq_readByte : readMark = readByte isLower .invalidMark := by
  funext rest
  cases rest <;> rfl

/-- So is a delimiter. -/
theorem readDelimiter_eq_readByte :
    readDelimiter =
      readByte (fun b => ¬(b = ascii ' ' ∨ b = newline)) .invalidPatternDelimiter := by
  funext rest
  cases rest with
  | nil => rfl
  | cons b rest =>
    unfold readDelimiter readByte
    dsimp only
    simp only [decide_eq_true_eq, ite_not]

/-- A byte that cannot be a delimiter is the user's to correct. -/
theorem failsWith_readDelimiter (rest : Line) :
    FailsWith Recoverable (ofResult (readDelimiter rest) : Recall (UInt8 × Line)) := by
  have herror : EditError.invalidPatternDelimiter.Recoverable := rfl
  rw [readDelimiter_eq_readByte]
  exact .ofResult fun _ => recoverable_of_readByte herror

/-- So is a byte that cannot be a mark. -/
theorem failsWith_readMark (rest : Line) :
    FailsWith Recoverable (ofResult (readMark rest) : Recall (UInt8 × Line)) := by
  have herror : EditError.invalidMark.Recoverable := rfl
  rw [readMark_eq_readByte]
  exact .ofResult fun _ => recoverable_of_readByte herror

/-- A pattern that is not closed is the user's error. -/
theorem recoverable_of_readPattern {delimiter : UInt8} {rest : Line} {e : EditError}
    (h : readPattern delimiter rest = .error e) : e.Recoverable := by
  unfold readPattern at h
  split at h <;> cases h
  rfl

/-- So is a malformed flag of a substitution.

**Proof sketch.** By induction along the reader: each flag it accepts leaves a shorter rest, and the
others fail at once. -/
theorem recoverable_of_readFlags {occurrence : Option Regex.Occurrence} {mode : Option PrintMode}
    {rest : Line} {e : EditError} (h : readFlags occurrence mode rest = .error e) :
    e.Recoverable := by
  fun_induction readFlags occurrence mode rest with
  | case1 => cases h
  | case2 _ _ _ _ _ ih => exact ih h
  | case3 | case4 | case6 =>
    cases h
    rfl
  | case5 _ _ _ _ _ _ _ _ _ ih => exact ih h
  | case7 _ _ _ _ _ _ _ _ ih => exact ih h

/-- So is a regex that cannot be read or compiled. -/
theorem failsWith_readRegex (rest : Line) : FailsWith Recoverable (readRegex rest) :=
  .bind (failsWith_readDelimiter rest) fun _ =>
    .bind (.ofResult fun _ => recoverable_of_readPattern) fun _ =>
      .bind (failsWith_recallPattern _) fun _ => .pure _

/-- So is anything wrong in the argument of a substitution.

**Proof sketch.** A substitution without a pattern reads flags alone. The others read a regex first,
then a replacement, which cannot fail, then the flags. -/
theorem failsWith_readSubstitution (rest : Line) :
    FailsWith Recoverable (readSubstitution rest) := by
  refine .ite (.pure _) (.ite ?_ ?_)
  · exact .bind (.ofResult fun _ => recoverable_of_readFlags) fun _ => .pure _
  · refine .bind (failsWith_readRegex rest) fun read => ?_
    obtain ⟨regex, delimiter, rest⟩ := read
    dsimp only
    split
    · exact .pure _
    · exact .bind (.ofResult fun _ => recoverable_of_readFlags) fun _ => .pure _

/-- So is a destination that cannot be read. -/
theorem failsWith_readDestination (ctx : AddressContext) (rest : Line) :
    FailsWith Recoverable (readDestination ctx rest) := by
  refine .bind (AddressList.failsWith_values ctx _) fun addresses => ?_
  cases addresses.second with
  | none => exact .throw rfl
  | some line => exact .pure _

/-- So is anything wrong after the letter of a command.

**Proof sketch.** The readers of the argument are lemmas above; the three shapes they are called in,
with a file name, a destination or a regex, are stated once, and each letter is one of them. -/
theorem failsWith_readCommand (ctx : AddressContext) (letter : UInt8) (rest : Line) :
    FailsWith Recoverable (readCommand ctx letter rest) := by
  have hfilename {f : Option FileName → Command} (rest : Line) : FailsWith Recoverable
      (ofResult (readFilename rest) >>= fun path => pure (f path, (none : Option PrintMode), []) :
        Recall (Command × Option PrintMode × Line)) :=
    .bind (.ofResult fun _ => recoverable_of_readFilename) fun _ => .pure _
  have hdestination {f : Nat → Command} : FailsWith Recoverable
      (readDestination ctx rest >>= fun read =>
        pure (f read.1, (none : Option PrintMode), read.2)) :=
    .bind (failsWith_readDestination ctx rest) fun _ => .pure _
  have hglobal (invert : Bool) : FailsWith Recoverable
      (readGlobal invert rest >>= fun command =>
        pure (command, (none : Option PrintMode), ([] : Line))) :=
    .bind (.bind (failsWith_readRegex rest) fun _ => .pure _) fun _ => .pure _
  unfold readCommand
  repeat' refine .ite ?_ ?_
  -- What follows the letter is read by one of a few readers, whose errors are known.
  all_goals first
    | exact .pure _
    | exact hfilename _
    | exact hdestination
    | exact hglobal _
    | exact .bind (failsWith_readMark rest) fun _ => .pure _
    | exact .bind (failsWith_readSubstitution rest) fun _ => .pure _
    | exact .throw rfl

/-- **What is wrong with a command line is the user's to correct.**

**Proof sketch.** The addresses come first, the command second and the print suffix last, and each
of the three has its lemma; the check between them for a suffix the command cannot have throws an
error of the user. -/
theorem CommandLine.failsWith_read (ctx : AddressContext) (line : Line) :
    FailsWith Recoverable (CommandLine.read ctx line) := by
  refine .bind (AddressList.failsWith_values ctx _) fun addresses => ?_
  split
  · exact .pure _
  · refine .bind (failsWith_readCommand ctx _ _) fun read => ?_
    obtain ⟨command, mode, rest⟩ := read
    have hsuffix : FailsWith Recoverable (ofResult (readPrintSuffix mode rest) >>= fun print =>
        pure ⟨addresses, command, print⟩ : Recall CommandLine) :=
      .bind (.ofResult fun _ => recoverable_of_readPrintSuffix) fun _ => .pure _
    exact .ite (.bind (.throw rfl) fun _ => hsuffix) hsuffix

end LineEditor
