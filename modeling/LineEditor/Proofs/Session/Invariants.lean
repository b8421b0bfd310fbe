import LineEditor.Proofs.Buffer.Contents
import LineEditor.Proofs.Session.Journal
import LineEditor.Session.Loop

set_option autoImplicit false
set_option relaxedAutoImplicit false

/-!
# Invariants of editors

All that commands do to an editor is made of a few steps: operations on the buffer, taking the next
line to visit, keeping a snapshot, remembering a substitution, and beginning and ending a global
command. A property that each of these steps maintains holds along every command line, whatever is
read, written or printed meanwhile, also when a command fails, and before and after each of the
commands that a global command carries out.

The texts that come into the buffer are over an alphabet that has all bytes but perhaps the newline.

## Main definitions

* `LineEditor.Editor.Invariant`: properties that all steps maintain.
* `LineEditor.Session.Meets`: sessions whose editor has a property.

## Main results

* `LineEditor.Editor.Invariant.execute`: a command line maintains an invariant.
* `LineEditor.Editor.Invariant.entries`: it holds before and after each command that is carried out.
* `LineEditor.Editor.Invariant.steps`, `LineEditor.Editor.Invariant.stepsEntries`: the same for
  sessions.
-/

namespace LineEditor

open EState

variable {A : Set UInt8}

/-- Two editors differ at most in the name of the file, in whether the lines count as written, and
in what is remembered apart from the substitution. -/
structure Editor.Alike (e e' : Editor) : Prop where
  /-- Lines, current line and marks are the same. -/
  present : e'.buffer.snapshot = e.buffer.snapshot
  /-- The snapshot is the same. -/
  saved : e'.buffer.saved = e.buffer.saved
  /-- The pending lines are the same. -/
  targets : e'.buffer.targets = e.buffer.targets
  /-- The remembered substitution is the same. -/
  lastSubstitution : e'.lastSubstitution = e.lastSubstitution
  /-- A global command is running in both or in none. -/
  inGlobal : e'.inGlobal = e.inGlobal

/-- A property of editors is maintained by all steps of commands, if the texts that come in are over
an alphabet. There is one property for editors in which a global command is running, and one for
others. -/
structure Editor.Invariant (A : Set UInt8) (I : Bool → Editor → Prop) : Prop where
  /-- All bytes but the newline are in the alphabet. -/
  alphabet : notNewline ⊆ A
  /-- Not everything is looked at. -/
  alike : ∀ {g e e'}, I g e → e.Alike e' → I g e'
  /-- Operations are steps. -/
  operation : ∀ {g e} {op : Operation}, I g e → op.Over A →
    I g { e with buffer := after op.perform e.buffer }
  /-- Going on to the next line to visit is a step. -/
  nextTarget : ∀ {g e}, I g e → I g { e with buffer := after LineBuffer.nextTarget e.buffer }
  /-- So is keeping what was there before. -/
  storeSnapshot : ∀ {g e e'}, I g e → I g e' →
    I g { e' with buffer := e'.buffer.storeSnapshot e.buffer.snapshot }
  /-- So is remembering a substitution. -/
  remember : ∀ {g e} {s : Substitution}, I g e → s.replacement.Over A →
    I g { e with lastSubstitution := some s }
  /-- The remembered substitution is over the alphabet. -/
  remembered : ∀ {g e}, I g e → ∀ s ∈ e.lastSubstitution, s.replacement.Over A
  /-- A global command begins. -/
  enter : ∀ {e}, I false e → ∀ range invert regex,
    I true { e with
      inGlobal := true
      buffer := e.buffer.setTargets (Action.selectLines e.buffer range invert regex) }
  /-- A global command ends. -/
  leave : ∀ {e}, I true e → I false { e with inGlobal := false, buffer := e.buffer.clearTargets }

/-- The editor of a session has a property, and the lines that are still to be read are over an
alphabet. -/
structure Session.Meets (A : Set UInt8) (J : Editor → Prop) (s : Session) : Prop where
  /-- The editor has the property. -/
  editor : J s.editor
  /-- The lines are over the alphabet. -/
  input : s.input.Over A

/-- The sessions before and after a command have such editors and lines. -/
structure JournalEntry.Meets (A : Set UInt8) (J : Editor → Prop) (entry : JournalEntry) : Prop where
  /-- The session before has. -/
  before : entry.before.Meets A J
  /-- The session after has as well. -/
  after : entry.after.Meets A J

namespace Action

variable {α β : Type} {J : Editor → Prop}

/-! ## Steps that only some parts of a session take -/

/-- Reading from an input over the alphabet maintains a property of the editor, and gives what the
reader gives. -/
theorem maintains_onInput {P : α → Prop} {x : EStateM EditError Source α}
    (hx : Maintains (Source.Over A) P x) : Maintains (Session.Meets A J) P (onInput x) := by
  intro s hs
  unfold onInput
  cases hread : x s.input with
  | ok a source =>
    obtain ⟨hsource, ha⟩ := hx.of_ok hs.input hread
    exact ⟨⟨hs.editor, hsource⟩, ha⟩
  | error e source => exact ⟨hs.editor, hx.of_error hs.input hread⟩

/-- Writing to the output maintains it. -/
theorem maintains_onOutput (x : EStateM EditError Sink α) :
    Maintains (Session.Meets A J) (fun _ => True) (onOutput x) := by
  intro s hs
  unfold onOutput
  dsimp only
  cases x s.output with
  | ok a output => exact ⟨⟨hs.editor, hs.input⟩, trivial⟩
  | error e output => exact ⟨hs.editor, hs.input⟩

/-- So does emitting several pieces. -/
theorem maintains_emitAll (pieces : List Line) :
    Maintains (Session.Meets A J) (fun _ => True) (emitAll pieces) := by
  induction pieces with
  | nil => exact .pure trivial
  | cons piece pieces ih => exact (maintains_onOutput _).seq fun _ => ih

/-- So does reporting a size. -/
theorem maintains_reportSize (bytes : Nat) :
    Maintains (Session.Meets A J) (fun _ => True) (reportSize bytes) :=
  .get_bind fun _ _ => .ite (fun _ => .pure trivial) fun _ => maintains_emitAll _

/-- A change of the editor maintains what it maintains. -/
theorem maintains_changeEditor {f : Editor → Editor} (hf : ∀ e, J e → J (f e)) :
    Maintains (Session.Meets A J) (fun _ => True) (changeEditor f) :=
  fun _ hs => ⟨⟨hf _ hs.editor, hs.input⟩, trivial⟩

/-- So does a change of the buffer. -/
theorem maintains_changeBuffer {f : LineBuffer → LineBuffer}
    (hf : ∀ e, J e → J { e with buffer := f e.buffer }) :
    Maintains (Session.Meets A J) (fun _ => True) (changeBuffer f) :=
  fun _ hs => ⟨⟨hf _ hs.editor, hs.input⟩, trivial⟩

/-- So does an operation on the buffer.

**Proof sketch.** The property holds of the buffer after the operation, which is the buffer of the
session whether it succeeds or fails. -/
theorem maintains_onBuffer {x : BufferAction α}
    (hx : ∀ e, J e → J { e with buffer := after x e.buffer }) :
    Maintains (Session.Meets A J) (fun _ => True) (onBuffer x) := by
  intro s hs
  have heditor := hx s.editor hs.editor
  rw [onBuffer_apply]
  unfold after at heditor
  cases hresult : x s.buffer with
  | ok a b =>
    rw [hresult] at heditor
    exact ⟨⟨heditor, hs.input⟩, trivial⟩
  | error e b =>
    rw [hresult] at heditor
    exact ⟨heditor, hs.input⟩

/-- Quitting maintains any property, since it only looks at the buffer. -/
theorem maintains_quitSession (force : Bool) :
    Maintains (Session.Meets A J) (fun _ => True) (quitSession force) := by
  refine .get_bind fun s _ => ?_
  dsimp only
  split
  · exact (Maintains.throw _).bind fun _ h => .pure h
  · exact .pure trivial

/-- Asking for a file name does, too. -/
theorem maintains_nameOrStored (path : Option FileName) :
    Maintains (Session.Meets A J) (fun _ => True) (nameOrStored path) := by
  refine .get_bind fun s _ => ?_
  cases path.or s.buffer.filename with
  | none => exact .throw _
  | some name => exact .pure trivial

end Action

namespace Action

/-! ## The commands of a session -/

/-- Shows the prompt and reads a command line. -/
def promptedNext : Action (Option Line) := do
  showPrompt
  onInput Source.next

/-- A step of a session reads a line behind its prompt and attempts it, or ends with the input. -/
theorem step_eq_bind :
    step = promptedNext >>= fun text? => text?.elim (return .quit) attempt := by
  unfold step promptedNext
  rw [bind_assoc]
  congr 1
  funext _
  congr 1
  funext text?
  cases text? <;> rfl

/-- The commands that a step carries out. -/
def stepEntries (s : Session) : List JournalEntry :=
  match promptedNext s with
  | .ok (some text) t => entries text t
  | _ => []

/-- The commands that a session carries out. -/
def stepsEntries : (rounds : Nat) → Session → List JournalEntry
  | 0, _ => []
  | rounds + 1, s =>
    stepEntries s ++
      match step s with
      | .ok .continued t => stepsEntries rounds t
      | _ => []

end Action

namespace Editor.Invariant

open LineEditor.Action

variable {α : Type} {I : Bool → Editor → Prop} {g : Bool}

/-! ## Operations and what is done around them -/

section

variable (hI : Editor.Invariant A I)

include hI

/-- An operation that brings no other texts is a step of the buffer. -/
theorem onBuffer (op : Operation) {x : BufferAction α} {f : α → Reply} (h : op.perform = f <$> x)
    (hop : op.Over A) : Maintains (Session.Meets A (I g)) (fun _ => True) (onBuffer x) :=
  maintains_onBuffer fun e he => by
    have hafter := hI.operation he hop
    rwa [h, after_map] at hafter

/-- What does not touch lines, current line, marks, snapshot and pending lines. -/
theorem onBuffer_of_eq {x : BufferAction α}
    (hx : ∀ b, ∃ filename, after x b = { b with filename }) :
    Maintains (Session.Meets A (I g)) (fun _ => True) (Action.onBuffer x) :=
  maintains_onBuffer fun e he => by
    obtain ⟨filename, hafter⟩ := hx e.buffer
    rw [hafter]
    exact hI.alike he ⟨rfl, rfl, rfl, rfl, rfl⟩

/-- Checking a range changes nothing. -/
theorem checkRange (r : LineRange) :
    Maintains (Session.Meets A (I g)) (fun _ => True)
      (Action.onBuffer (LineBuffer.checkRange r)) := by
  refine hI.onBuffer_of_eq fun b => ⟨b.filename, ?_⟩
  rw [after, LineBuffer.checkRange_apply]
  split <;> rfl

/-- Resolving a file name changes no more than the name.

**Proof sketch.** The name is adopted or not, and in both cases nothing else of the buffer is
touched. -/
theorem resolveFilename (path : Option FileName) (adopt : Bool) :
    Maintains (Session.Meets A (I g)) (fun _ => True)
      (Action.onBuffer (LineBuffer.resolveFilename path adopt)) := by
  refine hI.onBuffer_of_eq fun b => ?_
  rw [after, LineBuffer.resolveFilename_apply]
  cases path.or b.filename with
  | none => exact ⟨b.filename, rfl⟩
  | some name => exact ⟨_, rfl⟩

/-- Whether the buffer counts as written is not looked at. -/
theorem setWritten :
    Maintains (Session.Meets A (I g)) (fun _ => True)
      (changeBuffer fun b => { b with dirty := false }) :=
  maintains_changeBuffer fun _ he => hI.alike he ⟨rfl, rfl, rfl, rfl, rfl⟩

/-- Giving the buffer another name is not looked at. -/
theorem rename (name : LineBuffer → Option FileName) :
    Maintains (Session.Meets A (I g)) (fun _ => True)
      (changeBuffer fun b => { b with filename := name b }) :=
  maintains_changeBuffer fun _ he => hI.alike he ⟨rfl, rfl, rfl, rfl, rfl⟩

/-- Printing moves the current line, which is an operation. -/
theorem print (r : LineRange) (mode : PrintMode) :
    Maintains (Session.Meets A (I g)) (fun _ => True) (print r mode) :=
  (hI.checkRange r).seq fun _ => .get_bind fun _ _ => (maintains_emitAll _).seq fun _ =>
    hI.onBuffer (.setCurrent r.last) rfl trivial

/-- Printing the current line does so as well. -/
theorem printCurrent (mode : PrintMode) :
    Maintains (Session.Meets A (I g)) (fun _ => True) (printCurrent mode) := by
  refine .get_bind fun s _ => ?_
  cases s.buffer.current with
  | none => exact .throw _
  | some index => exact hI.print _ mode

/-- What is remembered apart from the substitution is not looked at. -/
theorem changeEditor {f : Editor → Editor} (hf : ∀ e : Editor, e.Alike (f e)) :
    Maintains (Session.Meets A (I g)) (fun _ => True) (changeEditor f) :=
  maintains_changeEditor fun e he => hI.alike he (hf e)

/-! ## Files -/

omit hI in
/-- The lines of a file have no newline in them. -/
theorem over_of_readLines (hA : notNewline ⊆ A) {disk : Disk} {name : FileName}
    {file : List Line × Nat} (h : disk.readLines name = .ok file) :
    LinesOver A file.1.toArray := by
  intro line hline
  unfold Disk.readLines at h
  split at h
  · cases h
  · cases h
  · cases h
    exact (over_of_mem_splitLines hline).mono hA

/-- Loading a file maintains an invariant.

**Proof sketch.** The lines replace those of the buffer, which is an operation over the alphabet
since the lines of a file have no newline. What else is set is not looked at. -/
theorem load (name : FileName) :
    Maintains (Session.Meets A (I g)) (fun _ => True) (load name) := by
  refine .get_bind fun s _ => (Maintains.ofResult _).bind fun file hfile => .seq ?_ fun _ =>
    .pure trivial
  refine maintains_changeBuffer fun e he => ?_
  have hlines : (Operation.replaceAll file.1.toArray).Over A := over_of_readLines hI.alphabet hfile
  have hreplaced := hI.operation he hlines
  exact hI.alike hreplaced ⟨rfl, rfl, rfl, rfl, rfl⟩

/-- Reading a file into the buffer appends its lines. -/
theorem insertFile (name : FileName) (after : Option Nat) :
    Maintains (Session.Meets A (I g)) (fun _ => True) (insertFile name after) := by
  refine .get_bind fun s _ => (Maintains.ofResult _).bind fun file hfile => ?_
  refine (hI.rename _).seq fun _ => .seq ?_ fun _ => .pure trivial
  exact hI.onBuffer (.append after file.1.toArray) rfl (over_of_readLines hI.alphabet hfile)

omit hI in
/-- Writing to the disk changes neither the editor nor the input. -/
theorem writeLines (J : Editor → Prop) (name : FileName) (lines : Array Line) (append : Bool) :
    Maintains (Session.Meets A J) (fun _ => True) (writeLines name lines append) := by
  intro s hs
  rw [writeLines_apply]
  split
  · exact hs
  · exact ⟨⟨hs.editor, hs.input⟩, trivial⟩

/-- Writing the buffer resolves the name and marks the buffer as saved. -/
theorem write (path : Option FileName) :
    Maintains (Session.Meets A (I g)) (fun _ => True) (write path) :=
  (hI.resolveFilename path true).seq fun _ => .get_bind fun _ _ =>
    (writeLines _ _ _ _).seq fun _ => hI.setWritten.seq fun _ => .pure trivial

/-- So does writing a part of it.

**Proof sketch.** The check of the range changes nothing, and with or without a range what follows
is the same. -/
theorem writeRange (range : Option LineRange) (path : Option FileName) (append : Bool) :
    Maintains (Session.Meets A (I g)) (fun _ => True) (writeRange range path append) := by
  refine (hI.resolveFilename path !append).seq fun name => ?_
  have hrest (lines : LineBuffer → Array Line) :
      Maintains (Session.Meets A (I g)) (fun _ => True) (do
        let b := (← get).buffer
        let bytes ← Action.writeLines name (lines b) append
        if (lines b).size = b.size ∧ append = false then
          changeBuffer fun b => { b with dirty := false }
        return bytes) := by
    refine .get_bind fun _ _ => (writeLines _ _ _ _).seq fun _ => ?_
    exact .ite (fun _ => hI.setWritten.seq fun _ => .pure trivial) fun _ => .pure trivial
  cases range with
  | none => exact hrest fun _ => #[]
  | some r => exact (hI.checkRange r).seq fun _ => hrest fun b => r.slice b.lines

/-! ## Commands -/

/-- A command line over the alphabet is parsed to a command over the alphabet.

**Proof sketch.** The parser yields such commands from any remembered pattern, and the pattern it
leaves is not looked at. -/
theorem parse {text : Line} (htext : text.Over A) :
    Maintains (Session.Meets A (I g)) (fun line => line.command.Over A) (parse text) := by
  refine .get_bind fun s _ t ht => ?_
  have hread := CommandLine.yields_read hI.alphabet s.buffer.addressContext htext
  unfold onPattern
  cases hline : CommandLine.read s.buffer.addressContext text t.editor.lastPattern with
  | ok line pattern =>
    exact ⟨⟨hI.alike ht.editor ⟨rfl, rfl, rfl, rfl, rfl⟩, ht.input⟩, (hread.of_ok trivial hline).2⟩
  | error e pattern => exact ⟨hI.alike ht.editor ⟨rfl, rfl, rfl, rfl, rfl⟩, ht.input⟩

/-- The substitution that is repeated is over the alphabet as well. -/
theorem repeated (occurrence : Option Regex.Occurrence) :
    Maintains (Session.Meets A (I g)) (fun s => s.replacement.Over A) (repeated occurrence) := by
  refine .get_bind fun s hs => ?_
  cases hlast : s.editor.lastSubstitution with
  | none => exact .throw _
  | some substitution => exact .pure (hI.remembered hs.editor substitution hlast)

/-- Substituting is an operation over the alphabet, if the replacement is. -/
theorem substitute (r : LineRange) {s : Substitution} (hs : s.replacement.Over A) :
    Maintains (Session.Meets A (I g)) (fun _ => True)
      (Action.onBuffer (LineBuffer.substitute r s)) :=
  hI.onBuffer (.substitute r s) rfl hs

/-- A block of text is over the alphabet. -/
theorem readBlock {f : List Line → Action α}
    (hf : ∀ block : List Line, LinesOver A block.toArray →
      Maintains (Session.Meets A (I g)) (fun _ => True) (f block)) :
    Maintains (Session.Meets A (I g)) (fun _ => True) (onInput Source.readBlock >>= f) :=
  (maintains_onInput (Source.maintains_readBlock hI.alphabet)).bind fun block hblock =>
    hf block hblock

omit hI in
/-- A range that addresses give, and what is done on it. -/
theorem onRange {r : Except EditError LineRange} {f : LineRange → Action Unit}
    (hf : ∀ range, Maintains (Session.Meets A (I g)) (fun _ => True) (f range)) :
    Maintains (Session.Meets A (I g)) (fun _ => True) (do
      let range ← ofResult r
      f range
      return Outcome.continued) :=
  (Maintains.ofResult r).bind fun range _ => (hf range).seq fun _ => .pure trivial

/-- An operation on the buffer, with which a command ends. -/
theorem edit (op : Operation) {x : BufferAction α} {f : α → Reply} (h : op.perform = f <$> x)
    (hop : op.Over A) : Maintains (Session.Meets A (I g)) (fun _ => True)
      (Action.onBuffer x >>= fun _ => pure Outcome.continued) :=
  (hI.onBuffer op h hop).seq fun _ => .pure trivial

section

variable {runGlobal : GlobalAction} {addresses : Addresses} {command : Command}

/-- A block of text that comes into the buffer is over the alphabet. -/
theorem perform_input (h : command.family = .input) :
    Maintains (Session.Meets A (I g)) (fun _ => True) (perform runGlobal addresses command) := by
  refine .get_bind fun s hs => ?_
  cases command with
  | append => exact hI.readBlock fun block hblock => hI.edit (.append _ _) rfl hblock
  | insert => exact hI.readBlock fun block hblock => hI.edit (.insert _ _) rfl hblock
  | change =>
    exact (Maintains.ofResult _).bind fun r _ => hI.readBlock fun block hblock =>
      hI.edit (.change _ _) rfl hblock
  | _ => cases h

/-- Operations on lines that are there bring no text into the buffer. -/
theorem perform_lines (h : command.family = .lines) :
    Maintains (Session.Meets A (I g)) (fun _ => True) (perform runGlobal addresses command) := by
  refine .get_bind fun s hs => ?_
  cases command with
  | delete => exact onRange fun r => hI.onBuffer (.delete r) rfl trivial
  | move dest => exact onRange fun r => hI.onBuffer (.move r _) rfl trivial
  | copy dest => exact onRange fun r => hI.onBuffer (.copy r _) rfl trivial
  | join => exact onRange fun r => hI.onBuffer (.join r) rfl trivial
  | undo => exact hI.edit .undo rfl trivial
  | mark letter =>
    dsimp only
    cases indexOf? (addresses.target s.buffer.currentNumber) with
    | none => exact (Maintains.throw _).seq fun _ => .pure trivial
    | some index => exact hI.edit (.setMark letter index) rfl trivial
  | _ => cases h

/-- The replacement that is written is over the alphabet, and so is the one that is remembered. -/
theorem perform_substitution (hcommand : command.Over A) (h : command.family = .substitution) :
    Maintains (Session.Meets A (I g)) (fun _ => True) (perform runGlobal addresses command) := by
  refine .get_bind fun s hs => ?_
  cases command with
  | substitute substitution =>
    refine .bind (.ofResult _) fun r _ => ?_
    refine .seq (maintains_changeEditor fun e he => hI.remember he hcommand) fun _ => ?_
    exact (hI.substitute r hcommand).seq fun _ => .pure trivial
  | repeatSubstitute occurrence =>
    refine .bind (.ofResult _) fun r _ => .bind (hI.repeated occurrence) fun _ hsubstitution => ?_
    exact (hI.substitute r hsubstitution).seq fun _ => .pure trivial
  | _ => cases h

/-- Printing takes no step but that to another current line. -/
theorem perform_printing (h : command.family = .printing) :
    Maintains (Session.Meets A (I g)) (fun _ => True) (perform runGlobal addresses command) := by
  refine .get_bind fun s hs => ?_
  cases command with
  | null => exact onRange fun r => hI.print r .plain
  | print mode => exact onRange fun r => hI.print r mode
  | lineNumber => exact (maintains_emitAll _).seq fun _ => .pure trivial
  | _ => cases h

/-- Writing takes no step: the name of the file and whether the lines count as written do not
matter. A range decides only which lines are written. -/
theorem writeAndEnd (b : LineBuffer) (path : Option FileName) (append quit : Bool)
    (range : Option LineRange) :
    Maintains (Session.Meets A (I g)) (fun _ => True) (writeAndEnd b path append quit range) := by
  have hend (bytes : Nat) : Maintains (Session.Meets A (I g)) (fun _ => True) (do
      reportSize bytes
      if quit then quitSession false else return Outcome.continued) :=
    (maintains_reportSize bytes).seq fun _ =>
      .ite (fun _ => maintains_quitSession false) fun _ => .pure trivial
  exact .ite (fun _ => .seq (hI.writeRange _ path true) hend) fun _ =>
    .ite (fun _ => .seq (hI.writeRange range path false) hend) fun _ =>
      .seq (hI.write path) hend

/-- The lines of a file that come into the buffer are over the alphabet. -/
theorem perform_file (h : command.family = .file) :
    Maintains (Session.Meets A (I g)) (fun _ => True) (perform runGlobal addresses command) := by
  refine .get_bind fun s hs => ?_
  cases command with
  | read path =>
    exact (maintains_nameOrStored path).seq fun name => (hI.insertFile name _).seq fun bytes =>
      (maintains_reportSize bytes).seq fun _ => .pure trivial
  | write path append quit =>
    have hwrite := hI.writeAndEnd (g := g) s.buffer path append quit
    refine .ite (fun _ => ?_) fun _ => ?_
    · exact (Maintains.pure trivial).seq hwrite
    · exact ((Maintains.ofResult _).map fun _ _ => trivial).seq hwrite
  | edit path force =>
    refine .ite (fun _ => (Maintains.throw _).seq fun _ => ?_) fun _ => ?_ <;>
      exact (maintains_nameOrStored path).seq fun name => (hI.load name).seq fun bytes =>
        (maintains_reportSize bytes).seq fun _ => .pure trivial
  | filename path =>
    have hshow : Maintains (Session.Meets A (I g)) (fun _ => True) showFilename :=
      (maintains_nameOrStored none).seq fun _ => (maintains_emitAll _).seq fun _ => .pure trivial
    exact .ite (fun _ => (hI.rename _).seq fun _ => hshow) fun _ => hshow
  | _ => cases h

/-- What a session remembers apart from the substitution does not matter. -/
theorem perform_session (h : command.family = .session) :
    Maintains (Session.Meets A (I g)) (fun _ => True) (perform runGlobal addresses command) := by
  have hexplain (e? : Option EditError) :
      Maintains (Session.Meets A (I g)) (fun _ => True) (explain e?) := by
    cases e? with
    | none => exact .pure trivial
    | some e => exact (maintains_emitAll _).seq fun _ => .pure trivial
  refine .get_bind fun s hs => ?_
  cases command with
  | quit force => exact maintains_quitSession force
  | help => exact .get_bind fun s _ => hexplain s.editor.lastError
  | toggleVerbose =>
    refine .seq (hI.changeEditor fun e => ⟨rfl, rfl, rfl, rfl, rfl⟩) fun _ => ?_
    exact .get_bind fun s _ => .ite (fun _ => hexplain s.editor.lastError) fun _ => .pure trivial
  | togglePrompt =>
    exact .seq (hI.changeEditor fun e => ⟨rfl, rfl, rfl, rfl, rfl⟩) fun _ => .pure trivial
  | _ => cases h

/-- A command maintains an invariant, if global commands do.

**Proof sketch.** One case for each family of commands, with the steps that it takes. -/
theorem perform (hcommand : command.Over A)
    (hglobal : ∀ range invert regex list, command = .global invert regex list →
      Maintains (Session.Meets A (I g)) (fun _ => True) (runGlobal range invert regex list)) :
    Maintains (Session.Meets A (I g)) (fun _ => True) (perform runGlobal addresses command) := by
  cases h : command.family with
  | input => exact hI.perform_input h
  | lines => exact hI.perform_lines h
  | substitution => exact hI.perform_substitution hcommand h
  | printing => exact hI.perform_printing h
  | file => exact hI.perform_file h
  | session => exact hI.perform_session h
  | global =>
    obtain ⟨invert, regex, list, rfl⟩ := Command.eq_global h
    exact .get_bind fun s _ => (Maintains.ofResult _).bind fun r _ =>
      hglobal r invert regex list rfl

end

/-- A snapshot of what was there before is kept.

**Proof sketch.** After a success, the snapshot is the one of a session that had the invariant,
which is a step by `storeSnapshot`; after a failure it is kept or not. -/
theorem undoably {x : Action Outcome} (hx : Maintains (Session.Meets A (I g)) (fun _ => True) x)
    (partly : Bool) {s : Session} (hs : s.Meets A (I g)) :
    Maintains (Session.Meets A (I g)) (fun _ => True) (undoably partly s.buffer.snapshot x) := by
  intro t ht
  have hstore {u : Session} (hu : u.Meets A (I g)) :
      (u.withBuffer (u.buffer.storeSnapshot s.buffer.snapshot)).Meets A (I g) :=
    ⟨hI.storeSnapshot hs.editor hu.editor, hu.input⟩
  cases hresult : x t with
  | ok outcome u =>
    obtain ⟨hu, -⟩ := hx.of_ok ht hresult
    rw [Action.undoably, hresult]
    exact ⟨hstore hu, trivial⟩
  | error e u =>
    have hu := hx.of_error ht hresult
    rw [Action.undoably, hresult]
    dsimp only
    split
    · exact hstore hu
    · exact hu

/-- A parsed command line maintains an invariant, if global commands do.

**Proof sketch.** Without the print suffix the line is its command, with or without a snapshot kept;
the suffix prints the current line. -/
theorem update {runGlobal : GlobalAction} {line : CommandLine} (hline : line.command.Over A)
    (hglobal : ∀ range invert regex list, line.command = .global invert regex list →
      Maintains (Session.Meets A (I g)) (fun _ => True) (runGlobal range invert regex list)) :
    Maintains (Session.Meets A (I g)) (fun _ => True) (update runGlobal line) := by
  rw [update_eq_bind]
  refine Maintains.seq (fun s hs => ?_) fun outcome => ?_
  · have hperform : Maintains (Session.Meets A (I g)) (fun _ => True)
        (Action.perform runGlobal line.addresses line.command) := hI.perform hline hglobal
    rw [update_bare_apply]
    split
    · exact hI.undoably hperform _ hs s hs
    · exact hperform s hs
  · unfold printSuffix
    cases line.print with
    | none => exact .pure trivial
    | some mode => exact (hI.printCurrent mode).seq fun _ => .pure trivial

/-- A command line that stands in a list does so, since there is no global command in it. -/
theorem update_refuseGlobal {line : CommandLine} (hline : line.command.Over A) :
    Maintains (Session.Meets A (I g)) (fun _ => True) (Action.update refuseGlobal line) :=
  hI.update hline fun _ _ _ _ _ => .throw _

/-! ## Global commands -/

/-- So does a command of a list.

**Proof sketch.** The tally is beside the session: the session afterwards is that of the command
line itself. -/
theorem runListed {line : CommandLine} (hline : line.command.Over A) (tally : Tally) :
    Maintains (Session.Meets A (I g)) (fun _ => True) (runListed line tally) := by
  intro s hs
  have hafter := (hI.update_refuseGlobal hline).after hs
  rw [← after_runListed line tally] at hafter
  unfold EState.after at hafter
  cases hresult : Action.runListed line tally s with
  | ok ended t =>
    rw [hresult] at hafter
    exact ⟨hafter, trivial⟩
  | error e t =>
    rw [hresult] at hafter
    exact hafter

omit hI in
/-- The addresses that a command line is given do not matter. -/
theorem over_addressed {line : CommandLine} (h : line.command.Over A) (isInline : Bool)
    (target : Nat) : (addressed isInline target line).command.Over A := by
  unfold addressed
  split <;> exact h

/-- A command list maintains an invariant.

**Proof sketch.** By induction on the rounds. The line read is over the alphabet, so is the command
parsed from it, and carrying that out leaves a session to go on from. -/
theorem runList (isInline : Bool) (target rounds : Nat) (tally : Tally) :
    Maintains (Session.Meets A (I g)) (fun _ => True) (runList isInline target rounds tally) := by
  induction rounds generalizing tally with
  | zero => exact .pure trivial
  | succ rounds ih =>
    refine (maintains_onInput (Source.maintains_next hI.alphabet)).bind fun text? htext => ?_
    cases text? with
    | none => exact .pure trivial
    | some text =>
      refine (hI.parse (htext text rfl)).bind fun line hline => ?_
      have hline := over_addressed hline isInline target
      refine (hI.runListed hline tally).seq fun ⟨outcome, tally⟩ => ?_
      cases outcome with
      | quit => exact .pure trivial
      | continued => exact ih tally

omit hI in
/-- What is done with another input over the alphabet maintains a property of the editor.

**Proof sketch.** The session has its own input back afterwards, and the editor that the action
left. -/
theorem withInput {J : Editor → Prop} {x : Action α}
    (hx : Maintains (Session.Meets A J) (fun _ => True) x) {source : Source}
    (hsource : source.Over A) :
    Maintains (Session.Meets A J) (fun _ => True) (withInput source x) := by
  intro s hs
  have hs' : ({ s with input := source } : Session).Meets A J := ⟨hs.editor, hsource⟩
  unfold Action.withInput
  dsimp only
  cases hresult : x { s with input := source } with
  | ok a t => exact ⟨⟨(hx.of_ok hs' hresult).1.editor, hs.input⟩, trivial⟩
  | error e t => exact ⟨(hx.of_error hs' hresult).editor, hs.input⟩

/-- Going on to the next line to visit is a step. -/
theorem visitNext :
    Maintains (Session.Meets A (I g)) (fun _ => True) (Action.onBuffer LineBuffer.nextTarget) :=
  maintains_onBuffer fun _ he => hI.nextTarget he

/-- So is making a line the current one. -/
theorem setCurrent (index : Nat) :
    Maintains (Session.Meets A (I g)) (fun _ => True)
      (Action.onBuffer (LineBuffer.setCurrent index)) :=
  hI.onBuffer (.setCurrent index) rfl trivial

/-- The visits of the selected lines maintain an invariant.

**Proof sketch.** By induction on the rounds: a target is taken and made current, and the list is
run on it as an input over the alphabet. -/
theorem replay {list : List Line} (hlist : ∀ line ∈ list, line.Over A) (isInline : Bool)
    (rounds : Nat) (tally : Tally) :
    Maintains (Session.Meets A (I g)) (fun _ => True) (replay list isInline rounds tally) := by
  induction rounds generalizing tally with
  | zero => exact .ite (fun _ => .throw _) fun _ => .pure trivial
  | succ rounds ih =>
    refine hI.visitNext.seq fun target? => ?_
    cases target? with
    | none => exact .ite (fun _ => .throw _) fun _ => .pure trivial
    | some target =>
      refine (hI.setCurrent target).seq fun _ => ?_
      have hvisit := hI.runList (g := g) isInline target list.length tally
      have hsource : (Source.script list).Over A := hlist
      refine (withInput hvisit hsource).seq fun ⟨outcome, tally⟩ => ?_
      cases outcome with
      | quit => exact .pure trivial
      | continued => exact ih tally

/-- The list of a global command is over the alphabet.

**Proof sketch.** On the line it is a part of the command, which is. As a block it is read from the
input, which is. -/
theorem commandLines {invert : Bool} {regex : Regex} {list : CommandList}
    (hlist : (Command.global invert regex list).Over A) :
    Maintains (Session.Meets A (I g)) (fun read => ∀ line ∈ read.1, line.Over A)
      (commandLines list) := by
  cases list with
  | inline line =>
    refine .pure fun line' hline => ?_
    rw [List.mem_singleton.1 hline]
    exact hlist
  | block =>
    exact (maintains_onInput (Source.maintains_readCommandList hI.alphabet)).bind fun _ hlines =>
      .pure hlines

/-- When a global command begins, the lines that it visits have been set. -/
theorem begun (range : LineRange) (invert : Bool) (regex : Regex) {s : Session}
    (hs : s.Meets A (I false)) :
    (begun (selectLines s.buffer range invert regex) s).Meets A (I true) :=
  ⟨hI.enter hs.editor range invert regex, hs.input⟩

/-- Between its begin and its end a global command does what other commands do.

**Proof sketch.** `leave` is applied to the editor the action left, whether it succeeded or
failed. -/
theorem withTargets {x : Action α} (hx : Maintains (Session.Meets A (I true)) (fun _ => True) x)
    {targets : List Nat} {s : Session} (hs : (Action.begun targets s).Meets A (I true)) :
    Leaves (Session.Meets A (I false)) (fun _ => True) (withTargets targets x s) := by
  unfold Action.withTargets
  dsimp only
  cases hresult : x (Action.begun targets s) with
  | ok a t =>
    obtain ⟨ht, -⟩ := hx.of_ok hs hresult
    unfold Action.begun at hresult
    rw [hresult]
    exact ⟨⟨hI.leave ht.editor, ht.input⟩, trivial⟩
  | error e t =>
    have ht := hx.of_error hs hresult
    unfold Action.begun at hresult
    rw [hresult]
    exact ⟨hI.leave ht.editor, ht.input⟩

/-- A global command maintains an invariant.

**Proof sketch.** It refuses to be nested. Else it reads its list, and between `begun` and
`withTargets` the other property is the one that holds. -/
theorem runGlobal {invert : Bool} {regex : Regex} {list : CommandList}
    (hlist : (Command.global invert regex list).Over A) (range : LineRange) :
    Maintains (Session.Meets A (I false)) (fun _ => True) (runGlobal range invert regex list) := by
  intro s hs
  rw [runGlobal_eq]
  split
  · exact hs
  · refine (hI.commandLines hlist).bind (fun ⟨lines, isInline⟩ hlines t ht => ?_) s hs
    exact hI.withTargets (hI.replay hlines isInline _ _) (hI.begun range invert regex ht)

/-- **A command line maintains an invariant**, whatever it reads, writes and prints.

**Proof sketch.** One case for each command (`perform`), with the steps that it is made of. For a
global command, induction on the lines that it visits (`replay`) and on the commands in its list
(`runList`). -/
theorem execute {text : Line} (htext : text.Over A) :
    Maintains (Session.Meets A (I false)) (fun _ => True) (execute text) :=
  (hI.parse htext).bind fun _ hline => hI.update hline fun range _ _ _ hcommand =>
    hI.runGlobal (hcommand ▸ hline) range

/-! ## The commands that are carried out -/

/-- A command over the alphabet has the invariant before and after it. -/
theorem entry {entry : JournalEntry} (hline : entry.line.command.Over A)
    (h : entry.before.Meets A (I g)) : entry.Meets A (I g) :=
  ⟨h, (hI.update_refuseGlobal hline).after h⟩

/-- So has each command of a list that is carried out.

**Proof sketch.** By induction on the rounds, along the runs that `listEntries` collects. A round
that fails to read or parse its line adds no entry. Any other adds one from a session that has the
invariant, and what comes after it starts from another such session. -/
theorem listEntries (isInline : Bool) (target rounds : Nat) (tally : Tally) {s : Session}
    (hs : s.Meets A (I g)) :
    ∀ entry ∈ listEntries isInline target rounds tally s, entry.Meets A (I g) := by
  induction rounds generalizing tally s with
  | zero => exact List.forall_mem_nil _
  | succ rounds ih =>
    unfold Action.listEntries
    cases hnext : onInput Source.next s with
    | error e t => exact List.forall_mem_nil _
    | ok text? t =>
      obtain ⟨ht, htext⟩ :=
        (maintains_onInput (Source.maintains_next hI.alphabet)).of_ok hs hnext
      cases text? with
      | none => exact List.forall_mem_nil _
      | some text =>
        dsimp only
        cases hparse : Action.parse text t with
        | error e u => exact List.forall_mem_nil _
        | ok line u =>
          obtain ⟨hu, hline⟩ := (hI.parse (htext text rfl)).of_ok ht hparse
          have hline := over_addressed hline isInline target
          refine List.forall_mem_cons.2 ⟨hI.entry hline hu, ?_⟩
          cases hlisted : Action.runListed (addressed isInline target line) tally u with
          | error e v => exact List.forall_mem_nil _
          | ok ended v =>
            obtain ⟨outcome, tally'⟩ := ended
            cases outcome with
            | quit => exact List.forall_mem_nil _
            | continued => exact ih tally' ((hI.runListed hline tally).of_ok hu hlisted).1

/-- So has each command of the visits.

**Proof sketch.** By induction on the rounds. The entries of one visit are those of the list, from
the session with that target current and the list as input; the later visits start from the session
the list left. -/
theorem replayEntries {list : List Line} (hlist : ∀ line ∈ list, line.Over A) (isInline : Bool)
    (rounds : Nat) (tally : Tally) {s : Session} (hs : s.Meets A (I g)) :
    ∀ entry ∈ replayEntries list isInline rounds tally s, entry.Meets A (I g) := by
  induction rounds generalizing tally s with
  | zero => exact List.forall_mem_nil _
  | succ rounds ih =>
    unfold Action.replayEntries
    cases hnext : Action.onBuffer LineBuffer.nextTarget s with
    | error e t => exact List.forall_mem_nil _
    | ok target? t =>
      have ht := (hI.visitNext.of_ok hs hnext).1
      cases target? with
      | none => exact List.forall_mem_nil _
      | some target =>
        dsimp only
        cases hset : Action.onBuffer (LineBuffer.setCurrent target) t with
        | error e u => exact List.forall_mem_nil _
        | ok _ u =>
          have hu := ((hI.setCurrent target).of_ok ht hset).1
          have hu' : ({ u with input := .script list } : Session).Meets A (I g) :=
            ⟨hu.editor, hlist⟩
          refine List.forall_mem_append.2 ⟨hI.listEntries isInline target _ tally hu', ?_⟩
          have hvisit := withInput (hI.runList (g := g) isInline target list.length tally) hu'.input
          cases hlisted : Action.withInput (.script list)
              (Action.runList isInline target list.length tally) u with
          | error e v => exact List.forall_mem_nil _
          | ok ended v =>
            obtain ⟨outcome, tally'⟩ := ended
            cases outcome with
            | quit => exact List.forall_mem_nil _
            | continued => exact ih tally' (hvisit.of_ok hu hlisted).1

/-- So has each command of a global command, with the property of running ones. -/
theorem globalEntries {invert : Bool} {regex : Regex} {list : CommandList}
    (hlist : (Command.global invert regex list).Over A) (range : LineRange) {s : Session}
    (hs : s.Meets A (I false)) :
    ∀ entry ∈ globalEntries range invert regex list s, entry.Meets A (I true) := by
  unfold Action.globalEntries
  split
  · exact List.forall_mem_nil _
  · cases hread : Action.commandLines list s with
    | error e t => exact List.forall_mem_nil _
    | ok read t =>
      obtain ⟨ht, hlines⟩ := (hI.commandLines hlist).of_ok hs hread
      exact hI.replayEntries hlines _ _ _ (hI.begun range invert regex ht)

/-- So has each command a parsed line carries out, whether it is global or not.

**Proof sketch.** A global line carries out the commands of its visits, any other carries out
itself. -/
theorem lineEntries {line : CommandLine} (hline : line.command.Over A) {s : Session}
    (hs : s.Meets A (I false)) :
    ∀ entry ∈ lineEntries line s, ∃ g, entry.Meets A (I g) := by
  unfold Action.lineEntries
  split
  · rename_i invert regex list hcommand
    split
    · intro entry hentry
      exact ⟨true, hI.globalEntries (hcommand ▸ hline) _ hs entry hentry⟩
    · exact List.forall_mem_nil _
  · exact List.forall_mem_singleton.2 ⟨false, hI.entry hline hs⟩

/-- **An invariant holds before and after each command that is carried out**, alone or in the list
of a global command. -/
theorem entries {text : Line} (htext : text.Over A) {s : Session} (hs : s.Meets A (I false)) :
    ∀ entry ∈ entries text s, ∃ g, entry.Meets A (I g) := by
  unfold Action.entries
  cases hparse : Action.parse text s with
  | error e t => exact List.forall_mem_nil _
  | ok line t =>
    obtain ⟨ht, hline⟩ := (hI.parse htext).of_ok hs hparse
    exact hI.lineEntries hline ht

/-! ## Sessions -/

omit hI in
/-- Showing the prompt maintains any property. -/
theorem showPrompt {J : Editor → Prop} :
    Maintains (Session.Meets A J) (fun _ => True) showPrompt := by
  refine .get_bind fun s _ => ?_
  cases s.editor.prompt.visible? with
  | none => exact maintains_onOutput _
  | some prompt => exact (maintains_onOutput _).seq fun _ => maintains_onOutput _

/-- Reporting an error remembers it, which is not looked at. -/
theorem report (e : EditError) : Maintains (Session.Meets A (I g)) (fun _ => True) (report e) :=
  .seq (hI.changeEditor fun _ => ⟨rfl, rfl, rfl, rfl, rfl⟩) fun _ => .get_bind fun _ _ =>
    .ite (fun _ => maintains_emitAll _) fun _ => maintains_onOutput _

/-- A command line and the report of its error.

**Proof sketch.** The line maintains the invariant by `execute`. What follows it writes to the
output, and after an error of the user it also remembers the error. -/
theorem attempt {text : Line} (htext : text.Over A) :
    Maintains (Session.Meets A (I false)) (fun _ => True) (attempt text) := by
  intro s hs
  have hquit : Maintains (Session.Meets A (I false)) (fun _ => True)
      (do flush; return Outcome.quit : Action Outcome) :=
    (maintains_onOutput _).seq fun _ => .pure trivial
  have hreport (e : EditError) : Maintains (Session.Meets A (I false)) (fun _ => True)
      (do Action.report e; return Outcome.continued : Action Outcome) :=
    (hI.report e).seq fun _ => .pure trivial
  unfold Action.attempt
  cases hresult : Action.execute text s with
  | ok outcome t =>
    obtain ⟨ht, -⟩ := (hI.execute htext).of_ok hs hresult
    cases outcome with
    | continued => exact ⟨ht, trivial⟩
    | quit => exact hquit t ht
  | error e t =>
    have ht := (hI.execute htext).of_error hs hresult
    dsimp only
    split
    · exact ht
    · exact hreport e t ht

/-- The command line that is read is over the alphabet. -/
theorem promptedNext :
    Maintains (Session.Meets A (I false)) (fun text? => ∀ text ∈ text?, text.Over A)
      promptedNext :=
  showPrompt.seq fun _ => maintains_onInput (Source.maintains_next hI.alphabet)

/-- A step of a session maintains an invariant. -/
theorem step : Maintains (Session.Meets A (I false)) (fun _ => True) step := by
  rw [step_eq_bind]
  refine hI.promptedNext.bind fun text? htext => ?_
  cases text? with
  | none => exact .pure trivial
  | some text => exact hI.attempt (htext text rfl)

/-- **A session maintains an invariant**, by induction on its command lines. -/
theorem steps (rounds : Nat) :
    Maintains (Session.Meets A (I false)) (fun _ => True) (steps rounds) := by
  induction rounds with
  | zero => exact .pure trivial
  | succ rounds ih =>
    refine hI.step.seq fun outcome => ?_
    cases outcome with
    | quit => exact .pure trivial
    | continued => exact ih

/-- It holds before and after each command that a step carries out. -/
theorem stepEntries {s : Session} (hs : s.Meets A (I false)) :
    ∀ entry ∈ stepEntries s, ∃ g, entry.Meets A (I g) := by
  unfold Action.stepEntries
  cases hread : Action.promptedNext s with
  | error e t => exact List.forall_mem_nil _
  | ok text? t =>
    obtain ⟨ht, htext⟩ := hI.promptedNext.of_ok hs hread
    cases text? with
    | none => exact List.forall_mem_nil _
    | some text => exact hI.entries (htext text rfl) ht

/-- It holds before and after each command that a session carries out.

**Proof sketch.** By induction on the rounds: the entries of a run are those of its first step and
those of the rest, which starts from a session that has the invariant by `step`. -/
theorem stepsEntries (rounds : Nat) {s : Session} (hs : s.Meets A (I false)) :
    ∀ entry ∈ stepsEntries rounds s, ∃ g, entry.Meets A (I g) := by
  induction rounds generalizing s with
  | zero => exact List.forall_mem_nil _
  | succ rounds ih =>
    refine List.forall_mem_append.2 ⟨hI.stepEntries hs, ?_⟩
    cases hstep : Action.step s with
    | error e t => exact List.forall_mem_nil _
    | ok outcome t =>
      cases outcome with
      | quit => exact List.forall_mem_nil _
      | continued => exact ih (hI.step.of_ok hs hstep).1

end

end Editor.Invariant

end LineEditor
