import LineEditor.Proofs.Command.Bounds
import LineEditor.Proofs.Session.Journal

set_option autoImplicit false
set_option relaxedAutoImplicit false

/-!
# Accesses of commands

A command line is read and carried out once more, with all accesses checked: those to the text of
the line and of its pattern, those of the matcher and of a replacement to the text that they go
through, those to the lines, the marks and the pending lines of the buffer, and all differences that
are computed from line numbers. It does the same with these checks as without them.

What is taken over without checks goes through texts and lists from their first element to their
last one, and appends to others: reading lines and splitting what is read, writing output and files,
looking up names, and keeping what a session remembers.

## Main definitions

* `LineEditor.Checked.perform`: commands with checks.
* `LineEditor.Checked.execute`: command lines with checks.

## Main results

* `LineEditor.Checked.execute_eq`: no command line accesses anything out of bounds.
-/

namespace LineEditor.Checked

open LineBuffer

variable {α : Type}

/-! ## Commands -/

/-- Acts on the buffer. -/
def onBuffer (x : Checked LineBuffer α) : Checked Session α := fun s =>
  match x s.buffer with
  | .ok a b => .ok a (s.withBuffer b)
  | .error e b => .error e (s.withBuffer b)

/-- The lines from number `first` to number `last` of a buffer. -/
def numberedRange (b : LineBuffer) (first last : Nat) : Checked Session LineRange := do
  if first = 0 ∨ last < first ∨ b.size < last then throw (.refused .invalidAddress)
  access [.difference first 1, .difference last 1]
  return ⟨first - 1, last - 1⟩

/-- The range that a command acts on. -/
def range (a : Addresses) (b : LineBuffer) (first last : Nat) : Checked Session LineRange :=
  match a.second with
  | none => numberedRange b first last
  | some second => numberedRange b (a.first.getD second) second

/-- Prints a range. -/
def print (range : LineRange) (mode : PrintMode) : Checked Session Unit := do
  of (Action.onBuffer (checkRange range))
  let b := (← get).buffer
  access (range.indices.map (.element · b.size))
  of (Action.emitAll (((range.slice b.lines).toList.zipIdx (range.first + 1)).flatMap
    fun (line, number) => mode.pieces number line ++ [[newline]]))
  of (Action.onBuffer (setCurrent range.last))

/-- Prints the current line. -/
def printCurrent (mode : PrintMode) : Checked Session Unit := do
  match (← get).buffer.current with
  | none => throw (.refused .invalidAddress)
  | some index => print (.single index) mode

/-- Inserts a file after a line, or before the first one. -/
def insertFile (name : FileName) (after : Option Nat) : Checked Session Nat := do
  let s ← get
  let (lines, bytes) ← of (ofResult (s.disk.readLines name))
  of (Action.changeBuffer fun b => { b with filename := b.filename.or (some name) })
  let _ ← onBuffer (append after lines.toArray)
  return bytes

/-- Writes a range to a file, or no lines without one. -/
def writeRange (range : Option LineRange) (name : Option FileName) (append : Bool) :
    Checked Session Nat := do
  let name ← of (Action.onBuffer (resolveFilename name !append))
  if let some range := range then
    of (Action.onBuffer (checkRange range))
    access [.slice range.first (range.last + 1) (← get).buffer.size]
  let b := (← get).buffer
  let lines := range.elim #[] (·.slice b.lines)
  let bytes ← of (Action.writeLines name lines append)
  if lines.size = b.size ∧ append = false then
    of (Action.changeBuffer fun b => { b with dirty := false })
  return bytes

/-- Marks the line of a number, counted from 1. -/
def markNumbered (letter : UInt8) (line : Nat) : Checked Session Unit := do
  if line = 0 then throw (.refused .invalidAddress)
  access [.difference line 1]
  onBuffer (setMark letter (line - 1))

/-- What is written of a buffer, and how a command ends that writes. -/
def writeAndEnd (b : LineBuffer) (path : Option FileName) (append quit : Bool)
    (range : Option LineRange) : Checked Session Outcome := do
  let bytes ←
    if append then writeRange (range.or b.fullRange?) path true
    else if range.isSome then writeRange range path false
    else of (Action.write path)
  of (Action.reportSize bytes)
  if quit then of (Action.quitSession false) else return .continued

/-- Carries out a command. What is not listed accesses nothing that has to be checked: commands that
undo, edit another file, print a number or a name, or change what the session remembers. -/
def perform (runGlobal : LineRange → Bool → Regex → CommandList → Checked Session Outcome)
    (addresses : Addresses) (command : Command) : Checked Session Outcome := do
  let b := (← get).buffer
  let current := b.currentNumber
  match command with
  | .null =>
    let line := addresses.target (current + 1)
    print (← numberedRange b line line) .plain
    return .continued
  | .append =>
    let block ← of (Action.onInput Source.readBlock)
    let _ ← onBuffer (append (Action.indexOf? (addresses.target b.size)) block.toArray)
    return .continued
  | .insert =>
    let block ← of (Action.onInput Source.readBlock)
    let _ ← onBuffer (insert (addresses.target current - 1) block.toArray)
    return .continued
  | .change =>
    let range ← range addresses b current current
    let block ← of (Action.onInput Source.readBlock)
    let _ ← onBuffer (change range block.toArray)
    return .continued
  | .delete =>
    let range ← range addresses b current current
    onBuffer (delete range)
    return .continued
  | .print mode =>
    let range ← range addresses b current current
    print range mode
    return .continued
  | .mark letter =>
    markNumbered letter (addresses.target current)
    return .continued
  | .move dest =>
    let range ← range addresses b current current
    onBuffer (move range (Action.indexOf? dest))
    return .continued
  | .copy dest =>
    let range ← range addresses b current current
    onBuffer (copy range (Action.indexOf? dest))
    return .continued
  | .join =>
    let range ← range addresses b current (current + 1)
    onBuffer (join range)
    return .continued
  | .read path =>
    let name ← of (Action.nameOrStored path)
    let bytes ← insertFile name (Action.indexOf? (addresses.target b.size))
    of (Action.reportSize bytes)
    return .continued
  | .write path append quit =>
    let range ←
      if addresses.count = 0 then pure none
      else some <$> range addresses b 1 b.size
    writeAndEnd b path append quit range
  | .substitute s =>
    let range ← range addresses b current current
    of (Action.changeEditor fun e => { e with lastSubstitution := some s })
    onBuffer (substitute range s)
    return .continued
  | .repeatSubstitute occurrence =>
    let range ← range addresses b current current
    let s ← of (Action.repeated occurrence)
    onBuffer (substitute range s)
    return .continued
  | .global invert regex list =>
    let range ← range addresses b 1 b.size
    runGlobal range invert regex list
  | command => of (Action.perform Action.refuseGlobal addresses command)

/-- Acts and keeps a snapshot for undoing it. -/
def undoably (partly : Bool) (snapshot : Snapshot) (x : Checked Session Outcome) :
    Checked Session Outcome := fun s =>
  match x s with
  | .ok outcome t => .ok outcome (t.withBuffer (t.buffer.storeSnapshot snapshot))
  | .error e t =>
    if partly ∧ t.buffer.lines ≠ snapshot.lines then
      .error e (t.withBuffer (t.buffer.storeSnapshot snapshot))
    else .error e t

/-- Carries out a command line and prints the current line if it says so. -/
def update (runGlobal : LineRange → Bool → Regex → CommandList → Checked Session Outcome)
    (line : CommandLine) : Checked Session Outcome := do
  let s ← get
  let isGlobal := line.command.isGlobal
  let x := perform runGlobal line.addresses line.command
  let outcome ←
    if (line.command.isMutating || isGlobal) && !s.editor.inGlobal then
      undoably isGlobal s.buffer.snapshot x
    else x
  if let some mode := line.print then printCurrent mode
  return outcome

/-- Reads a command line for the present buffer. -/
def parse (text : Line) : Checked Session CommandLine := do
  let ctx := (← get).buffer.addressContext
  fun s => match readLine ctx text s.editor.lastPattern with
    | .ok line p => .ok line { s with editor := { s.editor with lastPattern := p } }
    | .error e p => .error e { s with editor := { s.editor with lastPattern := p } }

/-! ## Commands do the same -/

/-- An operation with checks acts on the buffer of a session. -/
theorem agrees_onBuffer {y : Checked LineBuffer α} {x : BufferAction α} (h : Agrees y x) :
    Agrees (onBuffer y) (Action.onBuffer x) := by
  unfold Agrees at h ⊢
  funext s
  rw [of_apply, Action.onBuffer_apply, onBuffer, h, of_apply]
  cases x s.buffer <;> rfl

/-- A numbered range is known not to begin with zero before 1 is taken from its numbers. -/
theorem agrees_numberedRange (b : LineBuffer) (first last : Nat) :
    Agrees (numberedRange b first last) (ofResult (b.numberedRange first last)) := by
  unfold numberedRange LineBuffer.numberedRange
  split
  · exact .throw _
  · rename_i h
    refine .access_bind ?_ (.pure _)
    exact List.forall_mem_cons.2 ⟨by show 1 ≤ first; omega,
      List.forall_mem_singleton.2 (by show 1 ≤ last; omega)⟩

/-- So is the range that addresses give. -/
theorem agrees_range (a : Addresses) (b : LineBuffer) (first last : Nat) :
    Agrees (range a b first last) (ofResult (a.range b first last)) := by
  unfold range Addresses.range
  cases a.second with
  | none => exact agrees_numberedRange b first last
  | some second => exact agrees_numberedRange b _ second

/-- After the check of a range its lines are there.

**Proof sketch.** The check fails on both sides, or the lines from the first to the last of the
range are there for what follows. -/
theorem agrees_checkRange_bind {r : LineRange} {g : Unit → Checked Session α}
    {f : Unit → Action α} (hf : ∀ s : Session, r.first ≤ r.last → r.last < s.buffer.size →
      g () s = lift (f () s)) :
    Agrees (of (Action.onBuffer (checkRange r)) >>= g) (Action.onBuffer (checkRange r) >>= f) := by
  funext s
  by_cases h : r.last < r.first ∨ s.buffer.size ≤ r.last
  · simp [Action.onBuffer_apply, checkRange_apply, h]
  · simp only [EState.bind_apply, of_apply, Action.onBuffer_apply, checkRange_apply, if_neg h,
      lift_ok]
    exact hf s (by omega) (by omega)

/-- The lines of a printed range are there.

**Proof sketch.** The check of the range comes first, and each index of the range is at most its
last one. -/
theorem agrees_print (r : LineRange) (mode : PrintMode) :
    Agrees (print r mode) (Action.print r mode) := by
  refine agrees_checkRange_bind fun s hr hlast => ?_
  have hlines : ∀ a ∈ r.indices.map (Access.element · s.buffer.size), a.Valid := by
    refine List.forall_mem_map.2 fun index hindex => ?_
    have hsize : r.size = r.last - r.first + 1 := rfl
    rw [LineRange.indices, List.mem_range'_1] at hindex
    show index < s.buffer.size
    omega
  rw [EState.bind_apply, EState.get_apply]
  dsimp only
  rw [EState.bind_apply, access_apply hlines]
  exact congrFun (Agrees.bind (.of _) fun _ => .of _) s

/-- The current line is printed with checks. -/
theorem agrees_printCurrent (mode : PrintMode) :
    Agrees (printCurrent mode) (Action.printCurrent mode) := by
  refine .get_bind fun s => ?_
  cases s.buffer.current with
  | none => exact .throw _
  | some index => exact agrees_print _ mode

/-- A file is read into the buffer with checks. -/
theorem agrees_insertFile (name : FileName) (after : Option Nat) :
    Agrees (insertFile name after) (Action.insertFile name after) :=
  .get_bind fun _ => .bind (.of _) fun _ => .bind (.of _) fun _ =>
    .bind (agrees_onBuffer (append_eq _ _)) fun _ => .pure _

/-- The lines that are written are taken from the buffer with checks.

**Proof sketch.** Without a range there are none. With one, its check comes first, so that the slice
from its first to its last line is within the buffer. -/
theorem agrees_writeRange (range : Option LineRange) (name : Option FileName) (append : Bool) :
    Agrees (writeRange range name append) (Action.writeRange range name append) := by
  refine .bind (.of _) fun name => ?_
  have hrest : Agrees (do
      let b := (← get).buffer
      let lines := range.elim #[] (·.slice b.lines)
      let bytes ← of (Action.writeLines name lines append)
      if lines.size = b.size ∧ append = false then
        of (Action.changeBuffer fun b => { b with dirty := false })
      return bytes) (do
      let b := (← get).buffer
      let lines := range.elim #[] (·.slice b.lines)
      let bytes ← Action.writeLines name lines append
      if lines.size = b.size ∧ append = false then
        Action.changeBuffer fun b => { b with dirty := false }
      return bytes) :=
    .get_bind fun _ => .bind (.of _) fun _ =>
      .ite (fun _ => .bind (.of _) fun _ => .pure _) fun _ => .pure _
  cases range with
  | none => exact hrest
  | some r =>
    refine agrees_checkRange_bind fun s hr hlast => ?_
    have hslice : (Access.slice r.first (r.last + 1) s.buffer.size).Valid :=
      ⟨Nat.le_succ_of_le hr, hlast⟩
    rw [EState.bind_apply, EState.get_apply]
    dsimp only
    rw [EState.bind_apply, access_singleton_apply hslice]
    exact congrFun hrest s

section

variable {runGlobal : LineRange → Bool → Regex → CommandList → Checked Session Outcome}
  {runGlobal' : GlobalAction} {addresses : Addresses} {command : Command}

/-- An operation on a range of the buffer, with which a command ends.

**Proof sketch.** The range is computed with its own checks, and the operation acts on the buffer
with its own. -/
theorem agrees_onRange {y : LineRange → Checked LineBuffer α} {x : LineRange → BufferAction α}
    (hy : ∀ range, Agrees (y range) (x range)) (first last : LineBuffer → Nat) :
    Agrees (do
      let b := (← get).buffer
      let range ← range addresses b (first b) (last b)
      let _ ← onBuffer (y range)
      return Outcome.continued) (do
      let b := (← get).buffer
      let range ← ofResult (addresses.range b (first b) (last b))
      let _ ← Action.onBuffer (x range)
      return Outcome.continued) :=
  .get_bind fun s => .bind (agrees_range addresses s.buffer _ _) fun range =>
    .bind (agrees_onBuffer (hy range)) fun _ => .pure _

/-- A command that accesses nothing looks at the session once more, which makes no difference. -/
theorem agrees_unchecked (h : command.isGlobal = false) :
    Agrees (get >>= fun _ => of (Action.perform Action.refuseGlobal addresses command))
      (Action.perform runGlobal' addresses command) := by
  rw [Action.perform_eq_refuseGlobal h runGlobal' addresses]
  rfl

/-- A block of text is put into the buffer with checks.

**Proof sketch.** By the command: the place or the range is there before the block is read, and the
operation on the buffer is the checked one. -/
theorem agrees_input (h : command.family = .input) :
    Agrees (perform runGlobal addresses command) (Action.perform runGlobal' addresses command) := by
  cases command with
  | append =>
    exact .get_bind fun s => .bind (.of _) fun block =>
      .bind (agrees_onBuffer (append_eq _ _)) fun _ => .pure _
  | insert =>
    exact .get_bind fun s => .bind (.of _) fun block =>
      .bind (agrees_onBuffer (insert_eq _ _)) fun _ => .pure _
  | change =>
    exact .get_bind fun s => .bind (agrees_range _ _ _ _) fun range => .bind (.of _) fun block =>
      .bind (agrees_onBuffer (change_eq _ _)) fun _ => .pure _
  | _ => cases h

/-- The mark of line 0 is refused before an index is computed from its number. -/
theorem agrees_markNumbered (letter : UInt8) (line : Nat) :
    Agrees (do markNumbered letter line; return Outcome.continued)
      (match Action.indexOf? line with
      | none => do let _ : PUnit ← throw .invalidAddress; return Outcome.continued
      | some index => do
        Action.onBuffer (LineBuffer.setMark letter index); return Outcome.continued) := by
  cases line with
  | zero => rfl
  | succ index =>
    have hline : (Access.difference (index + 1) 1).Valid := Nat.le_add_left 1 index
    exact .bind (.access_bind (List.forall_mem_singleton.2 hline)
      (agrees_onBuffer (setMark_eq letter index))) fun _ => .pure _

/-- Lines that are there are changed with checks.

**Proof sketch.** By the command, whose operation on the buffer is the checked one. A mark has its
line checked by `agrees_markNumbered`, and undoing accesses nothing. -/
theorem agrees_lines (h : command.family = .lines) :
    Agrees (perform runGlobal addresses command) (Action.perform runGlobal' addresses command) := by
  cases command with
  | delete => exact agrees_onRange delete_eq _ _
  | move dest => exact agrees_onRange (fun range => move_eq range _) _ _
  | copy dest => exact agrees_onRange (fun range => copy_eq range _) _ _
  | join => exact agrees_onRange join_eq (·.currentNumber) (·.currentNumber + 1)
  | mark letter => exact .get_bind fun s => agrees_markNumbered letter _
  | undo => exact agrees_unchecked rfl
  | _ => cases h

/-- Matches are replaced with checks.

**Proof sketch.** The range is computed first and the lines of it are gone through with checks,
whether the substitution is given or remembered. -/
theorem agrees_substitution (h : command.family = .substitution) :
    Agrees (perform runGlobal addresses command) (Action.perform runGlobal' addresses command) := by
  cases command with
  | substitute substitution =>
    exact .get_bind fun s => .bind (agrees_range _ _ _ _) fun range => .bind (.of _) fun _ =>
      .bind (agrees_onBuffer (substitute_eq _ _)) fun _ => .pure _
  | repeatSubstitute occurrence =>
    exact .get_bind fun s => .bind (agrees_range _ _ _ _) fun range => .bind (.of _) fun _ =>
      .bind (agrees_onBuffer (substitute_eq _ _)) fun _ => .pure _
  | _ => cases h

/-- Lines are printed with checks.

**Proof sketch.** One case for each command of the family. The range is numbered and its lines are
taken from the buffer with checks. Printing the number of a line takes no line. -/
theorem agrees_printing (h : command.family = .printing) :
    Agrees (perform runGlobal addresses command) (Action.perform runGlobal' addresses command) := by
  cases command with
  | null =>
    exact .get_bind fun s => .bind (agrees_numberedRange _ _ _) fun range =>
      .bind (agrees_print range _) fun _ => .pure _
  | print mode =>
    exact .get_bind fun s => .bind (agrees_range _ _ _ _) fun range =>
      .bind (agrees_print range _) fun _ => .pure _
  | lineNumber => exact agrees_unchecked rfl
  | _ => cases h

/-- A range that is written is taken from the buffer with checks.

**Proof sketch.** The sizes are reported and the session is ended without any access. -/
theorem agrees_writeAndEnd (b : LineBuffer) (path : Option FileName) (append quit : Bool)
    (range : Option LineRange) :
    Agrees (writeAndEnd b path append quit range)
      (Action.writeAndEnd b path append quit range) := by
  have hend (bytes : Nat) : Agrees (do
      of (Action.reportSize bytes)
      if quit then of (Action.quitSession false) else return .continued) (do
      Action.reportSize bytes
      if quit then Action.quitSession false else return Outcome.continued) :=
    .bind (.of _) fun _ => .ite (fun _ => .of _) fun _ => .pure _
  exact .ite (fun _ => .bind (agrees_writeRange _ path true) hend) fun _ =>
    .ite (fun _ => .bind (agrees_writeRange range path false) hend) fun _ => .bind (.of _) hend

/-- Files are read and written with checks.

**Proof sketch.** Reading puts its lines into the buffer with checks, and writing takes them out
with checks; loading a file and asking for a name access no lines. -/
theorem agrees_file (h : command.family = .file) :
    Agrees (perform runGlobal addresses command) (Action.perform runGlobal' addresses command) := by
  cases command with
  | read path =>
    exact .get_bind fun s => .bind (.of _) fun name => .bind (agrees_insertFile name _) fun bytes =>
      .bind (.of _) fun _ => .pure _
  | write path append quit =>
    refine .get_bind fun s => ?_
    have hwrite := agrees_writeAndEnd s.buffer path append quit
    exact .ite (fun _ => .bind (.pure none) hwrite) fun _ =>
      .bind (.map (agrees_range _ _ _ _)) hwrite
  | edit => exact agrees_unchecked rfl
  | filename => exact agrees_unchecked rfl
  | _ => cases h

/-- Commands on the session access nothing that is checked. -/
theorem agrees_session (h : command.family = .session) :
    Agrees (perform runGlobal addresses command) (Action.perform runGlobal' addresses command) := by
  cases command with
  | quit | help | toggleVerbose | togglePrompt => exact agrees_unchecked rfl
  | _ => cases h

/-- **A command does the same with checks**, if global commands do.

**Proof sketch.** One case for each family of commands: what they do on a range, to the buffer and
with a file does the same with checks, and what they do otherwise is not checked. -/
theorem agrees_perform
    (hglobal : ∀ range invert regex list,
      Agrees (runGlobal range invert regex list) (runGlobal' range invert regex list))
    (addresses : Addresses) (command : Command) :
    Agrees (perform runGlobal addresses command) (Action.perform runGlobal' addresses command) := by
  cases h : command.family with
  | input => exact agrees_input h
  | lines => exact agrees_lines h
  | substitution => exact agrees_substitution h
  | printing => exact agrees_printing h
  | file => exact agrees_file h
  | session => exact agrees_session h
  | global =>
    obtain ⟨invert, regex, list, rfl⟩ := Command.eq_global h
    exact .get_bind fun s => .bind (agrees_range _ _ _ _) fun range =>
      hglobal range invert regex list

end

/-- Keeping a snapshot accesses nothing.

**Proof sketch.** Whether and when a snapshot is stored depends on the result alone, which is the
same. -/
theorem agrees_undoably {y : Checked Session Outcome} {x : Action Outcome} (h : Agrees y x)
    (partly : Bool) (snapshot : Snapshot) :
    Agrees (undoably partly snapshot y) (Action.undoably partly snapshot x) := by
  unfold Agrees at h ⊢
  funext s
  rw [h, of_apply, undoably, Action.undoably, of_apply]
  cases x s with
  | ok outcome t => rfl
  | error e t =>
    dsimp only [lift_error]
    split <;> rfl

/-- A parsed command line is carried out with checks, if global commands are.

**Proof sketch.** The command is, with or without a snapshot kept, and so is the printing that may
follow it. -/
theorem agrees_update
    {runGlobal : LineRange → Bool → Regex → CommandList → Checked Session Outcome}
    {runGlobal' : GlobalAction}
    (hglobal : ∀ range invert regex list,
      Agrees (runGlobal range invert regex list) (runGlobal' range invert regex list))
    (line : CommandLine) : Agrees (update runGlobal line) (Action.update runGlobal' line) := by
  have hperform := agrees_perform hglobal line.addresses line.command
  have hsuffix (outcome : Outcome) : Agrees (do
      if let some mode := line.print then printCurrent mode
      return outcome) (do
      if let some mode := line.print then Action.printCurrent mode
      return outcome) := by
    cases line.print with
    | none => exact .pure _
    | some mode => exact .bind (agrees_printCurrent mode) fun _ => .pure _
  exact .get_bind fun s => .ite
    (fun _ => .bind (agrees_undoably hperform _ s.buffer.snapshot) hsuffix) fun _ =>
      .bind hperform hsuffix

/-- A command line is read with checks.

**Proof sketch.** The checked reader agrees with the reader on the pattern that is remembered, and
leaves it in the session in the same way. -/
theorem agrees_parse (text : Line) : Agrees (parse text) (Action.parse text) := by
  refine .get_bind fun s => ?_
  have hread := agrees_readLine s.buffer.addressContext text
  unfold Agrees at hread ⊢
  funext t
  rw [hread, of_apply, of_apply, Action.onPattern]
  cases CommandLine.read s.buffer.addressContext text t.editor.lastPattern <;> rfl

/-! ## Global commands -/

/-- The global command of a command list: there is none. -/
def refuseGlobal (_ : LineRange) (_ : Bool) (_ : Regex) (_ : CommandList) :
    Checked Session Outcome := throw (.refused .nestedGlobal)

/-- Carries out one command of a list. -/
def runListed (line : CommandLine) (tally : Tally) : Checked Session (Outcome × Tally) := fun s =>
  match update refuseGlobal line s with
  | .ok outcome t =>
    .ok (outcome, { tally with
      substituted := tally.substituted || line.command.isSubstitution }) t
  | .error e t =>
    if e = .refused .noMatch ∧ line.command.isSubstitution then
      .ok (.continued, { tally with missed := true }) t
    else .error e t

/-- Carries out at most `rounds` commands, whose lines are read from the input. -/
def runList (isInline : Bool) (target : Nat) :
    (rounds : Nat) → Tally → Checked Session (Outcome × Tally)
  | 0, tally => return (.continued, tally)
  | rounds + 1, tally => do
    match ← of (Action.onInput Source.next) with
    | none => return (.continued, tally)
    | some text =>
      let line ← parse text
      let (outcome, tally) ← runListed (Action.addressed isInline target line) tally
      match outcome with
      | .quit => return (.quit, tally)
      | .continued => runList isInline target rounds tally

/-- Acts with other lines to read. -/
def withInput (source : Source) (x : Checked Session α) : Checked Session α :=
  fun ⟨editor, input, output, disk⟩ =>
    match x ⟨editor, source, output, disk⟩ with
    | .ok a t => .ok a { t with input }
    | .error e t => .error e { t with input }

/-- Visits at most `rounds` of the pending lines. -/
def replay (list : List Line) (isInline : Bool) : (rounds : Nat) → Tally → Checked Session Outcome
  | 0, tally => of (Action.replay list isInline 0 tally)
  | rounds + 1, tally => do
    match ← of (Action.onBuffer nextTarget) with
    | none => of (Action.replay list isInline 0 tally)
    | some target =>
      of (Action.onBuffer (setCurrent target))
      let (outcome, tally) ←
        withInput (.script list) (runList isInline target list.length tally)
      match outcome with
      | .quit => return .quit
      | .continued => replay list isInline rounds tally

/-- Acts with lines to visit. -/
def withTargets (targets : List Nat) (x : Checked Session α) : Checked Session α := fun s =>
  let leave (t : Session) : Session :=
    { t with editor := { t.editor with inGlobal := false, buffer := t.buffer.clearTargets } }
  match x (Action.begun targets s) with
  | .ok a t => .ok a (leave t)
  | .error e t => .error e (leave t)

/-- What is accessed to find the lines that a global command visits: the text of each line of the
range is looked through for a match. -/
def selectAccesses (b : LineBuffer) (range : LineRange) (regex : Regex) : List Access :=
  range.indices.flatMap fun index => (b.line? index).elim [] regex.matchesLineAccesses

/-- Carries out a global command. -/
def runGlobal (range : LineRange) (invert : Bool) (regex : Regex) (list : CommandList) :
    Checked Session Outcome := do
  if (← get).editor.inGlobal then throw (.refused .nestedGlobal)
  let (lines, isInline) ← of (Action.commandLines list)
  let b := (← get).buffer
  access (selectAccesses b range regex)
  let targets := Action.selectLines b range invert regex
  withTargets targets (replay lines isInline targets.length ⟨false, false⟩)

/-- Carries out the command line of a given text. -/
def execute (text : Line) : Checked Session Outcome := do
  update runGlobal (← parse text)

/-! ## Global commands do the same -/

/-- A command of a list is carried out with checks.

**Proof sketch.** What is counted depends on the error alone, and a missed substitution is refused
with the same error with and without checks. -/
theorem agrees_runListed (line : CommandLine) (tally : Tally) :
    Agrees (runListed line tally) (Action.runListed line tally) := by
  have hupdate : Agrees (update refuseGlobal line) (Action.update Action.refuseGlobal line) :=
    agrees_update (fun _ _ _ _ => .throw _) line
  unfold Agrees at hupdate ⊢
  funext s
  rw [of_apply]
  unfold runListed Action.runListed
  rw [hupdate, of_apply]
  cases Action.update Action.refuseGlobal line s with
  | ok outcome t => rfl
  | error e t =>
    -- A missed substitution is told from other errors in the same way.
    have hnoMatch : Fault.refused e = .refused .noMatch ↔ e = .noMatch :=
      ⟨fun h => Fault.refused.inj h, congrArg Fault.refused⟩
    dsimp only [lift_error]
    simp only [hnoMatch]
    split <;> rfl

/-- So is a command list.

**Proof sketch.** By induction on the rounds: a line is read, parsed and carried out with checks,
and the rounds that are left go on from there. -/
theorem agrees_runList (isInline : Bool) (target rounds : Nat) (tally : Tally) :
    Agrees (runList isInline target rounds tally)
      (Action.runList isInline target rounds tally) := by
  induction rounds generalizing tally with
  | zero => exact .pure _
  | succ rounds ih =>
    refine .bind (.of _) fun text? => ?_
    cases text? with
    | none => exact .pure _
    | some text =>
      refine .bind (agrees_parse text) fun line => .bind (agrees_runListed _ tally) fun ended => ?_
      obtain ⟨outcome, tally⟩ := ended
      cases outcome with
      | quit => exact .pure _
      | continued => exact ih tally

/-- What is done with another input is done with checks. -/
theorem agrees_withInput {y : Checked Session α} {x : Action α} (h : Agrees y x) (source : Source) :
    Agrees (withInput source y) (Action.withInput source x) := by
  unfold Agrees at h ⊢
  funext s
  rw [h, of_apply, withInput, Action.withInput, of_apply]
  cases x { s with input := source } <;> rfl

/-- The selected lines are visited with checks.

**Proof sketch.** By induction on the rounds, each of which takes a line to visit, makes it the
current one and carries the list out on it. -/
theorem agrees_replay (list : List Line) (isInline : Bool) (rounds : Nat) (tally : Tally) :
    Agrees (replay list isInline rounds tally) (Action.replay list isInline rounds tally) := by
  induction rounds generalizing tally with
  | zero => exact .of _
  | succ rounds ih =>
    refine .bind (.of _) fun target? => ?_
    cases target? with
    | none => exact .of _
    | some target =>
      refine .bind (.of _) fun _ => ?_
      refine .bind (agrees_withInput (agrees_runList isInline target _ tally) _) fun ended => ?_
      obtain ⟨outcome, tally⟩ := ended
      cases outcome with
      | quit => exact .pure _
      | continued => exact ih tally

/-- Choosing lines to visit, and leaving them, accesses nothing.

**Proof sketch.** The visits end with the same result, and leaving them only clears the list of
pending lines. -/
theorem agrees_withTargets {y : Checked Session α} {x : Action α} (h : Agrees y x)
    (targets : List Nat) : Agrees (withTargets targets y) (Action.withTargets targets x) := by
  unfold Agrees at h ⊢
  funext s
  rw [h, of_apply, withTargets, Action.withTargets, of_apply]
  unfold Action.begun
  dsimp only
  generalize x _ = result
  cases result <;> rfl

/-- The lines that a global command visits are found without an access that is out of bounds. -/
theorem valid_selectAccesses (b : LineBuffer) (range : LineRange) (regex : Regex) :
    ∀ a ∈ selectAccesses b range regex, a.Valid := by
  refine List.forall_mem_flatMap.2 fun index _ => ?_
  cases b.line? index with
  | none => exact List.forall_mem_nil _
  | some line => exact regex.valid_matchesLineAccesses line

/-- A global command is carried out with checks.

**Proof sketch.** The lines that it looks through are checked by `valid_selectAccesses`, the regex
on each of them with it, and what is done at each visit by `agrees_replay`. -/
theorem agrees_runGlobal (range : LineRange) (invert : Bool) (regex : Regex) (list : CommandList) :
    Agrees (runGlobal range invert regex list) (Action.runGlobal range invert regex list) := by
  have hrest (read : List Line × Bool) : Agrees (do
      let b := (← get).buffer
      access (selectAccesses b range regex)
      let targets := Action.selectLines b range invert regex
      withTargets targets (replay read.1 read.2 targets.length ⟨false, false⟩)) (do
      let targets := Action.selectLines (← get).buffer range invert regex
      Action.withTargets targets (Action.replay read.1 read.2 targets.length ⟨false, false⟩)) :=
    .get_bind fun s => .access_bind (valid_selectAccesses s.buffer range regex) <|
      agrees_withTargets (agrees_replay ..) _
  funext s
  rw [of_apply, Action.runGlobal_eq, runGlobal, EState.bind_apply, EState.get_apply]
  dsimp only
  split
  · rfl
  · exact congrFun (Agrees.bind (.of _) hrest) s

/-- **No command line accesses anything out of bounds**, whatever the buffer is: with all accesses
checked it does the same. -/
theorem execute_eq (text : Line) : execute text = of (Action.execute text) :=
  Agrees.bind (agrees_parse text) fun line => agrees_update agrees_runGlobal line

end LineEditor.Checked
