import LineEditor.Command.Parser
import LineEditor.Command.Range
import LineEditor.Session.Files

set_option autoImplicit false
set_option relaxedAutoImplicit false

/-!
# Carrying out commands

A command is carried out on the lines that its addresses give or that it means without them. The
state before a command that changes the buffer is kept for undoing it; a command that fails keeps
nothing, except that a global command that fails half-way can still be undone. The commands that a
global command carries out keep nothing of their own: the whole is undone at once.

What a global command does is a parameter here, since the commands in its list are carried out in
the same way, but without global ones among them.

## Main definitions

* `LineEditor.Action.perform`: a command without its print suffix.
* `LineEditor.Action.update`: a command line.
-/

namespace LineEditor

/-- What a session does after a command. -/
inductive Outcome where
  /-- It reads the next command. -/
  | continued
  /-- It ends. -/
  | quit
  deriving Repr, DecidableEq

/-- What a global command does on a range: the inversion, the pattern and the command list are
its parameters. -/
abbrev GlobalAction := LineRange → Bool → Regex → CommandList → Action Outcome

namespace Action

/-- The global command of a command list: there is none. -/
def refuseGlobal : GlobalAction := fun _ _ _ _ => throw .nestedGlobal

/-- The index before a line that is counted from 1; line 0 has none. -/
def indexOf? (number : Nat) : Option Nat := lastIndex? number

/-- Prints a range. Its last line becomes the current one, unless the output fails. -/
def print (range : LineRange) (mode : PrintMode) : Action Unit := do
  onBuffer (LineBuffer.checkRange range)
  let b := (← get).buffer
  emitAll (((range.slice b.lines).toList.zipIdx (range.first + 1)).flatMap fun (line, number) =>
    mode.pieces number line ++ [[newline]])
  onBuffer (LineBuffer.setCurrent range.last)

/-- Prints the current line. -/
def printCurrent (mode : PrintMode) : Action Unit := do
  match (← get).buffer.current with
  | none => throw .invalidAddress
  | some index => print (.single index) mode

/-- Prints the size of a file that was read or written. -/
def reportSize (bytes : Nat) : Action Unit := do
  unless (← get).editor.silent do emitLine (decimal bytes)

/-- Ends the session, if no changes would be lost. -/
def quitSession (force : Bool) : Action Outcome := do
  if (← get).buffer.dirty ∧ force = false then throw .bufferModified
  return .quit

/-- The substitution that is repeated, on other occurrences if these are given. -/
def repeated (occurrence : Option Regex.Occurrence) : Action Substitution := do
  match (← get).editor.lastSubstitution with
  | none => throw .noPreviousSubstitution
  | some s => return { s with occurrence := occurrence.getD s.occurrence }

/-- Carries out a command. -/
def perform (runGlobal : GlobalAction) (addresses : Addresses) (command : Command) :
    Action Outcome := do
  let b := (← get).buffer
  let current := b.currentNumber
  match command with
  | .null =>
    let line := addresses.target (current + 1)
    print (← ofResult (b.numberedRange line line)) .plain
  | .append =>
    let block ← onInput Source.readBlock
    let _ ← onBuffer (LineBuffer.append (indexOf? (addresses.target b.size)) block.toArray)
  | .insert =>
    let block ← onInput Source.readBlock
    let _ ← onBuffer (LineBuffer.insert (addresses.target current - 1) block.toArray)
  | .change =>
    let range ← ofResult (addresses.range b current current)
    let block ← onInput Source.readBlock
    let _ ← onBuffer (LineBuffer.change range block.toArray)
  | .delete =>
    let range ← ofResult (addresses.range b current current)
    onBuffer (LineBuffer.delete range)
  | .print mode =>
    let range ← ofResult (addresses.range b current current)
    print range mode
  | .lineNumber => emitLine (decimal (addresses.target b.size))
  | .mark letter =>
    match indexOf? (addresses.target current) with
    | none => throw .invalidAddress
    | some index => onBuffer (LineBuffer.setMark letter index)
  | .move dest =>
    let range ← ofResult (addresses.range b current current)
    onBuffer (LineBuffer.move range (indexOf? dest))
  | .copy dest =>
    let range ← ofResult (addresses.range b current current)
    onBuffer (LineBuffer.copy range (indexOf? dest))
  | .join =>
    let range ← ofResult (addresses.range b current (current + 1))
    onBuffer (LineBuffer.join range)
  | .read path =>
    let name ← nameOrStored path
    reportSize (← insertFile name (indexOf? (addresses.target b.size)))
  | .write path append quit =>
    let range ←
      if addresses.count = 0 then pure none
      else some <$> ofResult (addresses.range b 1 b.size)
    let bytes ←
      if append then writeAppend (range.or b.fullRange?) path
      else if range.isSome then writeRange range path false
      else write path
    reportSize bytes
    if quit then return ← quitSession false
  | .edit path force =>
    if b.dirty ∧ force = false then throw .bufferModified
    let name ← nameOrStored path
    reportSize (← load name)
  | .filename path =>
    if path.isSome then changeBuffer fun b => { b with filename := path }
    let name ← nameOrStored none
    emitAll ((Utf8.lossyPieces name).map Line.ofString ++ [[newline]])
  | .quit force => return ← quitSession force
  | .undo => onBuffer LineBuffer.undo
  | .help =>
    if let some e := (← get).editor.lastError then emitLine (Line.ofString e.message)
  | .toggleVerbose =>
    changeEditor fun e => { e with verbose := !e.verbose }
    let e := (← get).editor
    if e.verbose then
      if let some error := e.lastError then emitLine (Line.ofString error.message)
  | .togglePrompt =>
    changeEditor fun e => { e with prompt := { e.prompt with enabled := !e.prompt.enabled } }
  | .substitute s =>
    let range ← ofResult (addresses.range b current current)
    changeEditor fun e => { e with lastSubstitution := some s }
    onBuffer (LineBuffer.substitute range s)
  | .repeatSubstitute occurrence =>
    let range ← ofResult (addresses.range b current current)
    let s ← repeated occurrence
    onBuffer (LineBuffer.substitute range s)
  | .global invert regex list =>
    let range ← ofResult (addresses.range b 1 b.size)
    return ← runGlobal range invert regex list
  return .continued

/-- Acts and keeps a snapshot for undoing it. A failure keeps it only if `partly` says so and the
lines are other ones than before. -/
def undoably (partly : Bool) (snapshot : Snapshot) (x : Action Outcome) : Action Outcome := fun s =>
  match x s with
  | .ok outcome t => .ok outcome (t.withBuffer (t.buffer.storeSnapshot snapshot))
  | .error e t =>
    if partly ∧ t.buffer.lines ≠ snapshot.lines then
      .error e (t.withBuffer (t.buffer.storeSnapshot snapshot))
    else .error e t

/-- Carries out a command line and prints the current line if it says so. -/
def update (runGlobal : GlobalAction) (line : CommandLine) : Action Outcome := do
  let s ← get
  let isGlobal := line.command.isGlobal
  let x := perform runGlobal line.addresses line.command
  let outcome ←
    if (line.command.isMutating || isGlobal) && !s.editor.inGlobal then
      undoably isGlobal s.buffer.snapshot x
    else x
  if let some mode := line.print then printCurrent mode
  return outcome

/-- Reads a command line for the present buffer. -/
def parse (text : Line) : Action CommandLine := do
  onPattern (CommandLine.read (← get).buffer.addressContext text)

end Action

end LineEditor
