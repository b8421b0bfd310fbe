import LineEditor.Session.Perform

set_option autoImplicit false
set_option relaxedAutoImplicit false

/-!
# Global commands

A global command first collects the lines of its range that match its pattern, or those that do
not, and then carries out its command list once for each of them, the last line first. While it
runs, the buffer keeps the lines that are still to be visited in step with every change, so that a
line that is moved is found at its new place and one that is deleted is not visited at all.

The lines of the command list are also the input of its commands: a block of text that one of them
takes is read from the list. A substitution that finds nothing does not end the visits, but it is
reported at the end if no other substitution has found anything.

## Main definitions

* `LineEditor.Action.replay`: the visits.
* `LineEditor.Action.runGlobal`: a global command.
* `LineEditor.Action.execute`: any command line.
-/

namespace LineEditor

/-- What the substitutions of a global command have found so far. -/
structure Tally where
  /-- Whether one of them replaced something. -/
  substituted : Bool
  /-- Whether one of them found nothing. -/
  missed : Bool
  deriving Repr, DecidableEq

namespace Action

/-- A command line without addresses that stands right behind the pattern of a global command acts
on the line that is visited. -/
def addressed (isInline : Bool) (target : Nat) (line : CommandLine) : CommandLine :=
  if isInline ∧ line.addresses.count = 0 then
    { line with
      addresses := { line.addresses with
        first := some (target + 1), second := some (target + 1), count := 1 } }
  else line

/-- Carries out one command of a list. Returns what it adds to the tally. -/
def runListed (line : CommandLine) (tally : Tally) : Action (Outcome × Tally) := fun s =>
  match update refuseGlobal line s with
  | .ok outcome t =>
    .ok (outcome, { tally with
      substituted := tally.substituted || line.command.isSubstitution }) t
  | .error e t =>
    if e = .noMatch ∧ line.command.isSubstitution then
      .ok (.continued, { tally with missed := true }) t
    else .error e t

/-- Carries out at most `rounds` commands, whose lines are read from the input. -/
def runList (isInline : Bool) (target : Nat) : (rounds : Nat) → Tally → Action (Outcome × Tally)
  | 0, tally => return (.continued, tally)
  | rounds + 1, tally => do
    match ← onInput Source.next with
    | none => return (.continued, tally)
    | some text =>
      let line ← parse text
      let (outcome, tally) ← runListed (addressed isInline target line) tally
      match outcome with
      | .quit => return (.quit, tally)
      | .continued => runList isInline target rounds tally

/-- Visits at most `rounds` of the pending lines. Each visit makes the line the current one and
carries out the list from its start. -/
def replay (list : List Line) (isInline : Bool) : (rounds : Nat) → Tally → Action Outcome
  | 0, tally =>
    if tally.missed ∧ tally.substituted = false then throw .noMatch else return .continued
  | rounds + 1, tally => do
    match ← onBuffer LineBuffer.nextTarget with
    | none =>
      if tally.missed ∧ tally.substituted = false then throw .noMatch else return .continued
    | some target =>
      onBuffer (LineBuffer.setCurrent target)
      let (outcome, tally) ←
        withInput (.script list) (runList isInline target list.length tally)
      match outcome with
      | .quit => return .quit
      | .continued => replay list isInline rounds tally

/-- The lines of a range that a global command visits, in ascending order. -/
def selectLines (b : LineBuffer) (range : LineRange) (invert : Bool) (regex : Regex) :
    List Nat :=
  range.indices.filter fun index =>
    (b.line? index).any fun line => regex.matchesLine line != invert

/-- Acts with lines to visit. Afterwards none are left, also after a failure. -/
def withTargets {α : Type} (targets : List Nat) (x : Action α) : Action α := fun s =>
  let leave (t : Session) : Session :=
    { t with editor := { t.editor with inGlobal := false, buffer := t.buffer.clearTargets } }
  match x { s with editor :=
      { s.editor with inGlobal := true, buffer := s.buffer.setTargets targets } } with
  | .ok a t => .ok a (leave t)
  | .error e t => .error e (leave t)

/-- Carries out a global command. -/
def runGlobal : GlobalAction := fun range invert regex list => do
  if (← get).editor.inGlobal then throw .nestedGlobal
  let (lines, isInline) ←
    match list with
    | .inline line => pure ([line], true)
    | .block => do pure (← onInput Source.readCommandList, false)
  let targets := selectLines (← get).buffer range invert regex
  withTargets targets (replay lines isInline targets.length ⟨false, false⟩)

/-- Carries out the command line of a given text. -/
def execute (text : Line) : Action Outcome := do
  update runGlobal (← parse text)

end Action

end LineEditor
