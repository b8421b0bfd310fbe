import LineEditor.Session.Global

set_option autoImplicit false
set_option relaxedAutoImplicit false

/-!
# Sessions

A session reads one command line after the other and carries it out. Before each it shows the
prompt and hands on its output. An error that is the user's to correct is remembered and reported,
by a question mark or by its message; one of the output or the input ends the session. The end of
the input ends it as well, without a question about changes. Whoever runs a session may leave a hook
that is called with the buffer when the session dies.

## Main definitions

* `LineEditor.Session.step`: one command line.
* `LineEditor.Session.run`: a session to its end.
* `LineEditor.Session.runWith`: a session to its end, and what is done if it dies.
-/

namespace LineEditor

/-- How a session ends. -/
inductive SessionEnd where
  /-- By a command or by the end of the input. -/
  | quit
  /-- By a failure of the output or of the input. -/
  | fatal (e : EditError)
  deriving Repr, DecidableEq

/-- The exit status that tells how a session ended. -/
def SessionEnd.exitCode : SessionEnd → Nat
  | quit => 0
  | fatal _ => 1

namespace Action

/-- Shows the prompt, if there is one, and hands on all output. -/
def showPrompt : Action Unit := do
  if let some prompt := (← get).editor.prompt.visible? then emit prompt
  flush

/-- Remembers an error and tells the user that there is one. -/
def report (e : EditError) : Action Unit := do
  changeEditor fun editor => { editor with lastError := some e }
  if (← get).editor.verbose then emitLine (Line.ofString e.message)
  else emit [ascii '?', newline]

/-- Carries out a command line. An error is reported, if it does not end the session. -/
def attempt (text : Line) : Action Outcome := fun s =>
  match execute text s with
  | .ok .continued t => .ok .continued t
  | .ok .quit t => (do flush; return .quit : Action Outcome) t
  | .error e t =>
    if e.isFatal then .error e t else (do report e; return .continued : Action Outcome) t

/-- Shows the prompt, reads a command line and carries it out. -/
def step : Action Outcome := do
  showPrompt
  match ← onInput Source.next with
  | none => return .quit
  | some text => attempt text

/-- At most `rounds` command lines. -/
def steps : (rounds : Nat) → Action Unit
  | 0 => pure ()
  | rounds + 1 => do
    match ← step with
    | .quit => pure ()
    | .continued => steps rounds

end Action

/-- Runs a session to its end. Every command line takes at least one line of the input, so that
there are no more rounds than lines, but for the one that finds the end. -/
def Session.run (s : Session) : SessionEnd × Session :=
  match Action.steps (s.input.size + 1) s with
  | .ok () t => (.quit, t)
  | .error e t => (.fatal e, t)

/-- What is done when a session dies: the files may be changed in view of the buffer. -/
abbrev FatalHook := LineBuffer → Disk → Disk

/-- A session after its end. If it died, the hook is called. -/
def SessionEnd.settle (hook : FatalHook) : SessionEnd → Session → Session
  | quit, s => s
  | fatal _, s => { s with disk := hook s.buffer s.disk }

/-- Runs a session to its end and calls a hook if it died. -/
def Session.runWith (hook : FatalHook) (s : Session) : SessionEnd × Session :=
  let (ending, t) := s.run
  (ending, ending.settle hook t)

end LineEditor
