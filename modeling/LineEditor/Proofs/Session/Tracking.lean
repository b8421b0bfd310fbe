import LineEditor.Proofs.Session.Commands

set_option autoImplicit false
set_option relaxedAutoImplicit false

/-!
# Global commands with lines that have identities

A global command, run side by side with lines that have identities. What it does to the session is
unchanged; beside it the operations of its commands are carried out on the lines with identities,
and it is noted which lines are visited and which commands have made pending lines be forgotten.

The number of rounds may be larger than that of the lines to visit, so that it can be seen that the
visits do not end because the rounds do.

## Main definitions

* `LineEditor.Tracked`: a session with lines that have identities.
* `LineEditor.Visit`: what is noted when a line is visited.
* `LineEditor.Tracked.replay`, `LineEditor.Tracked.runGlobal`: the visits, and a global command.
* `LineEditor.Tracked.Erases`: what is done to the session.

## Main results

* `LineEditor.Tracked.erases_replay`: the visits do the same to the session as without identities.
-/

namespace LineEditor

/-- What is noted when a line is visited. -/
structure Visit where
  /-- The index at which a line is visited. -/
  index : Nat
  /-- The lines before this index is taken off. -/
  tagged : TaggedBuffer
  /-- The buffer before this index is taken off. -/
  buffer : LineBuffer
  deriving Repr, DecidableEq

/-- The line that is visited, if there is one at the index. -/
def Visit.identity? (v : Visit) : Option Nat := v.tagged.lines[v.index]?.map (·.identity)

/-- A session with lines that have identities. -/
structure Tracked where
  /-- The session. -/
  session : Session
  /-- The lines of its buffer. -/
  tagged : TaggedBuffer
  /-- The visits so far, the first one first. -/
  visits : List Visit
  /-- The commands that made pending lines be forgotten, the first one first. -/
  resets : List Command
  /-- The lines that were still to be visited when a global command ended. Until then, all that it
  is about to visit. -/
  left : List Nat
  deriving Repr, DecidableEq

/-- Computations on a session with lines that have identities. -/
abbrev TrackedAction := EStateM EditError Tracked

namespace Tracked

variable {α β : Type}

/-! ## Side by side -/

/-- A session whose lines get identities. A global command is about to visit some of them. -/
def start (left : List Nat) (s : Session) : Tracked where
  session := s
  tagged := .ofBuffer s.buffer.clearTargets
  visits := []
  resets := []
  left := left

/-- The lines that have been visited, the first one first. -/
def visited (w : Tracked) : List Nat := w.visits.filterMap Visit.identity?

/-- An action that does nothing to the lines. -/
def lift (x : Action α) : TrackedAction α := fun w =>
  match x w.session with
  | .ok a s => .ok a { w with session := s }
  | .error e s => .error e { w with session := s }

/-- What is lifted changes the session alone. -/
theorem after_lift (x : Action α) (w : Tracked) :
    EState.after (lift x) w = { w with session := EState.after x w.session } := by
  unfold EState.after lift
  cases x w.session <;> rfl

/-- Carries out the operation of a command line on the lines with identities. -/
def follow (line : CommandLine) (w : Tracked) : Tracked :=
  match line.command.operation? w.session line.addresses with
  | none => w
  | some op =>
    match op.tagged w.tagged with
    | .ok (_, tagged) =>
      { w with tagged, resets := w.resets ++ if op.resets then [line.command] else [] }
    | .error _ => w

/-- Following a command line changes the identities alone. -/
theorem session_follow (line : CommandLine) (w : Tracked) :
    (w.follow line).session = w.session := by
  unfold follow
  split
  · rfl
  · split <;> rfl

/-- Carries out one command of a list. -/
def runListed (line : CommandLine) (tally : Tally) : TrackedAction (Outcome × Tally) := do
  modify (·.follow line)
  lift (Action.runListed line tally)

/-- A command of a list changes the session as it does, and the identities as they are followed. -/
theorem after_runListed (line : CommandLine) (tally : Tally) (w : Tracked) :
    EState.after (runListed line tally) w =
      { w.follow line with session := EState.after (Action.runListed line tally) w.session } := by
  have hmodify : (modify (·.follow line) : TrackedAction Unit) w = .ok ⟨⟩ (w.follow line) :=
    EState.modify_apply ..
  unfold runListed
  rw [EState.after_bind_of_ok hmodify, after_lift, session_follow]

/-- Carries out at most `rounds` commands, whose lines are read from the input. -/
def runList (isInline : Bool) (target : Nat) :
    (rounds : Nat) → Tally → TrackedAction (Outcome × Tally)
  | 0, tally => return (.continued, tally)
  | rounds + 1, tally => do
    match ← lift (Action.onInput Source.next) with
    | none => return (.continued, tally)
    | some text =>
      let line ← lift (Action.parse text)
      let (outcome, tally) ← runListed (Action.addressed isInline target line) tally
      match outcome with
      | .quit => return (.quit, tally)
      | .continued => runList isInline target rounds tally

/-- Acts with other lines to read. -/
def withInput (source : Source) (x : TrackedAction α) : TrackedAction α := fun w =>
  match x { w with session := { w.session with input := source } } with
  | .ok a v => .ok a { v with session := { v.session with input := w.session.input } }
  | .error e v => .error e { v with session := { v.session with input := w.session.input } }

/-- What is done with another input changes the input back afterwards. -/
theorem after_withInput (source : Source) (x : TrackedAction α) (w : Tracked) :
    EState.after (withInput source x) w =
      let v := EState.after x { w with session := { w.session with input := source } }
      { v with session := { v.session with input := w.session.input } } := by
  unfold EState.after withInput
  cases x { w with session := { w.session with input := source } } <;> rfl

/-- Notes the visit of the next line, and that it is no longer pending. -/
def noteVisit (target? : Option Nat) (w : Tracked) : Tracked :=
  { w with
    tagged := w.tagged.dropTarget
    visits := w.visits ++ target?.toList.map fun index => ⟨index, w.tagged, w.session.buffer⟩ }

/-- Takes off the next index at which a line is to be visited. -/
def nextTarget : TrackedAction (Option Nat) := fun w =>
  match Action.onBuffer LineBuffer.nextTarget w.session with
  | .ok target? s => .ok target? { w.noteVisit target? with session := s }
  | .error e s => .error e { w with session := s }

/-- Visits at most `rounds` of the pending lines. -/
def replay (list : List Line) (isInline : Bool) : (rounds : Nat) → Tally → TrackedAction Outcome
  | 0, tally =>
    if tally.missed ∧ tally.substituted = false then throw .noMatch else return .continued
  | rounds + 1, tally => do
    match ← nextTarget with
    | none =>
      if tally.missed ∧ tally.substituted = false then throw .noMatch else return .continued
    | some target =>
      lift (Action.onBuffer (LineBuffer.setCurrent target))
      let (outcome, tally) ←
        withInput (.script list) (runList isInline target list.length tally)
      match outcome with
      | .quit => return .quit
      | .continued => replay list isInline rounds tally

/-- Sets the lines to visit, when a global command begins. -/
def begun (targets : List Nat) (w : Tracked) : Tracked :=
  { w with
    session := { w.session with editor :=
      { w.session.editor with inGlobal := true, buffer := w.session.buffer.setTargets targets } }
    tagged := w.tagged.setTargets targets }

/-- Forgets the lines to visit, when a global command ends. -/
def ended (w : Tracked) : Tracked :=
  { w with
    left := w.tagged.targets
    session := { w.session with editor :=
      { w.session.editor with inGlobal := false, buffer := w.session.buffer.clearTargets } }
    tagged := { w.tagged with targets := [] } }

/-- Acts with lines to visit. Afterwards none are left, also after a failure. -/
def withTargets (targets : List Nat) (x : TrackedAction α) : TrackedAction α := fun w =>
  match x (w.begun targets) with
  | .ok a v => .ok a v.ended
  | .error e v => .error e v.ended

/-- Carries out a global command with so many rounds more than there are lines to visit. -/
def runGlobal (extra : Nat) (range : LineRange) (invert : Bool) (regex : Regex)
    (list : CommandList) : TrackedAction Outcome := do
  if (← get).session.editor.inGlobal then throw .nestedGlobal
  let (lines, isInline) ←
    match list with
    | .inline line => pure ([line], true)
    | .block => do pure (← lift (Action.onInput Source.readCommandList), false)
  let targets := Action.selectLines (← get).session.buffer range invert regex
  withTargets targets (replay lines isInline (targets.length + extra) ⟨false, false⟩)

/-! ## What is done to the session -/

/-- What is left of a result if everything but the session is forgotten. -/
def erase : EStateM.Result EditError Tracked α → EStateM.Result EditError Session α
  | .ok a w => .ok a w.session
  | .error e w => .error e w.session

/-- A computation does to the session what an action does. -/
def Erases (x : TrackedAction α) (y : Action α) : Prop := ∀ w, erase (x w) = y w.session

namespace Erases

/-- Answering is the same without identities. -/
theorem pure (a : α) : Erases (Pure.pure a) (Pure.pure a) := fun _ => rfl

/-- So is failing. -/
theorem throw (e : EditError) :
    Erases (MonadExcept.throw e : TrackedAction α) (MonadExcept.throw e) := fun _ => rfl

/-- So is what is lifted. -/
theorem lift (x : Action α) : Erases (lift x) x := by
  intro w
  unfold Tracked.lift
  cases x w.session <;> rfl

/-- So is what is put together of two that are.

**Proof sketch.** By the first result, which both have in common. -/
theorem bind {x : TrackedAction α} {y : Action α} {f : α → TrackedAction β} {g : α → Action β}
    (hx : Erases x y) (hf : ∀ a, Erases (f a) (g a)) : Erases (x >>= f) (y >>= g) := by
  intro w
  have hfirst := hx w
  rw [EState.bind_apply, EState.bind_apply, ← hfirst]
  cases x w with
  | ok a v => exact hf a v
  | error e v => rfl

/-- So is taking the next line to visit. -/
theorem nextTarget : Erases nextTarget (Action.onBuffer LineBuffer.nextTarget) := by
  intro w
  unfold Tracked.nextTarget
  cases Action.onBuffer LineBuffer.nextTarget w.session <;> rfl

/-- What is noted beside the session is forgotten. -/
theorem note {f : Tracked → Tracked} (hf : ∀ w, (f w).session = w.session) {x : TrackedAction α}
    {y : Action α} (hx : Erases x y) :
    Erases (do modify f; x) y := by
  intro w
  rw [EState.bind_apply, EState.modify_apply]
  dsimp only
  rw [hx, hf]

/-- So is what is done with another input. -/
theorem withInput (source : Source) {x : TrackedAction α} {y : Action α} (hx : Erases x y) :
    Erases (withInput source x) (Action.withInput source y) := by
  intro w
  have hinner := hx { w with session := { w.session with input := source } }
  unfold Tracked.withInput Action.withInput
  dsimp only at hinner ⊢
  rw [← hinner]
  cases x { w with session := { w.session with input := source } } <;> rfl

end Erases

/-- So is choosing lines to visit and leaving them.

**Proof sketch.** The editor is changed in the same way before and after what is done between. -/
theorem erase_withTargets (targets : List Nat) {x : TrackedAction α} {y : Action α} {w : Tracked}
    (h : erase (x (w.begun targets)) = y (w.begun targets).session) :
    erase (withTargets targets x w) = Action.withTargets targets y w.session := by
  unfold withTargets Action.withTargets
  dsimp only [begun] at h ⊢
  rw [← h]
  generalize x _ = result
  cases result <;> rfl

/-- So is a command list.

**Proof sketch.** By induction on the rounds, each of which is a line read, parsed and carried out,
with the identities followed beside the session. -/
theorem erases_runList (isInline : Bool) (target rounds : Nat) (tally : Tally) :
    Erases (runList isInline target rounds tally)
      (Action.runList isInline target rounds tally) := by
  induction rounds generalizing tally with
  | zero => exact .pure _
  | succ rounds ih =>
    refine .bind (.lift _) fun text? => ?_
    cases text? with
    | none => exact .pure _
    | some text =>
      refine .bind (.lift _) fun line => ?_
      refine .bind (.note (session_follow _) (.lift _)) fun (outcome, tally) => ?_
      cases outcome with
      | quit => exact .pure _
      | continued => exact ih tally

/-- **The visits do the same to the session** as without identities.

**Proof sketch.** By induction on the rounds, in the same way as for a command list. -/
theorem erases_replay (list : List Line) (isInline : Bool) (rounds : Nat) (tally : Tally) :
    Erases (replay list isInline rounds tally) (Action.replay list isInline rounds tally) := by
  induction rounds generalizing tally with
  | zero =>
    unfold replay Action.replay
    split
    · exact .throw _
    · exact .pure _
  | succ rounds ih =>
    refine .bind .nextTarget fun target? => ?_
    cases target? with
    | none =>
      dsimp only
      split
      · exact .throw _
      · exact .pure _
    | some target =>
      refine .bind (.lift _) fun _ => ?_
      refine .bind (.withInput _ (erases_runList isInline target _ tally)) ?_
      intro (outcome, tally)
      cases outcome with
      | quit => exact .pure _
      | continued => exact ih tally

end Tracked

end LineEditor
