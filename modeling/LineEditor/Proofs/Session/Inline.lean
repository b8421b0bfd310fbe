import LineEditor.Proofs.Address.Sums
import LineEditor.Proofs.Session.Journal
import LineEditor.Proofs.Text.Alphabet

set_option autoImplicit false
set_option relaxedAutoImplicit false

/-!
# Command lists of a single line

A command line right behind the pattern of a global command is given the line that is visited as its
address, if it has none of its own. In a command list between braces it keeps its own default. The
two are the same for the commands that mean the current line without an address. Joining is not one
of them: its default is the current line and the next one, so that behind the pattern it is given a
single line, of which nothing is joined.

The two forms take their commands from different places, so that the runs are compared apart from
the input that is left.

## Main definitions

* `LineEditor.Session.visible`: a session without its input.
* `LineEditor.Action.SameEnd`, `LineEditor.Action.Alike`: results that are the same apart from the
  input, and actions that have such results whatever input there is.
* `LineEditor.Command.actsOnCurrent`: the commands that mean the current line without an address.
* `LineEditor.Action.AlikeWhenVisited`: lines that do the same at every line that is visited, the
  one behind the pattern and the other one between braces.

## Main results

* `LineEditor.Action.perform_visited`: with or without the address of the current line, such a
  command does the same.
* `LineEditor.Action.alike_replay`: lines that do the same at one visit do so at all of them.
* `LineEditor.Action.execute_inline`: a global command with one line behind its pattern does what it
  does with this line between braces.
-/

namespace LineEditor

/-- What a session is apart from the lines that are still to be read. -/
def Session.visible (s : Session) : Editor × Sink × Disk := (s.editor, s.output, s.disk)

/-- Sessions that are the same apart from the input differ in it alone. -/
theorem Session.exists_input_of_visible {s t : Session} (h : s.visible = t.visible) :
    ∃ input, t = { s with input } := by
  obtain ⟨editor, input, output, disk⟩ := s
  obtain ⟨editor', input', output', disk'⟩ := t
  obtain ⟨rfl, rfl, rfl⟩ : editor = editor' ∧ output = output' ∧ disk = disk' := by
    simpa [Session.visible] using h
  exact ⟨input', rfl⟩

/-- A change of the editor does the same whatever input there is. -/
theorem Session.visible_editor {s t : Session} (h : s.visible = t.visible) (f : Editor → Editor) :
    Session.visible { s with editor := f s.editor } =
      Session.visible { t with editor := f t.editor } := by
  obtain ⟨input, rfl⟩ := Session.exists_input_of_visible h
  rfl

namespace Action

variable {α β : Type}

/-! ## Sessions with different input -/

/-- Two results are the same apart from the input that is left. -/
def SameEnd (r r' : EStateM.Result EditError Session α) : Prop :=
  EState.mapState Session.visible r = EState.mapState Session.visible r'

/-- Two actions do the same, whatever input there is. -/
def Alike (x y : Action α) : Prop :=
  ∀ s t : Session, s.visible = t.visible → SameEnd (x s) (y t)

/-- Results that are the same apart from the input are both values or both errors.

**Proof sketch.** Being the same apart from the input is an equality of results, so that a value is
not an error. -/
theorem SameEnd.cases {r r' : EStateM.Result EditError Session α} (h : SameEnd r r') :
    (∃ a u v, r = .ok a u ∧ r' = .ok a v ∧ u.visible = v.visible) ∨
      ∃ e u v, r = .error e u ∧ r' = .error e v ∧ u.visible = v.visible := by
  cases r with
  | ok a u =>
    cases r' with
    | ok b v =>
      obtain ⟨rfl, huv⟩ : a = b ∧ u.visible = v.visible := by
        simpa [SameEnd, EState.mapState] using h
      exact .inl ⟨a, u, v, rfl, rfl, huv⟩
    | error e v => simp [SameEnd, EState.mapState] at h
  | error e u =>
    cases r' with
    | ok b v => simp [SameEnd, EState.mapState] at h
    | error e' v =>
      obtain ⟨rfl, huv⟩ : e = e' ∧ u.visible = v.visible := by
        simpa [SameEnd, EState.mapState] using h
      exact .inr ⟨e, u, v, rfl, rfl, huv⟩

/-- What is left is the same apart from the input. -/
theorem SameEnd.final {r r' : EStateM.Result EditError Session α} (h : SameEnd r r') :
    (EState.final r).visible = (EState.final r').visible := by
  obtain ⟨_, _, _, rfl, rfl, huv⟩ | ⟨_, _, _, rfl, rfl, huv⟩ := h.cases
  · exact huv
  · exact huv

/-- Values that are the same stay so. -/
theorem SameEnd.ok {u v : Session} (h : u.visible = v.visible) (a : α) :
    SameEnd (.ok a u) (.ok a v) := congrArg (EStateM.Result.ok a) h

/-- So do errors. -/
theorem SameEnd.error {u v : Session} (h : u.visible = v.visible) (e : EditError) :
    SameEnd (.error e u : EStateM.Result EditError Session α) (.error e v) :=
  congrArg (EStateM.Result.error e) h

section

variable {x y : Action α} {f g : α → Action β} {s t : Session}

/-- What follows results that are the same may know of what is left that it is from a success.

**Proof sketch.** Both results are values or both are errors, by `SameEnd.cases`. -/
theorem SameEnd.bind_of_ok (h : SameEnd (x s) (y t))
    (hf : ∀ a u v, x s = .ok a u → u.visible = v.visible → SameEnd (f a u) (g a v)) :
    SameEnd ((x >>= f) s) ((y >>= g) t) := by
  rw [EState.bind_apply, EState.bind_apply]
  obtain ⟨a, u, v, hx, hy, huv⟩ | ⟨e, u, v, hx, hy, huv⟩ := h.cases
  · rw [hx, hy]
    exact hf a u v hx huv
  · rw [hx, hy]
    exact .error huv e

/-- What follows results that are the same does the same, if it always does. -/
theorem SameEnd.bind (h : SameEnd (x s) (y t)) (hf : ∀ a, Alike (f a) (g a)) :
    SameEnd ((x >>= f) s) ((y >>= g) t) :=
  h.bind_of_ok fun a u v _ huv => hf a u v huv

/-- Actions that do the same may follow each other. -/
theorem Alike.bind (h : Alike x y) (hf : ∀ a, Alike (f a) (g a)) : Alike (x >>= f) (y >>= g) :=
  fun s t hst => (h s t hst).bind hf

/-- Answering does the same. -/
theorem Alike.pure (a : α) : Alike (pure a) (pure a) := fun _ _ hst => .ok hst a

/-- So does failing. -/
theorem Alike.throw (e : EditError) : Alike (throw e : Action α) (throw e) :=
  fun _ _ hst => .error hst e

/-- So does a choice between actions that do the same. -/
theorem Alike.ite {c : Prop} [Decidable c] {x' y' : Action α} (h : Alike x y)
    (h' : Alike x' y') : Alike (if c then x else x') (if c then y else y') := by
  split
  · exact h
  · exact h'

/-- An action on the buffer does not see the input. -/
theorem Alike.onBuffer (x : BufferAction α) : Alike (onBuffer x) (Action.onBuffer x) := by
  intro s t hst
  obtain ⟨input, rfl⟩ := Session.exists_input_of_visible hst
  rw [onBuffer_apply, onBuffer_apply]
  dsimp only [Session.buffer]
  cases x s.editor.buffer <;> rfl

end

/-- What is done with lines to visit does not see the input either.

**Proof sketch.** The lines to visit are the same, and so is what is left when they are gone. -/
theorem Alike.withTargets {x y : Action Outcome} (h : Alike x y) (targets : List Nat) :
    Alike (withTargets targets x) (Action.withTargets targets y) := by
  intro s t hst
  have hbegun : (begun targets s).visible = (begun targets t).visible :=
    Session.visible_editor hst fun editor =>
      { editor with inGlobal := true, buffer := editor.buffer.setTargets targets }
  have hleft {u v : Session} (huv : u.visible = v.visible) := Session.visible_editor huv
    fun editor => { editor with inGlobal := false, buffer := editor.buffer.clearTargets }
  unfold Action.withTargets
  obtain ⟨a, u, v, hx, hy, huv⟩ | ⟨e, u, v, hx, hy, huv⟩ := (h _ _ hbegun).cases
  · unfold begun at hx hy
    simp only [hx, hy]
    exact .ok (hleft huv) a
  · unfold begun at hx hy
    simp only [hx, hy]
    exact .error (hleft huv) e

/-- Results that are the same apart from the input stay so if a snapshot is kept.

**Proof sketch.** The same snapshot is kept, and after a failure it is kept under the same
condition, which looks at the lines alone. -/
theorem SameEnd.undoably {x y : Action Outcome} {s t : Session} (h : SameEnd (x s) (y t))
    (partly : Bool) (snapshot : Snapshot) :
    SameEnd (undoably partly snapshot x s) (Action.undoably partly snapshot y t) := by
  have hkept {u v : Session} (huv : u.visible = v.visible) := Session.visible_editor huv
    fun editor => { editor with buffer := editor.buffer.storeSnapshot snapshot }
  unfold Action.undoably
  obtain ⟨a, u, v, hx, hy, huv⟩ | ⟨e, u, v, hx, hy, huv⟩ := h.cases
  · simp only [hx, hy]
    exact .ok (hkept huv) a
  · have hlines : u.buffer.lines = v.buffer.lines := congrArg (·.1.buffer.lines) huv
    simp only [hx, hy, hlines]
    split
    · exact .error (hkept huv) e
    · exact .error huv e

end Action

/-! ## The address of the visited line -/

/-- The commands that act on the current line if they are given no address. -/
def Command.actsOnCurrent : Command → Bool
  | insert | change | delete | print _ | mark _ | move _ | copy _ => true
  | substitute _ | repeatSubstitute _ => true
  | _ => false

/-- The current line is counted from 1. -/
theorem LineBuffer.currentNumber_of_some {b : LineBuffer} {index : Nat}
    (h : b.current = some index) : b.currentNumber = index + 1 := by
  rw [LineBuffer.currentNumber, h]
  rfl

namespace Action

variable {s t : Session} {target : Nat}

/-- **A command that acts on the current line does the same with this line as its address.**

**Proof sketch.** By the command. Each of these has the current line as the range or as the place
that it falls back on, and that is the line at which the visit is. -/
theorem perform_visited {command : Command} (h : command.actsOnCurrent = true)
    (hcurrent : s.buffer.current = some target) {addresses : Addresses}
    (hnone : addresses.second = none) (runGlobal : GlobalAction) (count : Nat) :
    perform runGlobal { addresses with
        first := some (target + 1), second := some (target + 1), count } command s =
      perform runGlobal addresses command s := by
  have hnumber := LineBuffer.currentNumber_of_some hcurrent
  have htarget : addresses.target (target + 1) = target + 1 := by rw [Addresses.target, hnone]; rfl
  have hrange : addresses.range s.buffer (target + 1) (target + 1) =
      s.buffer.numberedRange (target + 1) (target + 1) := by
    rw [Addresses.range, hnone]
  unfold perform
  rw [EState.bind_apply, EState.bind_apply, EState.get_apply]
  dsimp only
  rw [hnumber]
  cases command with
  | insert | mark =>
    dsimp only
    rw [htarget]
    rfl
  | change | delete | print | move | copy | substitute | repeatSubstitute =>
    dsimp only
    rw [hrange]
    rfl
  | _ => cases h

/-- What a command line does depends on its addresses only through its command.

**Proof sketch.** Neither the snapshot nor the print suffix looks at the addresses. -/
theorem update_congr {runGlobal : GlobalAction} {line : CommandLine} {addresses : Addresses}
    (h : perform runGlobal addresses line.command s =
      perform runGlobal line.addresses line.command s) :
    update runGlobal { line with addresses } s = update runGlobal line s := by
  have hundoably (partly : Bool) (snapshot : Snapshot) :
      undoably partly snapshot (perform runGlobal addresses line.command) s =
        undoably partly snapshot (perform runGlobal line.addresses line.command) s := by
    unfold undoably
    rw [h]
  unfold update
  rw [EState.bind_apply, EState.bind_apply, EState.get_apply]
  simp only [EState.ite_apply, EState.bind_apply, hundoably, h]

/-- A command line that acts on the current line does the same with this line as its address.

**Proof sketch.** Behind the pattern of a global command a line without addresses is given that of
the visited line, and any other is left as it is. -/
theorem update_visited {line : CommandLine} (h : line.command.actsOnCurrent = true)
    (hcurrent : s.buffer.current = some target)
    (hnone : line.addresses.count = 0 → line.addresses.second = none) (runGlobal : GlobalAction)
    (isInline : Bool) :
    update runGlobal (addressed isInline target line) s = update runGlobal line s := by
  unfold addressed
  split
  · rename_i hcount
    exact update_congr (perform_visited h hcurrent (hnone hcount.2) runGlobal 1)
  · rfl

/-- A list of one line is carried out in one step.

**Proof sketch.** By the first line, which is read, parsed and carried out; after it no round is
left. -/
theorem runList_single (isInline : Bool) (target : Nat) (tally : Tally) (x : Line) (s : Session) :
    runList isInline target 1 tally { s with input := .script [x] } =
      (parse x >>= fun line => runListed (addressed isInline target line) tally)
        { s with input := .script [] } := by
  have hnext : onInput Source.next { s with input := .script [x] } =
      .ok (some x) { s with input := .script [] } := rfl
  unfold runList
  rw [EState.bind_apply, hnext]
  dsimp only
  rw [EState.bind_apply, EState.bind_apply]
  cases parse x { s with input := .script [] } with
  | error e t => rfl
  | ok line t =>
    dsimp only
    rw [EState.bind_apply]
    cases runListed (addressed isInline target line) tally t with
    | error e u => rfl
    | ok ended u =>
      obtain ⟨outcome, tally⟩ := ended
      cases outcome with
      | quit => rfl
      | continued => rfl

/-- Two lines do the same at a line that is visited: one is given this line as its address if it has
none, the other one not. -/
def AlikeWhenVisited (x y : Line) : Prop :=
  ∀ (target : Nat) (tally : Tally) (s : Session), s.buffer.current = some target →
    target < s.buffer.size →
    (parse x >>= fun line => runListed (addressed true target line) tally) s =
      (parse y >>= fun line => runListed (addressed false target line) tally) s

/-- A visit does the same with the two lines.

**Proof sketch.** The list of one line takes its round and nothing else, so that both visits are one
command line, from sessions that are the same apart from the input. -/
theorem sameEnd_visit {x y : Line} (h : AlikeWhenVisited x y) (hst : s.visible = t.visible)
    (hcurrent : s.buffer.current = some target) (hsize : target < s.buffer.size) (tally : Tally) :
    SameEnd (withInput (.script [x]) (runList true target 1 tally) s)
      (withInput (.script [y]) (runList false target 1 tally) t) := by
  obtain ⟨input, rfl⟩ := Session.exists_input_of_visible hst
  have hxy := h target tally { s with input := .script [] } hcurrent hsize
  unfold withInput
  dsimp only
  rw [runList_single, runList_single, hxy]
  cases (parse y >>= fun line => runListed (addressed false target line) tally)
    { s with input := .script [] } <;> rfl

/-- The visits do the same with the two lines.

**Proof sketch.** By induction on the visits. The current line is the target when the list begins,
because it has just been set and its number was checked. -/
theorem alike_replay {x y : Line} (h : AlikeWhenVisited x y) (rounds : Nat) (tally : Tally) :
    Alike (replay [x] true rounds tally) (replay [y] false rounds tally) := by
  induction rounds generalizing tally with
  | zero => exact .ite (.throw _) (.pure _)
  | succ rounds ih =>
    refine (Alike.onBuffer LineBuffer.nextTarget).bind fun target? => ?_
    cases target? with
    | none => exact .ite (.throw _) (.pure _)
    | some target =>
      intro s t hst
      refine (Alike.onBuffer (LineBuffer.setCurrent target) s t hst).bind_of_ok
        fun _ u v hu huv => ?_
      have hcurrent : u.buffer.current = some target ∧ target < u.buffer.size := by
        rw [onBuffer_apply, LineBuffer.setCurrent_apply] at hu
        by_cases hsize : s.buffer.size ≤ target
        · rw [if_pos hsize] at hu
          cases hu
        · rw [if_neg hsize] at hu
          cases hu
          exact ⟨rfl, Nat.lt_of_not_le hsize⟩
      refine (sameEnd_visit h huv hcurrent.1 hcurrent.2 tally).bind fun ended => ?_
      obtain ⟨outcome, tally⟩ := ended
      cases outcome with
      | quit => exact .pure _
      | continued => exact ih tally

/-! ## The same line behind the pattern and between braces -/

/-- The letters of the commands that act on the current line. -/
def lettersOnCurrent : Line := Line.ofString "cdiklmnpst"

/-- A substitution acts on the current line. -/
theorem yields_actsOnCurrent_readSubstitution (rest : Line) :
    (readSubstitution rest).Yields fun read => read.1.actsOnCurrent = true := by
  refine .ite (fun _ => .pure rfl) fun _ => .ite (fun _ => ?_) fun _ => ?_
  · exact .bind (.ofResult _) fun _ _ => .pure rfl
  · refine (yields_trivial _).seq fun read => ?_
    dsimp only
    split
    · exact .pure rfl
    · exact .bind (.ofResult _) fun _ _ => .pure rfl

/-- A command with one of these letters acts on the current line.

**Proof sketch.** By the letter. Each reader yields one command, or commands of one kind. -/
theorem yields_actsOnCurrent_readCommand (ctx : AddressContext) {letter : UInt8}
    (h : letter ∈ lettersOnCurrent) (rest : Line) :
    (readCommand ctx letter rest).Yields fun read => read.1.actsOnCurrent = true := by
  have hletters : lettersOnCurrent = [ascii 'c', ascii 'd', ascii 'i', ascii 'k', ascii 'l',
    ascii 'm', ascii 'n', ascii 'p', ascii 's', ascii 't'] := by decide
  rw [hletters] at h
  simp only [List.mem_cons, List.not_mem_nil, or_false] at h
  obtain rfl | rfl | rfl | rfl | rfl | rfl | rfl | rfl | rfl | rfl := h
  · exact .pure rfl
  · exact .pure rfl
  · exact .pure rfl
  · exact (yields_trivial _).seq fun _ => .pure rfl
  · exact .pure rfl
  · exact (yields_trivial _).seq fun _ => .pure rfl
  · exact .pure rfl
  · exact .pure rfl
  · exact (yields_actsOnCurrent_readSubstitution rest).bind fun _ hcommand => .pure hcommand
  · exact (yields_trivial _).seq fun _ => .pure rfl

/-- A command line with one of these letters acts on the current line, and without addresses it is
given none.

**Proof sketch.** The command is read behind the addresses, so that
`yields_actsOnCurrent_readCommand` knows it; and addresses that are none have no last line to be the
second. -/
theorem actsOnCurrent_of_read {ctx : AddressContext} {letter : UInt8} {x arguments : Line}
    {list : AddressList} (hx : readAddresses x = (list, letter :: arguments))
    (hletter : letter ∈ lettersOnCurrent) {line : CommandLine} {pattern pattern' : Option Regex}
    (h : CommandLine.read ctx x pattern = .ok line pattern') :
    line.command.actsOnCurrent = true ∧
      (line.addresses.count = 0 → line.addresses.second = none) := by
  unfold CommandLine.read at h
  rw [hx] at h
  obtain ⟨addresses, _, hvalues, h⟩ := EState.exists_of_bind_ok h
  obtain ⟨⟨command, mode, rest⟩, _, hcommand, h⟩ := EState.exists_of_bind_ok h
  have hwithin := AddressList.within_values hvalues
  have hnone (hcount : addresses.count = 0) : addresses.second = none := by
    cases hsecond : addresses.second with
    | none => rfl
    | some line =>
      have hpos : 0 < addresses.count := hwithin.second_isSome.1 (by rw [hsecond]; rfl)
      omega
  dsimp only at h
  rw [EState.ite_apply] at h
  split at h
  · cases h
  · obtain ⟨_, _, _, h⟩ := EState.exists_of_bind_ok h
    cases h
    exact ⟨((yields_actsOnCurrent_readCommand ctx hletter arguments).of_ok trivial hcommand).2,
      hnone⟩

/-- A line whose command acts on the current line does the same with and without the address of the
line that is visited.

**Proof sketch.** The line is parsed in the same way, and its command then does the same with and
without the address of the visited line, by `update_visited`. The tally depends on the command
alone. -/
theorem alikeWhenVisited_self {letter : UInt8} {x arguments : Line} {list : AddressList}
    (hx : readAddresses x = (list, letter :: arguments)) (hletter : letter ∈ lettersOnCurrent) :
    AlikeWhenVisited x x := by
  intro target tally s hcurrent _
  rw [EState.bind_apply, EState.bind_apply]
  cases hparse : parse x s with
  | error e t => rfl
  | ok line t =>
    obtain ⟨pattern, rfl, hline⟩ := parse_ok hparse
    obtain ⟨hcommand, hnone⟩ := actsOnCurrent_of_read hx hletter hline
    generalize ht : { s with editor := { s.editor with lastPattern := pattern } } = t
    have hcurrent' : t.buffer.current = some target := by rw [← ht]; exact hcurrent
    have hupdate (isInline : Bool) := update_visited hcommand hcurrent' hnone refuseGlobal isInline
    have hsame (isInline : Bool) : (addressed isInline target line).command = line.command := by
      unfold addressed
      split <;> rfl
    dsimp only
    unfold runListed
    simp only [hupdate, hsame]

/-- A joining line is read as its addresses, its letter and a print suffix.

**Proof sketch.** The letter `j` has no argument and takes addresses, so that what is left is the
print suffix. -/
theorem read_join {ctx : AddressContext} {x arguments : Line} {list : AddressList}
    (hx : readAddresses x = (list, ascii 'j' :: arguments)) :
    CommandLine.read ctx x = do
      let addresses ← list.values ctx
      return ⟨addresses, .join, ← ofResult (readPrintSuffix none arguments)⟩ := by
  have hcommand : readCommand ctx (ascii 'j') arguments = pure (.join, none, arguments) := rfl
  have htakes (addresses : Addresses) :
      ¬(0 < addresses.count ∧ Command.join.takesAddresses = false) := fun h => nomatch h.2
  unfold CommandLine.read
  rw [hx]
  dsimp only
  rw [hcommand]
  simp only [pure_bind, htakes, if_false]

/-- With a dot in front, a line without addresses has the current line as its address.

**Proof sketch.** A dot is an anchor with no offsets, so that in front of the same text it is the
only address; and no letter belongs to addresses. -/
theorem readAddresses_dot {x rest : Line} {letter : UInt8}
    (hx : readAddresses x = (⟨[], none⟩, letter :: rest)) (hletter : inAddresses letter = false) :
    readAddresses (ascii '.' :: x) = (⟨[], some ⟨.current, []⟩⟩, letter :: rest) := by
  obtain ⟨text, list, happend, hspells, hlist⟩ | ⟨hnil, -⟩ := spells_readAddresses x
  · rw [hx] at happend hlist
    cases hspells with
    | single hentry =>
      cases hentry with
      | missing hblanks =>
        have hdot : SpellsList (ascii '.' :: text) ⟨[], some ⟨.current, []⟩⟩ :=
          .single (.address (@SpellsAddress.anchored [] [ascii '.'] text _ _
            (List.forall_mem_nil _) .current (fun _ hn => by cases hn) (.none hblanks)))
        rw [← happend]
        exact hdot.readAddresses_eq (stops_cons.2 hletter)
      | address => cases hlist
    | cons => cases hlist
  · rw [hx] at hnil
    cases hnil

/-- The value of a dot is the current line.

**Proof sketch.** A dot has the current line as its value, which is a word. -/
theorem values_dot {ctx : AddressContext} (h : ctx.current ≤ ctx.last) :
    AddressList.values ctx ⟨[], some ⟨.current, []⟩⟩ =
      pure ⟨some ctx.current, some ctx.current, 1, false⟩ := by
  have hvalue : Address.value ctx ⟨.current, []⟩ = pure ctx.current := by
    unfold Address.value Anchor.value addOffsets
    dsimp only
    rw [pure_bind, pure_bind, if_neg (by omega)]
    rfl
  unfold AddressList.values AddressProgress.links
  rw [pure_bind]
  dsimp only
  rw [hvalue]
  rfl

/-- A line that joins does behind the pattern what it does between braces with a dot in front.

**Proof sketch.** Joining without addresses takes the visited line as its only one behind a pattern,
and between braces the dot is that line, so that both join it alone. -/
theorem alikeWhenVisited_dot {x arguments : Line}
    (hx : readAddresses x = (⟨[], none⟩, ascii 'j' :: arguments)) :
    AlikeWhenVisited x (ascii '.' :: x) := by
  intro target tally s hcurrent hsize
  have hdot := readAddresses_dot hx (by decide)
  have hnone : AddressList.values s.buffer.addressContext ⟨[], none⟩ = pure Addresses.none := rfl
  have hnumber : s.buffer.addressContext.current = target + 1 :=
    LineBuffer.currentNumber_of_some hcurrent
  have hvalues := @values_dot s.buffer.addressContext (by rw [hnumber]; exact hsize)
  rw [hnumber] at hvalues
  rw [EState.bind_apply, EState.bind_apply]
  unfold parse
  rw [EState.bind_apply, EState.bind_apply, EState.get_apply]
  dsimp only [onPattern]
  rw [read_join hx, read_join hdot, hnone, hvalues, pure_bind, pure_bind]
  cases readPrintSuffix none arguments with
  | error e => rfl
  | ok mode => rfl

/-! ## Global commands -/

/-- The letter of a global command. -/
def globalLetter (invert : Bool) : UInt8 := if invert then ascii 'v' else ascii 'g'

/-- Reads the addresses and the pattern of a global command. -/
def globalHead (ctx : AddressContext) (list : AddressList) (delimiter : UInt8) (pattern : Line) :
    Recall (Addresses × Regex) := do
  let addresses ← list.values ctx
  let _ ← ofResult (readDelimiter [delimiter])
  return (addresses, ← recallPattern pattern)

/-- A global command is read as its addresses, its pattern and its command list.

**Proof sketch.** The addresses come first, then the letter, and the pattern between two delimiters;
a global command takes addresses and no print suffix. -/
theorem read_global {ctx : AddressContext} {text body pattern x : Line} {list : AddressList}
    {invert : Bool} {delimiter : UInt8}
    (hread : readAddresses text = (list, globalLetter invert :: delimiter :: body))
    (hpattern : readPattern delimiter body = .ok (pattern, x)) :
    CommandLine.read ctx text = do
      let (addresses, regex) ← globalHead ctx list delimiter pattern
      return ⟨addresses, .global invert regex (.ofLine x), none⟩ := by
  have hcommand : readCommand ctx (globalLetter invert) (delimiter :: body) = do
      return (← readGlobal invert (delimiter :: body), none, []) := by
    cases invert with
    | false => rfl
    | true => rfl
  have htakes (addresses : Addresses) (regex : Regex) (commands : CommandList) :
      ¬(0 < addresses.count ∧ (Command.global invert regex commands).takesAddresses = false) :=
    fun h => nomatch h.2
  have hregex : readRegex (delimiter :: body) = do
      let _ ← ofResult (readDelimiter [delimiter])
      return (← recallPattern pattern, delimiter, x) := by
    unfold readRegex readDelimiter
    by_cases hblank : delimiter = ascii ' ' ∨ delimiter = newline
    · simp only [if_pos hblank]
      rfl
    · simp only [if_neg hblank, hpattern, ofResult, pure_bind]
  unfold CommandLine.read globalHead
  rw [hread]
  dsimp only
  rw [hcommand]
  unfold readGlobal
  rw [hregex]
  simp only [pure_bind, bind_assoc, htakes, if_false, ofResult]
  rfl

/-- The addresses and the pattern of a global command do not depend on what follows the pattern.

**Proof sketch.** The addresses are read in front of the letter, whatever comes behind them, and the
pattern between its delimiters, whatever comes behind these. -/
theorem exists_readAddresses_global {front x body pattern : Line} {list : AddressList}
    {invert : Bool} {delimiter : UInt8}
    (hread : readAddresses (front ++ x) = (list, globalLetter invert :: delimiter :: body))
    (hpattern : readPattern delimiter body = .ok (pattern, x)) (y : Line) :
    ∃ body', readAddresses (front ++ y) = (list, globalLetter invert :: delimiter :: body') ∧
      readPattern delimiter body' = .ok (pattern, y) := by
  obtain ⟨text, happend, htext⟩ := exists_readAddresses_append hread (List.cons_ne_nil _ _)
  have hdelimited : readDelimited delimiter true body = (pattern, some x) := by
    unfold readPattern at hpattern
    split at hpattern
    · cases hpattern
    · rename_i hdelimited
      cases hpattern
      exact hdelimited
  obtain ⟨closed, rfl, hclosed⟩ := exists_closedText hdelimited
  obtain rfl : text ++ globalLetter invert :: delimiter :: closed = front :=
    List.append_cancel_right (by rw [← happend, List.append_assoc]; rfl)
  have hletter : inAddresses (globalLetter invert) = false := by
    cases invert with
    | false => rfl
    | true => rfl
  refine ⟨closed ++ y, ?_, by rw [readPattern, hclosed]⟩
  rw [List.append_assoc]
  exact htext _ (stops_cons.2 hletter)

/-- A byte that is no white space stays in a line without the white space at its ends. -/
theorem mem_trimSpace {b : UInt8} {line : Line} (h : b ∈ line) (hb : isSpace b = false) :
    b ∈ trimSpace line := by
  have hdrop {text : Line} (h : b ∈ text) : b ∈ text.dropWhile isSpace := by
    rw [← List.takeWhile_append_dropWhile (p := isSpace) (l := text), List.mem_append] at h
    refine h.resolve_left fun hmem => ?_
    rw [List.mem_takeWhile_imp hmem] at hb
    cases hb
  exact List.mem_reverse.2 (hdrop (List.mem_reverse.2 (hdrop h)))

/-- A line with a command letter is no single brace.

**Proof sketch.** The command letter is no blank, so that it is left when blanks are trimmed, and a
brace is no letter. -/
theorem trimSpace_ne_singleton {x arguments : Line} {list : AddressList} {letter b : UInt8}
    (hx : readAddresses x = (list, letter :: arguments)) (hletter : isLower letter = true)
    (hb : isLower b = false) : trimSpace x ≠ [b] := by
  have hmem : letter ∈ x := by
    have hsubset := subset_readAddresses x
    rw [hx] at hsubset
    exact hsubset List.mem_cons_self
  have hspace : isSpace letter = false := by
    by_contra hspace
    simp only [isSpace, isBlank, Bool.not_eq_false, Bool.or_eq_true, beq_iff_eq] at hspace
    obtain (((rfl | rfl) | rfl) | rfl) | rfl := hspace
    all_goals exact absurd hletter (by decide)
  intro htrim
  have hsingle := mem_trimSpace hmem hspace
  rw [htrim, List.mem_singleton] at hsingle
  rw [← hsingle, hletter] at hb
  cases hb

/-- A line with a command letter is a command list of its own.

**Proof sketch.** It is not empty, and it is no single brace. -/
theorem ofLine_eq_inline {x arguments : Line} {list : AddressList} {letter : UInt8}
    (hx : readAddresses x = (list, letter :: arguments)) (hletter : isLower letter = true) :
    CommandList.ofLine x = .inline x := by
  have hempty : x.isEmpty = false := by
    cases x with
    | nil =>
      have hnil : readAddresses [] = (⟨[], none⟩, []) := by decide +kernel
      rw [hnil] at hx
      cases hx
    | cons => rfl
  unfold CommandList.ofLine
  rw [if_neg (trimSpace_ne_singleton hx hletter (by decide)), hempty]
  rfl

/-- A line with a command letter and a closing brace on the next line are a command list.

**Proof sketch.** The line does not close the list, and the brace does. -/
theorem readCommandList_script {x arguments : Line} {list : AddressList} {letter : UInt8}
    (hx : readAddresses x = (list, letter :: arguments)) (hletter : isLower letter = true)
    (rest : List Line) :
    Source.readCommandList (.script (x :: [ascii '\x7d'] :: rest)) = .ok [x] (.script rest) := by
  have hopen : (trimSpace x == [ascii '\x7d']) = false :=
    beq_false_of_ne (trimSpace_ne_singleton hx hletter (by decide))
  have huntil : Source.readUntil (trimSpace · == [ascii '\x7d'])
      (.script (x :: [ascii '\x7d'] :: rest)) = .ok ([x], true) (.script rest) := by
    unfold Source.readUntil
    rw [Source.readUntilAfter]
    simp only [Source.next, hopen]
    rw [Source.readUntilAfter]
    rfl
  unfold Source.readCommandList
  rw [EState.bind_apply, huntil]
  rfl

/-- Visits that do the same with two lines make two global commands that do the same: the one has
its line behind the pattern, the other one between braces.

**Proof sketch.** The list is read from the command line or from the input, and the lines to visit
are the same. The visits do the same by `alike_replay`. -/
theorem sameEnd_runGlobal {x y : Line} (h : AlikeWhenVisited x y) (range : LineRange)
    (invert : Bool) (regex : Regex) (s : Session) {input left : Source}
    (hinput : Source.readCommandList input = .ok [y] left) :
    SameEnd (runGlobal range invert regex (.inline x) s)
      (runGlobal range invert regex .block { s with input }) := by
  have hread : onInput Source.readCommandList { s with input } =
      .ok [y] { s with input := left } := by
    unfold onInput
    dsimp only
    rw [hinput]
  have hblock : commandLines .block { s with input } =
      .ok ([y], false) { s with input := left } := by
    change (onInput Source.readCommandList >>= fun lines => pure (lines, false)) _ = _
    rw [EState.bind_apply, hread]
    rfl
  have hinline : commandLines (.inline x) s = .ok ([x], true) s := rfl
  rw [runGlobal_eq, runGlobal_eq]
  dsimp only
  split
  · rfl
  · rw [EState.bind_apply, EState.bind_apply, hinline, hblock]
    exact (alike_replay h _ _).withTargets _ _ _ rfl

/-- The same with the range and the snapshot of the global command.

**Proof sketch.** The range comes first, and without one both fail. The snapshot is kept in the same
way by `SameEnd.undoably`. -/
theorem sameEnd_update_global {x y : Line} (h : AlikeWhenVisited x y) (addresses : Addresses)
    (invert : Bool) (regex : Regex) (s : Session) {input left : Source}
    (hinput : Source.readCommandList input = .ok [y] left) :
    SameEnd (update runGlobal ⟨addresses, .global invert regex (.inline x), none⟩ s)
      (update runGlobal ⟨addresses, .global invert regex .block, none⟩ { s with input }) := by
  have hperform (list : CommandList) (t : Session) :
      perform runGlobal addresses (.global invert regex list) t =
        (ofResult (addresses.range t.buffer 1 t.buffer.size) >>= fun range =>
          runGlobal range invert regex list : Action Outcome) t := rfl
  have hsame : SameEnd (perform runGlobal addresses (.global invert regex (.inline x)) s)
      (perform runGlobal addresses (.global invert regex .block) { s with input }) := by
    rw [hperform, hperform]
    cases addresses.range s.buffer 1 s.buffer.size with
    | error e => exact .error rfl e
    | ok range => exact sameEnd_runGlobal h range invert regex s hinput
  have hinline := update_bare_apply runGlobal ⟨addresses, .global invert regex (.inline x), none⟩ s
  have hblock :=
    update_bare_apply runGlobal ⟨addresses, .global invert regex .block, none⟩ { s with input }
  dsimp only at hinline hblock
  rw [hinline, hblock]
  change SameEnd ((if !s.editor.inGlobal then _ else _ : Action Outcome) s)
    ((if !s.editor.inGlobal then _ else _ : Action Outcome) { s with input })
  split
  · exact hsame.undoably true _
  · exact hsame

/-- The same with the text of the global command.

**Proof sketch.** What stands in front of the pattern is read in the same way for both texts, and so
is the pattern. Only the list behind it differs. -/
theorem sameEnd_execute_global {front x y body pattern : Line} {list : AddressList} {invert : Bool}
    {delimiter : UInt8} (h : AlikeWhenVisited x y)
    (hread : readAddresses (front ++ x) = (list, globalLetter invert :: delimiter :: body))
    (hpattern : readPattern delimiter body = .ok (pattern, x))
    (hlist : CommandList.ofLine x = .inline x) (s : Session) {input left : Source}
    (hinput : Source.readCommandList input = .ok [y] left) :
    SameEnd (execute (front ++ x) s) (execute (front ++ [ascii '\x7b']) { s with input }) := by
  obtain ⟨body', hread', hpattern'⟩ :=
    exists_readAddresses_global hread hpattern [ascii '\x7b']
  have hblock : CommandList.ofLine [ascii '\x7b'] = .block := by decide
  unfold execute parse
  simp only [EState.bind_apply, EState.get_apply, onPattern, read_global hread hpattern,
    read_global hread' hpattern', hlist, hblock]
  cases globalHead s.buffer.addressContext list delimiter pattern s.editor.lastPattern with
  | error e remembered => exact .error rfl e
  | ok head remembered =>
    exact sameEnd_update_global h head.1 invert head.2
      { s with editor := { s.editor with lastPattern := remembered } } hinput

/-- **A global command with one command line right behind its pattern does what it does with this
line between braces**, if the command is one of those that act on the current line without an
address: the result, the output, the files and the editor are the same. A line that joins does what
it does with a dot in front between braces: it is given a single line, of which nothing is joined.

**Proof sketch.** The text up to the end of the pattern is read alike in both cases
(`exists_readAddresses_global`), so that the same lines are visited. At each of them the line that
is visited is the current one, and the command does the same with and without its address
(`alikeWhenVisited_self`). No visit sees the rest of the input (`alike_replay`). -/
theorem execute_inline {front x body pattern arguments : Line} {list inner : AddressList}
    {invert : Bool} {delimiter letter : UInt8}
    (hread : readAddresses (front ++ x) = (list, globalLetter invert :: delimiter :: body))
    (hpattern : readPattern delimiter body = .ok (pattern, x))
    (hx : readAddresses x = (inner, letter :: arguments)) (s : Session) (input left : Source) :
    (letter ∈ lettersOnCurrent → Source.readCommandList input = .ok [x] left →
      SameEnd (execute (front ++ x) s) (execute (front ++ [ascii '\x7b']) { s with input })) ∧
    (letter = ascii 'j' → inner = ⟨[], none⟩ →
      Source.readCommandList input = .ok [ascii '.' :: x] left →
      SameEnd (execute (front ++ x) s) (execute (front ++ [ascii '\x7b']) { s with input })) := by
  constructor
  · intro hletter hinput
    have hlower : isLower letter = true :=
      List.all_eq_true.1 (by decide : lettersOnCurrent.all isLower = true) letter hletter
    exact sameEnd_execute_global (alikeWhenVisited_self hx hletter) hread hpattern
      (ofLine_eq_inline hx hlower) s hinput
  · rintro rfl rfl hinput
    exact sameEnd_execute_global (alikeWhenVisited_dot hx) hread hpattern
      (ofLine_eq_inline hx (by decide)) s hinput

/-- A session of two lines. -/
def pair : Session :=
  ⟨.ofLines [[ascii 'a'], [ascii 'b']], .script [], .direct none "", ⟨[], []⟩⟩

/-- Deleting the lines that have an `a`. -/
theorem execute_inline_delete :
    let front := Line.ofString "g/a/"
    let x := [ascii 'd']
    let input := Source.script [x, [ascii '\x7d']]
    readAddresses (front ++ x) =
        (⟨[], none⟩, globalLetter false :: ascii '/' :: Line.ofString "a/d") ∧
      readPattern (ascii '/') (Line.ofString "a/d") = .ok ([ascii 'a'], x) ∧
      readAddresses x = (⟨[], none⟩, [ascii 'd']) ∧ ascii 'd' ∈ lettersOnCurrent ∧
      Source.readCommandList input = .ok [x] (.script []) ∧
      SameEnd (execute (front ++ x) pair)
        (execute (front ++ [ascii '\x7b']) { pair with input }) ∧
      (EState.after (execute (front ++ x)) pair).buffer.lines = #[[ascii 'b']] := by
  intro front x input
  have hread : readAddresses (front ++ x) =
      (⟨[], none⟩, globalLetter false :: ascii '/' :: Line.ofString "a/d") := by decide +kernel
  have hpattern : readPattern (ascii '/') (Line.ofString "a/d") = .ok ([ascii 'a'], x) := by
    decide +kernel
  have hx : readAddresses x = (⟨[], none⟩, [ascii 'd']) := by decide +kernel
  have hletter : ascii 'd' ∈ lettersOnCurrent := by decide
  have hinput := readCommandList_script hx (by decide) []
  exact ⟨hread, hpattern, hx, hletter, hinput,
    (execute_inline hread hpattern hx pair input _).1 hletter hinput, by decide +kernel⟩

/-- A line that joins does not do behind the pattern what it does between braces: there it is given
a single line, here it joins the line that is visited to the next one. -/
theorem exists_inline_ne_block :
    ¬∀ (front x body pattern arguments : Line) (list : AddressList) (invert : Bool)
        (delimiter letter : UInt8) (s : Session) (input left : Source),
      readAddresses (front ++ x) = (list, globalLetter invert :: delimiter :: body) →
      readPattern delimiter body = .ok (pattern, x) →
      readAddresses x = (⟨[], none⟩, letter :: arguments) →
      letter ∈ Line.ofString "cdijklmnpst" →
      Source.readCommandList input = .ok [x] left →
      SameEnd (execute (front ++ x) s) (execute (front ++ [ascii '\x7b']) { s with input }) := by
  intro hsame
  have hx : readAddresses [ascii 'j'] = (⟨[], none⟩, [ascii 'j']) := by decide +kernel
  have hends := hsame (Line.ofString "g/a/") [ascii 'j'] (Line.ofString "a/j") [ascii 'a'] []
    ⟨[], none⟩ false (ascii '/') (ascii 'j') pair (.script [[ascii 'j'], [ascii '\x7d']]) _
    (by decide +kernel) (by decide +kernel) hx (by decide)
    (readCommandList_script hx (by decide) [])
  have hlines := congrArg Array.size (congrArg (fun v => v.1.buffer.lines) hends.final)
  exact absurd hlines (by decide +kernel)

end Action

end LineEditor
