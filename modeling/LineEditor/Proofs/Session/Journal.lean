import LineEditor.Proofs.Session.Written

set_option autoImplicit false
set_option relaxedAutoImplicit false

/-!
# Runs of command lines

A run carries out one command line after the other on the same buffer; everything around the buffer
may change in between. Its journal has an entry for each command that is carried out, alone or in
the list of a global command. Between two entries neither the lines change nor whether they count as
written. So what every command shows of the lines that were written or loaded last holds along the
whole run.

## Main definitions

* `LineEditor.Action.entries`: the entries of a command line.
* `LineEditor.Traces`: entries that account for all changes of the lines.
* `LineEditor.Request.run`, `LineEditor.Request.journal`: a run of command lines, and its journal.

## Main results

* `LineEditor.Action.traces_execute`: a command line makes no changes but those of its entries.
* `LineEditor.Request.honest_run`: no lines that are neither written nor loaded count as such.
-/

namespace LineEditor

/-! ## Journals -/

namespace Action

/-- The entries of a command list. -/
def listEntries (isInline : Bool) (target : Nat) :
    (rounds : Nat) → Tally → Session → List JournalEntry
  | 0, _, _ => []
  | rounds + 1, tally, s =>
    match onInput Source.next s with
    | .ok (some text) t =>
      match parse text t with
      | .ok line u =>
        let line := addressed isInline target line
        ⟨line, u⟩ ::
          match runListed line tally u with
          | .ok (.continued, tally) v => listEntries isInline target rounds tally v
          | _ => []
      | .error .. => []
    | _ => []

/-- The entries of the visits of a global command. -/
def replayEntries (list : List Line) (isInline : Bool) :
    (rounds : Nat) → Tally → Session → List JournalEntry
  | 0, _, _ => []
  | rounds + 1, tally, s =>
    match onBuffer LineBuffer.nextTarget s with
    | .ok (some target) t =>
      match onBuffer (LineBuffer.setCurrent target) t with
      | .ok _ u =>
        listEntries isInline target list.length tally { u with input := .script list } ++
          match withInput (.script list) (runList isInline target list.length tally) u with
          | .ok (.continued, tally) v => replayEntries list isInline rounds tally v
          | _ => []
      | .error .. => []
    | _ => []

/-- The lines of a command list, and whether it is a single line behind the pattern. -/
def commandLines : CommandList → Action (List Line × Bool)
  | .inline line => return ([line], true)
  | .block => return (← onInput Source.readCommandList, false)

/-- A session in a global command that has lines to visit. -/
def begun (targets : List Nat) (s : Session) : Session :=
  { s with editor := { s.editor with inGlobal := true, buffer := s.buffer.setTargets targets } }

/-- The entries of a global command. -/
def globalEntries (range : LineRange) (invert : Bool) (regex : Regex) (list : CommandList)
    (s : Session) : List JournalEntry :=
  if s.editor.inGlobal then []
  else
    match commandLines list s with
    | .ok (lines, isInline) t =>
      let targets := selectLines t.buffer range invert regex
      replayEntries lines isInline targets.length ⟨false, false⟩ (begun targets t)
    | .error .. => []

/-- The entries of a command line. A command that is no global one has a single entry. -/
def lineEntries (line : CommandLine) (s : Session) : List JournalEntry :=
  match line.command with
  | .global invert regex list =>
    match line.addresses.range s.buffer 1 s.buffer.size with
    | .ok range => globalEntries range invert regex list s
    | .error _ => []
  | _ => [⟨line, s⟩]

/-- The entries of the command line of a given text. -/
def entries (text : Line) (s : Session) : List JournalEntry :=
  match parse text s with
  | .ok line t => lineEntries line t
  | .error .. => []

end Action

/-- Entries account for all changes between two buffers: from one to the next neither the lines
change nor whether they count as written. -/
inductive Traces : LineBuffer → List JournalEntry → LineBuffer → Prop where
  /-- Nothing changes without an entry. -/
  | nil {b b' : LineBuffer} (h : b.SameText b') : Traces b [] b'
  /-- The first entry finds the buffer as it was, and the others go on from what it leaves. -/
  | cons {b b' : LineBuffer} {entry : JournalEntry} {entries : List JournalEntry}
      (h : b.SameText entry.before.buffer) (hrest : Traces entry.after.buffer entries b') :
      Traces b (entry :: entries) b'

namespace Traces

variable {b b₁ b' : LineBuffer} {es es' : List JournalEntry}

/-- What is traced from a buffer is traced from one with the same text. -/
theorem of_sameText (h : b.SameText b₁) (ht : Traces b₁ es b') : Traces b es b' := by
  cases ht with
  | nil h' => exact .nil (h.trans h')
  | cons h' hrest => exact .cons (h.trans h') hrest

/-- Traces that follow each other are one trace. -/
theorem append (h : Traces b es b₁) (h' : Traces b₁ es' b') : Traces b (es ++ es') b' := by
  induction h with
  | nil hsame => exact .of_sameText hsame h'
  | cons hsame _ ih => exact .cons hsame (ih h')

/-- A trace may end at another buffer with the same text. -/
theorem then_sameText (h : Traces b es b₁) (h' : b₁.SameText b') : Traces b es b' := by
  have := h.append (.nil h')
  rwa [List.append_nil] at this

end Traces

namespace Action

variable {α β : Type} {s : Session} {es es' : List JournalEntry}

/-- The entries of two actions that follow each other; there are no further ones if the first action
fails.

**Proof sketch.** If the first action succeeds, the second goes on from where its trace ends; if it
fails, the whole ends there. -/
theorem traces_bind {x : Action α} {f : α → Action β}
    (hx : Traces s.buffer es (EState.after x s).buffer)
    (hok : ∀ a t, x s = .ok a t → Traces t.buffer es' (EState.after (f a) t).buffer)
    (herror : ∀ e t, x s = .error e t → es' = []) :
    Traces s.buffer (es ++ es') (EState.after (x >>= f) s).buffer := by
  cases h : x s with
  | ok a t =>
    rw [EState.after_of_ok h] at hx
    rw [EState.after_bind_of_ok h]
    exact hx.append (hok a t h)
  | error e t =>
    rw [EState.after_of_error h] at hx
    rw [EState.after_bind_of_error h, herror e t h, List.append_nil]
    exact hx

/-- An action that keeps the text needs no entry. -/
theorem KeepsText.traces_bind {x : Action α} {f : α → Action β} (hx : KeepsText x)
    (hok : ∀ a t, x s = .ok a t → Traces t.buffer es (EState.after (f a) t).buffer)
    (herror : ∀ e t, x s = .error e t → es = []) :
    Traces s.buffer es (EState.after (x >>= f) s).buffer :=
  Action.traces_bind (.nil (hx s).buffer) hok herror

/-- A command of a list is its own only entry, since the tally does not look at the buffer. -/
theorem traces_runListed (line : CommandLine) (tally : Tally) (s : Session) :
    Traces s.buffer [⟨line, s⟩] (EState.after (runListed line tally) s).buffer := by
  rw [after_runListed]
  exact .cons (.refl _) (.nil (.refl _))

/-- The entries of a command list trace what it does to the buffer.

**Proof sketch.** By induction on the rounds, in step with `listEntries`. Reading and parsing a line
keep the text. The command is an entry of its own, and the rounds that are left have their entries
behind it, or none if the list ends here. -/
theorem traces_runList (isInline : Bool) (target rounds : Nat) (tally : Tally) (s : Session) :
    Traces s.buffer (listEntries isInline target rounds tally s)
      (EState.after (runList isInline target rounds tally) s).buffer := by
  induction rounds generalizing tally s with
  | zero => exact .nil (.refl _)
  | succ rounds ih =>
    unfold runList listEntries
    refine (KeepsText.onInput Source.next).traces_bind (fun text? t hread => ?_) fun e t hread => by
      rw [hread]
    rw [hread]
    cases text? with
    | none => exact .nil (.refl _)
    | some text =>
      refine (KeepsText.parse text).traces_bind (fun line u hparse => ?_) fun e u hparse => by
        simp only [hparse]
      simp only [hparse]
      generalize addressed isInline target line = line
      refine traces_bind (traces_runListed line tally u) (fun ended v hlist => ?_)
        fun e v hlist => by rw [hlist]
      obtain ⟨outcome, tally⟩ := ended
      rw [hlist]
      cases outcome with
      | quit => exact .nil (.refl _)
      | continued => exact ih tally v

/-- What is done with another input is done to the buffer of the session. -/
theorem buffer_after_withInput (source : Source) (x : Action α) (s : Session) :
    (EState.after (withInput source x) s).buffer =
      (EState.after x { s with input := source }).buffer := by
  obtain ⟨editor, input, output, disk⟩ := s
  unfold EState.after withInput
  dsimp only
  cases x ⟨editor, source, output, disk⟩ <;> rfl

/-- The end of the visits, which may be a failure. -/
theorem traces_conclude {missed : Prop} [Decidable missed] (s : Session) :
    Traces s.buffer [] (EState.after
      (if missed then throw .noMatch else return .continued : Action Outcome) s).buffer := by
  have hkeeps : KeepsText (if missed then throw .noMatch else return .continued : Action Outcome) :=
    .ite (.throw _) (.pure _)
  exact .nil (hkeeps s).buffer

/-- The entries of the visits trace what they do.

**Proof sketch.** By induction on the rounds, in step with `replayEntries`. Taking a line to visit
and making it the current one keep the text, and the entries of one visit are those of the list. -/
theorem traces_replay (list : List Line) (isInline : Bool) (rounds : Nat) (tally : Tally)
    (s : Session) :
    Traces s.buffer (replayEntries list isInline rounds tally s)
      (EState.after (replay list isInline rounds tally) s).buffer := by
  induction rounds generalizing tally s with
  | zero => exact traces_conclude s
  | succ rounds ih =>
    unfold replay replayEntries
    refine KeepsText.nextTarget.traces_bind (fun target? t htarget => ?_) fun e t htarget => by
      rw [htarget]
    rw [htarget]
    cases target? with
    | none => exact traces_conclude t
    | some target =>
      refine (KeepsText.setCurrent target).traces_bind (fun _ u hset => ?_) fun e u hset => by
        simp only [hset]
      simp only [hset]
      have hlist := traces_runList isInline target list.length tally
        { u with input := .script list }
      rw [← buffer_after_withInput] at hlist
      refine traces_bind hlist (fun ended v hvisit => ?_) fun e v hvisit => by rw [hvisit]
      obtain ⟨outcome, tally⟩ := ended
      rw [hvisit]
      cases outcome with
      | quit => exact .nil (.refl _)
      | continued => exact ih tally v

/-- Reading a command list keeps the text of the buffer. -/
theorem KeepsText.commandLines (list : CommandList) : KeepsText (commandLines list) := by
  cases list with
  | inline line => exact .pure _
  | block => exact .bind (KeepsText.onInput _) fun _ => .pure _

/-- A global command is not carried out within another one; otherwise its list is read, the lines
are chosen, and each is visited. -/
theorem runGlobal_eq (range : LineRange) (invert : Bool) (regex : Regex) (list : CommandList)
    (s : Session) :
    runGlobal range invert regex list s =
      if s.editor.inGlobal then .error .nestedGlobal s
      else (do
        let (lines, isInline) ← commandLines list
        let targets := selectLines (← get).buffer range invert regex
        withTargets targets (replay lines isInline targets.length ⟨false, false⟩)) s := by
  unfold runGlobal
  rw [EState.bind_apply, EState.get_apply]
  dsimp only
  split
  · rfl
  · cases list with
    | inline line => rfl
    | block => simp only [commandLines, bind_assoc, pure_bind]

/-- Beginning a global command keeps the text of the buffer. -/
theorem sameText_begun (targets : List Nat) (s : Session) :
    s.buffer.SameText (begun targets s).buffer := ⟨rfl, rfl⟩

/-- So does ending one. -/
theorem sameText_withTargets (targets : List Nat) (x : Action α) (s : Session) :
    (EState.after x (begun targets s)).buffer.SameText
      (EState.after (withTargets targets x) s).buffer := by
  unfold EState.after withTargets begun
  dsimp only
  generalize x _ = result
  cases result <;> exact ⟨rfl, rfl⟩

/-- The entries of a global command trace what it does.

**Proof sketch.** It has none if it is refused. Reading the list keeps the text, and so do the
beginning and the end of the visits, whose entries are those of the command. -/
theorem traces_runGlobal (range : LineRange) (invert : Bool) (regex : Regex) (list : CommandList)
    (s : Session) :
    Traces s.buffer (globalEntries range invert regex list s)
      (EState.after (runGlobal range invert regex list) s).buffer := by
  unfold globalEntries
  rw [EState.after, runGlobal_eq]
  split
  · exact .nil (.refl _)
  · refine (KeepsText.commandLines list).traces_bind (fun read t hread => ?_) fun e t hread => by
      rw [hread]
    rw [hread]
    obtain ⟨lines, isInline⟩ := read
    refine .of_sameText (sameText_begun (selectLines t.buffer range invert regex) t) ?_
    exact (traces_replay lines isInline _ _ _).then_sameText (sameText_withTargets _ _ t)

/-- Commands other than global ones are carried out alike in a command list. -/
theorem update_eq_refuseGlobal {line : CommandLine} (h : line.command.isGlobal = false) :
    update runGlobal line = update refuseGlobal line := by
  unfold update
  simp only [perform_eq_refuseGlobal h]

/-- The entries of a command line trace what it does.

**Proof sketch.** A line without a global command is its own entry. A global command has the entries
of its visits, if its range is there; the snapshot and the print suffix around it keep the text. -/
theorem traces_update (line : CommandLine) (s : Session) :
    Traces s.buffer (lineEntries line s) (EState.after (update runGlobal line) s).buffer := by
  cases hcommand : line.command.isGlobal with
  | false =>
    have hentries : lineEntries line s = [⟨line, s⟩] := by
      unfold lineEntries
      split
      · rename_i hline
        rw [hline] at hcommand
        cases hcommand
      · rfl
    rw [hentries, update_eq_refuseGlobal hcommand]
    exact .cons (.refl _) (.nil (.refl _))
  | true =>
    refine Traces.then_sameText ?_ (sameText_update runGlobal line s).buffer
    obtain ⟨addresses, command, print⟩ := line
    cases command with
    | global invert regex list =>
      have hperform : perform runGlobal addresses (.global invert regex list) s =
          (ofResult (addresses.range s.buffer 1 s.buffer.size) >>= fun range =>
            runGlobal range invert regex list : Action Outcome) s := rfl
      unfold EState.after lineEntries
      dsimp only
      rw [hperform]
      cases addresses.range s.buffer 1 s.buffer.size with
      | error e => exact .nil (.refl _)
      | ok range => exact traces_runGlobal range invert regex list s
    | _ => cases hcommand

/-- **A command line makes no changes but those of its entries.** -/
theorem traces_execute (text : Line) (s : Session) :
    Traces s.buffer (entries text s) (EState.after (execute text) s).buffer := by
  unfold execute entries
  refine (KeepsText.parse text).traces_bind (fun line t hparse => ?_) fun e t hparse => by
    rw [hparse]
  rw [hparse]
  exact traces_update line t

end Action

/-! ## Runs -/

/-- The lines that were written or loaded last, after the entries of a journal. -/
def lastKept (kept : Array Line) (journal : List JournalEntry) : Array Line :=
  journal.foldl (fun kept entry => entry.recorded?.getD kept) kept

/-- All entries of a journal show which lines were written or loaded last. -/
def HonestJournal : Array Line → List JournalEntry → Prop
  | _, [] => True
  | kept, entry :: journal =>
    entry.Honest kept ∧ HonestJournal (entry.recorded?.getD kept) journal

/-- Along a journal it stays known which lines were written or loaded last.

**Proof sketch.** Induction on the journal. Between two commands the text stays the same, and each
entry is honest and hands on which lines were kept. -/
theorem Traces.honest {b b' : LineBuffer} {journal : List JournalEntry} (ht : Traces b journal b')
    {kept : Array Line} (h : b.WrittenAs kept) :
    HonestJournal kept journal ∧ b'.WrittenAs (lastKept kept journal) := by
  induction ht generalizing kept with
  | nil hsame => exact ⟨trivial, h.of_sameText hsame⟩
  | cons hsame _ ih =>
    have hentry := JournalEntry.honest (h.of_sameText hsame)
    obtain ⟨hjournal, hlast⟩ := ih hentry.after
    exact ⟨⟨hentry, hjournal⟩, hlast⟩

/-- A command line that is carried out on a buffer, and everything around the buffer at that
time. -/
structure Request where
  /-- The text of the command line. -/
  text : Line
  /-- The session, whose own buffer does not matter. -/
  around : Session

namespace Request

/-- The buffer after a run. -/
def run : List Request → LineBuffer → LineBuffer
  | [], b => b
  | r :: requests, b =>
    run requests (EState.after (Action.execute r.text) (r.around.withBuffer b)).buffer

/-- The journal of a run. -/
def journal : List Request → LineBuffer → List JournalEntry
  | [], _ => []
  | r :: requests, b =>
    Action.entries r.text (r.around.withBuffer b) ++
      journal requests (EState.after (Action.execute r.text) (r.around.withBuffer b)).buffer

/-- The journal of a run traces it, by induction on its requests. -/
theorem traces_run (requests : List Request) (b : LineBuffer) :
    Traces b (journal requests b) (run requests b) := by
  induction requests generalizing b with
  | nil => exact .nil (.refl b)
  | cons r requests ih =>
    exact (Action.traces_execute r.text (r.around.withBuffer b)).append (ih _)

/-- **No lines count as written that are not**: in a run of command lines, whenever the buffer
counts as written it has the lines that were written or loaded last, or those from the beginning if
there are none.

**Proof sketch.** This is preserved by every command (`JournalEntry.honest`), and nothing but these
changes lines (`traces_run`). -/
theorem honest_run (requests : List Request) (b : LineBuffer) :
    Traces b (journal requests b) (run requests b) ∧
      HonestJournal b.lines (journal requests b) ∧
      (run requests b).WrittenAs (lastKept b.lines (journal requests b)) := by
  have htraces := traces_run requests b
  have hwritten : b.WrittenAs b.lines := fun _ => rfl
  exact ⟨htraces, htraces.honest hwritten⟩

/-- Undoing after writing brings back lines that were not written, and they do not count as
such. -/
example :
    let around : Session := ⟨.ofLines [], .script [], .direct none "", ⟨[], []⟩⟩
    let requests := ["1d", "w out", "u"].map fun text => Request.mk (Line.ofString text) around
    let b := LineBuffer.ofLines (["a", "b"].map Line.ofString)
    (run requests b).dirty = true ∧ (run requests b).lines = b.lines ∧
      lastKept b.lines (journal requests b) = #[Line.ofString "b"] := by
  decide +kernel

end Request

end LineEditor
