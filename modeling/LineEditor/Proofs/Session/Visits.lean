import LineEditor.Proofs.Session.Tracking

set_option autoImplicit false
set_option relaxedAutoImplicit false

/-!
# The lines that a global command visits

A global command visits only lines that it has collected, each at most once and the last one first,
wherever its commands have moved them in the meantime. A collected line that is not visited is
gone, or the lines were forgotten by a command that undoes or that edits another file, or the
global command has ended early. The visits end by themselves: that the number of rounds is bounded
makes no difference.

## Main definitions

* `LineEditor.Visit.Finds`: a visit finds its line where it stands.
* `LineEditor.Tracked.Sound`: what holds before and after every command of a list.

## Main results

* `LineEditor.Tracked.Sound.runListed`, `LineEditor.Tracked.Sound.nextTarget`: it is preserved by a
  command, and by taking off the next line.
* `LineEditor.Tracked.ends_replay`: what has been visited when the visits end.
* `LineEditor.Action.runGlobal_visits`: a global command visits the right lines.
-/

namespace LineEditor

/-- A visit finds its line, and this line becomes the current one. -/
structure Visit.Finds (v : Visit) : Prop where
  /-- The lines are those of the buffer. -/
  texts : v.buffer.lines.toList = v.tagged.texts
  /-- No two of them have the same identity. -/
  nodup : (identities v.tagged.lines).Nodup
  /-- There is a line at the index. -/
  line : v.identity?.isSome
  /-- The index is taken off, and there is nothing to prevent its line from becoming current. -/
  current : ∃ b, LineBuffer.nextTarget v.buffer = .ok (some v.index) b ∧
    LineBuffer.setCurrent v.index b = .ok () { b with current := some v.index }

namespace Tracked

variable {α β : Type}

/-- What holds before and after every command that a global command carries out, if `collected` are
the lines that it has collected and at most `bound` of them are still to be visited. -/
structure Sound (collected : List Nat) (bound : Nat) (w : Tracked) : Prop where
  /-- A global command is running. -/
  inGlobal : w.session.editor.inGlobal = true
  /-- The lines with identities agree with the buffer. -/
  simulates : Simulates ∅ w.session.buffer w.tagged
  /-- Lines are visited from the last one collected to the first. -/
  order : (w.visited ++ w.tagged.targets.reverse).Sublist collected.reverse
  /-- A collected line that is neither visited nor to be visited is gone or forgotten. -/
  accounted : ∀ identity ∈ collected, identity ∈ w.visited ∨ identity ∈ w.tagged.targets ∨
    identity ∉ identities w.tagged.lines ∨ w.resets ≠ []
  /-- No new line is a collected one. -/
  old : ∀ identity ∈ collected, identity < w.tagged.fresh
  /-- So many lines are still to be visited. -/
  bound : w.tagged.targets.length ≤ bound
  /-- All visits have found their lines. -/
  visits : ∀ v ∈ w.visits, v.Finds
  /-- Lines are forgotten when a command undoes or edits another file. -/
  resets : ∀ command ∈ w.resets, command = .undo ∨ ∃ path force, command = .edit path force

namespace Sound

variable {collected : List Nat} {bound : Nat} {w : Tracked}

/-- Only the lines of the buffer matter, and that a global command is running. -/
theorem of_sameLines (h : Sound collected bound w) {s : Session}
    (hs : Action.SameLines w.session s) : Sound collected bound { w with session := s } :=
  { h with
    inGlobal := hs.inGlobal.trans h.inGlobal
    simulates := h.simulates.of_sameLines hs.buffer }

/-- What is quiet and lifted keeps everything sound. -/
theorem lift (h : Sound collected bound w) {x : Action α} (hx : Action.Quiet x) :
    Sound collected bound (EState.after (lift x) w) := by
  rw [after_lift]
  exact h.of_sameLines (hx w.session)

end Sound

section

variable {collected : List Nat} {bound : Nat} {w : Tracked}

/-- **What one command preserves.** Its operation keeps the lines in step; it makes no line come
back and sets none to be visited.

**Proof sketch.** The lines stay in step by `Simulates.applied`. Of an operation that succeeds,
`Operation.keeps` says which identities are left and which are still to be visited: without a reset
a line that was gone does not come back, since its identity is an old one; after a reset none is to
be visited, and the command that did it is remembered. -/
theorem Sound.follow (h : Sound collected bound w) (line : CommandLine) {s : Session}
    (hs : (Operation.applied (line.command.operation? w.session line.addresses)
      w.session.buffer).SameLines s.buffer) (hglobal : s.editor.inGlobal = true) :
    Sound collected bound { w.follow line with session := s } := by
  have hsimulates := (h.simulates.applied
    (line.command.operation? w.session line.addresses)).of_sameLines hs
  unfold Tracked.follow
  cases hop : line.command.operation? w.session line.addresses with
  | none =>
    rw [hop] at hsimulates
    exact { h with inGlobal := hglobal, simulates := hsimulates }
  | some op =>
    rw [hop] at hsimulates
    dsimp only [Operation.tracked, Option.elim_some] at hsimulates ⊢
    cases htagged : op.tagged w.tagged with
    | error e =>
      rw [htagged] at hsimulates
      exact { h with inGlobal := hglobal, simulates := hsimulates }
    | ok result =>
      obtain ⟨reply, n⟩ := result
      rw [htagged] at hsimulates
      have hkeeps := Operation.keeps htagged
      have hresets := line.command.eq_of_resets hop
      have hold : ∀ identity ∈ collected, identity < n.fresh := fun identity hmem =>
        Nat.lt_of_lt_of_le (h.old identity hmem) hkeeps.fresh
      cases hop : op.resets with
      | false =>
        have htargets : n.targets = w.tagged.targets := by rw [hkeeps.targets, hop]; rfl
        refine
          { inGlobal := hglobal, simulates := hsimulates, old := hold, visits := h.visits
            order := ?_, accounted := ?_, bound := ?_, resets := ?_ }
        · exact htargets ▸ h.order
        · intro identity hmem
          rcases h.accounted identity hmem with hvisited | htarget | hgone | hreset
          · exact .inl hvisited
          · exact .inr (.inl (htargets ▸ htarget))
          · refine .inr (.inr (.inl fun hback => ?_))
            rcases hkeeps.old_or_new hop identity hback with hbefore | hnew
            · exact hgone hbefore
            · exact absurd (h.old identity hmem) (Nat.not_lt.2 hnew)
          · exact .inr (.inr (.inr (by simpa using hreset)))
        · exact htargets ▸ h.bound
        · simpa using h.resets
      | true =>
        have htargets : n.targets = [] := by rw [hkeeps.targets, hop]; rfl
        refine
          { inGlobal := hglobal, simulates := hsimulates, old := hold, visits := h.visits
            order := ?_, accounted := ?_, bound := ?_, resets := ?_ }
        · rw [htargets]
          exact (List.append_sublist_append_left w.visited).2 (List.nil_sublist _) |>.trans h.order
        · intro identity _
          exact .inr (.inr (.inr (by simp)))
        · rw [htargets]
          exact Nat.zero_le _
        · intro command hmem
          rcases List.mem_append.1 hmem with hmem | hmem
          · exact h.resets command hmem
          · obtain rfl := List.mem_singleton.1 hmem
            exact hresets hop

end

/-! ## Command lists -/

/-- A computation keeps an invariant, also when it fails. -/
def Keeps (I : Tracked → Prop) (x : TrackedAction α) : Prop := ∀ w, I w → I (EState.after x w)

namespace Keeps

variable {I : Tracked → Prop}

/-- Answering keeps an invariant. -/
theorem pure (a : α) : Keeps I (Pure.pure a : TrackedAction α) := fun _ h => h

/-- What follows keeps one, if both do.

**Proof sketch.** By the first computation, which leaves something with the invariant behind,
whether it succeeds or fails. -/
theorem bind {x : TrackedAction α} {f : α → TrackedAction β} (hx : Keeps I x)
    (hf : ∀ a, Keeps I (f a)) : Keeps I (x >>= f) := by
  intro w h
  have hfirst := hx w h
  cases hxw : x w with
  | ok a v =>
    rw [EState.after_of_ok hxw] at hfirst
    rw [EState.after_bind_of_ok hxw]
    exact hf a v hfirst
  | error e v =>
    rw [EState.after_of_error hxw] at hfirst
    rw [EState.after_bind_of_error hxw]
    exact hfirst

end Keeps

section

variable {collected : List Nat} {bound : Nat}

/-- What is quiet and lifted keeps everything sound, as a computation. -/
theorem keeps_lift {x : Action α} (hx : Action.Quiet x) : Keeps (Sound collected bound) (lift x) :=
  fun _ h => h.lift hx

/-- So does a command of a list.

**Proof sketch.** It carries out the operation of its command and nothing else on the lines, so that
the identities that were followed are those of the session that it leaves. -/
theorem keeps_runListed (line : CommandLine) (tally : Tally) :
    Keeps (Sound collected bound) (runListed line tally) := by
  intro w h
  have hcarries := Action.carries_runListed line tally h.inGlobal
  rw [after_runListed]
  exact h.follow line hcarries.buffer (hcarries.inGlobal.trans h.inGlobal)

/-- So does a command list.

**Proof sketch.** By induction on the rounds: reading and parsing a line is quiet, and then the
command keeps everything sound. -/
theorem keeps_runList (isInline : Bool) (target rounds : Nat) (tally : Tally) :
    Keeps (Sound collected bound) (runList isInline target rounds tally) := by
  induction rounds generalizing tally with
  | zero => exact .pure _
  | succ rounds ih =>
    refine .bind (keeps_lift (.onInput _)) fun text? => ?_
    cases text? with
    | none => exact .pure _
    | some text =>
      refine .bind (keeps_lift (.parse text)) fun line => ?_
      refine .bind (keeps_runListed _ tally) fun (outcome, tally) => ?_
      cases outcome with
      | quit => exact .pure _
      | continued => exact ih tally

/-- The input is no part of the invariant. -/
theorem keeps_withInput (source : Source) {x : TrackedAction α}
    (hx : Keeps (Sound collected bound) x) :
    Keeps (Sound collected bound) (withInput source x) := by
  intro w h
  have hinner := hx { w with session := { w.session with input := source } }
    (h.of_sameLines ⟨.refl _, rfl⟩)
  rw [after_withInput]
  exact hinner.of_sameLines ⟨.refl _, rfl⟩

end

/-! ## Taking off the next line -/

section

variable {collected : List Nat} {bound : Nat} {w : Tracked}

/-- There is no next line if all lines that were to be visited are gone. -/
theorem nextTarget_of_nil (h : Simulates ∅ w.session.buffer w.tagged) (hlive : w.tagged.live = []) :
    nextTarget w = .ok none (w.noteVisit none) := by
  have hback : w.session.buffer.targets.back? = none := by rw [h.back?_targets, hlive]; rfl
  unfold nextTarget
  rw [Action.onBuffer_apply, LineBuffer.nextTarget_apply, hback]
  rfl

/-- The next line is the last one that still exists, and it is found where it stands.

**Proof sketch.** The last identity that still exists stands somewhere, since it is among those that
do, and it stands at the last pending place by `back?_targets`; that place is taken off. -/
theorem nextTarget_of_getLast? (h : Simulates ∅ w.session.buffer w.tagged) {identity : Nat}
    (hlive : w.tagged.live.getLast? = some identity) :
    ∃ index, w.session.buffer.targets.back? = some index ∧
      position? w.tagged.lines identity = some index ∧
      nextTarget w = .ok (some index)
        { w.noteVisit index with
          session := w.session.withBuffer
            { w.session.buffer with targets := w.session.buffer.targets.pop } } := by
  have hmem := List.mem_filter.1 (List.mem_of_getLast? hlive)
  obtain ⟨index, hposition⟩ := Option.isSome_iff_exists.1 hmem.2
  have hback : w.session.buffer.targets.back? = some index := by
    rw [h.back?_targets, hlive]
    exact hposition
  refine ⟨index, hback, hposition, ?_⟩
  unfold nextTarget
  rw [Action.onBuffer_apply, LineBuffer.nextTarget_apply, hback]

/-- A line that is to be visited is among those that still exist, or it is gone. -/
theorem mem_live_or_gone {n : TaggedBuffer} {identity : Nat} (h : identity ∈ n.targets) :
    identity ∈ n.live ∨ identity ∉ identities n.lines := by
  cases hposition : position? n.lines identity with
  | none => exact .inr (position?_eq_none_iff.1 hposition)
  | some index => exact .inl (List.mem_filter.2 ⟨h, by rw [hposition]; rfl⟩)

/-- If no line is left, all that were to be visited are gone. -/
theorem Sound.noteVisit_of_nil (h : Sound collected bound w) (hlive : w.tagged.live = []) :
    Sound collected 0 (w.noteVisit none) := by
  have hvisits : (w.noteVisit none).visits = w.visits := List.append_nil _
  have htargets : (w.noteVisit none).tagged.targets = [] := by
    rw [Tracked.noteVisit, TaggedBuffer.dropTarget, hlive]
    rfl
  have hpop : w.session.buffer.targets.pop = w.session.buffer.targets := by
    have hback : w.session.buffer.targets.back? = none := by
      rw [h.simulates.back?_targets, hlive]
      rfl
    rw [Array.back?_eq_none_iff.1 hback]
    rfl
  have hdrop := h.simulates.dropTarget
  rw [hpop] at hdrop
  refine
    { inGlobal := h.inGlobal, simulates := hdrop, old := h.old, resets := h.resets
      order := ?_, accounted := ?_, bound := ?_, visits := ?_ }
  · rw [visited, hvisits, htargets]
    exact (List.append_sublist_append_left w.visited).2 (List.nil_sublist _) |>.trans h.order
  · intro identity hmem
    rw [visited, hvisits]
    rcases h.accounted identity hmem with hvisited | htarget | hgone | hreset
    · exact .inl hvisited
    · rcases mem_live_or_gone htarget with hmem | hgone
      · rw [hlive] at hmem
        exact absurd hmem List.not_mem_nil
      · exact .inr (.inr (.inl hgone))
    · exact .inr (.inr (.inl hgone))
    · exact .inr (.inr (.inr hreset))
  · rw [htargets]
    exact Nat.le_refl _
  · rw [hvisits]
    exact h.visits

/-- A visit finds its line.

**Proof sketch.** The identity stands where the last pending place is, which is a line of the
buffer, so that taking it off and making it the current line succeeds. -/
theorem Sound.finds (h : Sound collected bound w) {identity index : Nat}
    (hback : w.session.buffer.targets.back? = some index)
    (hposition : position? w.tagged.lines identity = some index) :
    Visit.Finds ⟨index, w.tagged, w.session.buffer⟩ where
  texts := h.simulates.live.texts
  nodup := h.simulates.live.nodup
  line := by
    rw [Visit.identity?, identity_of_position? hposition]
    rfl
  current := by
    refine ⟨{ w.session.buffer with targets := w.session.buffer.targets.pop }, ?_, ?_⟩
    · rw [LineBuffer.nextTarget_apply, hback]
    · have hlt := lt_length_of_position? hposition
      rw [← h.simulates.size] at hlt
      rw [LineBuffer.setCurrent_apply]
      exact if_neg (Nat.not_le.2 hlt)

/-- **What taking off the next line preserves.** It becomes a visited one, and those behind it that
are gone are no longer to be visited.

**Proof sketch.** The identity is the last of those that still exist, so that the others behind it,
which are gone, drop out with it. What was visited, and the list of what is to be visited, stay one
behind the other in order. A line that was still to be visited is one of the others, or this one, or
gone. -/
theorem Sound.noteVisit (h : Sound collected (bound + 1) w) {identity index : Nat}
    (hlive : w.tagged.live.getLast? = some identity)
    (hback : w.session.buffer.targets.back? = some index)
    (hposition : position? w.tagged.lines identity = some index) :
    Sound collected bound
      { w.noteVisit index with
        session := w.session.withBuffer
          { w.session.buffer with targets := w.session.buffer.targets.pop } } := by
  have hvisits : (w.noteVisit index).visits =
      w.visits ++ [⟨index, w.tagged, w.session.buffer⟩] := rfl
  have hvisited : (w.noteVisit index).visited = w.visited ++ [identity] := by
    have hidentity : Visit.identity? ⟨index, w.tagged, w.session.buffer⟩ = some identity :=
      identity_of_position? hposition
    rw [visited, hvisits, List.filterMap_append, List.filterMap_cons_some hidentity]
    rfl
  have hsplit : w.tagged.live = w.tagged.live.dropLast ++ [identity] :=
    (List.dropLast_append_getLast? identity hlive).symm
  have hsublist : w.tagged.live.Sublist w.tagged.targets := List.filter_sublist
  refine
    { inGlobal := h.inGlobal, simulates := h.simulates.dropTarget, old := h.old, resets := h.resets
      order := ?_, accounted := ?_, bound := ?_, visits := ?_ }
  · change ((w.noteVisit index).visited ++ w.tagged.live.dropLast.reverse).Sublist _
    have hreverse : w.tagged.live.reverse = identity :: w.tagged.live.dropLast.reverse := by
      conv_lhs => rw [hsplit]
      rw [List.reverse_append]
      rfl
    rw [hvisited, List.append_assoc, List.singleton_append, ← hreverse]
    exact ((List.append_sublist_append_left _).2 hsublist.reverse).trans h.order
  · intro other hmem
    change other ∈ (w.noteVisit index).visited ∨ other ∈ w.tagged.live.dropLast ∨ _
    rw [hvisited, List.mem_append, List.mem_singleton]
    rcases h.accounted other hmem with hvisited | htarget | hgone | hreset
    · exact .inl (.inl hvisited)
    · rcases mem_live_or_gone htarget with hmem | hgone
      · rw [hsplit, List.mem_append, List.mem_singleton] at hmem
        rcases hmem with hmem | rfl
        · exact .inr (.inl hmem)
        · exact .inl (.inr rfl)
      · exact .inr (.inr (.inl hgone))
    · exact .inr (.inr (.inl hgone))
    · exact .inr (.inr (.inr hreset))
  · change w.tagged.live.dropLast.length ≤ bound
    have hlength := hsublist.length_le
    have hbound := h.bound
    rw [List.length_dropLast]
    omega
  · intro v hmem
    change v ∈ (w.noteVisit index).visits at hmem
    rw [hvisits, List.mem_append, List.mem_singleton] at hmem
    rcases hmem with hmem | rfl
    · exact h.visits v hmem
    · exact h.finds hback hposition

end

/-! ## The visits -/

section

variable {collected : List Nat} (list : List Line) (isInline : Bool)

/-- How the visits end: none is left if they end by themselves. -/
def Ends (collected : List Nat) : EStateM.Result EditError Tracked Outcome → Prop
  | .ok .continued w => Sound collected 0 w
  | .ok .quit w => ∃ bound, Sound collected bound w
  | .error _ w => ∃ bound, Sound collected bound w

/-- A visit: the line becomes the current one, and the list is carried out. -/
def visit (target : Nat) (tally : Tally) : TrackedAction (Outcome × Tally) := do
  lift (Action.onBuffer (LineBuffer.setCurrent target))
  withInput (.script list) (runList isInline target list.length tally)

/-- A visit keeps everything sound. -/
theorem keeps_visit {bound : Nat} (target : Nat) (tally : Tally) :
    Keeps (Sound collected bound) (visit list isInline target tally) :=
  .bind (keeps_lift (.setCurrent target)) fun _ =>
    keeps_withInput _ (keeps_runList isInline target list.length tally)

/-- When no line is left, the visits end by themselves. -/
theorem replay_of_nil {w : Tracked} (h : Simulates ∅ w.session.buffer w.tagged)
    (hlive : w.tagged.live = []) (rounds : Nat) (tally : Tally) :
    replay list isInline (rounds + 1) tally w =
      replay list isInline 0 tally (w.noteVisit none) := by
  conv_lhs => rw [replay, EState.bind_apply, nextTarget_of_nil h hlive]
  rfl

/-- When a line is left, it is visited, and then the others are.

**Proof sketch.** The line is taken off by `nextTarget_of_getLast?`, and what is left of the round
is the visit of that line. -/
theorem replay_of_getLast? {bound : Nat} {w : Tracked} (h : Sound collected (bound + 1) w)
    {identity : Nat} (hlive : w.tagged.live.getLast? = some identity) :
    ∃ target v, Sound collected bound v ∧ ∀ rounds tally,
      replay list isInline (rounds + 1) tally w =
        match visit list isInline target tally v with
        | .ok (.quit, _) u => .ok .quit u
        | .ok (.continued, tally) u => replay list isInline rounds tally u
        | .error e u => .error e u := by
  obtain ⟨target, hback, hposition, hnext⟩ := nextTarget_of_getLast? h.simulates hlive
  refine ⟨target, _, h.noteVisit hlive hback hposition, fun rounds tally => ?_⟩
  conv_lhs => rw [replay, EState.bind_apply, hnext]
  dsimp only
  rw [← bind_assoc, EState.bind_apply, visit]
  split
  · rename_i result u hresult
    obtain ⟨outcome, tally⟩ := result
    rw [hresult]
    cases outcome <;> rfl
  · rename_i e u hresult
    rw [hresult]

/-- Without lines to visit, no round is needed, and nothing has ended early. -/
theorem ends_of_nil {w : Tracked} (h : Sound collected 0 w) (tally : Tally) :
    Ends collected (replay list isInline 0 tally w) := by
  unfold replay
  split
  · exact ⟨0, h⟩
  · exact h

/-- **The visits end** with an account of all lines that were collected.

**Proof sketch.** Induction on the rounds, of which there are at least as many as lines to visit. If
a line is left it is visited, which leaves fewer lines for the rounds that follow. -/
theorem ends_replay {rounds : Nat} {w : Tracked} (h : Sound collected rounds w) (tally : Tally) :
    Ends collected (replay list isInline rounds tally w) := by
  induction rounds generalizing w tally with
  | zero => exact ends_of_nil list isInline h tally
  | succ rounds ih =>
    cases hlive : w.tagged.live.getLast? with
    | none =>
      have hnil := List.getLast?_eq_none_iff.1 hlive
      rw [replay_of_nil list isInline h.simulates hnil]
      exact ends_of_nil list isInline (h.noteVisit_of_nil hnil) tally
    | some identity =>
      obtain ⟨target, v, hv, hreplay⟩ := replay_of_getLast? list isInline h hlive
      have hvisit := keeps_visit list isInline target tally v hv
      rw [hreplay]
      cases hresult : visit list isInline target tally v with
      | error e u =>
        rw [EState.after_of_error hresult] at hvisit
        exact ⟨rounds, hvisit⟩
      | ok result u =>
        obtain ⟨outcome, tally⟩ := result
        rw [EState.after_of_ok hresult] at hvisit
        cases outcome with
        | quit => exact ⟨rounds, hvisit⟩
        | continued => exact ih hvisit tally

/-- Nothing is noted when no line is to be visited. -/
theorem noteVisit_eq_self {w : Tracked} (h : w.tagged.targets = []) : w.noteVisit none = w := by
  have hlive : w.tagged.live = [] := by rw [TaggedBuffer.live, h]; rfl
  have htagged : w.tagged.dropTarget = w.tagged := by
    rw [TaggedBuffer.dropTarget, hlive, List.dropLast_nil, ← h]
  rw [noteVisit, htagged]
  simp

/-- **More rounds make no difference** if there are as many as lines to visit.

**Proof sketch.** By induction on the rounds. Without a round to spare there was no line to visit,
and then any number of rounds does nothing. Otherwise the visits are over and no round does
anything, or one line is visited and one round used up. -/
theorem replay_add {rounds : Nat} {w : Tracked} (h : Sound collected rounds w) (extra : Nat)
    (tally : Tally) :
    replay list isInline (rounds + extra) tally w = replay list isInline rounds tally w := by
  induction rounds generalizing w tally with
  | zero =>
    have htargets : w.tagged.targets = [] := List.length_eq_zero_iff.1 (Nat.le_zero.1 h.bound)
    have hlive : w.tagged.live = [] := by rw [TaggedBuffer.live, htargets]; rfl
    cases extra with
    | zero => rfl
    | succ extra =>
      rw [Nat.zero_add, replay_of_nil list isInline h.simulates hlive, noteVisit_eq_self htargets]
  | succ rounds ih =>
    rw [Nat.add_right_comm]
    cases hlive : w.tagged.live.getLast? with
    | none =>
      have hnil := List.getLast?_eq_none_iff.1 hlive
      have hend := replay_of_nil list isInline h.simulates hnil
      rw [hend, hend]
    | some identity =>
      obtain ⟨target, v, hv, hreplay⟩ := replay_of_getLast? list isInline h hlive
      have hvisit := keeps_visit list isInline target tally v hv
      rw [hreplay, hreplay]
      cases hresult : visit list isInline target tally v with
      | error e u => rfl
      | ok result u =>
        obtain ⟨outcome, tally⟩ := result
        rw [EState.after_of_ok hresult] at hvisit
        cases outcome with
        | quit => rfl
        | continued => exact ih hvisit tally

end

/-! ## A global command -/

section

variable {targets : List Nat} {s : Session}

/-- When the visits begin all lines that were collected are still to be visited.

**Proof sketch.** The lines are given their identities, all of them are to be visited in their
order, and no line has been visited, is gone or was reset yet. -/
theorem sound_begun (left : List Nat) (htargets : ∀ index ∈ targets, index < s.buffer.size) :
    Sound targets targets.length ((start left s).begun targets) := by
  have hrange : s.buffer.clearTargets.InRange ∅ :=
    ⟨fun _ hmem => absurd hmem (Set.notMem_empty _), fun _ _ _ hmem =>
      absurd hmem (Set.notMem_empty _), fun _ hmem => absurd hmem List.not_mem_nil⟩
  have hbegun : ((start left s).begun targets).tagged.targets = targets :=
    TaggedBuffer.targets_setTargets_ofBuffer htargets
  refine
    { inGlobal := rfl, simulates := (Simulates.ofBuffer hrange).setTargets htargets
      order := ?_, accounted := ?_, old := ?_, bound := ?_
      visits := fun _ hmem => absurd hmem List.not_mem_nil
      resets := fun _ hmem => absurd hmem List.not_mem_nil }
  · rw [hbegun]
    exact List.Sublist.refl _
  · intro index hmem
    rw [hbegun]
    exact .inr (.inl hmem)
  · intro index hmem
    exact Nat.lt_of_lt_of_le (htargets index hmem) (Nat.le_add_right ..)
  · rw [hbegun]

/-- More rounds than lines to visit make no difference to what is done to the session. -/
theorem erase_replay (left : List Nat) (htargets : ∀ index ∈ targets, index < s.buffer.size)
    (list : List Line) (isInline : Bool) (extra : Nat) (tally : Tally) :
    erase (withTargets targets (replay list isInline (targets.length + extra) tally)
        (start left s)) =
      Action.withTargets targets (Action.replay list isInline targets.length tally) s := by
  refine erase_withTargets targets ?_
  rw [replay_add list isInline (sound_begun left htargets) extra]
  exact erases_replay list isInline targets.length tally _

/-- What is known of the lines that were collected when a global command has ended. -/
structure Accounts (collected : List Nat) (r : EStateM.Result EditError Tracked Outcome) :
    Prop where
  /-- The lines with identities agree with the buffer. -/
  texts : (EState.final r).session.buffer.lines.toList = (EState.final r).tagged.texts
  /-- All visits have found their lines. -/
  visits : ∀ v ∈ (EState.final r).visits, v.Finds
  /-- Collected lines have been visited, from the last one to the first. -/
  order : (EState.final r).visited.Sublist collected.reverse
  /-- A collected line that was not visited is gone or forgotten, or it is left by an early end. -/
  accounted : ∀ identity ∈ collected, identity ∈ (EState.final r).visited ∨
    identity ∉ identities (EState.final r).tagged.lines ∨
    (∃ command ∈ (EState.final r).resets,
      command = .undo ∨ ∃ path force, command = .edit path force) ∨
    identity ∈ (EState.final r).left ∧ ∀ v, r ≠ .ok .continued v

/-- Nothing is visited by a global command that fails before its visits begin. -/
theorem accounts_error (collected : List Nat) (e : EditError) (s : Session) :
    Accounts collected (.error e (start collected s)) where
  texts := (texts_tagFrom ..).symm
  visits _ hmem := absurd hmem List.not_mem_nil
  order := List.nil_sublist _
  accounted _ hmem := .inr (.inr (.inr ⟨hmem, fun _ h => nomatch h⟩))

/-- What holds after the last command accounts for the lines that were collected.

**Proof sketch.** Each line was visited, is still to be visited, is gone or was reset. If none is
left to be visited, the second cannot be; otherwise the global command has ended early. -/
theorem Sound.accounts {collected : List Nat} {bound : Nat} {v : Tracked}
    (h : Sound collected bound v) {r : EStateM.Result EditError Tracked Outcome}
    (hfinal : EState.final r = v.ended) (hr : bound = 0 ∨ ∀ u, r ≠ .ok .continued u) :
    Accounts collected r where
  texts := by
    rw [hfinal]
    exact h.simulates.live.texts
  visits := by
    rw [hfinal]
    exact h.visits
  order := by
    rw [hfinal]
    exact (List.sublist_append_left ..).trans h.order
  accounted identity hmem := by
    rw [hfinal]
    rcases h.accounted identity hmem with hvisited | htarget | hgone | hreset
    · exact .inl hvisited
    · rcases hr with rfl | hearly
      · rw [List.length_eq_zero_iff.1 (Nat.le_zero.1 h.bound)] at htarget
        exact absurd htarget List.not_mem_nil
      · exact .inr (.inr (.inr ⟨htarget, hearly⟩))
    · exact .inr (.inl hgone)
    · obtain ⟨command, hcommand⟩ := List.exists_mem_of_ne_nil _ hreset
      exact .inr (.inr (.inl ⟨command, hcommand, h.resets command hcommand⟩))

/-- When the visits have ended, the lines that were collected are accounted for.

**Proof sketch.** The visits have ended with a success, an error or a quit, and `Ends` knows what is
sound then. Only after a success are no lines left to be visited. -/
theorem accounts_withTargets {collected : List Nat} {x : TrackedAction Outcome} {w : Tracked}
    (h : Ends collected (x (w.begun collected))) :
    Accounts collected (withTargets collected x w) := by
  unfold withTargets
  cases hx : x (w.begun collected) with
  | error e v =>
    rw [hx] at h
    obtain ⟨bound, hv⟩ := h
    exact hv.accounts rfl (.inr fun u hu => nomatch hu)
  | ok outcome v =>
    rw [hx] at h
    cases outcome with
    | quit =>
      obtain ⟨bound, hv⟩ := h
      exact hv.accounts rfl (.inr fun u hu => nomatch (EStateM.Result.ok.inj hu).1)
    | continued => exact Sound.accounts h rfl (.inl rfl)

/-- A global command fails before its visits begin, or it visits the lines that it has collected.

**Proof sketch.** A global command that is nested fails, and so does one whose list cannot be read.
Otherwise the list and the lines are known, and both begin with the same rounds. -/
theorem runGlobal_start (extra : Nat) (range : LineRange) (invert : Bool) (regex : Regex)
    (list : CommandList) (left : List Nat) (s : Session) :
    ∃ t : Session, t.buffer = s.buffer ∧
      ((∃ e, runGlobal extra range invert regex list (start left s) = .error e (start left t) ∧
        Action.runGlobal range invert regex list s = .error e t) ∨
      ∃ lines isInline,
        let targets := Action.selectLines s.buffer range invert regex
        runGlobal extra range invert regex list (start left s) =
          withTargets targets (replay lines isInline (targets.length + extra) ⟨false, false⟩)
            (start left t) ∧
        Action.runGlobal range invert regex list s =
          Action.withTargets targets (Action.replay lines isInline targets.length ⟨false, false⟩)
            t) := by
  by_cases hglobal : s.editor.inGlobal = true
  · refine ⟨s, rfl, .inl ⟨.nestedGlobal, ?_, ?_⟩⟩
    · simp [runGlobal, start, hglobal]
    · simp [Action.runGlobal, hglobal]
  · cases list with
    | inline line =>
      refine ⟨s, rfl, .inr ⟨[line], true, ?_, ?_⟩⟩
      · simp [runGlobal, start, hglobal]
      · simp [Action.runGlobal, hglobal]
    | block =>
      cases hread : Source.readCommandList s.input with
      | error e source =>
        refine ⟨{ s with input := source }, rfl, .inl ⟨e, ?_, ?_⟩⟩
        · simp [runGlobal, start, lift, Action.onInput, hglobal, hread]
        · simp [Action.runGlobal, Action.onInput, hglobal, hread]
      | ok lines source =>
        refine ⟨{ s with input := source }, rfl, .inr ⟨lines, false, ?_, ?_⟩⟩
        · simp [runGlobal, start, lift, Action.onInput, hglobal, hread]
        · simp [Action.runGlobal, Action.onInput, hglobal, hread]

end

end Tracked

namespace Action

variable {b : LineBuffer} {range : LineRange} {invert : Bool} {regex : Regex}

/-- A line is collected if it is in the range and matches, or does not match.

**Proof sketch.** A line of the range is one of its indices, and the filter looks at the line
there. -/
theorem mem_selectLines (hrange : range.first ≤ range.last) {index : Nat} :
    index ∈ selectLines b range invert regex ↔ range.contains index ∧
      ∃ line, b.line? index = some line ∧ regex.matchesLine line ≠ invert := by
  have hsize : range.size = range.last - range.first + 1 := rfl
  have hindices : index ∈ range.indices ↔ range.contains index := by
    rw [LineRange.indices, List.mem_range'_1, LineRange.contains, Bool.and_eq_true,
      decide_eq_true_eq, decide_eq_true_eq]
    omega
  rw [selectLines, List.mem_filter, hindices]
  refine and_congr_right fun _ => ?_
  cases b.line? index with
  | none => simp
  | some line => simp

/-- The lines that are collected are lines of the buffer. -/
theorem lt_size_of_mem_selectLines {index : Nat} (h : index ∈ selectLines b range invert regex) :
    index < b.size := by
  have hline := (List.mem_filter.1 h).2
  cases hget : b.line? index with
  | none =>
    rw [hget] at hline
    cases hline
  | some line => exact (Array.getElem?_eq_some_iff.1 hget).1

/-- Lines are collected in ascending order. -/
theorem pairwise_selectLines : (selectLines b range invert regex).Pairwise (· < ·) :=
  (List.pairwise_lt_range' ..).filter _

/-- A global command does the same to the session as without identities, and the lines that it has
collected are accounted for.

**Proof sketch.** By `runGlobal_start`, the global command fails before its visits or visits what it
has collected. The session is the same by `erase_replay`, and the extra rounds make no difference by
`replay_add`, so that the lines are accounted for as in a run without them. -/
theorem accounts_runGlobal (extra : Nat) (range : LineRange) (invert : Bool) (regex : Regex)
    (list : CommandList) (s : Session) :
    let collected := selectLines s.buffer range invert regex
    let r := Tracked.runGlobal extra range invert regex list (.start collected s)
    Tracked.erase r = runGlobal range invert regex list s ∧ Tracked.Accounts collected r := by
  intro collected r
  obtain ⟨t, ht, ⟨e, hr, hreal⟩ | ⟨lines, isInline, hr, hreal⟩⟩ :=
    Tracked.runGlobal_start extra range invert regex list collected s
  · change r = _ at hr
    rw [hr, hreal]
    exact ⟨rfl, Tracked.accounts_error _ e t⟩
  · have htargets : ∀ index ∈ collected, index < t.buffer.size :=
      fun index hmem => ht ▸ lt_size_of_mem_selectLines hmem
    have hsound := Tracked.sound_begun collected htargets
    change r = _ at hr
    rw [hr, hreal]
    refine ⟨Tracked.erase_replay collected htargets lines isInline extra _, ?_⟩
    refine Tracked.accounts_withTargets ?_
    rw [Tracked.replay_add lines isInline hsound extra]
    exact Tracked.ends_replay lines isInline hsound _

/-- **A global command visits the right lines.** Run side by side with lines whose identities are at
first their indices, a global command does the same to the session, however many more rounds it is
given. Every visit finds its line where it stands then. The visited lines are among those of the
range that match, or do not match, before the first command is carried out; each is visited at
most once, and they are visited in descending order of their first indices. A line that was
collected but not visited is gone, or it was forgotten because of a command that undoes or that
edits another file, or it was still to be visited when the global command ended early. Addresses
give no ranges but those with a line (`Addresses.first_le_last_of_range`).

**Proof sketch.** All lines that were collected are to be visited when the visits begin
(`Tracked.sound_begun`). What holds then is preserved by every command and every visit, so that it
holds where they end (`Tracked.ends_replay`). -/
theorem runGlobal_visits (hrange : range.first ≤ range.last) (extra : Nat) (invert : Bool)
    (regex : Regex) (list : CommandList) (s : Session) :
    let collected := selectLines s.buffer range invert regex
    let r := Tracked.runGlobal extra range invert regex list (.start collected s)
    let w := EState.final r
    Tracked.erase r = runGlobal range invert regex list s ∧
      w.session.buffer.lines.toList = w.tagged.texts ∧
      (∀ v ∈ w.visits, v.Finds) ∧
      (∀ identity, identity ∈ collected ↔ range.contains identity ∧
        ∃ line, s.buffer.line? identity = some line ∧ regex.matchesLine line ≠ invert) ∧
      (∀ identity ∈ w.visited, identity ∈ collected) ∧
      w.visited.Pairwise (· > ·) ∧
      w.visits.length ≤ collected.length ∧
      ∀ identity ∈ collected,
        identity ∈ w.visited ∨
        identity ∉ identities w.tagged.lines ∨
        (∃ command ∈ w.resets, command = .undo ∨ ∃ path force, command = .edit path force) ∨
        identity ∈ w.left ∧ ∀ t, runGlobal range invert regex list s ≠ .ok .continued t := by
  intro collected r w
  obtain ⟨herase, haccounts⟩ := accounts_runGlobal extra range invert regex list s
  refine ⟨herase, haccounts.texts, haccounts.visits, fun identity => mem_selectLines hrange,
    fun identity hmem => List.mem_reverse.1 (haccounts.order.mem hmem), ?_, ?_, ?_⟩
  · exact (List.pairwise_reverse.2 pairwise_selectLines).sublist haccounts.order
  · have hlength := haccounts.order.length_le
    have hvisits : w.visited.length = w.visits.length :=
      List.filterMap_length_eq_length.2 fun v hmem => (haccounts.visits v hmem).line
    rwa [List.length_reverse, hvisits] at hlength
  · intro identity hmem
    rcases haccounts.accounted identity hmem with hvisited | hgone | hreset | ⟨hleft, hearly⟩
    · exact .inl hvisited
    · exact .inr (.inl hgone)
    · exact .inr (.inr (.inl hreset))
    · refine .inr (.inr (.inr ⟨hleft, fun t ht => ?_⟩))
      rw [← herase] at ht
      cases hr : Tracked.runGlobal extra range invert regex list (.start collected s) with
      | error e v =>
        rw [hr] at ht
        cases ht
      | ok outcome v =>
        rw [hr] at ht
        obtain rfl := (EStateM.Result.ok.inj ht).1
        exact hearly v hr

/-- Four lines, of which three have the letter `x`. -/
def fourLines : Session where
  editor := .ofLines (["x1", "y", "x2", "x3"].map Line.ofString)
  input := .script []
  output := .direct none ""
  disk := ⟨[], []⟩

/-- The pattern of the letter `x`. -/
def letterX : Regex :=
  ⟨Line.ofString "x", ⟨.single (.literal (ascii 'x')) .once .empty, false, false, 0⟩⟩

/-- Moving every line with an `x` to the top visits no other lines. -/
theorem runGlobal_visits_fourLines :
    let list : CommandList := .inline (Line.ofString "m0")
    let r := Tracked.runGlobal 1 ⟨0, 3⟩ false letterX list (.start [0, 2, 3] fourLines)
    let w := EState.final r
    (0 ≤ 3) ∧
      Tracked.erase r = runGlobal ⟨0, 3⟩ false letterX list fourLines ∧
      (∀ v ∈ w.visits, v.Finds) ∧
      (∀ identity ∈ w.visited, identity ∈ [0, 2, 3]) ∧
      w.visited.Pairwise (· > ·) ∧
      w.visits.length ≤ 3 ∧
      ∀ identity ∈ [0, 2, 3],
        identity ∈ w.visited ∨
        identity ∉ identities w.tagged.lines ∨
        (∃ command ∈ w.resets, command = .undo ∨ ∃ path force, command = .edit path force) ∨
        identity ∈ w.left ∧
          ∀ t, runGlobal ⟨0, 3⟩ false letterX list fourLines ≠ .ok .continued t := by
  have hcollected : selectLines fourLines.buffer ⟨0, 3⟩ false letterX = [0, 2, 3] := by
    decide +kernel
  have hrange : (⟨0, 3⟩ : LineRange).first ≤ (⟨0, 3⟩ : LineRange).last := by decide
  obtain ⟨herase, -, hfinds, -, hmem, horder, hlength, haccounted⟩ :=
    runGlobal_visits hrange 1 false letterX (.inline (Line.ofString "m0")) fourLines
  rw [hcollected] at herase hfinds hmem horder hlength haccounted
  exact ⟨hrange, herase, hfinds, hmem, horder, hlength, haccounted⟩

end Action

end LineEditor
