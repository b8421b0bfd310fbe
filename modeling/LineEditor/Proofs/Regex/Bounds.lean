import LineEditor.Proofs.Accesses
import LineEditor.Proofs.Regex.Captures
import LineEditor.Proofs.Regex.Replacing
import LineEditor.Proofs.Regex.Tables

set_option autoImplicit false
set_option relaxedAutoImplicit false

/-!
# Accesses of matching and replacing

The matching machine takes bytes from the text, computes how many are left, and writes what a group
has captured into the slot of that group. A replacement takes the captured parts from the text, and
what stands between the matches. All of it is there: the positions of the machine stay within the
text, a group is never closed before the position where it was opened, and the matches of a text are
found from left to right.

## Main definitions

* `LineEditor.Regex.Machine.accesses`, `LineEditor.Regex.Machine.runAccesses`: what a step of the
  machine accesses, and what a run does.
* `LineEditor.Regex.Machine.Ordered`: no group was opened after the current position.
* `LineEditor.Regex.findAccesses`: what a search accesses.
* `LineEditor.Regex.replaceAccesses`: what is accessed to replace the matches of a line.

## Main results

* `LineEditor.Regex.Machine.ordered_step`: a step keeps the order of the positions.
* `LineEditor.Regex.valid_findAccesses`: a search accesses nothing out of bounds.
* `LineEditor.Regex.valid_replaceAccesses`: neither does a replacement.
-/

namespace LineEditor.Regex

variable {text : Array UInt8}

/-! ## Runs of bytes -/

/-- The word of a table in which a byte has its bit. -/
def wordAccess (b : UInt8) : Access := .element (b >>> 6).toNat 4

/-- Every byte has its bit in one of the four words of a table. -/
theorem valid_wordAccess (b : UInt8) : (wordAccess b).Valid := (ByteTable.wordIndex b).isLt

/-- What a test looks up for a byte. A bracket expression is kept as a table. -/
def ByteTest.accesses (test : ByteTest) (b : UInt8) : List Access :=
  match test with
  | literal _ => []
  | any => []
  | set _ => [wordAccess b]

/-- A test looks up nothing that is not in its table. -/
theorem ByteTest.valid_accesses (test : ByteTest) (b : UInt8) : ∀ a ∈ test.accesses b, a.Valid := by
  cases test with
  | literal c => exact List.forall_mem_nil _
  | any => exact List.forall_mem_nil _
  | set s => exact List.forall_mem_singleton.2 (valid_wordAccess b)

/-- The bytes that are taken from the text to count those that pass a test. -/
def countRunAccesses (test : ByteTest) (text : Array UInt8) (start : Nat) :
    (room taken : Nat) → List Access
  | 0, _ => []
  | room + 1, taken =>
    .element (start + taken) text.size ::
      match text[start + taken]? with
      | none => []
      | some b =>
        test.accesses b ++
          if test.accepts b then countRunAccesses test text start room (taken + 1) else []

/-- What is accessed to find the longest run from a position on. -/
def longestRunAccesses (test : ByteTest) (bounds : Bounds) (text : Array UInt8) (position : Nat) :
    List Access :=
  .difference text.size position ::
    countRunAccesses test text position (bounds.cap (remaining text position)) 0

/-- As long as there is room, the next byte is there.

**Proof sketch.** Induction on the room. Each byte that is counted takes one unit of it, so that the
bytes counted so far and the room that is left do not exceed the text together. -/
theorem valid_countRunAccesses (test : ByteTest) {start room taken : Nat}
    (h : start + taken + room ≤ text.size) :
    ∀ a ∈ countRunAccesses test text start room taken, a.Valid := by
  induction room generalizing taken with
  | zero => exact List.forall_mem_nil _
  | succ room ih =>
    have hbyte : start + taken < text.size := by omega
    refine List.forall_mem_cons.2 ⟨hbyte, ?_⟩
    split
    · exact List.forall_mem_nil _
    · refine List.forall_mem_append.2 ⟨test.valid_accesses _, ?_⟩
      split
      · exact ih (by omega)
      · exact List.forall_mem_nil _

/-- A run is looked for within the text. -/
theorem valid_longestRunAccesses (test : ByteTest) (bounds : Bounds) {position : Nat}
    (h : position ≤ text.size) : ∀ a ∈ longestRunAccesses test bounds text position, a.Valid := by
  refine List.forall_mem_cons.2 ⟨h, valid_countRunAccesses test ?_⟩
  have hcap := bounds.cap_le (remaining text position)
  have hremaining : remaining text position = text.size - position := rfl
  omega

/-! ## Steps of the machine -/

/-- What is computed to take up the latest choice: a run that can be shortened once more. -/
def backtrackAccesses : List Choice → List Access
  | [] => []
  | ⟨_, _, .stop _⟩ :: _ => []
  | ⟨_, _, .shorter _ taken least⟩ :: _ => if least < taken then [.difference taken 1] else []

/-- What is computed to go on with a group. -/
def repeatGroupAccesses (bounds : Bounds) (count : Nat) (choices : List Choice) : List Access :=
  if bounds.allowsMore count ∨ bounds.least ≤ count then [] else backtrackAccesses choices

/-- What is computed to see whether an iteration has made progress. -/
def noProgressAccesses (text : Array UInt8) (start position : Nat) : List Access :=
  [.difference text.size start, .difference text.size position]

/-- What a step of the machine accesses. -/
def Machine.accesses (endAnchor : Bool) (text : Array UInt8) (m : Machine) : List Access :=
  match m.goals with
  | [] => if endAnchor && m.position != text.size then backtrackAccesses m.choices else []
  | .pieces .empty :: _ => []
  | .pieces (.single test bounds _) :: _ =>
    let taken := longestRun test bounds text m.position
    longestRunAccesses test bounds text m.position ++
      if taken < bounds.least then backtrackAccesses m.choices
      else if bounds.least < taken then [.difference taken 1]
      else []
  | .pieces (.group _ _ bounds _) :: _ => repeatGroupAccesses bounds 0 m.choices
  | .again index _ bounds count start :: _ =>
    noProgressAccesses text start m.position ++
      if noProgress text start m.position && bounds.least ≤ count then backtrackAccesses m.choices
      else
        .difference m.position start :: .element index maxGroups ::
          repeatGroupAccesses bounds (count + 1) m.choices

/-- What a run of the machine accesses, from step to step. -/
def Machine.runAccesses (endAnchor : Bool) (text : Array UInt8) (m : Machine) : List Access :=
  m.accesses endAnchor text ++
    match _h : m.step endAnchor text with
    | .next m' => runAccesses endAnchor text m'
    | .accepted .. => []
    | .refused => []
termination_by m.cost text
decreasing_by exact cost_lt_of_step _h

/-- If a goal is to close an iteration of a group, this has begun by the given position. -/
def Goal.BegunBy (position : Nat) : Goal → Prop
  | pieces _ => True
  | again _ _ _ _ start => start ≤ position

/-- The goals of a choice have begun by every position where it can be taken up. -/
def Choice.Ordered (c : Choice) : Prop :=
  match c.resumption with
  | .stop position => ∀ g ∈ c.goals, g.BegunBy position
  | .shorter start _ _ => ∀ g ∈ c.goals, g.BegunBy start

/-- No iteration that is still to be closed has begun after the current position, nor after a
position that is gone back to. -/
structure Machine.Ordered (m : Machine) : Prop where
  /-- The iterations that the goals close have begun. -/
  goals : ∀ g ∈ m.goals, g.BegunBy m.position
  /-- So have those that are closed after a choice has been taken up. -/
  choices : ∀ c ∈ m.choices, c.Ordered

/-- A step leads to a state in which the positions are ordered, if it does not end the run. -/
def Outcome.Ordered : Outcome → Prop
  | .next m => m.Ordered
  | .accepted .. | .refused => True

/-- What has begun by a position has begun by every later one. -/
theorem Goal.BegunBy.mono {g : Goal} {p q : Nat} (h : g.BegunBy p) (hpq : p ≤ q) :
    g.BegunBy q := by
  cases g with
  | pieces e => trivial
  | again index body bounds count start => exact Nat.le_trans h hpq

namespace Machine

variable {m : Machine} {choices : List Choice}

/-- Taking up a choice keeps the order: a shorter run ends no earlier than it starts.

**Proof sketch.** What is taken up comes from the latest choice, which is in order. A run that is
one byte shorter starts at the same place. -/
theorem ordered_backtrack (h : ∀ c ∈ choices, c.Ordered) : (backtrack choices).Ordered := by
  unfold backtrack
  split
  · trivial
  · obtain ⟨hfirst, hrest⟩ := List.forall_mem_cons.1 h
    exact ⟨hfirst, hrest⟩
  · rename_i goals captures start taken least choices
    obtain ⟨hfirst, hrest⟩ := List.forall_mem_cons.1 h
    refine ⟨fun g hg => (hfirst g hg).mono (Nat.le_add_right start taken), ?_⟩
    dsimp only
    split
    · exact List.forall_mem_cons.2 ⟨hfirst, hrest⟩
    · exact hrest

/-- Going on with a group keeps the order: the next iteration begins at the current position.

**Proof sketch.** The machine's position is where the next iteration begins and where the group may
be left, and no goal has begun later. -/
theorem ordered_repeatGroup (h : m.Ordered) (index : Fin maxGroups) (body : Expression)
    (bounds : Bounds) (count : Nat) : (repeatGroup index body bounds count m).Ordered := by
  unfold repeatGroup
  split
  · refine ⟨List.forall_mem_cons.2 ⟨trivial, List.forall_mem_cons.2 ⟨Nat.le_refl _, h.goals⟩⟩, ?_⟩
    dsimp only
    split
    · exact List.forall_mem_cons.2 ⟨h.goals, h.choices⟩
    · exact h.choices
  · split
    · exact h
    · exact ordered_backtrack h.choices

/-- **A step keeps the order of the positions.**

**Proof sketch.** One case for each goal. The position moves ahead only, unless a choice is taken
up, and a choice is made with the goals that have begun by its positions. -/
theorem ordered_step (h : m.Ordered) (endAnchor : Bool) : (m.step endAnchor text).Ordered := by
  have hgoals := h.goals
  unfold step
  split
  · split
    · exact ordered_backtrack h.choices
    · trivial
  · rename_i goals heq
    rw [heq] at hgoals
    exact ⟨(List.forall_mem_cons.1 hgoals).2, h.choices⟩
  · rename_i test bounds next goals heq
    rw [heq] at hgoals
    have hrest : ∀ g ∈ Goal.pieces next :: goals, g.BegunBy m.position :=
      List.forall_mem_cons.2 ⟨trivial, (List.forall_mem_cons.1 hgoals).2⟩
    dsimp only
    split
    · exact ordered_backtrack h.choices
    · refine ⟨fun g hg => (hrest g hg).mono (Nat.le_add_right _ _), ?_⟩
      dsimp only
      split
      · exact List.forall_mem_cons.2 ⟨hrest, h.choices⟩
      · exact h.choices
  · rename_i index body bounds next goals heq
    rw [heq] at hgoals
    apply ordered_repeatGroup
    exact ⟨List.forall_mem_cons.2 ⟨trivial, (List.forall_mem_cons.1 hgoals).2⟩, h.choices⟩
  · rename_i index body bounds count start goals heq
    rw [heq] at hgoals
    split
    · exact ordered_backtrack h.choices
    · apply ordered_repeatGroup
      exact ⟨(List.forall_mem_cons.1 hgoals).2, h.choices⟩

/-- At the start nothing has been opened. -/
theorem ordered_start (e : Expression) (p : Nat) : (start e p).Ordered :=
  ⟨List.forall_mem_singleton.2 trivial, List.forall_mem_nil _⟩

/-- A run is shortened only if it is longer than it must be. -/
theorem valid_backtrackAccesses (choices : List Choice) :
    ∀ a ∈ backtrackAccesses choices, a.Valid := by
  unfold backtrackAccesses
  split
  · exact List.forall_mem_nil _
  · exact List.forall_mem_nil _
  · split
    · rename_i hlt
      exact List.forall_mem_singleton.2 (Nat.one_le_of_lt hlt)
    · exact List.forall_mem_nil _

/-- Going on with a group needs no more than taking up a choice. -/
theorem valid_repeatGroupAccesses (bounds : Bounds) (count : Nat) (choices : List Choice) :
    ∀ a ∈ repeatGroupAccesses bounds count choices, a.Valid := by
  unfold repeatGroupAccesses
  split
  · exact List.forall_mem_nil _
  · exact valid_backtrackAccesses choices

/-- **A step of the machine accesses nothing out of bounds.**

**Proof sketch.** One case for each kind of goal. To run through bytes the machine looks at those
that are left of the text. To close an iteration it looks at what is left behind both ends, takes
the length between them and sets a slot of a group; the iteration has begun by the current position
since the goals are in order. -/
theorem valid_accesses (hwithin : m.Within text) (hordered : m.Ordered) (endAnchor : Bool) :
    ∀ a ∈ m.accesses endAnchor text, a.Valid := by
  have hposition := hwithin.position_le
  have hgoals := hordered.goals
  unfold accesses
  split
  · split
    · exact valid_backtrackAccesses m.choices
    · exact List.forall_mem_nil _
  · exact List.forall_mem_nil _
  · rename_i test bounds next goals heq
    refine List.forall_mem_append.2 ⟨valid_longestRunAccesses test bounds hposition, ?_⟩
    split
    · exact valid_backtrackAccesses m.choices
    · split
      · rename_i hlt
        exact List.forall_mem_singleton.2 (Nat.one_le_of_lt hlt)
      · exact List.forall_mem_nil _
  · exact valid_repeatGroupAccesses _ _ _
  · rename_i index body bounds count start goals heq
    rw [heq] at hgoals
    -- The iteration that is closed here has begun by the current position.
    have hstart : start ≤ m.position := (List.forall_mem_cons.1 hgoals).1
    have hprogress : ∀ a ∈ noProgressAccesses text start m.position, a.Valid :=
      List.forall_mem_cons.2
        ⟨Nat.le_trans hstart hposition, List.forall_mem_singleton.2 hposition⟩
    refine List.forall_mem_append.2 ⟨hprogress, ?_⟩
    split
    · exact valid_backtrackAccesses m.choices
    · exact List.forall_mem_cons.2 ⟨hstart, List.forall_mem_cons.2
        ⟨index.isLt, valid_repeatGroupAccesses _ _ _⟩⟩

/-- **A run of the machine accesses nothing out of bounds**, since each of its steps leaves the
positions within the text and in order.

**Proof sketch.** Induction on the steps of the run. -/
theorem valid_runAccesses (hwithin : m.Within text) (hordered : m.Ordered) (endAnchor : Bool) :
    ∀ a ∈ m.runAccesses endAnchor text, a.Valid := by
  fun_induction runAccesses endAnchor text m with
  | case1 m ih =>
    have hnext := within_step endAnchor hwithin
    have hnext' : (m.step endAnchor text).Ordered := ordered_step hordered endAnchor
    refine List.forall_mem_append.2 ⟨valid_accesses hwithin hordered endAnchor, ?_⟩
    split
    · rename_i m' hstep
      rw [hstep] at hnext hnext'
      exact ih m' hstep hnext hnext'
    · exact List.forall_mem_nil _
    · exact List.forall_mem_nil _

end Machine

/-! ## Searches -/

namespace Program

/-- What is accessed to match at a position. The length of a match is computed from its end. -/
def matchAtAccesses (p : Program) (text : Array UInt8) (start : Nat) : List Access :=
  (Machine.start p.body start).runAccesses p.endAnchor text ++
    match (Machine.start p.body start).run p.endAnchor text with
    | none => []
    | some (stop, _) => [.difference stop start]

/-- What is accessed to match at one position after the other, up to the first match. -/
def firstMatchAccesses (p : Program) (text : Array UInt8) (start : Nat) :
    (positions : Nat) → List Access
  | 0 => []
  | positions + 1 =>
    (if p.mayStartAt text start then p.matchAtAccesses text start else []) ++
      match if p.mayStartAt text start then p.matchAt? text start else none with
      | some _ => []
      | none => p.firstMatchAccesses text (start + 1) positions

/-- What is accessed to find the first match at or after a position. -/
def searchAccesses (p : Program) (text : Array UInt8) (start : Nat) : List Access :=
  if text.size < start then []
  else if p.startAnchor then
    if 0 < start then [] else p.firstMatchAccesses text 0 1
  else
    .difference (text.size + 1) start :: p.firstMatchAccesses text start (text.size + 1 - start)

/-- To match at a position of the text nothing out of bounds is accessed, and a match does not end
before it starts.

**Proof sketch.** The run starts at the given position and ends, if it succeeds, at a place ahead of
it: this is what the recursive matcher gives. -/
theorem valid_matchAtAccesses (p : Program) {start : Nat} (h : start ≤ text.size) :
    ∀ a ∈ p.matchAtAccesses text start, a.Valid := by
  refine List.forall_mem_append.2 ⟨Machine.valid_runAccesses (Machine.within_start _ h)
    (Machine.ordered_start _ _) _, ?_⟩
  split
  · exact List.forall_mem_nil _
  · rename_i stop captures hrun
    rw [Machine.run_eq_verdict _ _ (Machine.within_start _ h), Machine.verdict_start _ _ h] at hrun
    obtain ⟨q, captures', -, haccept⟩ := Expression.exists_found_of_backtrack hrun
    refine List.forall_mem_singleton.2 ?_
    unfold accept at haccept
    split at haccept
    · cases haccept
    · obtain ⟨rfl, -⟩ := Prod.mk.inj (Option.some.inj haccept)
      exact q.2.1

/-- From a position behind the end of the text, the number of bytes left cannot be computed. -/
example : ¬∀ a ∈ matchAtAccesses ⟨.single .any .once .empty, false, false, 0⟩ #[ascii 'a'] 2,
    a.Valid := by
  decide +kernel

/-- All positions that are tried are positions of the text.

**Proof sketch.** Induction on the number of positions. There is one more of them than the text has
bytes. -/
theorem valid_firstMatchAccesses (p : Program) {start positions : Nat}
    (h : start + positions ≤ text.size + 1) :
    ∀ a ∈ p.firstMatchAccesses text start positions, a.Valid := by
  induction positions generalizing start with
  | zero => exact List.forall_mem_nil _
  | succ positions ih =>
    refine List.forall_mem_append.2 ⟨?_, ?_⟩
    · split
      · exact p.valid_matchAtAccesses (by omega)
      · exact List.forall_mem_nil _
    · split
      · exact List.forall_mem_nil _
      · exact ih (by omega)

/-- A search accesses nothing out of bounds, wherever it starts.

**Proof sketch.** A start behind the text is refused before anything is accessed. Otherwise the
positions from the start on are those of the text. -/
theorem valid_searchAccesses (p : Program) (text : Array UInt8) (start : Nat) :
    ∀ a ∈ p.searchAccesses text start, a.Valid := by
  unfold searchAccesses
  split
  · exact List.forall_mem_nil _
  · split
    · split
      · exact List.forall_mem_nil _
      · exact p.valid_firstMatchAccesses (by omega)
    · refine List.forall_mem_cons.2 ⟨?_, p.valid_firstMatchAccesses (by omega)⟩
      show start ≤ text.size + 1
      omega

end Program

/-- What is accessed to find the first match at or after a position. -/
def findAccesses (r : Regex) (text : Array UInt8) (start : Nat) : List Access :=
  r.program.searchAccesses text start

/-- What is accessed to see whether a line has a match. -/
def matchesLineAccesses (r : Regex) (line : Line) : List Access := r.findAccesses line.toArray 0

/-- **A search accesses nothing out of bounds**, for every pattern, text and position. -/
theorem valid_findAccesses (r : Regex) (text : Array UInt8) (start : Nat) :
    ∀ a ∈ r.findAccesses text start, a.Valid := r.program.valid_searchAccesses text start

/-- Neither does the look whether a line has a match. -/
theorem valid_matchesLineAccesses (r : Regex) (line : Line) :
    ∀ a ∈ r.matchesLineAccesses line, a.Valid := r.valid_findAccesses line.toArray 0

/-! ## Rendering a replacement -/

/-- The slot of the group of a number from 1 on. -/
def groupAccesses (n : Nat) : List Access :=
  if n = 0 ∨ maxGroups < n then [] else [.difference n 1, .element (n - 1) maxGroups]

/-- What is accessed for an escaped byte of a replacement: the number of a group, its slot, and the
part of the text that it has captured. -/
def escapedAccesses (text : Array UInt8) (m : Match) (b : UInt8) : List Access :=
  if ascii '1' ≤ b ∧ b ≤ ascii '9' then
    .difference b.toNat (ascii '0').toNat :: groupAccesses (digitValue b) ++
      match m.group? (digitValue b) with
      | none => []
      | some span => [.slice span.start span.stop text.size]
  else []

/-- What is accessed to go through a replacement of the given size, of which the given bytes stand
at a position. -/
def renderAccesses (text : Array UInt8) (m : Match) (size : Nat) : (position : Nat) → Line →
    List Access
  | _, [] => []
  | position, [_] => [.element position size]
  | position, b :: c :: rest =>
    .element position size ::
      if b = ascii '\\' then
        escapedAccesses text m c ++ renderAccesses text m size (position + 2) rest
      else renderAccesses text m size (position + 1) (c :: rest)

/-- The parts of a text that a match is made of are there. -/
structure Match.Within (m : Match) (text : Array UInt8) : Prop where
  /-- The match ends within the text. -/
  stop_le : m.stop ≤ text.size
  /-- So does everything that its groups have captured. -/
  captured : ∀ (i : Fin maxGroups) (span : Span), m.captures.get i = some span →
    span.stop ≤ text.size

/-- What a search finds is within the text.

**Proof sketch.** The match ends within the text, and a group that has captured something has
captured a part of the match. -/
theorem within_of_find? {r : Regex} {start : Nat} {m : Match} (h : r.find? text start = some m) :
    m.Within text := by
  have hsearch := Program.search_eq r.program text start
  rw [show r.program.search text start = some m from h] at hsearch
  obtain ⟨-, hmatches, -⟩ := hsearch
  have hle : m.start ≤ text.size := Nat.le_trans hmatches.start_le hmatches.stop_le
  obtain ⟨-, -, -, -, hfound⟩ := Program.found_of_matchAt? hle (Program.matchAt?_of_search h)
  refine ⟨hmatches.stop_le, fun i span hspan => ?_⟩
  rcases hfound.recaptured i with hempty | ⟨body, span', -, hspan', -, hstop, -⟩
  · rw [hspan] at hempty
    simp at hempty
  · rw [hspan] at hspan'
    obtain rfl := Option.some.inj hspan'
    exact Nat.le_trans hstop hmatches.stop_le

/-- A group of a match captures a part of the text. -/
theorem Match.Within.stop_le_of_group? {m : Match} (h : m.Within text) {n : Nat} {span : Span}
    (hgroup : m.group? n = some span) : span.stop ≤ text.size := by
  unfold Match.group? at hgroup
  split at hgroup
  · cases hgroup
  · rw [Option.join_eq_some_iff] at hgroup
    obtain ⟨hlt, hget⟩ := Vector.getElem?_eq_some_iff.1 hgroup
    exact h.captured ⟨n - 1, hlt⟩ span hget

/-- Numbers of groups have slots. -/
theorem valid_groupAccesses (n : Nat) : ∀ a ∈ groupAccesses n, a.Valid := by
  unfold groupAccesses
  split
  · exact List.forall_mem_nil _
  · refine List.forall_mem_cons.2 ⟨?_, List.forall_mem_singleton.2 ?_⟩
    · show 1 ≤ n
      omega
    · show n - 1 < maxGroups
      omega

/-- An escaped byte of a replacement stands for something that is there.

**Proof sketch.** A digit is no smaller than `0`, so that its number is a difference of two bytes.
The group has a slot, and what it has captured is a part of the text. -/
theorem valid_escapedAccesses {m : Match} (h : m.Within text) (b : UInt8) :
    ∀ a ∈ escapedAccesses text m b, a.Valid := by
  unfold escapedAccesses
  split
  · rename_i hdigit
    have hzero : (ascii '0').toNat ≤ b.toNat :=
      Nat.le_trans (by decide) (UInt8.le_iff_toNat_le.1 hdigit.1)
    refine List.forall_mem_append.2 ⟨List.forall_mem_cons.2 ⟨hzero, valid_groupAccesses _⟩, ?_⟩
    split
    · exact List.forall_mem_nil _
    · rename_i span hspan
      exact List.forall_mem_singleton.2 ⟨Nat.le_add_right _ _, h.stop_le_of_group? hspan⟩
  · exact List.forall_mem_nil _

/-- **Rendering a replacement accesses nothing out of bounds**, neither of the replacement nor of
the text.

**Proof sketch.** Induction on the replacement: the position and the number of bytes that are left
make up its size. A backslash at the end stands for itself, and behind any other backslash there is
a byte. -/
theorem valid_renderAccesses {m : Match} (h : m.Within text) {size position : Nat} {bytes : Line}
    (hsize : position + bytes.length = size) :
    ∀ a ∈ renderAccesses text m size position bytes, a.Valid := by
  fun_induction renderAccesses text m size position bytes with
  | case1 => exact List.forall_mem_nil _
  | case2 position b =>
    refine List.forall_mem_singleton.2 ?_
    show position < size
    rw [List.length_singleton] at hsize
    omega
  | case3 position b c rest ih₁ ih₂ =>
    rw [List.length_cons, List.length_cons] at hsize
    have hbyte : position < size := by omega
    refine List.forall_mem_cons.2 ⟨hbyte, ?_⟩
    split
    · exact List.forall_mem_append.2 ⟨valid_escapedAccesses h c, ih₁ (by omega)⟩
    · exact ih₂ (by rw [List.length_cons]; omega)

/-! ## Replacing matches -/

/-- What is accessed to replace the first match. The replacement is gone through twice: once for its
length, and once to write it. -/
def replaceFirstAccesses (r : Regex) (text : Array UInt8) (replacement : Line) : List Access :=
  r.findAccesses text 0 ++
    match r.find? text 0 with
    | none => []
    | some m =>
      renderAccesses text m replacement.length 0 replacement ++
        .difference text.size m.stop :: .slice 0 m.start text.size ::
          renderAccesses text m replacement.length 0 replacement ++
            [.slice m.stop text.size text.size]

namespace Progress

/-- What is accessed to deal with the next match. -/
def takeAccesses (text : Array UInt8) (replacement : Line) (occurrence : Occurrence) (m : Match)
    (p : Progress) : List Access :=
  if m.isEmpty ∧ p.lastStop = some m.start then []
  else if occurrence.selects (p.seen + 1) then
    .slice p.copied m.start text.size :: renderAccesses text m replacement.length 0 replacement
  else []

/-- What is accessed to write the rest of the text. -/
def finishAccesses (text : Array UInt8) (p : Progress) : List Access :=
  if p.replaced then [.slice p.copied text.size text.size] else []

end Progress

/-- What is accessed to deal with the matches from a position on and to write the rest of the
text. -/
def scanAccesses (r : Regex) (text : Array UInt8) (replacement : Line) (occurrence : Occurrence)
    (p : Progress) (position : Nat) : List Access :=
  r.findAccesses text position ++
    match h : r.find? text position with
    | none => p.finishAccesses text
    | some m =>
      let q := p.take text replacement occurrence m
      p.takeAccesses text replacement occurrence m ++
        if q.replaced ∧ occurrence ≠ .all then q.finishAccesses text
        else if text.size < m.next then q.finishAccesses text
        else
          have := Program.le_start_of_search h
          have := m.start_lt_next
          scanAccesses r text replacement occurrence q m.next
termination_by text.size + 1 - position

/-- What is accessed to replace the selected matches of a line. -/
def replaceAccesses (r : Regex) (line : Line) (replacement : Line) (occurrence : Occurrence) :
    List Access :=
  if occurrence = .first then r.replaceFirstAccesses line.toArray replacement
  else r.scanAccesses line.toArray replacement occurrence .start 0

/-- Nothing out of bounds is accessed to replace the first match.

**Proof sketch.** The match that is found is within the text, so that the text is cut at its start
and at its end. -/
theorem valid_replaceFirstAccesses (r : Regex) (text : Array UInt8) (replacement : Line) :
    ∀ a ∈ r.replaceFirstAccesses text replacement, a.Valid := by
  refine List.forall_mem_append.2 ⟨r.valid_findAccesses text 0, ?_⟩
  split
  · exact List.forall_mem_nil _
  · rename_i m hm
    have hwithin := within_of_find? hm
    have hrender : ∀ a ∈ renderAccesses text m replacement.length 0 replacement, a.Valid :=
      valid_renderAccesses hwithin (Nat.zero_add _)
    have hbefore : (Access.slice 0 m.start text.size).Valid :=
      ⟨Nat.zero_le _, Nat.le_trans m.start_le_stop hwithin.stop_le⟩
    have hbehind : (Access.slice m.stop text.size text.size).Valid :=
      ⟨hwithin.stop_le, Nat.le_refl _⟩
    refine List.forall_mem_append.2 ⟨List.forall_mem_append.2 ⟨hrender, ?_⟩,
      List.forall_mem_singleton.2 hbehind⟩
    exact List.forall_mem_cons.2 ⟨hwithin.stop_le, List.forall_mem_cons.2 ⟨hbefore, hrender⟩⟩

namespace Progress

variable {p : Progress} {m : Match} {replacement : Line} {occurrence : Occurrence}

/-- After a match has been dealt with, the text has been dealt with up to no later than where it
ends.

**Proof sketch.** A match that is replaced moves the place to its end, and any other one leaves
it. -/
theorem copied_take_le (h : p.copied ≤ m.start) :
    (p.take text replacement occurrence m).copied ≤ m.stop := by
  have hle : p.copied ≤ m.stop := Nat.le_trans h m.start_le_stop
  unfold take
  dsimp only
  split
  · exact hle
  · split
    · exact Nat.le_refl _
    · exact hle

/-- What stands between the last match that was replaced and the next one is there.

**Proof sketch.** The last match that was replaced ends no later than the next one starts. -/
theorem valid_takeAccesses (hm : m.Within text) (h : p.copied ≤ m.start) :
    ∀ a ∈ p.takeAccesses text replacement occurrence m, a.Valid := by
  unfold takeAccesses
  split
  · exact List.forall_mem_nil _
  · split
    · have hstart : m.start ≤ text.size := Nat.le_trans m.start_le_stop hm.stop_le
      exact List.forall_mem_cons.2 ⟨⟨h, hstart⟩, valid_renderAccesses hm (Nat.zero_add _)⟩
    · exact List.forall_mem_nil _

/-- The rest of the text is there. -/
theorem valid_finishAccesses (h : p.copied ≤ text.size) :
    ∀ a ∈ p.finishAccesses text, a.Valid := by
  unfold finishAccesses
  split
  · exact List.forall_mem_singleton.2 ⟨h, Nat.le_refl _⟩
  · exact List.forall_mem_nil _

end Progress

/-- **A scan accesses nothing out of bounds.**

**Proof sketch.** Induction along the searches. The text has been dealt with up to no later than the
position of the search: the next match starts there or behind, and after it the text has been dealt
with up to no later than its end, which is not behind the position of the next search. -/
theorem valid_scanAccesses {r : Regex} {replacement : Line} {occurrence : Occurrence} {p : Progress}
    {position : Nat} (hposition : p.copied ≤ position) (hsize : p.copied ≤ text.size) :
    ∀ a ∈ r.scanAccesses text replacement occurrence p position, a.Valid := by
  fun_induction scanAccesses r text replacement occurrence p position with
  | case1 p position ih =>
    refine List.forall_mem_append.2 ⟨r.valid_findAccesses _ _, ?_⟩
    split
    · exact Progress.valid_finishAccesses hsize
    · rename_i m hm
      have hwithin := within_of_find? hm
      have hstart : p.copied ≤ m.start := Nat.le_trans hposition (le_start_of_find? hm)
      have hcopied : (p.take text replacement occurrence m).copied ≤ m.stop :=
        Progress.copied_take_le hstart
      have hfinish := Progress.valid_finishAccesses (Nat.le_trans hcopied hwithin.stop_le)
      refine List.forall_mem_append.2 ⟨Progress.valid_takeAccesses hwithin hstart, ?_⟩
      split
      · exact hfinish
      · split
        · exact hfinish
        · rename_i hinside
          exact ih m hm hinside (Nat.le_trans hcopied m.stop_le_next)
            (Nat.le_trans hcopied hwithin.stop_le)

/-- **Replacing the matches of a line accesses nothing out of bounds**, for every pattern, every
replacement and every choice among the matches. -/
theorem valid_replaceAccesses (r : Regex) (line : Line) (replacement : Line)
    (occurrence : Occurrence) : ∀ a ∈ r.replaceAccesses line replacement occurrence, a.Valid := by
  unfold replaceAccesses
  split
  · exact r.valid_replaceFirstAccesses line.toArray replacement
  · exact valid_scanAccesses (Nat.le_refl 0) (Nat.zero_le _)

end LineEditor.Regex
