import LineEditor.Regex.Machine

set_option autoImplicit false
set_option relaxedAutoImplicit false

/-!
# Matching by recursion

The plain way to match an expression: a function that recurs along the expression and takes, as
one of its arguments, what must still match behind it. Whoever has several ways to go on tries them
in order and returns the first success, and since captures are an argument too, a way that fails
leaves no trace in them.

A repeated byte tries its runs from the longest allowed one down to the least; a repeated group
tries one more iteration before it tries to stop. An iteration that consumed nothing fails once the
group has been matched often enough. Positions only move ahead and stay within the text, which the
types of continuations say, and this is what the recursion over iterations ends on.

The machine with its two stacks does the same. Each of its states stands for a computation of the
recursive matcher: the goals for what must match from the current position on, the choices for
what is tried if that fails. A step of the machine does not change the result of this computation.

## Main definitions

* `LineEditor.Regex.Expression.backtrack`: the recursive matcher.
* `LineEditor.Regex.Machine.verdict`: the computation that a state of the machine stands for.

## Main results

* `LineEditor.Regex.Machine.verdict_step`: a step keeps the result.
* `LineEditor.Regex.Machine.run_start`: the machine returns what the recursive matcher returns.
-/

namespace LineEditor.Regex

/-! ## The recursive matcher -/

/-- What a matcher finds: the end of the match and the captures. -/
abbrev Verdict := Option (Nat × Captures)

/-- A position of a text that is not before `p`. -/
abbrev Ahead (text : Array UInt8) (p : Nat) := {q : Nat // p ≤ q ∧ q ≤ text.size}

/-- What must still match, from some position that is not before `p` on. -/
abbrev Continuation (text : Array UInt8) (p : Nat) := Ahead text p → Captures → Verdict

/-- A continuation, used only from a later position on. -/
def Continuation.later {text : Array UInt8} {p : Nat} (k : Continuation text p)
    (q : Ahead text p) : Continuation text q :=
  fun r => k ⟨r, Nat.le_trans q.2.1 r.2.1, r.2.2⟩

/-- A way to match something from a position on, and then a continuation. -/
abbrev Matcher (text : Array UInt8) :=
  (p : Nat) → p ≤ text.size → Captures → Continuation text p → Verdict

/-- The end of a match. With an end anchor it must be the end of the text. -/
def accept (endAnchor : Bool) (text : Array UInt8) (p : Nat) : Continuation text p :=
  fun q captures => if endAnchor ∧ q.1 ≠ text.size then none else some (q, captures)

/-- Tries the number `taken` and then all smaller ones down to `least`. -/
def tryDown (least : Nat) : (taken : Nat) → ((n : Nat) → n ≤ taken → Verdict) → Verdict
  | 0, k => k 0 (Nat.le_refl 0)
  | taken + 1, k =>
    (k (taken + 1) (Nat.le_refl _)).or
      (if least < taken + 1 then tryDown least taken fun n h => k n (Nat.le_succ_of_le h)
        else none)

/-- Going down from a number of bytes is to try this number first and then to go down from one less,
unless it is the least one. -/
theorem tryDown_eq (least taken : Nat) (k : Nat → Verdict) :
    tryDown least taken (fun n _ => k n) =
      (k taken).or (if least < taken then tryDown least (taken - 1) fun n _ => k n else none) := by
  cases taken with
  | zero => simp [tryDown]
  | succ taken => rfl

/-- The number of bytes in a row from a position on that pass a test. -/
def passing (test : ByteTest) (text : Array UInt8) (p : Nat) : Nat :=
  ((text.toList.drop p).takeWhile test.accepts).length

/-- No more bytes pass than the text has left. -/
theorem passing_le (test : ByteTest) (text : Array UInt8) (p : Nat) :
    passing test text p ≤ text.size - p := by
  have := (List.takeWhile_prefix test.accepts (l := text.toList.drop p)).length_le
  simpa [passing] using this

/-- The bytes that are taken at most end within the text. -/
theorem add_cap_passing_le (test : ByteTest) (bounds : Bounds) {text : Array UInt8} {p : Nat}
    (hp : p ≤ text.size) : p + bounds.cap (passing test text p) ≤ text.size := by
  have h₁ := bounds.cap_le (passing test text p)
  have h₂ := passing_le test text p
  omega

/-- Goes on with a group of which `count` iterations are complete: first one more, if the bounds
allow it, then none. When an iteration ends, the group has captured what it matched; it fails if
this is nothing and there have been enough iterations before it. -/
def rounds (text : Array UInt8) (index : Fin maxGroups) (bounds : Bounds) (body : Matcher text)
    (count p : Nat) (hp : p ≤ text.size) (captures : Captures) (next : Continuation text p) :
    Verdict :=
  (if bounds.allowsMore count then
      body p hp captures fun q captures =>
        if h : q.1 = p ∧ bounds.least ≤ count then none
        else
          rounds text index bounds body (count + 1) q q.2.2
            (captures.set index (some ⟨p, q - p⟩)) (next.later q)
    else none).or
  (if bounds.least ≤ count then next ⟨p, Nat.le_refl p, hp⟩ captures else none)
termination_by (bounds.least - count) + (text.size - p)
decreasing_by
  have := q.2
  omega

/-- Matches an expression from a position on, and then a continuation. -/
def Expression.backtrack (text : Array UInt8) : Expression → Matcher text
  | .empty, p, hp, captures, k => k ⟨p, Nat.le_refl p, hp⟩ captures
  | .single test bounds next, p, hp, captures, k =>
    if bounds.cap (passing test text p) < bounds.least then none
    else
      tryDown bounds.least (bounds.cap (passing test text p)) fun n hn =>
        have hq : p + n ≤ text.size :=
          Nat.le_trans (Nat.add_le_add_left hn p) (add_cap_passing_le test bounds hp)
        next.backtrack text (p + n) hq captures (k.later ⟨p + n, Nat.le_add_right p n, hq⟩)
  | .group index body bounds next, p, hp, captures, k =>
    rounds text index bounds (body.backtrack text) 0 p hp captures fun q captures =>
      next.backtrack text q q.2.2 captures (k.later q)

/-! ## Runs of bytes -/

/-- Counting stops at the first byte that fails or when there is no more room.

**Proof sketch.** Induction on the room that is left. At the end of the text there are no more bytes
to pass. Elsewhere the byte at the place is the head of what is left of the text, and it passes or
ends the count on both sides. -/
theorem countRun_eq (test : ByteTest) (text : Array UInt8) (start room taken : Nat) :
    countRun test text start room taken =
      taken + min room (passing test text (start + taken)) := by
  induction room generalizing taken with
  | zero => simp [countRun]
  | succ room ih =>
    rw [countRun]
    split
    · rename_i h
      have hle : text.toList.length ≤ start + taken := by simpa using h
      simp [passing, List.drop_of_length_le hle]
    · rename_i b h
      obtain ⟨hlt, hb⟩ := Array.getElem?_eq_some_iff.1 h
      have hdrop : text.toList.drop (start + taken) =
          b :: text.toList.drop (start + taken + 1) := by
        rw [← hb, ← Array.getElem_toList]
        exact List.drop_eq_getElem_cons (by simpa using hlt)
      split
      · rename_i hacc
        have hpass : passing test text (start + taken) =
            passing test text (start + (taken + 1)) + 1 := by
          simp only [passing, hdrop, List.takeWhile_cons, hacc, if_true, List.length_cons,
            Nat.add_assoc]
        rw [ih, hpass]
        omega
      · rename_i hacc
        simp [passing, hdrop, hacc]

/-- The machine's longest run is the longest one that the bounds allow. -/
theorem longestRun_eq (test : ByteTest) (bounds : Bounds) (text : Array UInt8) (p : Nat) :
    longestRun test bounds text p = bounds.cap (passing test text p) := by
  have h := passing_le test text p
  rw [longestRun, countRun_eq]
  unfold Bounds.cap remaining
  simp only [Nat.zero_add, Nat.add_zero]
  split <;> omega

/-! ## What a state of the machine stands for -/

section Simulation

variable (endAnchor : Bool) (text : Array UInt8)

/-- What meets the goals of the machine from a position on: the recursive matcher for each
expression, with the goals behind it as what must still match. -/
def goalsVerdict : List Goal → (p : Nat) → p ≤ text.size → Captures → Verdict
  | [], p, hp, captures => accept endAnchor text p ⟨p, Nat.le_refl p, hp⟩ captures
  | .pieces e :: goals, p, hp, captures =>
    e.backtrack text p hp captures fun q captures => goalsVerdict goals q q.2.2 captures
  | .again index body bounds count start :: goals, p, hp, captures =>
    if noProgress text start p && bounds.least ≤ count then none
    else
      rounds text index bounds (body.backtrack text) (count + 1) p hp
        (captures.set index (some ⟨start, p - start⟩)) fun q captures =>
          goalsVerdict goals q q.2.2 captures

/-- What meets the goals from a position on, if it is a position of the text. -/
def verdictAt (goals : List Goal) (p : Nat) (captures : Captures) : Verdict :=
  if hp : p ≤ text.size then goalsVerdict endAnchor text goals p hp captures else none

/-- What comes of a choice. -/
def Choice.verdict (c : Choice) : Verdict :=
  match c.resumption with
  | .stop position => verdictAt endAnchor text c.goals position c.captures
  | .shorter start taken least =>
    tryDown least taken fun n _ => verdictAt endAnchor text c.goals (start + n) c.captures

/-- What comes of the first choice that leads to something. -/
def choicesVerdict : List Choice → Verdict
  | [] => none
  | c :: choices => (c.verdict endAnchor text).or (choicesVerdict choices)

/-- What comes of a state of the machine: the goals are tried first, and then the choices. -/
def Machine.verdict (m : Machine) : Verdict :=
  (verdictAt endAnchor text m.goals m.position m.captures).or
    (choicesVerdict endAnchor text m.choices)

/-- What comes of a step of the machine. -/
def Outcome.verdict : Outcome → Verdict
  | .next m => m.verdict endAnchor text
  | .accepted stop captures => some (stop, captures)
  | .refused => none

/-- The positions of a choice are positions of the text. -/
def Choice.Within (c : Choice) : Prop :=
  match c.resumption with
  | .stop position => position ≤ text.size
  | .shorter start taken _ => start + taken ≤ text.size

/-- All positions of a state are positions of the text. -/
structure Machine.Within (m : Machine) : Prop where
  position_le : m.position ≤ text.size
  choices : ∀ c ∈ m.choices, c.Within text

/-- All positions of a state that a step leads to are positions of the text. -/
def Outcome.Within : Outcome → Prop
  | .next m => m.Within text
  | .accepted .. | .refused => True

variable {text}

/-- At a place in the text, what comes of the goals is what the matcher gives for them. -/
theorem verdictAt_eq (goals : List Goal) {p : Nat} (hp : p ≤ text.size) (captures : Captures) :
    verdictAt endAnchor text goals p captures = goalsVerdict endAnchor text goals p hp captures :=
  dif_pos hp

/-- Progress from a position of the text means that the position has changed. -/
theorem noProgress_eq {p : Nat} (q : Ahead text p) : noProgress text p q = decide (q.1 = p) := by
  have := q.2
  unfold noProgress remaining
  congr 1
  apply propext
  omega

namespace Machine

/-- Taking up a choice keeps all positions within the text.

**Proof sketch.** The latest choice is either a place to stop at, or a run of bytes to be tried one
byte shorter. The run with one byte less ends within the text as well, and the other choices are
left as they are. -/
theorem within_backtrack {choices : List Choice} (h : ∀ c ∈ choices, c.Within text) :
    (backtrack choices).Within text := by
  unfold backtrack
  split
  · trivial
  · rename_i goals captures position choices
    exact ⟨h ⟨goals, captures, .stop position⟩ (by simp), fun c hc => h c (by simp [hc])⟩
  · rename_i goals captures start taken least choices
    have hfirst : start + taken ≤ text.size :=
      h ⟨goals, captures, .shorter start taken least⟩ (by simp)
    refine ⟨hfirst, fun c hc => ?_⟩
    dsimp only at hc
    split at hc
    · rcases List.mem_cons.1 hc with rfl | hc
      · show start + (taken - 1) ≤ text.size
        omega
      · exact h c (by simp [hc])
    · exact h c (by simp [hc])

/-- The latest choice is what comes of the choices first.

**Proof sketch.** A choice for a shorter run stands for the verdicts of all lengths down to the
least one. Taking it up tries the first of these and leaves the choice for the others. -/
theorem verdict_backtrack (choices : List Choice) :
    (backtrack choices).verdict endAnchor text = choicesVerdict endAnchor text choices := by
  unfold backtrack
  split
  · rfl
  · rfl
  · rename_i goals captures start taken least choices
    cases taken with
    | zero => simp [Outcome.verdict, verdict, choicesVerdict, Choice.verdict, tryDown]
    | succ taken =>
      simp only [Outcome.verdict, verdict, choicesVerdict, Choice.verdict, tryDown,
        Nat.add_sub_cancel]
      split
      · simp [choicesVerdict, Choice.verdict, Option.or_assoc]
      · simp

/-- Going on with a group keeps all positions within the text.

**Proof sketch.** The end of the iteration and the choice to go on without it are both at the
machine's position. -/
theorem within_repeatGroup {m : Machine} (hm : m.Within text) (index : Fin maxGroups)
    (body : Expression) (bounds : Bounds) (count : Nat) :
    (repeatGroup index body bounds count m).Within text := by
  unfold repeatGroup
  split
  · refine ⟨hm.position_le, fun c hc => ?_⟩
    dsimp only at hc
    split at hc
    · rcases List.mem_cons.1 hc with rfl | hc
      · exact hm.position_le
      · exact hm.choices c hc
    · exact hm.choices c hc
  · split
    · exact hm
    · exact within_backtrack hm.choices

/-- Going on with a group is what the recursive matcher does with its iterations.

**Proof sketch.** One case for each branch of the machine. Where it tries one more iteration, the
end of the iteration becomes a goal, and going on without it becomes a choice if there have been
enough; the matcher has the first as a continuation and the second as its alternative. Where there
may be no more iterations, both go on behind the group, or go back if there have been too few. -/
theorem verdict_repeatGroup {m : Machine} (hm : m.Within text) (index : Fin maxGroups)
    (body : Expression) (bounds : Bounds) (count : Nat) :
    (repeatGroup index body bounds count m).verdict endAnchor text =
      (rounds text index bounds (body.backtrack text) count m.position hm.position_le m.captures
        fun q captures => goalsVerdict endAnchor text m.goals q q.2.2 captures).or
      (choicesVerdict endAnchor text m.choices) := by
  have hstop := verdictAt_eq endAnchor m.goals hm.position_le m.captures
  rw [rounds]
  unfold repeatGroup
  split
  · -- One more iteration: its end is a goal of the machine and a continuation of the matcher.
    simp only [Outcome.verdict, verdict, verdictAt_eq endAnchor _ hm.position_le, goalsVerdict]
    have hend : ∀ q : Ahead text m.position,
        (noProgress text m.position q.1 && decide (bounds.least ≤ count)) =
          decide (q.1 = m.position ∧ bounds.least ≤ count) := by
      intro q
      rw [noProgress_eq q, Bool.decide_and]
    simp only [hend, decide_eq_true_eq, dite_eq_ite]
    split
    · simp only [choicesVerdict, Choice.verdict, hstop, Option.or_assoc]
      rfl
    · simp only [Option.or_none]
      rfl
  · split
    · simp only [Outcome.verdict, verdict, hstop, Option.none_or]
    · simp only [Option.or_none, Option.none_or]
      exact verdict_backtrack endAnchor m.choices

/-- A step keeps all positions within the text.

**Proof sketch.** One case for each kind of goal. A run of bytes ends within the text since no more
bytes are counted than are left; every other goal leaves the position or goes back to a choice. -/
theorem within_step {m : Machine} (hm : m.Within text) : (m.step endAnchor text).Within text := by
  unfold step
  split
  · split
    · exact within_backtrack hm.choices
    · trivial
  · exact ⟨hm.position_le, hm.choices⟩
  · rename_i test bounds next goals hgoals
    have hrun := longestRun_le test bounds text m.position
    have hp := hm.position_le
    unfold remaining at hrun
    dsimp only
    split
    · exact within_backtrack hm.choices
    · refine ⟨by dsimp only; omega, fun c hc => ?_⟩
      dsimp only at hc
      split at hc
      · rcases List.mem_cons.1 hc with rfl | hc
        · show m.position + (longestRun test bounds text m.position - 1) ≤ text.size
          omega
        · exact hm.choices c hc
      · exact hm.choices c hc
  · apply within_repeatGroup
    exact ⟨hm.position_le, hm.choices⟩
  · split
    · exact within_backtrack hm.choices
    · apply within_repeatGroup
      exact ⟨hm.position_le, hm.choices⟩

/-- **A step of the machine does not change the result** of the computation that its state stands
for.

**Proof sketch.** By the next goal. A goal that fails leaves the choices, the latest of which is
taken up (`verdict_backtrack`). An expression is unfolded by one piece: a run of bytes is the first
attempt of `tryDown`, with the others as the new choice; a group goes on by
`verdict_repeatGroup`. -/
theorem verdict_step {m : Machine} (hm : m.Within text) :
    (m.step endAnchor text).verdict endAnchor text = m.verdict endAnchor text := by
  rw [verdict, verdictAt_eq endAnchor _ hm.position_le]
  unfold step
  split
  · rename_i hgoals
    simp only [hgoals, goalsVerdict, accept, Bool.and_eq_true, bne_iff_ne]
    split
    · rw [verdict_backtrack, Option.none_or]
    · rfl
  · rename_i goals hgoals
    simp only [hgoals, goalsVerdict, Expression.backtrack, Outcome.verdict, verdict,
      verdictAt_eq endAnchor _ hm.position_le]
  · rename_i test bounds next goals hgoals
    simp only [hgoals, goalsVerdict, Expression.backtrack, longestRun_eq]
    have hrun := add_cap_passing_le test bounds hm.position_le
    split
    · rw [verdict_backtrack, Option.none_or]
    · have hruns : (fun n (hn : n ≤ bounds.cap (passing test text m.position)) =>
          next.backtrack text (m.position + n) (by omega) m.captures fun q captures =>
            goalsVerdict endAnchor text goals q q.2.2 captures) =
          fun n _ =>
            verdictAt endAnchor text (.pieces next :: goals) (m.position + n) m.captures := by
        funext n hn
        exact (verdictAt_eq endAnchor (.pieces next :: goals) (by omega) m.captures).symm
      show _ = (tryDown bounds.least _ fun n hn => next.backtrack text (m.position + n) _ m.captures
        fun q captures => goalsVerdict endAnchor text goals q q.2.2 captures).or _
      rw [hruns]
      rw [tryDown_eq, Option.or_assoc]
      simp only [Outcome.verdict, verdict]
      split
      · simp only [choicesVerdict, Choice.verdict]
      · rw [Option.none_or]
  · rename_i index body bounds next goals hgoals
    rw [verdict_repeatGroup endAnchor (m := { m with goals := .pieces next :: goals })
      ⟨hm.position_le, hm.choices⟩]
    simp only [hgoals, goalsVerdict, Expression.backtrack]
    rfl
  · rename_i index body bounds count start goals hgoals
    simp only [hgoals, goalsVerdict]
    split
    · rw [verdict_backtrack, Option.none_or]
    · exact verdict_repeatGroup endAnchor
        (m := { m with
          captures := m.captures.set index (some ⟨start, m.position - start⟩), goals := goals })
        ⟨hm.position_le, hm.choices⟩ ..

/-- A run of the machine ends with what its state stands for.

**Proof sketch.** Induction on the steps of the run. A step keeps what the state stands for, and at
the end of the run the state stands for what it ends with. -/
theorem run_eq_verdict (m : Machine) (hm : m.Within text) :
    m.run endAnchor text = m.verdict endAnchor text := by
  fun_induction run endAnchor text m with
  | case1 m m' hstep ih =>
    have hwithin := within_step endAnchor hm
    have hverdict := verdict_step endAnchor hm
    rw [hstep] at hwithin hverdict
    exact (ih hwithin).trans hverdict
  | case2 m stop captures hstep =>
    have hverdict := verdict_step endAnchor hm
    rw [hstep] at hverdict
    exact hverdict
  | case3 m hstep =>
    have hverdict := verdict_step endAnchor hm
    rw [hstep] at hverdict
    exact hverdict

/-- The machine starts with its only position within the text. -/
theorem within_start (e : Expression) {p : Nat} (hp : p ≤ text.size) :
    (start e p).Within text :=
  ⟨hp, fun c hc => by simp [start] at hc⟩

/-- The machine at its start stands for the recursive matcher with nothing behind it. -/
theorem verdict_start (e : Expression) {p : Nat} (hp : p ≤ text.size) :
    (start e p).verdict endAnchor text =
      e.backtrack text p hp .empty (accept endAnchor text p) := by
  rw [verdict, start, verdictAt_eq endAnchor _ hp]
  exact Option.or_none

end Machine

end Simulation

/-- **The machine is the recursive matcher**: from every position of every text it returns the same
end and the same captures for an expression, or fails as well. -/
theorem Machine.run_start (endAnchor : Bool) (text : Array UInt8) (e : Expression) (p : Nat)
    (hp : p ≤ text.size) :
    (Machine.start e p).run endAnchor text =
      e.backtrack text p hp .empty (accept endAnchor text p) := by
  rw [run_eq_verdict endAnchor _ (within_start e hp), verdict_start endAnchor e hp]

/-- A repeated group whose body can match nothing, and a byte behind it. -/
def nestedStar : Expression :=
  .group ⟨0, by decide⟩ (.single (.literal (ascii 'a')) ⟨0, none⟩ .empty) ⟨0, none⟩
    (.single (.literal (ascii 'b')) .once .empty)

/-- On `xaab`, from the second byte on, both end behind the last one, and the group has captured
`aa`. -/
theorem run_start_nestedStar :
    let text := (Line.ofString "xaab").toArray
    ∃ h : 1 ≤ text.size,
      (Machine.start nestedStar 1).run true text =
          nestedStar.backtrack text 1 h .empty (accept true text 1) ∧
        (Machine.start nestedStar 1).run true text =
          some (4, Captures.empty.set 0 (some ⟨1, 2⟩)) :=
  ⟨by decide, Machine.run_start true _ nestedStar 1 _, by decide +kernel⟩

end LineEditor.Regex
