import LineEditor.Regex.Match

set_option autoImplicit false
set_option relaxedAutoImplicit false

/-!
# The matching machine

A machine with two stacks looks for a match of an expression that starts at a given position. The
*goals* are what must still match from the current position on; the *choices* are the points where
fewer repetitions could still be tried. A repeated byte takes its longest run first and gives back
one byte at a time; a repeated group is entered once more as long as its bounds allow it, and
stopping is the second choice. When a goal fails, the latest choice is taken up again with the
goals and captures it was made with.

An iteration of a group that makes no progress is refused once the group has been matched often
enough. This is what makes the machine stop on every expression and every text: `goalsCost` bounds
the steps that a stack of goals can still cause, backtracking included, and each step lowers the
cost of the machine's state.

## Main definitions

* `LineEditor.Regex.Machine`: a state of the machine.
* `LineEditor.Regex.Machine.step`: one step.
* `LineEditor.Regex.Machine.run`: the machine's verdict.
* `LineEditor.Regex.Machine.cost`: a bound on the number of steps.

## Main results

* `LineEditor.Regex.Machine.cost_lt_of_step`: every step lowers the cost.
-/

namespace LineEditor.Regex

/-- Something that must match from the current position on. -/
inductive Goal where
  /-- The pieces of an expression, in order. -/
  | pieces (e : Expression)
  /-- More repetitions of a group, `count` of which are complete, up to one that began at `start`
  and has just matched the group's body. -/
  | again (index : Fin maxGroups) (body : Expression) (bounds : Bounds) (count start : Nat)
  deriving Repr, DecidableEq

/-- How to go on after taking up a choice. -/
inductive Resumption where
  /-- Let the run of single bytes that began at `start` be only `taken` long, and keep the choice
  of shorter ones down to `least`. -/
  | shorter (start taken least : Nat)
  /-- Stop the repetitions of a group at `position`. -/
  | stop (position : Nat)
  deriving Repr, DecidableEq

/-- A point to come back to: the goals and the captures there, and how to go on. -/
structure Choice where
  /-- The goals to be met. -/
  goals : List Goal
  /-- The captures at that point. -/
  captures : Captures
  /-- How to go on. -/
  resumption : Resumption
  deriving Repr, DecidableEq

/-- A state of the machine. -/
structure Machine where
  /-- The current position in the text. -/
  position : Nat
  /-- The captures made so far. -/
  captures : Captures
  /-- What must still match, the next goal first. -/
  goals : List Goal
  /-- What else could be tried, the latest choice first. -/
  choices : List Choice
  deriving Repr, DecidableEq

/-- What a step of the machine leads to. -/
inductive Outcome where
  /-- The machine goes on. -/
  | next (m : Machine)
  /-- Everything matched, up to `stop`. -/
  | accepted (stop : Nat) (captures : Captures)
  /-- There is nothing left to try. -/
  | refused
  deriving Repr, DecidableEq

/-- The number of bytes from a position to the end of the text. -/
def remaining (text : Array UInt8) (position : Nat) : Nat := text.size - position

/-- Counts on from `taken` the bytes after `start` that pass a test, up to `room` more of them. -/
def countRun (test : ByteTest) (text : Array UInt8) (start : Nat) : (room taken : Nat) → Nat
  | 0, taken => taken
  | room + 1, taken =>
    match text[start + taken]? with
    | none => taken
    | some b => if test.accepts b then countRun test text start room (taken + 1) else taken

/-- The length of the longest run of bytes from a position on that pass a test, within bounds. -/
def longestRun (test : ByteTest) (bounds : Bounds) (text : Array UInt8) (position : Nat) : Nat :=
  countRun test text position (bounds.cap (remaining text position)) 0

/-- Whether the text from `position` on is no shorter than the text from `start` on. -/
def noProgress (text : Array UInt8) (start position : Nat) : Bool :=
  remaining text start ≤ remaining text position

namespace Machine

/-- Takes up the latest choice. -/
def backtrack : List Choice → Outcome
  | [] => .refused
  | ⟨goals, captures, .stop position⟩ :: choices => .next ⟨position, captures, goals, choices⟩
  | ⟨goals, captures, .shorter start taken least⟩ :: choices =>
    .next ⟨start + taken, captures, goals,
      if least < taken then ⟨goals, captures, .shorter start (taken - 1) least⟩ :: choices
      else choices⟩

/-- Goes on with a group that has been repeated `count` times: once more if its bounds allow it,
with stopping as the second choice if it has been repeated often enough. -/
def repeatGroup (index : Fin maxGroups) (body : Expression) (bounds : Bounds) (count : Nat)
    (m : Machine) : Outcome :=
  if bounds.allowsMore count then
    .next { m with
      goals := .pieces body :: .again index body bounds count m.position :: m.goals
      choices :=
        if bounds.least ≤ count then ⟨m.goals, m.captures, .stop m.position⟩ :: m.choices
        else m.choices }
  else if bounds.least ≤ count then .next m
  else backtrack m.choices

/-- One step of the machine: the next goal is met, replaced by smaller ones, or given up. With an
end anchor the machine accepts at the end of the text only. -/
def step (endAnchor : Bool) (text : Array UInt8) (m : Machine) : Outcome :=
  match m.goals with
  | [] =>
    if endAnchor && m.position != text.size then backtrack m.choices
    else .accepted m.position m.captures
  | .pieces .empty :: goals => .next { m with goals := goals }
  | .pieces (.single test bounds next) :: goals =>
    let taken := longestRun test bounds text m.position
    if taken < bounds.least then backtrack m.choices
    else
      .next { m with
        position := m.position + taken
        goals := .pieces next :: goals
        choices :=
          if bounds.least < taken then
            ⟨.pieces next :: goals, m.captures,
              .shorter m.position (taken - 1) bounds.least⟩ :: m.choices
          else m.choices }
  | .pieces (.group index body bounds next) :: goals =>
    repeatGroup index body bounds 0 { m with goals := .pieces next :: goals }
  | .again index body bounds count start :: goals =>
    if noProgress text start m.position && bounds.least ≤ count then backtrack m.choices
    else
      repeatGroup index body bounds (count + 1)
        { m with
          captures := m.captures.set index (some ⟨start, m.position - start⟩)
          goals := goals }

end Machine

/-! ## The cost of a state -/

/-- The sum of a function over `0` to `n`. -/
def sumUpTo (f : Nat → Nat) : Nat → Nat
  | 0 => f 0
  | n + 1 => sumUpTo f n + f (n + 1)

/-- A bound on the steps caused by a group that can still be repeated `n` times with `r` bytes
left, if one iteration costs `body` and what follows the group costs `after`. -/
def roundsCost (body : (Nat → Nat) → Nat → Nat) (after : Nat → Nat) : Nat → Nat → Nat
  | 0, r => 3 + 2 * after r + body (fun _ => 1) r
  | n + 1, r => 3 + 2 * after r + body (fun r' => 1 + roundsCost body after n r') r

/-- A bound on the number of iterations that a group can still begin after `count` of them with
`r` bytes left: those it owes, and one for each byte. -/
def iterationBudget (bounds : Bounds) (count r : Nat) : Nat := (bounds.least - count) + r

/-- A bound on the steps caused by an expression with `r` bytes left, if what follows it costs
`after`. -/
def Expression.cost : Expression → (after : Nat → Nat) → (r : Nat) → Nat
  | .empty, after, r => 1 + after r
  | .single _ _ next, after, r => 1 + sumUpTo (fun j => 1 + next.cost after j) r
  | .group _ body bounds next, after, r =>
    1 + roundsCost body.cost (next.cost after) (iterationBudget bounds 0 r) r

/-- A bound on the steps caused by a stack of goals with `r` bytes left. -/
def goalsCost (text : Array UInt8) : List Goal → Nat → Nat
  | [], _ => 1
  | .pieces e :: goals, r => e.cost (goalsCost text goals) r
  | .again _ body bounds count start :: goals, r =>
    1 + if remaining text start ≤ r ∧ bounds.least ≤ count then 0
      else roundsCost body.cost (goalsCost text goals) (iterationBudget bounds (count + 1) r) r

/-- A bound on the steps caused by trying runs of `taken` bytes from `start` and shorter ones. -/
def shorterCost (text : Array UInt8) (after : Nat → Nat) (start least : Nat) : Nat → Nat
  | 0 => 1 + after (remaining text start)
  | taken + 1 =>
    1 + after (remaining text (start + (taken + 1))) +
      if least < taken + 1 then shorterCost text after start least taken else 0

/-- A bound on the steps caused by taking up a choice. -/
def Choice.cost (text : Array UInt8) (c : Choice) : Nat :=
  match c.resumption with
  | .shorter start taken least => shorterCost text (goalsCost text c.goals) start least taken
  | .stop position => 1 + goalsCost text c.goals (remaining text position)

/-- A bound on the steps caused by a stack of choices. -/
def choicesCost (text : Array UInt8) : List Choice → Nat
  | [] => 0
  | c :: choices => c.cost text + choicesCost text choices

/-- A bound on the number of steps that the machine can still make. -/
def Machine.cost (text : Array UInt8) (m : Machine) : Nat :=
  goalsCost text m.goals (remaining text m.position) + choicesCost text m.choices

/-- A sum grows with its terms. -/
theorem sumUpTo_le {f g : Nat → Nat} {n : Nat} (h : ∀ j ≤ n, f j ≤ g j) :
    sumUpTo f n ≤ sumUpTo g n := by
  induction n with
  | zero => exact h 0 (Nat.le_refl _)
  | succ n ih =>
    have := ih fun j hj => h j (by omega)
    have := h (n + 1) (Nat.le_refl _)
    simp only [sumUpTo]; omega

/-- The cost of the iterations of a group grows with the cost of what follows them, if that of the
body does.

**Proof sketch.** Induction on the number of iterations that are still possible. An iteration is the
body followed by the remaining ones, which the induction hypothesis bounds. -/
theorem roundsCost_le {body : (Nat → Nat) → Nat → Nat} {f g : Nat → Nat}
    (hbody : ∀ (k l : Nat → Nat) (r : Nat), (∀ j ≤ r, k j ≤ l j) → body k r ≤ body l r)
    (n : Nat) {r : Nat} (h : ∀ j ≤ r, f j ≤ g j) :
    roundsCost body f n r ≤ roundsCost body g n r := by
  induction n generalizing r with
  | zero =>
    have := h r (Nat.le_refl _)
    simp only [roundsCost]; omega
  | succ n ih =>
    have h₁ := h r (Nat.le_refl _)
    have h₂ := hbody (fun j => 1 + roundsCost body f n j) (fun j => 1 + roundsCost body g n j) r
      fun j hj => by
        have := ih (r := j) fun i hi => h i (by omega)
        omega
    simp only [roundsCost]; omega

/-- The cost of an expression grows with the cost of what follows it.

**Proof sketch.** Induction on the expression. A run is a sum over the positions where it may end
(`sumUpTo_le`), and a group is bounded by its iterations (`roundsCost_le`). -/
theorem Expression.cost_le (e : Expression) (f g : Nat → Nat) (r : Nat)
    (h : ∀ j ≤ r, f j ≤ g j) : e.cost f r ≤ e.cost g r := by
  induction e generalizing f g r with
  | empty =>
    have := h r (Nat.le_refl _)
    simp only [Expression.cost]; omega
  | single test bounds next ih =>
    have := sumUpTo_le (f := fun j => 1 + next.cost f j) (g := fun j => 1 + next.cost g j)
      (n := r) fun j hj => by
        have := ih f g j fun i hi => h i (by omega)
        omega
    simp only [Expression.cost]; omega
  | group index body bounds next ihb ihn =>
    have := @roundsCost_le body.cost (next.cost f) (next.cost g) ihb
      (iterationBudget bounds 0 r) r fun j hj => ihn f g j fun i hi => h i (by omega)
    simp only [Expression.cost]; omega

/-- A group that can be repeated more often costs more.

**Proof sketch.** It is enough to allow one iteration more, which is shown by induction on their
number: one more means that behind the last body there is an iteration in place of nothing, and
`Expression.cost_le` compares what follows. -/
theorem roundsCost_mono (body : Expression) (after : Nat → Nat) {n m : Nat} (h : n ≤ m) (r : Nat) :
    roundsCost body.cost after n r ≤ roundsCost body.cost after m r := by
  have step : ∀ n r, roundsCost body.cost after n r ≤ roundsCost body.cost after (n + 1) r := by
    intro n
    induction n with
    | zero =>
      intro r
      have := body.cost_le (fun _ => 1) (fun j => 1 + roundsCost body.cost after 0 j) r
        fun j _ => by omega
      simp only [roundsCost] at *; omega
    | succ n ih =>
      intro r
      have := body.cost_le (fun j => 1 + roundsCost body.cost after n j)
        (fun j => 1 + roundsCost body.cost after (n + 1) j) r fun j _ => by
          have := ih j
          omega
      rw [roundsCost, roundsCost]; omega
  induction h with
  | refl => exact Nat.le_refl _
  | step _ ih => exact Nat.le_trans ih (step _ r)

/-- Whatever is still to be matched costs something. -/
theorem goalsCost_pos (text : Array UInt8) (goals : List Goal) (r : Nat) :
    0 < goalsCost text goals r := by
  cases goals with
  | nil => simp [goalsCost]
  | cons g goals =>
    cases g with
    | pieces e => cases e <;> simp only [goalsCost, Expression.cost] <;> omega
    | again => simp only [goalsCost]; omega

/-- To match the pieces of an expression costs what the expression costs before the other goals. -/
theorem goalsCost_pieces (text : Array UInt8) (e : Expression) (goals : List Goal) :
    goalsCost text (.pieces e :: goals) = e.cost (goalsCost text goals) := by
  funext r; simp only [goalsCost]

/-- A run does not take more than there is room for, beyond what was taken before.

**Proof sketch.** Induction along the run. -/
theorem countRun_le (test : ByteTest) (text : Array UInt8) (start room taken : Nat) :
    countRun test text start room taken ≤ taken + room := by
  fun_induction countRun test text start room taken <;> omega

/-- The most that bounds allow is cut off at the room that is left. -/
theorem Bounds.cap_le (bounds : Bounds) (room : Nat) : bounds.cap room ≤ room := by
  unfold Bounds.cap
  split
  · exact Nat.le_refl _
  · exact Nat.min_le_right ..

/-- A run does not go past the end of the text. -/
theorem longestRun_le (test : ByteTest) (bounds : Bounds) (text : Array UInt8) (position : Nat) :
    longestRun test bounds text position ≤ remaining text position := by
  have h₁ := countRun_le test text position (bounds.cap (remaining text position)) 0
  have h₂ := bounds.cap_le (remaining text position)
  unfold longestRun
  omega

/-- Trying a run and all shorter ones costs no more than going on from every position that is
left.

**Proof sketch.** Induction on the length of the run. The sum over all positions that are left is
taken apart at the position where the run ends; its larger terms pay for the run itself, and the
induction hypothesis for the shorter ones. -/
theorem shorterCost_le (text : Array UInt8) (after : Nat → Nat) (start least : Nat) {taken : Nat}
    (h : taken ≤ remaining text start) :
    shorterCost text after start least taken +
        (if taken < remaining text start then
          sumUpTo (fun j => 1 + after j) (remaining text start - taken - 1) else 0) ≤
      sumUpTo (fun j => 1 + after j) (remaining text start) := by
  induction taken with
  | zero =>
    cases hr : remaining text start with
    | zero => simp [shorterCost, sumUpTo, hr]
    | succ r => simp [shorterCost, sumUpTo, hr]; omega
  | succ t ih =>
    have ih := ih (by omega)
    rw [if_pos (show t < remaining text start by omega)] at ih
    have hrem : remaining text (start + (t + 1)) = remaining text start - t - 1 := by
      unfold remaining; omega
    have hle : (if least < t + 1 then shorterCost text after start least t else 0) ≤
        shorterCost text after start least t := by
      split
      · exact Nat.le_refl _
      · exact Nat.zero_le _
    simp only [shorterCost, hrem]
    generalize (if least < t + 1 then shorterCost text after start least t else 0) = x at *
    split
    · obtain ⟨d, hd⟩ : ∃ d, remaining text start - t - 1 = d + 1 :=
        ⟨remaining text start - t - 2, by omega⟩
      have hd' : remaining text start - (t + 1) - 1 = d := by omega
      rw [hd, sumUpTo] at ih
      rw [hd, hd']
      omega
    · have hd : remaining text start - t - 1 = 0 := by omega
      rw [hd, sumUpTo] at ih
      rw [hd]
      omega

namespace Machine

/-- Taking up a choice lowers the cost.

**Proof sketch.** A choice to stop only goes on with its goals. One to take less goes on from an
earlier end and leaves a choice behind only if it can still be shortened, which is what its cost
counts. -/
theorem cost_lt_of_backtrack {text : Array UInt8} {choices : List Choice} {m : Machine}
    (h : backtrack choices = .next m) : m.cost text < choicesCost text choices := by
  unfold backtrack at h
  split at h
  · simp at h
  · obtain rfl := Outcome.next.inj h
    simp only [cost, choicesCost, Choice.cost]; omega
  · obtain rfl := Outcome.next.inj h
    rename_i goals captures start taken least choices
    cases taken with
    | zero =>
      simp only [cost, choicesCost, Choice.cost, shorterCost, Nat.not_lt_zero, if_false,
        Nat.add_zero]
      omega
    | succ t =>
      simp only [cost, choicesCost, Choice.cost, shorterCost]
      split
      · simp only [choicesCost, Choice.cost, Nat.add_sub_cancel]; omega
      · omega

/-- Going on with a group costs less than all its iterations together.

**Proof sketch.** The costs of the iterations are counted from those that are still possible. If
another one is begun, its body and the goal to go on with the group afterwards cost no more than one
of them (`Expression.cost_le`, `roundsCost_mono`), and the choice to stop here is paid for by the
other part. If not, either the goals behind the group are next or a choice is taken up. -/
theorem cost_lt_of_repeatGroup {text : Array UInt8} {index : Fin maxGroups} {body : Expression}
    {bounds : Bounds} {count : Nat} {m m' : Machine}
    (h : repeatGroup index body bounds count m = .next m') :
    m'.cost text <
      roundsCost body.cost (goalsCost text m.goals)
          (iterationBudget bounds count (remaining text m.position)) (remaining text m.position) +
        choicesCost text m.choices := by
  have hbase : ∀ n r, 3 + 2 * goalsCost text m.goals r ≤
      roundsCost body.cost (goalsCost text m.goals) n r := by
    intro n r
    cases n <;> simp only [roundsCost] <;> omega
  have hb := hbase (iterationBudget bounds count (remaining text m.position))
    (remaining text m.position)
  unfold repeatGroup at h
  split at h
  · obtain rfl := Outcome.next.inj h
    have hbody :
        body.cost
            (goalsCost text (.again index body bounds count m.position :: m.goals))
            (remaining text m.position) +
              (2 + 2 * goalsCost text m.goals (remaining text m.position)) <
          roundsCost body.cost (goalsCost text m.goals)
            (iterationBudget bounds count (remaining text m.position))
            (remaining text m.position) := by
      cases hn : iterationBudget bounds count (remaining text m.position) with
      | zero =>
        have := body.cost_le
          (goalsCost text (.again index body bounds count m.position :: m.goals)) (fun _ => 1)
          (remaining text m.position) fun j hj => by
            unfold iterationBudget at hn
            simp only [goalsCost]
            split <;> omega
        simp only [roundsCost]; omega
      | succ n =>
        have := body.cost_le
          (goalsCost text (.again index body bounds count m.position :: m.goals))
          (fun j => 1 + roundsCost body.cost (goalsCost text m.goals) n j)
          (remaining text m.position) fun j hj => by
            simp only [goalsCost]
            split
            · omega
            · have := roundsCost_mono body (goalsCost text m.goals)
                (n := iterationBudget bounds (count + 1) j) (m := n)
                (by unfold iterationBudget at *; omega) j
              omega
        simp only [roundsCost]; omega
    simp only [cost, goalsCost] at *
    split
    · simp only [choicesCost, Choice.cost]; omega
    · omega
  · split at h
    · obtain rfl := Outcome.next.inj h
      simp only [cost]; omega
    · have := @cost_lt_of_backtrack text _ _ h
      omega

/-- Every step lowers the cost of the state.

**Proof sketch.** One case for each kind of goal. A run and its shorter alternatives are bounded by
`shorterCost_le`, groups by `cost_lt_of_repeatGroup`, and whatever fails takes up a choice, by
`cost_lt_of_backtrack`. -/
theorem cost_lt_of_step {endAnchor : Bool} {text : Array UInt8} {m m' : Machine}
    (h : m.step endAnchor text = .next m') : m'.cost text < m.cost text := by
  have hpos := goalsCost_pos text m.goals (remaining text m.position)
  have hback : ∀ {m' : Machine}, backtrack m.choices = .next m' → m'.cost text < m.cost text := by
    intro m' h
    have := @cost_lt_of_backtrack text _ _ h
    simp only [cost] at *; omega
  unfold step at h
  split at h
  · split at h
    · exact hback h
    · simp at h
  · rename_i goals hg
    obtain rfl := Outcome.next.inj h
    simp only [cost, hg, goalsCost, Expression.cost]; omega
  · rename_i test bounds next goals hg
    simp only at h
    split at h
    · exact hback h
    · obtain rfl := Outcome.next.inj h
      have hrun := longestRun_le test bounds text m.position
      generalize longestRun test bounds text m.position = taken at *
      have hs := shorterCost_le text (next.cost (goalsCost text goals)) m.position bounds.least hrun
      simp only [cost, hg, goalsCost_pieces, Expression.cost]
      cases taken with
      | zero =>
        simp only [shorterCost, Nat.add_zero, Nat.not_lt_zero, if_false] at *
        omega
      | succ t =>
        simp only [shorterCost] at hs
        split
        · rename_i hlt
          rw [if_pos hlt] at hs
          simp only [choicesCost, Choice.cost, Nat.add_sub_cancel, goalsCost_pieces]
          omega
        · omega
  · rename_i index body bounds next goals hg
    have := @cost_lt_of_repeatGroup text _ _ _ _ _ _ h
    simp only [goalsCost_pieces] at this
    simp only [cost, hg, goalsCost_pieces, Expression.cost] at *
    omega
  · rename_i index body bounds count start goals hg
    split at h
    · exact hback h
    · rename_i hp
      have := @cost_lt_of_repeatGroup text _ _ _ _ _ _ h
      simp only [noProgress, Bool.and_eq_true, decide_eq_true_eq] at hp
      simp only at this
      have hgoal : m.cost text = 1 +
          roundsCost body.cost (goalsCost text goals)
            (iterationBudget bounds (count + 1) (remaining text m.position))
            (remaining text m.position) + choicesCost text m.choices := by
        simp only [cost, hg, goalsCost]
        rw [if_neg hp]
      omega

/-! ## Running the machine -/

/-- Runs the machine until it accepts or refuses. -/
def run (endAnchor : Bool) (text : Array UInt8) (m : Machine) : Option (Nat × Captures) :=
  match _h : m.step endAnchor text with
  | .next m' => run endAnchor text m'
  | .accepted stop captures => some (stop, captures)
  | .refused => none
termination_by m.cost text
decreasing_by exact cost_lt_of_step _h

/-- The machine that is about to match an expression from a position on. -/
def start (e : Expression) (position : Nat) : Machine :=
  ⟨position, .empty, [.pieces e], []⟩

end Machine

end LineEditor.Regex
