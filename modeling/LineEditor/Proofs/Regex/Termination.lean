import LineEditor.Regex.Machine

set_option autoImplicit false
set_option relaxedAutoImplicit false

/-!
# The machine stops

Taking up a choice brings back goals that were met before, so neither the goals nor the choices get
fewer from step to step, and the position may go back. What does get less is the cost of the state,
which counts the choices with all that they can still cause. So the rounds of the matching loop are
bounded by the cost at the start, however groups that can match nothing are nested in each other and
repeated.

## Main definitions

* `LineEditor.Regex.Machine.proceed`: a number of rounds of the matching loop.

## Main results

* `LineEditor.Regex.Machine.cost_add_le_of_proceed`: a machine that is still at work has spent one
  unit of its cost in every round.
* `LineEditor.Regex.Machine.proceed_stops`: the loop ends.
-/

namespace LineEditor.Regex

/-- The verdict of a machine that has stopped. -/
def Outcome.verdict? : Outcome → Option (Option (Nat × Captures))
  | .next _ => none
  | .accepted stop captures => some (some (stop, captures))
  | .refused => some none

namespace Machine

variable {endAnchor : Bool} {text : Array UInt8} {m m' : Machine}

/-- What at most the given number of rounds of the matching loop lead to. -/
def proceed (endAnchor : Bool) (text : Array UInt8) : (rounds : Nat) → Machine → Outcome
  | 0, m => .next m
  | rounds + 1, m =>
    match m.step endAnchor text with
    | .next m' => proceed endAnchor text rounds m'
    | .accepted stop captures => .accepted stop captures
    | .refused => .refused

/-- Even a machine without goals and choices has something to spend. -/
theorem cost_pos (m : Machine) (text : Array UInt8) : 0 < m.cost text := by
  have := goalsCost_pos text m.goals (remaining text m.position)
  unfold cost
  omega

/-- A machine that is still at work after some rounds has spent one unit of its cost in each.

**Proof sketch.** Induction on the rounds: each step spends at least one unit. -/
theorem cost_add_le_of_proceed {rounds : Nat} (h : proceed endAnchor text rounds m = .next m') :
    m'.cost text + rounds ≤ m.cost text := by
  induction rounds generalizing m with
  | zero =>
    obtain rfl := Outcome.next.inj h
    exact Nat.le_refl _
  | succ rounds ih =>
    rw [proceed] at h
    cases hstep : m.step endAnchor text with
    | next m₁ =>
      rw [hstep] at h
      have hspent := cost_lt_of_step hstep
      have hrest := ih h
      omega
    | accepted stop captures =>
      rw [hstep] at h
      cases h
    | refused =>
      rw [hstep] at h
      cases h

/-- The verdict of a machine is the one that its next step leads to. -/
theorem run_eq (endAnchor : Bool) (text : Array UInt8) (m : Machine) :
    m.run endAnchor text =
      match m.step endAnchor text with
      | .next m' => m'.run endAnchor text
      | .accepted stop captures => some (stop, captures)
      | .refused => none := by
  rw [run]
  split <;> rename_i hstep <;> rw [hstep]

/-- If the loop has not ended after some rounds, the machine is still at work, and else it has come
to its verdict.

**Proof sketch.** Induction on the rounds. A run has the same verdict as the run from the next
state. -/
theorem verdict?_proceed (endAnchor : Bool) (text : Array UInt8) (rounds : Nat) (m : Machine) :
    (∃ m', proceed endAnchor text rounds m = .next m') ∨
      (proceed endAnchor text rounds m).verdict? = some (m.run endAnchor text) := by
  induction rounds generalizing m with
  | zero => exact .inl ⟨m, rfl⟩
  | succ rounds ih =>
    rw [proceed, run_eq]
    cases m.step endAnchor text with
    | next m' => exact ih m'
    | accepted stop captures => exact .inr rfl
    | refused => exact .inr rfl

/-- **The matching loop ends** for every expression, text and position: after no more rounds than
the cost at the start the machine has come to its verdict, and it does not go on for ever.

**Proof sketch.** If the machine were still at work after as many rounds as it had cost at the
start, it would have spent all of its cost, which is never the case. An endless run would have got
there. -/
theorem proceed_stops (endAnchor : Bool) (text : Array UInt8) (e : Expression) (p : Nat) :
    (proceed endAnchor text ((start e p).cost text) (start e p)).verdict? =
        some ((start e p).run endAnchor text) ∧
      ¬ ∃ f : Nat → Machine, f 0 = start e p ∧
        ∀ n, (f n).step endAnchor text = .next (f (n + 1)) := by
  refine ⟨?_, ?_⟩
  · obtain ⟨m, hm⟩ | h := verdict?_proceed endAnchor text ((start e p).cost text) (start e p)
    · have hspent := cost_add_le_of_proceed hm
      have hpos := m.cost_pos text
      omega
    · exact h
  · rintro ⟨f, hstart, hsteps⟩
    have hspent : ∀ n, (f n).cost text + n ≤ (start e p).cost text := by
      intro n
      induction n with
      | zero => exact Nat.le_of_eq (congrArg (cost text) hstart)
      | succ n ih =>
        have hstep := cost_lt_of_step (hsteps n)
        omega
    have hlast := hspent ((start e p).cost text)
    have hpos := (f ((start e p).cost text)).cost_pos text
    omega

/-- A starred group with nothing in it, in an empty text: its first iteration takes no byte, so that
there is no second one. -/
example : let e := Expression.group ⟨0, by decide⟩ .empty ⟨0, none⟩ .empty
    (proceed false #[] 3 (start e 0)).verdict? = none ∧
      (proceed false #[] 6 (start e 0)).verdict? = some (some (0, .empty)) := by
  decide

end Machine

end LineEditor.Regex
