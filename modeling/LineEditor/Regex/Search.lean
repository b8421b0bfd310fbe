import LineEditor.Regex.Machine
import LineEditor.Regex.Parser

set_option autoImplicit false
set_option relaxedAutoImplicit false

/-!
# Searching a text

The match of a pattern in a text is the one that starts first; among those that start there, it is
the one that the matching machine finds first.

## Main definitions

* `LineEditor.Regex`: a pattern together with its program.
* `LineEditor.Regex.find?`: the first match at or after a position.
* `LineEditor.Regex.matchesLine`: whether a line has a match.
-/

namespace LineEditor

namespace Regex

/-- The match that starts at a given position, if there is one. -/
def Program.matchAt? (p : Program) (text : Array UInt8) (start : Nat) : Option Match :=
  ((Machine.start p.body start).run p.endAnchor text).map fun (stop, captures) =>
    ⟨⟨start, stop - start⟩, captures, p.groupCount⟩

/-- Whether the byte at a position can begin a match, as far as the first piece tells. -/
def Program.mayStartAt (p : Program) (text : Array UInt8) (start : Nat) : Bool :=
  match p.body.firstByte? with
  | none => true
  | some b => text[start]? == some b

/-- The first match that starts at one of the given number of positions from `start` on. -/
def Program.firstMatch? (p : Program) (text : Array UInt8) (start : Nat) :
    (positions : Nat) → Option Match
  | 0 => none
  | positions + 1 =>
    match if p.mayStartAt text start then p.matchAt? text start else none with
    | some m => some m
    | none => p.firstMatch? text (start + 1) positions

/-- The first match at or after a position. A pattern with a start anchor matches only at the
start of the text. -/
def Program.search (p : Program) (text : Array UInt8) (start : Nat) : Option Match :=
  if text.size < start then none
  else if p.startAnchor then
    if 0 < start then none else p.firstMatch? text 0 1
  else p.firstMatch? text start (text.size + 1 - start)

/-- Of several positions the first match begins at one of them, none of which is before the first.

**Proof sketch.** Induction on the number of positions. A match at the first one begins there. -/
theorem Program.le_start_of_firstMatch? {p : Program} {text : Array UInt8} {start positions : Nat}
    {m : Match} (h : p.firstMatch? text start positions = some m) : start ≤ m.start := by
  induction positions generalizing start with
  | zero => simp [firstMatch?] at h
  | succ positions ih =>
    unfold firstMatch? at h
    split at h
    · rename_i m' hm
      obtain rfl := Option.some.inj h
      split at hm
      · simp only [matchAt?, Option.map_eq_some_iff] at hm
        obtain ⟨_, _, rfl⟩ := hm
        exact Nat.le_refl _
      · simp at hm
    · exact Nat.le_trans (Nat.le_succ _) (ih h)

/-- A match is found at or after the position where the search starts.

**Proof sketch.** All positions that a search tries are at or after its start, with an anchor only
the start of the text. -/
theorem Program.le_start_of_search {p : Program} {text : Array UInt8} {start : Nat} {m : Match}
    (h : p.search text start = some m) : start ≤ m.start := by
  unfold search at h
  split at h
  · simp at h
  · split at h
    · split at h
      · simp at h
      · have := le_start_of_firstMatch? h
        omega
    · exact le_start_of_firstMatch? h

end Regex

/-- A pattern that has been compiled. -/
structure Regex where
  /-- The pattern as it was written. -/
  pattern : Line
  /-- What the pattern means. -/
  program : Regex.Program
  deriving Repr, DecidableEq

namespace Regex

/-- Compiles a pattern. -/
def ofPattern (pattern : Line) : Except PatternError Regex :=
  match Program.ofPattern pattern with
  | .error e => .error e
  | .ok program => .ok ⟨pattern, program⟩

/-- The program of a pattern is the one it is compiled to. -/
theorem program_of_ofPattern {pattern : Line} {r : Regex} (h : Regex.ofPattern pattern = .ok r) :
    Program.ofPattern pattern = .ok r.program := by
  unfold Regex.ofPattern at h
  split at h
  · cases h
  · rename_i p hp
    obtain rfl := Except.ok.inj h
    exact hp

/-- The number of capture groups. -/
def groupCount (r : Regex) : Nat := r.program.groupCount

/-- The first match at or after a position of a text. -/
def find? (r : Regex) (text : Array UInt8) (start : Nat) : Option Match :=
  r.program.search text start

/-- Whether a line has a match. -/
def matchesLine (r : Regex) (line : Line) : Bool := (r.find? line.toArray 0).isSome

end Regex

end LineEditor
