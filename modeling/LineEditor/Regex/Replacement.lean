import LineEditor.Regex.Search

set_option autoImplicit false
set_option relaxedAutoImplicit false

/-!
# Replacing matches

A replacement is a text in which `\1` to `\9` stand for what a group captured and a backslash
makes any other byte stand for itself. The matches that may be replaced are found from left to
right, each search starting where the last match ended, or one byte further if that match was
empty; an empty match right after a kept match is not kept.

## Main definitions

* `LineEditor.Regex.Occurrence`: which of the matches are replaced.
* `LineEditor.Regex.render`: the text that replaces a match.
* `LineEditor.Regex.scan`: the walk over the matches of a text.
* `LineEditor.Regex.replace?`: a text with its selected matches replaced.
-/

namespace LineEditor.Regex

/-- Which matches of a line are replaced. -/
inductive Occurrence where
  /-- The first one. -/
  | first
  /-- The one of a given number, counted from 1. -/
  | nth (n : Nat)
  /-- Every one. -/
  | all
  deriving Repr, DecidableEq

/-! ## Replacement texts -/

/-- A part of a replacement. -/
inductive Part where
  /-- A byte that stands for itself. -/
  | literal (b : UInt8)
  /-- What a group captured. -/
  | group (n : Nat)
  deriving Repr, DecidableEq

/-- The part that an escaped byte stands for. -/
def Part.ofEscaped (b : UInt8) : Part :=
  if ascii '1' ≤ b ∧ b ≤ ascii '9' then .group (digitValue b) else .literal b

/-- The parts of a replacement as it is written. A lone backslash at its end stands for itself. -/
def parts : Line → List Part
  | [] => []
  | [b] => [.literal b]
  | b :: c :: rest =>
    if b = ascii '\\' then .ofEscaped c :: parts rest else .literal b :: parts (c :: rest)

/-- The text of one part for a match. A group that took no part is empty. -/
def Part.text (text : Array UInt8) (m : Match) : Part → Line
  | literal b => [b]
  | group n =>
    match m.group? n with
    | none => []
    | some span => span.slice text

/-- The text that replaces a match. -/
def render (text : Array UInt8) (m : Match) (replacement : Line) : Line :=
  (parts replacement).flatMap (Part.text text m)

/-! ## Replacing the first match -/

/-- A text with its first match replaced, or `none` if it has none. -/
def replaceFirst? (r : Regex) (text : Array UInt8) (replacement : Line) : Option Line :=
  match r.find? text 0 with
  | none => none
  | some m =>
    some (text.extract 0 m.start ++ (render text m replacement).toArray ++
      text.extract m.stop text.size).toList

/-! ## Scanning for matches -/

/-- Whether the match of a given number is replaced. -/
def Occurrence.selects : Occurrence → Nat → Bool
  | first, n => n == 1
  | nth k, n => n == k
  | all, _ => true

/-- The position where the search for the next match starts. -/
def Match.next (m : Match) : Nat := if m.isEmpty then m.stop + 1 else m.stop

/-- After a match the search goes on behind its start, also if the match is empty. -/
theorem Match.start_lt_next (m : Match) : m.start < m.next := by
  unfold next isEmpty stop start Span.stop
  split
  · omega
  · rename_i h
    rw [beq_iff_eq] at h
    omega

/-- How far a scan has got. -/
structure Progress where
  /-- What has been written of the new text. -/
  written : Array UInt8
  /-- The position up to which the text has been dealt with. -/
  copied : Nat
  /-- How many matches have counted. -/
  seen : Nat
  /-- Where the last match that counted ended. -/
  lastStop : Option Nat
  /-- Whether a match has been replaced. -/
  replaced : Bool

namespace Progress

/-- Nothing has been looked at. -/
def start : Progress := ⟨#[], 0, 0, none, false⟩

/-- Deals with the next match. It does not count if it is empty and starts where the last one
that counted ended. -/
def take (text : Array UInt8) (replacement : Line) (occurrence : Occurrence) (m : Match) :
    Progress → Progress
  | ⟨written, copied, seen, lastStop, replaced⟩ =>
    if m.isEmpty ∧ lastStop = some m.start then ⟨written, copied, seen, lastStop, replaced⟩
    else if occurrence.selects (seen + 1) then
      ⟨written ++ text.extract copied m.start ++ (render text m replacement).toArray, m.stop,
        seen + 1, some m.stop, true⟩
    else ⟨written, copied, seen + 1, some m.stop, replaced⟩

/-- The new text, or `none` if no match has been replaced. -/
def finish? (text : Array UInt8) (p : Progress) : Option Line :=
  if p.replaced then some (p.written ++ text.extract p.copied text.size).toList else none

end Progress

/-- Deals with the matches from a position on. Where one match is asked for, the scan ends with
it. -/
def scan (r : Regex) (text : Array UInt8) (replacement : Line) (occurrence : Occurrence)
    (p : Progress) (position : Nat) : Progress :=
  match h : r.find? text position with
  | none => p
  | some m =>
    let p := p.take text replacement occurrence m
    if p.replaced ∧ occurrence ≠ .all then p
    else if text.size < m.next then p
    else
      have := Program.le_start_of_search h
      have := m.start_lt_next
      scan r text replacement occurrence p m.next
termination_by text.size + 1 - position

/-- A line with its selected matches replaced, or `none` if it has none. -/
def replace? (r : Regex) (line : Line) (replacement : Line) (occurrence : Occurrence) :
    Option Line :=
  let text := line.toArray
  if occurrence = .first then r.replaceFirst? text replacement
  else (r.scan text replacement occurrence .start 0).finish? text

/-- A text with the first match of a pattern replaced; the text itself if it has no match. -/
def substitute (text pattern replacement : Line) : Except PatternError Line :=
  match Regex.ofPattern pattern with
  | .error e => .error e
  | .ok r => .ok ((r.replace? text replacement .first).getD text)

end LineEditor.Regex
