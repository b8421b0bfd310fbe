import LineEditor.Regex.Syntax

set_option autoImplicit false
set_option relaxedAutoImplicit false

/-!
# Matches

## Main definitions

* `LineEditor.Regex.Span`: a part of a text.
* `LineEditor.Regex.Captures`: what the groups of a pattern captured.
* `LineEditor.Regex.Match`: a match of a pattern in a text.
-/

namespace LineEditor.Regex

/-- A part of a text: the position where it starts and its length. -/
structure Span where
  /-- The position of the first byte. -/
  start : Nat
  /-- The number of bytes. -/
  length : Nat
  deriving Repr, DecidableEq

/-- The position after the last byte of a part. -/
def Span.stop (s : Span) : Nat := s.start + s.length

/-- The bytes of a part of a text. -/
def Span.slice (s : Span) (text : Array UInt8) : Line := (text.extract s.start s.stop).toList

/-- What each group captured last; `none` for a group that took no part. -/
abbrev Captures := Vector (Option Span) maxGroups

/-- No group has taken part. -/
def Captures.empty : Captures := Vector.replicate maxGroups none

/-- A match of a pattern in a text. -/
structure Match where
  /-- The part of the text that matched. -/
  span : Span
  /-- What the groups captured. -/
  captures : Captures
  /-- The number of groups of the pattern. -/
  groupCount : Nat
  deriving Repr, DecidableEq

namespace Match

/-- The position of the first byte. -/
def start (m : Match) : Nat := m.span.start

/-- The position after the last byte. -/
def stop (m : Match) : Nat := m.span.stop

/-- Whether the match is of the empty text. -/
def isEmpty (m : Match) : Bool := m.span.length == 0

/-- What the group of a number from 1 on captured. -/
def group? (m : Match) (n : Nat) : Option Span :=
  if n = 0 then none else (m.captures[n - 1]?).join

/-- What each group of the pattern captured, in the order of their numbers. -/
def groups (m : Match) : List (Option Span) := m.captures.toList.take m.groupCount

end Match

end LineEditor.Regex
