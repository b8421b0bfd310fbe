import LineEditor.Address.Value
import LineEditor.Buffer.Basic

set_option autoImplicit false
set_option relaxedAutoImplicit false

/-!
# The lines that a command acts on

A command that acts on one line takes the last of its addresses, one that acts on a range the last
two. What a command means without an address is its own default. Addresses count lines from 1, the
buffer counts them from 0.

## Main definitions

* `LineEditor.Addresses.target`: the line of a command.
* `LineEditor.Addresses.range`: the range of a command.
-/

namespace LineEditor

/-- The lines from number `first` to number `last` of a buffer, which must exist and be at least
one. -/
def LineBuffer.numberedRange (b : LineBuffer) (first last : Nat) : Except EditError LineRange :=
  if first = 0 ∨ last < first ∨ b.size < last then .error .invalidAddress
  else .ok ⟨first - 1, last - 1⟩

/-- A range that addresses give is not empty. -/
theorem LineBuffer.first_le_last_of_numberedRange {b : LineBuffer} {first last : Nat}
    {range : LineRange} (h : b.numberedRange first last = .ok range) :
    range.first ≤ range.last := by
  unfold numberedRange at h
  split at h
  · cases h
  · cases h
    dsimp only
    omega

/-- The lines of a range that addresses give are there. -/
theorem LineBuffer.last_lt_size_of_numberedRange {b : LineBuffer} {first last : Nat}
    {range : LineRange} (h : b.numberedRange first last = .ok range) : range.last < b.size := by
  unfold numberedRange at h
  split at h
  · cases h
  · cases h
    dsimp only
    omega

namespace Addresses

/-- The number of the line that a command acts on; `default` if no address is given. -/
def target (a : Addresses) (default : Nat) : Nat := a.second.getD default

/-- The range that a command acts on; the lines from `first` to `last` if no address is given. -/
def range (a : Addresses) (b : LineBuffer) (first last : Nat) : Except EditError LineRange :=
  match a.second with
  | .none => b.numberedRange first last
  | some second => b.numberedRange (a.first.getD second) second

/-- A range that addresses give is not empty. -/
theorem first_le_last_of_range {a : Addresses} {b : LineBuffer} {first last : Nat}
    {range : LineRange} (h : a.range b first last = .ok range) : range.first ≤ range.last := by
  unfold Addresses.range at h
  split at h
  · exact b.first_le_last_of_numberedRange h
  · exact b.first_le_last_of_numberedRange h

/-- A range that addresses give ends at a line of the buffer. -/
theorem last_lt_size_of_range {a : Addresses} {b : LineBuffer} {first last : Nat}
    {range : LineRange} (h : a.range b first last = .ok range) : range.last < b.size := by
  unfold Addresses.range at h
  split at h
  · exact b.last_lt_size_of_numberedRange h
  · exact b.last_lt_size_of_numberedRange h

end Addresses

/-- What an address sees of a buffer. -/
def LineBuffer.addressContext (b : LineBuffer) : AddressContext where
  current := b.currentNumber
  lines := b.lines
  mark letter := (b.mark? letter).map (· + 1)

end LineEditor
