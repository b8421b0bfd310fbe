import LineEditor.Byte

set_option autoImplicit false
set_option relaxedAutoImplicit false

/-!
# Marks

A mark is a lowercase letter that stands for a line. There is one place for each letter, which
holds the index of a line or nothing.

## Main definitions

* `LineEditor.Marks`: the places of all letters.
* `LineEditor.Marks.get?`, `LineEditor.Marks.set?`: the place of one letter.
-/

namespace LineEditor

/-- The number of letters that may be marks. -/
def letterCount : Nat := 26

/-- The index of the line that each letter marks, if it marks one. -/
abbrev Marks := Vector (Option Nat) letterCount

namespace Marks

/-- No letter marks a line. -/
def empty : Marks := Vector.replicate letterCount none

/-- The place of a letter in the alphabet; `none` for any other byte. -/
def place? (letter : UInt8) : Option (Fin letterCount) :=
  let place := (letter - ascii 'a').toNat
  if h : place < letterCount then some ⟨place, h⟩ else none

/-- The letter of a place. -/
def letter (place : Fin letterCount) : UInt8 := ascii 'a' + place.val.toUInt8

/-- The index of the line that a letter marks. -/
def get? (marks : Marks) (letter : UInt8) : Option Nat :=
  (place? letter).bind fun place => marks[place]

/-- The marks with a letter on a line; `none` if the byte is not a lowercase letter. -/
def set? (marks : Marks) (letter : UInt8) (index : Nat) : Option Marks :=
  (place? letter).map fun place => marks.set place.val (some index) place.isLt

end Marks

end LineEditor
