import LineEditor.Text.Escaped

set_option autoImplicit false
set_option relaxedAutoImplicit false

/-!
# Printed lines

A line is printed as it is, after its number, or in the unambiguous form of a listing. It is
written piece by piece.

## Main definitions

* `LineEditor.PrintMode`: the forms.
* `LineEditor.PrintMode.pieces`: a line in one of them.
-/

namespace LineEditor

/-- How a line is printed. -/
inductive PrintMode where
  /-- As it is. -/
  | plain
  /-- After its number and a tab. -/
  | numbered
  /-- In the unambiguous form of a listing. -/
  | listing
  deriving Repr, DecidableEq

/-- The print mode that a letter stands for. -/
def PrintMode.ofByte? (b : UInt8) : Option PrintMode :=
  if b = ascii 'p' then some .plain
  else if b = ascii 'n' then some .numbered
  else if b = ascii 'l' then some .listing
  else none

/-- A line in its printed form, without the newline, in the pieces that it is written in. Lines are
numbered from 1. -/
def PrintMode.pieces (mode : PrintMode) (number : Nat) (line : Line) : List Line :=
  match mode with
  | plain => [line]
  | numbered => [decimal number, [ascii '\t'], line]
  | listing => [escapeLine line]

end LineEditor
