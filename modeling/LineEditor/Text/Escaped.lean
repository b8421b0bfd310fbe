import LineEditor.Byte

set_option autoImplicit false
set_option relaxedAutoImplicit false

/-!
# Unambiguous rendering of a line

The listing form of a line shows every byte in printable ASCII and marks the end of the line by a
dollar sign. A backslash introduces a letter for the usual control characters, three octal digits
for any other byte that does not print, and the two bytes `\` and `$` that would be ambiguous.

## Main definitions

* `LineEditor.escapeByte`: the rendering of one byte.
* `LineEditor.escapeLine`: the rendering of a line.
-/

namespace LineEditor

/-- The digit for a number below eight. -/
def octalDigit (n : Nat) : UInt8 := ascii '0' + (n % 8).toUInt8

/-- The letter that stands after a backslash for a control character with a name of its own. -/
def controlLetter? (b : UInt8) : Option UInt8 :=
  if b = 0x07 then some (ascii 'a')
  else if b = 0x08 then some (ascii 'b')
  else if b = 0x0c then some (ascii 'f')
  else if b = ascii '\r' then some (ascii 'r')
  else if b = ascii '\t' then some (ascii 't')
  else if b = 0x0b then some (ascii 'v')
  else none

/-- The rendering of one byte in a listing. -/
def escapeByte (b : UInt8) : Line :=
  if b = ascii '\\' ∨ b = ascii '$' then [ascii '\\', b]
  else
    match controlLetter? b with
    | some letter => [ascii '\\', letter]
    | none =>
      if 0x20 ≤ b ∧ b ≤ 0x7e then [b]
      else [ascii '\\', octalDigit (b.toNat / 64), octalDigit (b.toNat / 8), octalDigit b.toNat]

/-- The rendering of a line in a listing, closed by a dollar sign. -/
def escapeLine (line : Line) : Line := line.flatMap escapeByte ++ [ascii '$']

end LineEditor
