set_option autoImplicit false
set_option relaxedAutoImplicit false

/-!
# Bytes and lines

A text is a list of bytes, and a line is a text without its newline. Nothing in the editor
assumes an encoding: the classes below are those of ASCII, and every other byte is an ordinary
member of a line.

## Main definitions

* `LineEditor.Line`: a run of bytes.
* `LineEditor.FileName`: the name of a file.
* `LineEditor.ascii`: the byte of an ASCII character.
* `LineEditor.numeral`, `LineEditor.decimal`: numbers in decimal digits.
-/

namespace LineEditor

/-- A line of text without its newline, or any other run of bytes. -/
abbrev Line := List UInt8

/-- The name of a file: the bytes of a path. -/
abbrev FileName := Line

/-- The byte of an ASCII character. -/
@[inline] def ascii (c : Char) : UInt8 := c.val.toUInt8

/-- The byte that ends a line. -/
def newline : UInt8 := ascii '\n'

/-- The bytes of a string in UTF-8. -/
def Line.ofString (s : String) : Line := s.toUTF8.data.toList

/-- A decimal digit. -/
def isDigit (b : UInt8) : Bool := ascii '0' ≤ b && b ≤ ascii '9'

/-- A lowercase ASCII letter. -/
def isLower (b : UInt8) : Bool := ascii 'a' ≤ b && b ≤ ascii 'z'

/-- An uppercase ASCII letter. -/
def isUpper (b : UInt8) : Bool := ascii 'A' ≤ b && b ≤ ascii 'Z'

/-- A space or a tab: what may stand between the parts of a command. -/
def isBlank (b : UInt8) : Bool := b == ascii ' ' || b == ascii '\t'

/-- White space that is dropped around the braces of a command list: blank, newline, form feed or
carriage return. -/
def isSpace (b : UInt8) : Bool :=
  isBlank b || b == newline || b == 0x0c || b == ascii '\r'

/-- The value of a decimal digit. -/
def digitValue (b : UInt8) : Nat := (b - ascii '0').toNat

/-- The number that a run of decimal digits denotes. -/
def numeral (digits : Line) : Nat := digits.foldl (fun n d => 10 * n + digitValue d) 0

/-- The number that a run of decimal digits denotes, or `limit` if that is less. -/
def numeralUpTo (limit : Nat) (digits : Line) : Nat :=
  digits.foldl (fun n d => min limit (10 * n + digitValue d)) 0

/-- A numeral that is cut off at a limit while its digits are read is the smaller of the limit and
the number.

**Proof sketch.** Induction on the digits, with any number read before. Cutting off in between
changes nothing, since ten times a number at the limit is not below the limit. -/
theorem numeralUpTo_eq (limit : Nat) (digits : Line) :
    numeralUpTo limit digits = min limit (numeral digits) := by
  suffices h : ∀ n, digits.foldl (fun n d => min limit (10 * n + digitValue d)) (min limit n) =
      min limit (digits.foldl (fun n d => 10 * n + digitValue d) n) by
    simpa [numeralUpTo, numeral] using h 0
  induction digits with
  | nil => simp
  | cons d digits ih =>
    intro n
    have hstep : min limit (10 * min limit n + digitValue d) =
        min limit (10 * n + digitValue d) := by omega
    simp only [List.foldl_cons, hstep, ih]

/-- The first number that does not fit in an unsigned word of 64 bits. -/
def wordSize : Nat := 0x10000000000000000

/-- A number in decimal digits, without leading zeros. -/
def decimal (n : Nat) : Line := (Nat.toDigits 10 n).map ascii

/-- A line without the white space at its two ends. -/
def trimSpace (line : Line) : Line :=
  ((line.dropWhile isSpace).reverse.dropWhile isSpace).reverse

/-- A line without the blanks at its front. -/
def skipBlanks (line : Line) : Line := line.dropWhile isBlank

/-- Blanks are skipped and nothing is added. -/
theorem length_skipBlanks_le (line : Line) : (skipBlanks line).length ≤ line.length :=
  (List.dropWhile_suffix isBlank).length_le

end LineEditor
