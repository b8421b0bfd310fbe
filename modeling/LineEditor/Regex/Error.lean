set_option autoImplicit false
set_option relaxedAutoImplicit false

/-!
# Errors in patterns

## Main definitions

* `LineEditor.Regex.PatternError`: why a pattern is refused.
* `LineEditor.Regex.PatternError.message`: what the user is told.
-/

namespace LineEditor.Regex

/-- Why a pattern is not a basic regular expression. -/
inductive PatternError where
  /-- The pattern ends after the backslash of an escape. -/
  | trailingBackslash
  /-- A group is opened and not closed, or closed and not open. -/
  | unmatchedParen
  /-- A bracket expression or a class name in it does not end. -/
  | unmatchedBracket
  /-- An interval does not end, or an interval is closed and not open. -/
  | unmatchedBrace
  /-- The bounds of an interval are missing, too large or out of order. -/
  | invalidInterval
  /-- A quantifier stands where no piece precedes it, or after another quantifier. -/
  | nothingToRepeat
  /-- More than nine groups are opened. -/
  | tooManyGroups
  /-- The end of a range comes before its start. -/
  | invalidRange
  /-- A class has a name that is not known. -/
  | invalidClass
  deriving Repr, DecidableEq

/-- What the user is told about a refused pattern. -/
def PatternError.message : PatternError → String
  | trailingBackslash => "Trailing backslash (\\)"
  | unmatchedParen => "Unmatched ( or \\("
  | unmatchedBracket => "Unmatched [ or [^"
  | unmatchedBrace => "Unmatched \\\x7b"
  | invalidInterval => "Invalid content of \\\x7b\\\x7d"
  | nothingToRepeat => "Invalid preceding regular expression"
  | tooManyGroups => "Too many subexpressions"
  | invalidRange => "Invalid range end"
  | invalidClass => "Invalid character class name"

end LineEditor.Regex
