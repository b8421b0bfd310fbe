import LineEditor.Regex.Replacement

set_option autoImplicit false
set_option relaxedAutoImplicit false

/-!
# Substitutions

A substitution says what is replaced on a line, by what, and which occurrences. It is remembered,
so that it can be repeated.

## Main definitions

* `LineEditor.Substitution`: a substitution.
* `LineEditor.Substitution.apply?`: what it makes of a line.
-/

namespace LineEditor

open Regex (Occurrence)

/-- What a substitution does to a line. -/
structure Substitution where
  /-- What is replaced. -/
  regex : Regex
  /-- What it is replaced by. -/
  replacement : Line
  /-- Which matches are replaced. -/
  occurrence : Occurrence
  deriving Repr, DecidableEq

/-- What a substitution makes of a line; `none` if nothing on it is replaced. -/
def Substitution.apply? (s : Substitution) (line : Line) : Option Line :=
  s.regex.replace? line s.replacement s.occurrence

end LineEditor
