set_option autoImplicit false
set_option relaxedAutoImplicit false

/-!
# Places and gaps in a record

A record is read from its front. What stands there depends on its place in the line: a field starts
behind blanks only, and so does a mark of the document. Between the parts of a field there may be
blanks, line breaks and remarks. Inside a value there may be gaps of blanks and line breaks; a gap
with line breaks is folded, so that a single newline becomes a space.

## Main definitions

* `LineEditor.Record.Place`: a place in a text.
* `LineEditor.Record.skip`: the next place where something stands.
* `LineEditor.Record.Gap`: a gap inside a value.
-/

namespace LineEditor.Record

/-! ## Characters -/

/-- A space or a tab. -/
def isBlank (c : Char) : Bool := c == ' ' || c == '\t'

/-- A character that ends a line: a newline, or the separator of lines or of paragraphs. -/
def isBreak (c : Char) : Bool := c == '\n' || c == '\u2028' || c == '\u2029'

/-- Whether a blank, a line break or the end comes next. -/
def atGap (text : List Char) : Bool := text.head?.all fun c => isBlank c || isBreak c

/-- A character that may stand in a record at all. -/
def isAllowed (c : Char) : Bool :=
  c == '\t' || c == '\n' || c == '\r' || (' ' ≤ c && c ≤ '~') || c == '\u0085' ||
    ('\u00a0' ≤ c && c != '\ufffe' && c != '\uffff')

/-- A text with a newline for a carriage return, for one with a newline behind it, and for a next
line character; `before` holds what stands in front of it, last character first. -/
def withNewlinesAfter (before : List Char) : List Char → List Char
  | [] => before.reverse
  | '\r' :: '\n' :: rest => withNewlinesAfter ('\n' :: before) rest
  | c :: rest =>
    withNewlinesAfter ((if c == '\r' || c == '\u0085' then '\n' else c) :: before) rest

/-- A text with a newline for every way to end a line but the separators. -/
def withNewlines (text : List Char) : List Char := withNewlinesAfter [] text

/-! ## Places -/

/-- A place in a text. -/
structure Place where
  /-- What follows. -/
  rest : List Char
  /-- The number of characters before the place on its line; `none` if there are others among them
  than blanks and a byte order mark. -/
  indent? : Option Nat
  deriving Repr, DecidableEq

/-- The next place where something stands: behind blanks, line breaks, and remarks, which go from a
number sign to the end of the line. A byte order mark that starts a line is skipped as well; a tab
in front of everything else on a line is not. `inRemark` says whether the text starts in a
remark. -/
def skip (indent? : Option Nat) (inRemark : Bool) : List Char → Place
  | [] => ⟨[], indent?⟩
  | c :: rest =>
    if isBreak c then skip (some 0) false rest
    else if inRemark || c == '#' then skip indent? true rest
    else if c == ' ' || (c == '\t' && indent?.isNone) || (c == '\ufeff' && indent? == some 0) then
      skip (indent?.map (· + 1)) false rest
    else ⟨c :: rest, indent?⟩

/-- What follows a gap is no longer than the text.

**Proof sketch.** Induction along the gap. -/
theorem length_skip_le (indent? : Option Nat) (inRemark : Bool) (text : List Char) :
    (skip indent? inRemark text).rest.length ≤ text.length := by
  fun_induction skip indent? inRemark text <;> simp only [List.length_cons, Nat.le_refl] <;> omega

/-- The next place where something stands. -/
def Place.next (place : Place) : Place := skip place.indent? false place.rest

/-- The next place of a text is not before the present one. -/
theorem Place.length_next_le (place : Place) : place.next.rest.length ≤ place.rest.length :=
  length_skip_le ..

/-! ## Marks -/

/-- The mark in front of a document. -/
def openingMark : List Char := ['-', '-', '-']

/-- The mark behind a document. -/
def closingMark : List Char := ['.', '.', '.']

/-- Whether a text starts with a mark and a gap behind it. -/
def startsWith (mark text : List Char) : Bool :=
  mark.isPrefixOf text && atGap (text.drop mark.length)

/-- Whether a line starts with a mark. -/
def hasMark (line : List Char) : Bool := startsWith openingMark line || startsWith closingMark line

/-- Whether a mark stands at a place: at the very front of a line. -/
def Place.isAt (place : Place) (mark : List Char) : Bool :=
  place.indent? == some 0 && startsWith mark place.rest

/-! ## Gaps -/

/-- A gap inside a value. -/
inductive Gap where
  /-- Blanks on one line, last first. -/
  | blanks (text : List Char)
  /-- Line breaks, last first, with the number of blanks behind the last of them. The first one is
  among them unless it is `spliced`, that is, not part of the value. -/
  | breaks (text : List Char) (indent : Nat) (spliced : Bool)
  deriving Repr, DecidableEq

namespace Gap

/-- No gap. -/
def empty : Gap := blanks []

/-- The gap that starts with a line break that is not part of the value. -/
def splice : Gap := breaks [] 0 true

/-- Whether there is no gap. -/
def isEmpty (gap : Gap) : Bool := gap == empty

/-- A gap with a blank or a line break more. Blanks in front of a line break are dropped. -/
def push (gap : Gap) (c : Char) : Gap :=
  match gap with
  | blanks text => if isBreak c then breaks [c] 0 false else blanks (c :: text)
  | breaks text indent spliced =>
    if isBreak c then breaks (c :: text) 0 spliced else breaks text (indent + 1) spliced

/-- The number of blanks since the last line break, if there is one. -/
def indent? : Gap → Option Nat
  | blanks _ => none
  | breaks _ indent _ => some indent

/-- What a gap stands for in a value. A newline that starts it is dropped in front of other line
breaks, and a space if it is alone. -/
def text : Gap → List Char
  | blanks text => text.reverse
  | breaks text _ true => text.reverse
  | breaks text _ false =>
    match text.reverse with
    | ['\n'] => [' ']
    | '\n' :: more => more
    | all => all

end Gap

end LineEditor.Record
