import LineEditor.Regex.Syntax
import LineEditor.Regex.Error

set_option autoImplicit false
set_option relaxedAutoImplicit false

/-!
# Reading a pattern

The dialect of basic regular expressions: `\(` and `\)` enclose a group, `\{n,m\}`, `*` and `\+`
repeat the piece before them, `.` is any byte but NUL, `[...]` is a bracket expression, and a
backslash makes any other byte stand for itself. A `^` is an anchor only as the first byte of the
pattern and a `$` only as the last one that no backslash escapes.

Each reader returns what it read together with the bytes that are left, and carries the proof
that these are no more than it was given; that is what lets the recursion end.

## Main definitions

* `LineEditor.Regex.readBracket`: a bracket expression after its `[`.
* `LineEditor.Regex.readQuantifier`: the quantifier after a piece, if there is one.
* `LineEditor.Regex.readSequence`: a sequence of pieces up to its end.
* `LineEditor.Regex.Program.ofPattern`: a whole pattern.
-/

namespace LineEditor.Regex

/-- A value read from the front of `source`, and what is left. -/
structure Parsed (α : Type) (source : Line) where
  /-- What was read. -/
  value : α
  /-- What is left. -/
  rest : Line
  /-- Nothing is put back. -/
  length_le : rest.length ≤ source.length

/-! ## Bracket expressions -/

/-- The name of a class and what follows its closing `:]`, if there is one. -/
def splitClassName? : Line → Option (Line × Line)
  | [] => none
  | [_] => none
  | b :: c :: rest =>
    if b = ascii ':' ∧ c = ascii ']' then some ([], rest)
    else (splitClassName? (c :: rest)).map fun (name, after) => (b :: name, after)

/-- Behind the end of the name of a class there is less than before.

**Proof sketch.** Induction along the name. -/
theorem length_splitClassName?_lt {bytes name after : Line}
    (h : splitClassName? bytes = some (name, after)) : after.length < bytes.length := by
  fun_induction splitClassName? bytes generalizing name after with
  | case1 => simp at h
  | case2 => simp at h
  | case3 b c rest _ =>
    obtain ⟨rfl, rfl⟩ : [] = name ∧ rest = after := by simpa using h
    simp only [List.length_cons]; omega
  | case4 b c rest _ ih =>
    simp only [Option.map_eq_some_iff, Prod.mk.injEq] at h
    obtain ⟨⟨name', after'⟩, h', -, rfl⟩ := h
    have := ih h'
    simp only [List.length_cons] at *; omega

/-- The name of a class, the two bytes that end it and what follows them make up the text.

**Proof sketch.** Induction along the name. -/
theorem append_of_splitClassName? {bytes name after : Line}
    (h : splitClassName? bytes = some (name, after)) :
    name ++ ascii ':' :: ascii ']' :: after = bytes := by
  fun_induction splitClassName? bytes generalizing name after with
  | case1 => simp at h
  | case2 => simp at h
  | case3 b c rest hend =>
    obtain ⟨rfl, rfl⟩ : [] = name ∧ rest = after := by simpa using h
    simp [hend]
  | case4 b c rest _ ih =>
    simp only [Option.map_eq_some_iff, Prod.mk.injEq] at h
    obtain ⟨⟨name', after'⟩, h', rfl, rfl⟩ := h
    simp [ih h']

/-- Reads a class after its opening `[:`. -/
def readClass (source : Line) : Except PatternError (Parsed BracketItem source) :=
  match h : splitClassName? source with
  | none => .error .unmatchedBracket
  | some (name, after) =>
    match CharClass.ofName? name with
    | none => .error .invalidClass
    | some c => .ok ⟨.named c, after, Nat.le_of_lt (length_splitClassName?_lt h)⟩

/-- Reads the item of a bracket expression that starts with the byte `b`: a class, a range, or the
byte itself. A backslash has no special meaning here. -/
def readItem (b : UInt8) (source : Line) : Except PatternError (Parsed BracketItem source) :=
  match source with
  | [] => .ok ⟨.byte b, [], Nat.le_refl _⟩
  | c :: rest =>
    if b = ascii '[' ∧ c = ascii ':' then
      match readClass rest with
      | .error e => .error e
      | .ok item => .ok ⟨item.value, item.rest, Nat.le_succ_of_le item.length_le⟩
    else
      match rest with
      | [] => .ok ⟨.byte b, [c], Nat.le_refl _⟩
      | high :: after =>
        if c = ascii '-' ∧ high ≠ ascii ']' then
          if high < b then .error .invalidRange
          else .ok ⟨.range b high, after, by simp only [List.length_cons]; omega⟩
        else .ok ⟨.byte b, c :: high :: after, Nat.le_refl _⟩

/-- Reads the items of a bracket expression up to its closing `]`. A `]` in first place is an
item. -/
def readItems (first : Bool) (source : Line) :
    Except PatternError (Parsed (List BracketItem) source) :=
  match source with
  | [] => .error .unmatchedBracket
  | b :: rest =>
    if b = ascii ']' ∧ first = false then .ok ⟨[], rest, Nat.le_succ _⟩
    else
      match readItem b rest with
      | .error e => .error e
      | .ok ⟨item, afterItem, h₁⟩ =>
        match readItems false afterItem with
        | .error e => .error e
        | .ok ⟨items, after, h₂⟩ =>
          .ok ⟨item :: items, after, by simp only [List.length_cons]; omega⟩
termination_by source.length
decreasing_by simp only [List.length_cons]; omega

/-- Reads a bracket expression after its opening `[`. -/
def readBracket (source : Line) : Except PatternError (Parsed ByteSet source) :=
  match source with
  | [] => .error .unmatchedBracket
  | b :: rest =>
    if b = ascii '^' then
      match readItems true rest with
      | .error e => .error e
      | .ok items => .ok ⟨⟨true, items.value⟩, items.rest, by
          have := items.length_le
          simp only [List.length_cons]; omega⟩
    else
      match readItems true (b :: rest) with
      | .error e => .error e
      | .ok items => .ok ⟨⟨false, items.value⟩, items.rest, items.length_le⟩

/-! ## Quantifiers -/

/-- Reads a bound of an interval, which may be missing. -/
def readBound (source : Line) : Except PatternError (Parsed (Option Nat) source) :=
  let digits := source.takeWhile isDigit
  let n := numeralUpTo (maxRepeat + 1) digits
  if maxRepeat < n then .error .invalidInterval
  else .ok ⟨if digits.isEmpty then none else some n, source.dropWhile isDigit,
    (List.dropWhile_suffix isDigit).length_le⟩

/-- Reads the upper bound of an interval whose lower bound is `least`: it is the same if no comma
follows, and there is none if nothing follows the comma. -/
def readMost (least : Nat) (source : Line) : Except PatternError (Parsed (Option Nat) source) :=
  match source with
  | [] => .ok ⟨some least, [], Nat.le_refl _⟩
  | b :: rest =>
    if b = ascii ',' then
      match readBound rest with
      | .error e => .error e
      | .ok most => .ok ⟨most.value, most.rest, by
          have := most.length_le
          simp only [List.length_cons]; omega⟩
    else .ok ⟨some least, b :: rest, Nat.le_refl _⟩

/-- Whether an upper bound is not below a lower bound. -/
def Bounds.ordered (bounds : Bounds) : Bool :=
  match bounds.most with
  | none => true
  | some most => bounds.least ≤ most

/-- Reads the `\}` that ends an interval. -/
def closeInterval (bounds : Bounds) (source : Line) :
    Except PatternError (Parsed Bounds source) :=
  match source with
  | [] => .error .unmatchedBrace
  | [_] => .error .invalidInterval
  | b :: c :: rest =>
    if b = ascii '\\' ∧ c = ascii '\x7d' ∧ bounds.ordered then
      .ok ⟨bounds, rest, by simp only [List.length_cons]; omega⟩
    else .error .invalidInterval

/-- Reads an interval after its opening `\{`. -/
def readInterval (source : Line) : Except PatternError (Parsed Bounds source) :=
  match readBound source with
  | .error e => .error e
  | .ok ⟨none, _, _⟩ => .error .invalidInterval
  | .ok ⟨some least, afterLeast, h₁⟩ =>
    match readMost least afterLeast with
    | .error e => .error e
    | .ok ⟨most, afterMost, h₂⟩ =>
      match closeInterval ⟨least, most⟩ afterMost with
      | .error e => .error e
      | .ok ⟨bounds, rest, h₃⟩ => .ok ⟨bounds, rest, by omega⟩

/-- Whether a quantifier comes next. -/
def atQuantifier (source : Line) : Bool :=
  match source with
  | [] => false
  | b :: rest =>
    b == ascii '*' ||
      (b == ascii '\\' &&
        (rest.head? == some (ascii '+') || rest.head? == some (ascii '\x7b')))

/-- Finishes a quantifier: further stars add nothing to one that allows every number of
repetitions, and any other second quantifier is refused. -/
def finishQuantifier (bounds : Bounds) (source : Line) :
    Except PatternError (Parsed Bounds source) :=
  let rest :=
    if bounds.most = none ∧ bounds.least = 0 then source.dropWhile (· == ascii '*') else source
  if atQuantifier rest then .error .nothingToRepeat
  else .ok ⟨bounds, rest, by
    simp only [rest]
    split
    · exact (List.dropWhile_suffix _).length_le
    · exact Nat.le_refl _⟩

/-- Reads the quantifier after a piece; without one the piece occurs once. -/
def readQuantifier (source : Line) : Except PatternError (Parsed Bounds source) :=
  match source with
  | [] => .ok ⟨.once, [], Nat.le_refl _⟩
  | [b] =>
    if b = ascii '*' then .ok ⟨⟨0, none⟩, [], by simp⟩ else .ok ⟨.once, [b], Nat.le_refl _⟩
  | b :: c :: rest =>
    if b = ascii '*' then
      match finishQuantifier ⟨0, none⟩ (c :: rest) with
      | .error e => .error e
      | .ok q => .ok ⟨q.value, q.rest, by
          have := q.length_le
          simp only [List.length_cons] at *; omega⟩
    else if b = ascii '\\' ∧ c = ascii '+' then
      match finishQuantifier ⟨1, none⟩ rest with
      | .error e => .error e
      | .ok q => .ok ⟨q.value, q.rest, by
          have := q.length_le
          simp only [List.length_cons] at *; omega⟩
    else if b = ascii '\\' ∧ c = ascii '\x7b' then
      match readInterval rest with
      | .error e => .error e
      | .ok ⟨bounds, afterInterval, h⟩ =>
        match finishQuantifier bounds afterInterval with
        | .error e => .error e
        | .ok q => .ok ⟨q.value, q.rest, by
            have := q.length_le
            simp only [List.length_cons] at *; omega⟩
    else .ok ⟨.once, b :: c :: rest, Nat.le_refl _⟩

/-! ## Sequences -/

/-- What stands where a piece is expected. -/
inductive Head (source : Line) where
  /-- The end of the pattern. -/
  | finished
  /-- A single-byte test. -/
  | test (test : ByteTest) (rest : Line) (shorter : rest.length < source.length)
  /-- The start of a group. -/
  | opening (rest : Line) (shorter : rest.length < source.length)
  /-- The end of a group. -/
  | closing (rest : Line) (shorter : rest.length < source.length)

/-- Reads an escape after its backslash. -/
def readEscape (source : Line) : Except PatternError (Head source) :=
  match source with
  | [] => .error .trailingBackslash
  | b :: rest =>
    if b = ascii '(' then .ok (.opening rest (by simp))
    else if b = ascii ')' then .ok (.closing rest (by simp))
    else if b = ascii '\x7b' ∨ b = ascii '+' then .error .nothingToRepeat
    else if b = ascii '\x7d' then .error .unmatchedBrace
    else .ok (.test (.literal b) rest (by simp))

/-- Reads what stands where a piece is expected. -/
def readHead (source : Line) : Except PatternError (Head source) :=
  match source with
  | [] => .ok .finished
  | b :: rest =>
    if b = ascii '\\' then
      match readEscape rest with
      | .error e => .error e
      | .ok .finished => .ok .finished
      | .ok (.test t r h) => .ok (.test t r (by simp only [List.length_cons]; omega))
      | .ok (.opening r h) => .ok (.opening r (by simp only [List.length_cons]; omega))
      | .ok (.closing r h) => .ok (.closing r (by simp only [List.length_cons]; omega))
    else if b = ascii '.' then .ok (.test .any rest (by simp))
    else if b = ascii '[' then
      match readBracket rest with
      | .error e => .error e
      | .ok ⟨s, r, h⟩ => .ok (.test (.set s) r (by simp only [List.length_cons]; omega))
    else .ok (.test (.literal b) rest (by simp))

/-- Reads a sequence of pieces, up to the `\)` that closes it if it is `nested` in a group and up
to the end of the pattern if it is not. `groups` is the number of groups opened so far; the number
opened in the end is returned with the sequence. -/
def readSequence (nested : Bool) (groups : Nat) (source : Line) :
    Except PatternError (Parsed (Expression × Nat) source) :=
  match readHead source with
  | .error e => .error e
  | .ok .finished =>
    if nested then .error .unmatchedParen else .ok ⟨(.empty, groups), [], Nat.zero_le _⟩
  | .ok (.closing rest h) =>
    if nested then .ok ⟨(.empty, groups), rest, Nat.le_of_lt h⟩ else .error .unmatchedParen
  | .ok (.test t afterTest h₁) =>
    match readQuantifier afterTest with
    | .error e => .error e
    | .ok ⟨bounds, afterBounds, h₂⟩ =>
      match readSequence nested groups afterBounds with
      | .error e => .error e
      | .ok ⟨(next, groups'), rest, h₃⟩ =>
        .ok ⟨(.single t bounds next, groups'), rest, by omega⟩
  | .ok (.opening afterOpening h₁) =>
    if hg : groups < maxGroups then
      match readSequence true (groups + 1) afterOpening with
      | .error e => .error e
      | .ok ⟨(body, groups₁), afterBody, h₂⟩ =>
        match readQuantifier afterBody with
        | .error e => .error e
        | .ok ⟨bounds, afterBounds, h₃⟩ =>
          match readSequence nested groups₁ afterBounds with
          | .error e => .error e
          | .ok ⟨(next, groups₂), rest, h₄⟩ =>
            .ok ⟨(.group ⟨groups, hg⟩ body bounds next, groups₂), rest, by omega⟩
    else .error .tooManyGroups
termination_by source.length
decreasing_by all_goals omega

/-! ## Whole patterns -/

/-- Whether the last byte of a pattern is a `$` that no backslash escapes: the run of backslashes
before it has even length. -/
def endsWithAnchor (pattern : Line) : Bool :=
  match pattern.reverse with
  | [] => false
  | b :: before =>
    b == ascii '$' && (before.takeWhile (· == ascii '\\')).length % 2 == 0

/-- Reads a pattern whose leading `^` has been taken off. -/
def Program.ofUnanchored (startAnchor : Bool) (pattern : Line) : Except PatternError Program :=
  let endAnchor := endsWithAnchor pattern
  match readSequence false 0 (if endAnchor then pattern.dropLast else pattern) with
  | .error e => .error e
  | .ok ⟨(body, groupCount), _, _⟩ => .ok ⟨body, startAnchor, endAnchor, groupCount⟩

/-- The program of a pattern. -/
def Program.ofPattern (pattern : Line) : Except PatternError Program :=
  match pattern with
  | [] => Program.ofUnanchored false []
  | b :: rest =>
    if b = ascii '^' then Program.ofUnanchored true rest
    else Program.ofUnanchored false (b :: rest)

end LineEditor.Regex
