import LineEditor.Record.Gap

set_option autoImplicit false
set_option relaxedAutoImplicit false

/-!
# Scalars

The keys and values of a record are *scalars*. A scalar is plain or stands in single or double
quotes. A plain one ends at a colon with a gap behind it, at a number sign with a gap before it, or
at a line that is not indented more than its field; its characters stand for themselves. In single
quotes a quote is written twice; in double quotes a backslash introduces a letter or a code.

## Main definitions

* `LineEditor.Record.Scalar`: a scalar.
* `LineEditor.Record.readScalar`: the scalar at the front of a text.
-/

namespace LineEditor.Record

/-- A key or a value of a record. -/
inductive Scalar where
  /-- One without quotes. -/
  | plain (text : List Char)
  /-- One in quotes. -/
  | quoted (text : List Char)
  deriving Repr, DecidableEq

/-- The text of a scalar. -/
def Scalar.text : Scalar → List Char
  | plain text => text
  | quoted text => text

/-! ## Plain scalars -/

/-- Characters that cannot stand at the front of a plain scalar. -/
def reserved : List Char :=
  [',', '[', ']', '\x7b', '\x7d', '#', '&', '*', '!', '|', '>', '\'', '"', '%', '@', '\x60']

/-- Characters that can stand there only if no gap follows them. -/
def indicators : List Char := ['-', '?', ':']

/-- Whether a text may start a plain scalar that is not empty. -/
def startsPlain (text : List Char) : Bool :=
  match text with
  | [] => false
  | c :: rest => !atGap text && !reserved.contains c && !(indicators.contains c && atGap rest)

/-- Reads a plain scalar in a field with the given indentation; `before` holds what has been read
already, last character first, and `gap` the gap behind it. A tab must not stand in the
indentation. -/
def readPlain (level : Nat) (before : List Char) (gap : Gap) :
    List Char → Option (List Char × Place)
  | [] => some (before.reverse, ⟨[], gap.indent?⟩)
  | c :: rest =>
    let outside := gap.indent?.any (· ≤ level)
    if isBlank c || isBreak c then
      if c == '\t' && outside then none else readPlain level before (gap.push c) rest
    else if outside || (c == '#' && !gap.isEmpty) || (c == ':' && atGap rest) then
      some (before.reverse, ⟨c :: rest, gap.indent?⟩)
    else readPlain level (c :: (gap.text.reverse ++ before)) .empty rest

/-- What follows a plain scalar is no longer than the text.

**Proof sketch.** Induction along the reader. -/
theorem length_readPlain_le {level : Nat} {before text value : List Char} {gap : Gap}
    {place : Place} (h : readPlain level before gap text = some (value, place)) :
    place.rest.length ≤ text.length := by
  fun_induction readPlain level before gap text with
  | case1 =>
    obtain ⟨-, rfl⟩ := Prod.mk.inj (Option.some.inj h)
    simp
  | case2 => simp at h
  | case3 _ _ _ _ _ _ _ ih => have := ih h; simp only [List.length_cons]; omega
  | case4 =>
    obtain ⟨-, rfl⟩ := Prod.mk.inj (Option.some.inj h)
    simp
  | case5 _ _ _ _ _ _ _ ih => have := ih h; simp only [List.length_cons]; omega

/-! ## Escapes -/

/-- The characters that a letter after a backslash stands for. -/
def escapes : List (Char × Char) :=
  [('0', '\x00'), ('a', '\x07'), ('b', '\x08'), ('t', '\t'), ('\t', '\t'), ('n', '\n'),
    ('v', '\x0b'), ('f', '\x0c'), ('r', '\r'), ('e', '\x1b'), (' ', ' '), ('"', '"'), ('/', '/'),
    ('\\', '\\'), ('N', '\u0085'), ('_', '\u00a0'), ('L', '\u2028'), ('P', '\u2029')]

/-- The letters after which the code of a character follows, with the number of its digits. -/
def codeLengths : List (Char × Nat) := [('x', 2), ('u', 4), ('U', 8)]

/-- The value of a hexadecimal digit. -/
def hexValue? (c : Char) : Option Nat :=
  if '0' ≤ c ∧ c ≤ '9' then some (c.toNat - '0'.toNat)
  else if 'a' ≤ c ∧ c ≤ 'f' then some (c.toNat - 'a'.toNat + 10)
  else if 'A' ≤ c ∧ c ≤ 'F' then some (c.toNat - 'A'.toNat + 10)
  else none

/-- The character with a code of exactly `count` hexadecimal digits. -/
def ofHexDigits? (digits : List Char) (count : Nat) : Option Char := do
  if digits.length ≠ count then none
  let values ← digits.mapM hexValue?
  let code := values.foldl (fun code value => 16 * code + value) 0
  if Nat.isValidChar code then some (Char.ofNat code) else none

/-- What a backslash and the text behind it stand for. -/
inductive Escape where
  /-- A character. -/
  | character (c : Char)
  /-- A line break that is not part of the value. -/
  | lineBreak
  deriving Repr, DecidableEq

/-- Reads what follows a backslash in double quotes. -/
def readEscape : List Char → Option (Escape × List Char)
  | [] => none
  | c :: rest =>
    if isBreak c then some (.lineBreak, rest)
    else
      match codeLengths.lookup c with
      | some count =>
        (ofHexDigits? (rest.take count) count).map fun d => (.character d, rest.drop count)
      | none => (escapes.lookup c).map fun d => (.character d, rest)

/-- What follows an escape is shorter than it was.

**Proof sketch.** An escape is one character, or a letter with as many digits as it asks for. -/
theorem length_readEscape_lt {text left : List Char} {e : Escape}
    (h : readEscape text = some (e, left)) : left.length < text.length := by
  unfold readEscape at h
  split at h
  · simp at h
  · split at h
    · obtain ⟨-, rfl⟩ := Prod.mk.inj (Option.some.inj h)
      simp
    · split at h <;> obtain ⟨_, -, h⟩ := Option.map_eq_some_iff.1 h <;>
        obtain ⟨-, rfl⟩ := Prod.mk.inj h <;> simp only [List.length_drop, List.length_cons] <;>
        omega

/-! ## Quoted scalars -/

/-- Reads a scalar in quotes behind the first of them; `before` holds what has been read already,
last character first, and `gap` the gap behind it. No line of the scalar may be a mark of the
document. Returns the rest behind the last quote. -/
def readQuoted (quote : Char) (before : List Char) (gap : Gap) (text : List Char) :
    Option (List Char × List Char) :=
  match text with
  | [] => none
  | c :: rest =>
    if isBlank c then readQuoted quote before (gap.push c) rest
    else if isBreak c then
      if hasMark rest then none else readQuoted quote before (gap.push c) rest
    else
      let before := gap.text.reverse ++ before
      if c == quote then
        if quote == '\'' && rest.head? == some quote then
          readQuoted quote (quote :: before) .empty (rest.drop 1)
        else some (before.reverse, rest)
      else if quote == '"' && c == '\\' then
        match _h : readEscape rest with
        | none => none
        | some (.character d, left) => readQuoted quote (d :: before) .empty left
        | some (.lineBreak, left) =>
          if hasMark left then none else readQuoted quote before .splice left
      else readQuoted quote (c :: before) .empty rest
termination_by text.length
decreasing_by
  · simp
  · simp
  · simp only [List.length_drop, List.length_cons]; omega
  · have := length_readEscape_lt _h
    simp only [List.length_cons]; omega
  · have := length_readEscape_lt _h
    simp only [List.length_cons]; omega
  · simp

/-- What follows a quoted scalar is no longer than the text.

**Proof sketch.** Induction along the reader; each case takes at least one character, and an escape
takes what `length_readEscape_lt` says. -/
theorem length_readQuoted_le {quote : Char} {before text value left : List Char} {gap : Gap}
    (h : readQuoted quote before gap text = some (value, left)) : left.length ≤ text.length := by
  fun_induction readQuoted quote before gap text with
  | case1 | case3 | case7 | case9 => simp at h
  | case2 _ _ _ _ _ ih | case4 _ _ _ _ _ _ _ ih | case11 _ _ _ _ _ _ _ _ _ ih =>
    have := ih h
    simp only [List.length_cons]; omega
  | case5 _ _ _ _ _ _ _ _ _ ih =>
    have := ih h
    simp only [List.length_drop, List.length_cons] at this ⊢; omega
  | case6 =>
    obtain ⟨-, rfl⟩ := Prod.mk.inj (Option.some.inj h)
    simp
  | case8 _ _ _ _ _ _ _ _ _ _ _ hread ih | case10 _ _ _ _ _ _ _ _ _ _ hread _ ih =>
    have := ih h
    have := length_readEscape_lt hread
    simp only [List.length_cons]; omega

/-! ## Scalars of both kinds -/

/-- Reads the scalar at the front of a text, in a field with the given indentation. -/
def readScalar (level : Nat) (text : List Char) : Option (Scalar × Place) :=
  match text with
  | [] => none
  | c :: rest =>
    if c == '"' || c == '\'' then
      (readQuoted c [] .empty rest).map fun (value, left) => (.quoted value, ⟨left, none⟩)
    else if startsPlain text then
      (readPlain level [] .empty text).map fun (value, place) => (.plain value, place)
    else none

/-- What follows a scalar is no longer than the text, whether it is quoted or plain. -/
theorem length_readScalar_le {level : Nat} {text : List Char} {value : Scalar} {place : Place}
    (h : readScalar level text = some (value, place)) : place.rest.length ≤ text.length := by
  unfold readScalar at h
  split at h
  · simp at h
  · split at h
    · obtain ⟨⟨value, left⟩, hread, h⟩ := Option.map_eq_some_iff.1 h
      obtain ⟨-, rfl⟩ := Prod.mk.inj h
      have := length_readQuoted_le hread
      simp only [List.length_cons]; omega
    · split at h
      · obtain ⟨⟨value, left⟩, hread, h⟩ := Option.map_eq_some_iff.1 h
        obtain ⟨-, rfl⟩ := Prod.mk.inj h
        exact length_readPlain_le hread
      · simp at h

end LineEditor.Record
