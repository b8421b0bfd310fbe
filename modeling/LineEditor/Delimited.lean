import LineEditor.Error
import LineEditor.Regex.Parser

set_option autoImplicit false
set_option relaxedAutoImplicit false

/-!
# Delimited texts in a command line

Patterns and replacements stand between delimiters. A backslash before the delimiter makes it a
byte of the text; every other escape is kept as it is, for the text's own reader. In a pattern a
bracket expression is kept whole, so that a delimiter in it does not end the pattern.

## Main definitions

* `LineEditor.splitBracket`: a bracket expression, and what follows it.
* `LineEditor.readDelimited`: a text up to its delimiter.
* `LineEditor.readPattern`: a pattern that must be closed.
-/

namespace LineEditor

/-! ## Bracket expressions -/

/-- A class after its opening `[:`, and what follows it. A class that does not end is all the
text. -/
def splitClass (bytes : Line) : Line × Line :=
  match Regex.splitClassName? bytes with
  | none => (bytes, [])
  | some (name, after) => (name ++ [ascii ':', ascii ']'], after)

/-- A class and what follows it make up the text. -/
theorem append_splitClass (bytes : Line) :
    (splitClass bytes).1 ++ (splitClass bytes).2 = bytes := by
  unfold splitClass
  split
  · simp
  · rename_i h
    simp [Regex.append_of_splitClassName? h]

/-- What follows a class is no longer than the text. -/
theorem length_splitClass_le (bytes : Line) : (splitClass bytes).2.length ≤ bytes.length := by
  have h := congrArg List.length (append_splitClass bytes)
  rw [List.length_append] at h
  omega

/-- The items of a bracket expression up to the `]` that closes it, and what follows that. A `]` in
a class does not close it. A bracket expression that does not end is all the text. -/
def splitItems (bytes : Line) : Line × Line :=
  match bytes with
  | [] => ([], [])
  | b :: rest =>
    if b = ascii ']' then ([b], rest)
    else if b = ascii '[' ∧ rest.head? = some (ascii ':') then
      let (items, left) := splitItems (splitClass rest.tail).2
      (b :: ascii ':' :: (splitClass rest.tail).1 ++ items, left)
    else
      let (items, left) := splitItems rest
      (b :: items, left)
termination_by bytes.length
decreasing_by
  · have := length_splitClass_le rest.tail
    have := rest.length_tail
    simp only [List.length_cons]; omega
  · simp

/-- The items of a bracket expression and what follows them make up the text.

**Proof sketch.** Induction along the reader. A class is put together from its opening, which is two
bytes, its name and its end. -/
theorem append_splitItems (bytes : Line) :
    (splitItems bytes).1 ++ (splitItems bytes).2 = bytes := by
  fun_induction splitItems bytes with
  | case1 => rfl
  | case2 => rfl
  | case3 b rest _ hclass items left hitems ih =>
    rw [hitems] at ih
    have hrest : ascii ':' :: rest.tail = rest := by
      cases rest with
      | nil => simp at hclass
      | cons c rest => simpa [eq_comm] using hclass.2
    simp only [List.cons_append, List.append_assoc, ih, append_splitClass, hrest]
  | case4 b rest _ _ items left hitems ih =>
    rw [hitems] at ih
    simp [ih]

/-- A text in two parts: a given byte, if it stands at the front, and what follows. -/
def splitByte (b : UInt8) (bytes : Line) : Line × Line :=
  match bytes with
  | [] => ([], [])
  | c :: rest => if c = b then ([c], rest) else ([], c :: rest)

/-- A byte that is taken if it is there and what follows it make up the text. -/
theorem append_splitByte (b : UInt8) (bytes : Line) :
    (splitByte b bytes).1 ++ (splitByte b bytes).2 = bytes := by
  cases bytes with
  | nil => rfl
  | cons c rest =>
    simp only [splitByte]
    split <;> rfl

/-- A bracket expression after its opening `[`, and what follows it. The `]` right after the
opening, or after the `^` there, does not close it. A bracket expression that does not end is all
the text. -/
def splitBracket (bytes : Line) : Line × Line :=
  let (caret, rest) := splitByte (ascii '^') bytes
  let (bracket, rest) := splitByte (ascii ']') rest
  let (items, left) := splitItems rest
  (caret ++ bracket ++ items, left)

/-- A bracket expression and what follows it make up the text. -/
theorem append_splitBracket (bytes : Line) :
    (splitBracket bytes).1 ++ (splitBracket bytes).2 = bytes := by
  simp only [splitBracket, List.append_assoc, append_splitItems, append_splitByte]

/-- What follows a bracket expression is no longer than the text. -/
theorem length_splitBracket_le (bytes : Line) : (splitBracket bytes).2.length ≤ bytes.length := by
  have h := congrArg List.length (append_splitBracket bytes)
  rw [List.length_append] at h
  omega

/-! ## Delimited texts -/

/-- The text before the next delimiter and what follows that, or all the text and `none` if there
is no delimiter. With `brackets` a bracket expression is kept whole. -/
def readDelimited (delimiter : UInt8) (brackets : Bool) (bytes : Line) : Line × Option Line :=
  match bytes with
  | [] => ([], none)
  | b :: rest =>
    if b = delimiter then ([], some rest)
    else if b = ascii '\\' then
      match rest with
      | [] => ([b], none)
      | c :: after =>
        let (text, left) := readDelimited delimiter brackets after
        (if c = delimiter then c :: text else b :: c :: text, left)
    else if b = ascii '[' ∧ brackets then
      let (text, left) := readDelimited delimiter brackets (splitBracket rest).2
      (b :: (splitBracket rest).1 ++ text, left)
    else
      let (text, left) := readDelimited delimiter brackets rest
      (b :: text, left)
termination_by bytes.length
decreasing_by
  · simp only [List.length_cons]; omega
  · have := length_splitBracket_le rest
    simp only [List.length_cons]; omega
  · simp

/-- What follows a delimited text is shorter, since the delimiter is taken away as well.

**Proof sketch.** Induction along the reader. A text that is not closed has nothing behind it, and
each of the other cases takes at least one byte before it goes on. -/
theorem length_readDelimited_lt {delimiter : UInt8} {brackets : Bool} {bytes text rest : Line}
    (h : readDelimited delimiter brackets bytes = (text, some rest)) :
    rest.length < bytes.length := by
  fun_induction readDelimited delimiter brackets bytes generalizing text with
  | case1 => simp at h
  | case2 => simp_all
  | case3 => simp at h
  | case4 c after _ _ hr _ ih =>
    obtain ⟨-, rfl⟩ := Prod.mk.inj h
    have := ih hr
    simp only [List.length_cons]; omega
  | case5 _ inside _ _ _ _ _ hr ih =>
    obtain ⟨-, rfl⟩ := Prod.mk.inj h
    have := ih hr
    have := length_splitBracket_le inside
    simp only [List.length_cons]; omega
  | case6 _ _ _ _ _ _ _ hr ih =>
    obtain ⟨-, rfl⟩ := Prod.mk.inj h
    have := ih hr
    simp only [List.length_cons]; omega

/-- A pattern and what follows its closing delimiter. -/
def readPattern (delimiter : UInt8) (bytes : Line) : Except EditError (Line × Line) :=
  match readDelimited delimiter true bytes with
  | (_, none) => .error .missingDelimiter
  | (pattern, some rest) => .ok (pattern, rest)

end LineEditor
