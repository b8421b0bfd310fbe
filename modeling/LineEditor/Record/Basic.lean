import LineEditor.Record.Scalar

set_option autoImplicit false
set_option relaxedAutoImplicit false

/-!
# Flat records

A record is a list of fields, a key and a value with a colon between them. All fields have the same
indentation; a key stands on one line with its colon, and a value may go on on lines that are
indented more. The document that is the record may be opened and closed by marks. Nothing that
nests is a flat record.

## Main definitions

* `LineEditor.Record`: the fields of a record.
* `LineEditor.Record.ofText?`: the record that a text is.
-/

namespace LineEditor

/-- The fields of a record in their order: keys and values. -/
abbrev Record := List (List Char × Record.Scalar)

namespace Record

/-! ## Fields -/

/-- How many bytes there may be in front of the colon of a field. -/
def maxKeySize : Nat := 1024

/-- Reads a key and the colon behind it. -/
def readKey (text : List Char) : Option (List Char × List Char) :=
  let line := text.takeWhile (!isBreak ·)
  match readScalar 0 line with
  | none => none
  | some (key, place) =>
    match place.rest.dropWhile isBlank with
    | [] => none
    | c :: after =>
      let size := line.length - after.length
      let front := String.ofList (line.take (size - 1))
      if c == ':' && atGap after && front.utf8ByteSize ≤ maxKeySize then
        some (key.text, text.drop size)
      else none

/-- What follows a key is shorter, since a colon stands behind the key.

**Proof sketch.** The key is read within its line. Behind it and blanks the colon is one character
that is gone. -/
theorem length_readKey_lt {text key left : List Char} (h : readKey text = some (key, left)) :
    left.length < text.length := by
  have hline : (text.takeWhile (!isBreak ·)).length ≤ text.length :=
    (List.takeWhile_prefix _).length_le
  unfold readKey at h
  dsimp only at h
  split at h
  · simp at h
  · rename_i place hread
    have hplace := length_readScalar_le hread
    have hdrop := (List.dropWhile_suffix isBlank (l := place.rest)).length_le
    split at h
    · simp at h
    · rename_i hafter
      rw [hafter, List.length_cons] at hdrop
      split at h
      · obtain ⟨-, rfl⟩ := Prod.mk.inj (Option.some.inj h)
        rw [List.length_drop]; omega
      · simp at h

/-- Reads the value behind the colon of a field with the given indentation. If nothing stands there
the value is empty. -/
def readValue (level : Nat) (text : List Char) : Option (Scalar × Place) :=
  let place := skip none false text
  if place.rest.isEmpty || place.indent?.any (· ≤ level) then some (.plain [], place)
  else readScalar level place.rest

/-- What follows a value is no longer than the text. -/
theorem length_readValue_le {level : Nat} {text : List Char} {value : Scalar} {place : Place}
    (h : readValue level text = some (value, place)) : place.rest.length ≤ text.length := by
  have hskip := length_skip_le none false text
  unfold readValue at h
  dsimp only at h
  split at h
  · obtain ⟨-, rfl⟩ := Prod.mk.inj (Option.some.inj h)
    exact hskip
  · exact Nat.le_trans (length_readScalar_le h) hskip

/-- Reads a field with the given indentation up to the next place where something stands. -/
def readField (level : Nat) (text : List Char) : Option ((List Char × Scalar) × Place) := do
  let (key, left) ← readKey text
  let (value, place) ← readValue level left
  return ((key, value), place.next)

/-- What follows a field is shorter than it was: a field has a key. -/
theorem length_readField_lt {level : Nat} {text : List Char} {field : List Char × Scalar}
    {place : Place} (h : readField level text = some (field, place)) :
    place.rest.length < text.length := by
  simp only [readField, Option.bind_eq_bind, Option.bind_eq_some_iff, Option.pure_def] at h
  obtain ⟨⟨key, left⟩, hkey, ⟨value, behind⟩, hvalue, h⟩ := h
  obtain ⟨-, rfl⟩ := Prod.mk.inj (Option.some.inj h)
  exact Nat.lt_of_le_of_lt
    (Nat.le_trans behind.length_next_le (length_readValue_le hvalue)) (length_readKey_lt hkey)

/-! ## Records -/

/-- Reads the fields of a record, all with the given indentation; `before` holds those that have
been read already, last first. Once the document is not open any more, only remarks may follow. -/
def readFields (level : Nat) (isOpen : Bool) (before : Record) (place : Place) : Option Record :=
  if _h : place.rest.isEmpty then some before.reverse
  else if place.isAt closingMark then
    readFields level false before (skip none false (place.rest.drop closingMark.length))
  else if isOpen && place.indent? == some level && !place.isAt openingMark then
    match _h : readField level place.rest with
    | none => none
    | some (field, next) => readFields level isOpen (field :: before) next
  else none
termination_by place.rest.length
decreasing_by
  · have := length_skip_le none false (place.rest.drop closingMark.length)
    have : place.rest.length ≠ 0 := by simpa using _h
    simp only [List.length_drop, closingMark, List.length_cons, List.length_nil] at *
    omega
  · exact length_readField_lt _h

/-- The record that a text is; `none` if it is not a flat record. -/
def ofText? (text : List Char) : Option Record := do
  guard (text.all isAllowed)
  let start := skip (some 0) false (withNewlines text)
  let place :=
    if start.isAt openingMark then skip none false (start.rest.drop openingMark.length) else start
  if place.rest.isEmpty then return []
  readFields (← place.indent?) true [] place

end Record

end LineEditor
