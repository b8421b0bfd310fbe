import LineEditor.Command.Parser

set_option autoImplicit false
set_option relaxedAutoImplicit false

/-!
# Literal replacements

A replacement is read twice before it stands in a line. The command line's reader takes away the
backslash before a delimiter and keeps every other escape as it is; when a match is replaced, the
escapes that are left are groups, or bytes that stand for themselves. So a backslash must survive
both readers and the delimiter only the first one. A text in which both are escaped comes through
unchanged, also if the delimiter is a digit, which names a group only as long as its backslash is
there.

## Main definitions

* `LineEditor.escaped`: a text with a backslash before each backslash and each delimiter.

## Main results

* `LineEditor.readDelimited_escaped`: the first reader leaves only the backslashes escaped.
* `LineEditor.Regex.parts_escaped`: then every byte stands for itself.
* `LineEditor.render_readDelimited_escaped`: every text can be written as a replacement.
* `LineEditor.readSubstitution_escaped`: so it can be in a substitution.
-/

namespace LineEditor

/-- A text with a backslash before each backslash and each delimiter in it. -/
def escaped (delimiter : UInt8) (text : Line) : Line :=
  text.flatMap fun b => if b = ascii '\\' ∨ b = delimiter then [ascii '\\', b] else [b]

section Escaping

variable {delimiter b : UInt8}

/-- Nothing is escaped of an empty text. -/
@[simp]
theorem escaped_nil (delimiter : UInt8) : escaped delimiter [] = [] := rfl

/-- A special byte is escaped. -/
theorem escaped_cons_of_special (h : b = ascii '\\' ∨ b = delimiter) (text : Line) :
    escaped delimiter (b :: text) = ascii '\\' :: b :: escaped delimiter text := by
  rw [escaped, List.flatMap_cons, if_pos h]
  rfl

/-- An ordinary byte stands as it is. -/
theorem escaped_cons_of_ordinary (h : ¬(b = ascii '\\' ∨ b = delimiter)) (text : Line) :
    escaped delimiter (b :: text) = b :: escaped delimiter text := by
  rw [escaped, List.flatMap_cons, if_neg h]
  rfl

/-! ## The reader of the command line -/

/-- An escape is read at once: without its backslash if it is one of the delimiter, and as it is
otherwise. -/
theorem readDelimited_escape (h : delimiter ≠ ascii '\\') (b : UInt8) (rest : Line) :
    readDelimited delimiter false (ascii '\\' :: b :: rest) =
      (if b = delimiter then b :: (readDelimited delimiter false rest).1
        else ascii '\\' :: b :: (readDelimited delimiter false rest).1,
        (readDelimited delimiter false rest).2) := by
  rw [readDelimited.eq_def]
  dsimp only
  rw [if_neg h.symm, if_pos rfl]

/-- An ordinary byte is read as it is. -/
theorem readDelimited_ordinary (h : ¬(b = ascii '\\' ∨ b = delimiter)) (rest : Line) :
    readDelimited delimiter false (b :: rest) =
      (b :: (readDelimited delimiter false rest).1, (readDelimited delimiter false rest).2) := by
  rw [not_or] at h
  rw [readDelimited.eq_def]
  dsimp only
  rw [if_neg h.2, if_neg h.1, if_neg (fun hbracket => nomatch hbracket.2)]

/-- **The reader of the command line ends at the delimiter behind an escaped text**, and leaves a
text in which only the backslashes are escaped.

**Proof sketch.** Induction on the text: an escaped delimiter loses its backslash, an escaped
backslash keeps it, and every other byte is neither. -/
theorem readDelimited_escaped (h : delimiter ≠ ascii '\\') (text rest : Line) :
    readDelimited delimiter false (escaped delimiter text ++ delimiter :: rest) =
      (escaped (ascii '\\') text, some rest) := by
  induction text with
  | nil =>
    rw [escaped_nil, List.nil_append, readDelimited.eq_def]
    exact if_pos rfl
  | cons b text ih =>
    by_cases hspecial : b = ascii '\\' ∨ b = delimiter
    · rw [escaped_cons_of_special hspecial, List.cons_append, List.cons_append,
        readDelimited_escape h, ih]
      obtain rfl | rfl := hspecial
      · rw [if_neg h.symm, escaped_cons_of_special (.inl rfl)]
      · rw [if_pos rfl, escaped_cons_of_ordinary (by rwa [or_self])]
    · rw [escaped_cons_of_ordinary hspecial, List.cons_append, readDelimited_ordinary hspecial, ih,
        escaped_cons_of_ordinary (by rw [or_self]; exact fun hb => hspecial (.inl hb))]

end Escaping

/-! ## The reader of replacements -/

namespace Regex

/-- An ordinary byte of a replacement stands for itself. -/
theorem parts_ordinary {b : UInt8} (h : b ≠ ascii '\\') (rest : Line) :
    parts (b :: rest) = .literal b :: parts rest := by
  cases rest with
  | nil => rfl
  | cons c rest => rw [parts, if_neg h]

/-- **Every byte of a text whose backslashes are escaped stands for itself.** -/
theorem parts_escaped (text : Line) : parts (escaped (ascii '\\') text) = text.map .literal := by
  induction text with
  | nil => rfl
  | cons b text ih =>
    by_cases hb : b = ascii '\\'
    · rw [escaped_cons_of_special (.inl hb), parts, if_pos rfl, ih, List.map_cons, hb]
      rfl
    · rw [escaped_cons_of_ordinary (by rwa [or_self]), parts_ordinary hb, ih, List.map_cons]

/-- A replacement whose backslashes are escaped is the same for every match. -/
theorem render_escaped (line : Array UInt8) (m : Match) (text : Line) :
    render line m (escaped (ascii '\\') text) = text := by
  rw [render, parts_escaped, List.flatMap_map]
  exact List.flatMap_singleton' text

end Regex

/-! ## Both readers -/

open Regex (Match render)

/-- **Every text can be written as a replacement.** With a backslash before each backslash and each
delimiter, the text is read up to the delimiter behind it, and replaces every match, of whatever
pattern and in whatever line, by exactly that text. -/
theorem render_readDelimited_escaped {delimiter : UInt8} (h : delimiter ≠ ascii '\\')
    (text rest : Line) :
    let read := readDelimited delimiter false (escaped delimiter text ++ delimiter :: rest)
    read.2 = some rest ∧ ∀ (line : Array UInt8) (m : Match), render line m read.1 = text := by
  rw [readDelimited_escaped h]
  exact ⟨rfl, fun line m => Regex.render_escaped line m text⟩

/-- The text `\1\\` behind an `a`, with the delimiter `1`. If it is written without the escapes, the
text `\1` is what the first group has captured. -/
theorem render_readDelimited_escaped_digit :
    let delimiter := ascii '1'
    let text := Line.ofString "a\\1\\\\"
    let line := (Line.ofString "xyz").toArray
    let m : Match := ⟨⟨0, 2⟩, Regex.Captures.empty.set 0 (some ⟨1, 1⟩), 1⟩
    let read := readDelimited delimiter false
      (Line.ofString "a\\\\\\1\\\\\\\\" ++ delimiter :: Line.ofString "g")
    delimiter ≠ ascii '\\' ∧ escaped delimiter text = Line.ofString "a\\\\\\1\\\\\\\\" ∧
      read.2 = some (Line.ofString "g") ∧ render line m read.1 = text ∧
      render line m text = Line.ofString "ay\\" := by
  intro delimiter text line m read
  have hdelimiter : delimiter ≠ ascii '\\' := by decide
  have htext : escaped delimiter text = Line.ofString "a\\\\\\1\\\\\\\\" := by decide
  have h := render_readDelimited_escaped hdelimiter text (Line.ofString "g")
  rw [htext] at h
  exact ⟨hdelimiter, htext, h.1, h.2 line m, by decide⟩

/-- **Every text can be written in a substitution.** If its backslashes and delimiters are escaped
in the replacement, the substitution that is read replaces each match by that text. The delimiter
may be any byte that a substitution takes for one, other than a backslash.

**Proof sketch.** The replacement that is read has its backslashes escaped and nothing else, so that
every byte of it stands for itself when a match is replaced. The flags are read behind it. -/
theorem readSubstitution_escaped {delimiter : UInt8} {bytes pattern text flags : Line}
    (hescape : delimiter ≠ ascii '\\') (hflag : isFlag delimiter = false)
    (hdelimiter : ¬(delimiter = ascii ' ' ∨ delimiter = newline))
    (hpattern : readPattern delimiter bytes =
      .ok (pattern, escaped delimiter text ++ delimiter :: flags)) :
    ∃ replacement, (∀ (line : Array UInt8) (m : Match), render line m replacement = text) ∧
      readSubstitution (delimiter :: bytes) = (do
        let regex ← recallPattern pattern
        let (occurrence, mode) ← ofResult (readFlags none none flags)
        return (.substitute ⟨regex, replacement, occurrence.getD .first⟩, mode)) := by
  refine ⟨escaped (ascii '\\') text, fun line m => Regex.render_escaped line m text, ?_⟩
  have hread : readDelimiter (delimiter :: bytes) = .ok (delimiter, bytes) := if_neg hdelimiter
  unfold readSubstitution readRegex
  rw [hread]
  simp only [ofResult, pure_bind, bind_assoc, hpattern, readDelimited_escaped hescape]
  simp [hflag]

end LineEditor
