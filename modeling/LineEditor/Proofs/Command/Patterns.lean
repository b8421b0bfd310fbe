import LineEditor.Proofs.Computations
import LineEditor.Proofs.Regex.Unquoted
import LineEditor.Command.Parser

set_option autoImplicit false
set_option relaxedAutoImplicit false

/-!
# Quoted patterns in a command line

In a command line a pattern stands between delimiters, so that a text that is to be searched for is
quoted twice: with a backslash before each special byte for the reader of patterns, and before each
delimiter for the reader of the command line. This one takes off the backslashes before the
delimiters, and what it leaves is read as a pattern. So a delimiter that is a special byte gets its
meaning back: `s.\..x.` replaces the first byte of a line, whatever it is, and not the first dot.
This concerns the five bytes `.`, `[`, `*`, `^` and `$`, each in the places where it has a meaning.
With all other delimiters every text can be searched for.

## Main definitions

* `LineEditor.stillSpecial`: the bytes that are still quoted when the command line has been read.
* `LineEditor.StandsForItself`: the texts in which a delimiter has no meaning of its own.

## Main results

* `LineEditor.delimits_quoted`: the reader of the command line finds the end of a quoted text.
* `LineEditor.readPattern_quoted`: a quoted text is read up to its delimiter, and what is read
  searches for the text exactly if the delimiter has no meaning in it.
* `LineEditor.readRegex_quoted`: with most delimiters, every text can be searched for in a command.
-/

namespace LineEditor

open Regex (quoted specialBytes Sufficient Harmless OccursAt)

/-- The bytes that are still quoted when the command line's reader has taken off the backslashes
before the delimiter. -/
def stillSpecial (delimiter : UInt8) : Line := specialBytes.filter (· ≠ delimiter)

section

variable {delimiter b : UInt8}

/-- What is still quoted are the special bytes but the delimiter. -/
theorem mem_stillSpecial_iff :
    b ∈ stillSpecial delimiter ↔ b ∈ specialBytes ∧ b ≠ delimiter := by
  simp [stillSpecial]

/-- What is still quoted leaves a text a sequence of atoms.

**Proof sketch.** A delimiter is read without its backslash, and if it is the opening bracket then
no other byte is. -/
theorem harmless_stillSpecial (h : delimiter ≠ ascii '\\') : Harmless (stillSpecial delimiter) where
  plain := fun _ hb => Regex.not_mem_of_mem_specialBytes (mem_stillSpecial_iff.1 hb).1
  escape := mem_stillSpecial_iff.2 ⟨by decide, h.symm⟩
  bracket := by
    intro hopening
    have hdelimiter : ascii '[' = delimiter := by
      by_contra hne
      exact hopening (mem_stillSpecial_iff.2 ⟨by decide, hne⟩)
    rw [← hdelimiter]
    decide

/-- A delimiter has no meaning of its own where it stands in a text. -/
structure StandsForItself (delimiter : UInt8) (text : Line) : Prop where
  /-- A dot and an opening bracket always have one. -/
  everywhere : delimiter ∈ [ascii '.', ascii '['] → delimiter ∉ text
  /-- A star has one behind something that it can repeat. -/
  star : delimiter = ascii '*' → delimiter ∉ text.tail
  /-- A `^` has one in front. -/
  caret : delimiter = ascii '^' → text.head? ≠ some delimiter
  /-- A `$` has one at the end. -/
  dollar : delimiter = ascii '$' → text.getLast? ≠ some delimiter

/-- Most bytes have no meaning of their own anywhere. -/
theorem standsForItself_of_not_mem {text : Line}
    (h : delimiter ∉ [ascii '.', ascii '[', ascii '*', ascii '^', ascii '$']) :
    StandsForItself delimiter text := by
  simp only [List.mem_cons, List.not_mem_nil, or_false, not_or] at h
  obtain ⟨hdot, hopening, hstar, hcaret, hdollar⟩ := h
  refine ⟨by simp [hdot, hopening], ?_, ?_, ?_⟩
  · exact fun h => absurd h hstar
  · exact fun h => absurd h hcaret
  · exact fun h => absurd h hdollar

/-- What is still quoted is sufficient exactly if the delimiter has no meaning in the text.

**Proof sketch.** The only special byte that is not quoted any more is the delimiter. So each
condition on where a byte that is not quoted stands is a condition on where the delimiter stands. -/
theorem sufficient_stillSpecial_iff (h : delimiter ≠ ascii '\\') {text : Line} :
    Sufficient (stillSpecial delimiter) text ↔ StandsForItself delimiter text := by
  have hself : delimiter ∉ stillSpecial delimiter := by simp [mem_stillSpecial_iff]
  constructor
  · intro hsufficient
    refine ⟨?_, ?_, ?_, ?_⟩
    · intro hdelimiter hmem
      exact hself (hsufficient.everywhere delimiter (List.mem_cons_of_mem _ hdelimiter) hmem)
    · rintro rfl hmem
      exact hself (hsufficient.star hmem)
    · rintro rfl hhead
      exact hself (hsufficient.caret hhead)
    · rintro rfl hlast
      exact hself (hsufficient.dollar hlast)
  · intro hstands
    have hquoted {b : UInt8} (hb : b ∈ specialBytes) (hne : delimiter ≠ b) :
        b ∈ stillSpecial delimiter := mem_stillSpecial_iff.2 ⟨hb, hne.symm⟩
    refine ⟨(harmless_stillSpecial h).plain, ?_, ?_, ?_, ?_⟩
    · intro b hb hmem
      apply hquoted (Regex.mem_specialBytes_of_mem hb)
      rintro rfl
      rcases List.mem_cons.1 hb with hb | hb
      · exact h hb
      · exact hstands.everywhere hb hmem
    · intro hmem
      apply hquoted (by decide)
      rintro rfl
      exact hstands.star rfl hmem
    · intro hhead
      apply hquoted (by decide)
      rintro rfl
      exact hstands.caret rfl hhead
    · intro hlast
      apply hquoted (by decide)
      rintro rfl
      exact hstands.dollar rfl hlast

/-- **The reader of the command line ends at the delimiter behind a quoted text**, and leaves all
bytes quoted but the delimiter.

**Proof sketch.** Induction on the text. A delimiter loses its backslash; any other special byte
keeps it; and every other byte is itself and opens no bracket expression. -/
theorem delimits_quoted (h : delimiter ≠ ascii '\\') (text rest : Line) :
    Delimits delimiter (quoted (delimiter :: specialBytes) text ++ delimiter :: rest)
      (quoted (stillSpecial delimiter) text) rest := by
  induction text with
  | nil => exact .closing
  | cons b text ih =>
    rw [Regex.quoted_cons, Regex.quoted_cons, List.append_assoc]
    by_cases hb : b = delimiter
    · subst hb
      rw [Regex.quote_of_mem (by simp), Regex.quote_of_not_mem (by simp [mem_stillSpecial_iff])]
      exact .delimiter h.symm ih
    · by_cases hspecial : b ∈ specialBytes
      · rw [Regex.quote_of_mem (by simp [hspecial]),
          Regex.quote_of_mem (mem_stillSpecial_iff.2 ⟨hspecial, hb⟩)]
        exact .escape h.symm hb ih
      · have hne : ∀ c ∈ specialBytes, b ≠ c := by
          rintro c hc rfl
          exact hspecial hc
        rw [Regex.quote_of_not_mem (by simp [hb, hspecial]),
          Regex.quote_of_not_mem fun hmem => hspecial (mem_stillSpecial_iff.1 hmem).1]
        exact .byte hb (hne _ (by decide)) (hne _ (by decide)) ih

end

/-- **A text with a backslash before each special byte and each delimiter is read up to the
delimiter behind it**, whatever follows, if the delimiter is not the backslash itself. What is read
is a pattern that searches for the text exactly if the delimiter has no meaning of its own where it
stands in the text.

**Proof sketch.** What is read is the text with its special bytes quoted but for the delimiter. A
pattern of this kind searches for its text exactly if the quoted bytes are sufficient, that is if
the delimiter stands for itself. -/
theorem readPattern_quoted {delimiter : UInt8} (h : delimiter ≠ ascii '\\') (text : Line) :
    ∃ pattern : Line,
      (∀ rest, readPattern delimiter
        (quoted (delimiter :: specialBytes) text ++ delimiter :: rest) = .ok (pattern, rest)) ∧
      ((∃ r : Regex, Regex.ofPattern pattern = .ok r ∧ r.SearchesFor text) ↔
        StandsForItself delimiter text) := by
  refine ⟨quoted (stillSpecial delimiter) text, ?_, ?_⟩
  · intro rest
    rw [readPattern, readDelimited_of_delimits (delimits_quoted h text rest)]
  · rw [← sufficient_stillSpecial_iff h]
    exact (harmless_stillSpecial h).exists_searchesFor_iff

/-- Between stars, `*[a]` is written as `\*\[a\]`, and what is read of this searches for `*[a]`: the
star is in front, where it has no meaning of its own.

**Proof sketch.** The reading is computed, and the star at the front stands for itself. -/
theorem readPattern_quoted_star :
    let text := Line.ofString "*[a]"
    let pattern := Line.ofString "*\\[a\\]"
    ascii '*' ≠ ascii '\\' ∧ quoted (ascii '*' :: specialBytes) text = Line.ofString "\\*\\[a\\]" ∧
      readPattern (ascii '*') (Line.ofString "\\*\\[a\\]*x*") =
        .ok (pattern, Line.ofString "x*") ∧
      ∃ r : Regex, Regex.ofPattern pattern = .ok r ∧ r.SearchesFor text := by
  intro text pattern
  have hdelimiter : ascii '*' ≠ ascii '\\' := by decide
  have hstands : StandsForItself (ascii '*') text :=
    ⟨by decide, by decide, by decide, by decide⟩
  have hread : readPattern (ascii '*') (Line.ofString "\\*\\[a\\]*x*") =
      .ok (pattern, Line.ofString "x*") := by decide +kernel
  obtain ⟨found, hfound, hsearch⟩ := readPattern_quoted hdelimiter text
  have hline := hfound (Line.ofString "x*")
  rw [show quoted (ascii '*' :: specialBytes) text ++ ascii '*' :: Line.ofString "x*" =
    Line.ofString "\\*\\[a\\]*x*" by decide, hread] at hline
  obtain ⟨rfl, -⟩ := Prod.mk.inj (Except.ok.inj hline)
  exact ⟨hdelimiter, by decide, hread, hsearch.2 hstands⟩

/-- Between dots, which are taken for delimiters, a dot is written as `\.`, and what is read of this
finds an `a`.

**Proof sketch.** The pattern that is read is a single dot, which finds the `a`. No dot occurs in
the line, so that a pattern that searched for it would find nothing. -/
theorem readPattern_quoted_dot_not_searchesFor :
    let text := Line.ofString "."
    let line := (Line.ofString "a").toArray
    readDelimiter (Line.ofString ".\\..x.") = .ok (ascii '.', Line.ofString "\\..x.") ∧
      quoted (ascii '.' :: specialBytes) text = Line.ofString "\\." ∧
      (∀ start, ¬OccursAt text line start) ∧
      ∃ r : Regex,
        readPattern (ascii '.') (Line.ofString "\\..x.") = .ok (r.pattern, Line.ofString "x.") ∧
        Regex.ofPattern r.pattern = .ok r ∧
        r.find? line 0 = some ⟨⟨0, 1⟩, .empty, 0⟩ ∧ ¬r.SearchesFor text := by
  intro text line
  have hoccurs : ∀ start, ¬OccursAt text line start := by
    rintro start ⟨front, back, htext, -⟩
    have hmem : ascii '.' ∈ line.toList := by
      rw [htext]
      exact List.mem_append_left _ (List.mem_append_right _ (by decide))
    exact absurd hmem (by decide)
  let r : Regex := ⟨text, .single .any .once .empty, false, false, 0⟩
  have hfind : r.find? line 0 = some ⟨⟨0, 1⟩, .empty, 0⟩ := by decide +kernel
  refine ⟨by decide, by decide, hoccurs, r, by decide +kernel, by decide +kernel, hfind, ?_⟩
  intro hsearches
  have hnone := (hsearches.find?_eq_none_iff line 0).2 fun start _ => hoccurs start
  rw [hfind] at hnone
  cases hnone

/-- A pattern that is written is compiled and remembered. -/
theorem recallPattern_of_ne_nil {pattern : Line} {r : Regex} (hne : pattern ≠ [])
    (hr : Regex.ofPattern pattern = .ok r) (last : Option Regex) :
    recallPattern pattern last = .ok r (some r) := by
  have hempty : pattern.isEmpty = false := by simpa using hne
  unfold recallPattern
  rw [hempty, hr]
  rfl

/-- **Every text can be searched for in a command**, with a delimiter that means nothing in a
pattern: what is read from the quoted text is a pattern that searches for it, and this is
remembered.

**Proof sketch.** Such a delimiter stands for itself in any text. The pattern that is read is not
empty, so that it is compiled and not recalled. -/
theorem readRegex_quoted {delimiter : UInt8} {text : Line} (hescape : delimiter ≠ ascii '\\')
    (hmeaning : delimiter ∉ [ascii '.', ascii '[', ascii '*', ascii '^', ascii '$'])
    (haccepted : ¬(delimiter = ascii ' ' ∨ delimiter = newline)) (htext : text ≠ []) (rest : Line)
    (last : Option Regex) :
    ∃ r : Regex, r.SearchesFor text ∧
      readRegex
        (delimiter :: (quoted (delimiter :: specialBytes) text ++ delimiter :: rest)) last =
        .ok (r, delimiter, rest) (some r) := by
  have hsufficient : Sufficient (stillSpecial delimiter) text :=
    (sufficient_stillSpecial_iff hescape).2 (standsForItself_of_not_mem hmeaning)
  obtain ⟨r, hr, hsearches⟩ := hsufficient.exists_searchesFor
  have hdelimiter : readDelimiter
      (delimiter :: (quoted (delimiter :: specialBytes) text ++ delimiter :: rest)) =
      .ok (delimiter, quoted (delimiter :: specialBytes) text ++ delimiter :: rest) :=
    if_neg haccepted
  have hpattern : readPattern delimiter
      (quoted (delimiter :: specialBytes) text ++ delimiter :: rest) =
      .ok (quoted (stillSpecial delimiter) text, rest) := by
    rw [readPattern, readDelimited_of_delimits (delimits_quoted hescape text rest)]
  have hrecall := recallPattern_of_ne_nil (Regex.quoted_ne_nil htext) hr last
  refine ⟨r, hsearches, ?_⟩
  unfold readRegex
  rw [hdelimiter]
  simp only [ofResult, EState.bind_apply, EState.pure_apply, hpattern, hrecall]

end LineEditor
