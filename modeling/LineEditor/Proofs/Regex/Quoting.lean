import LineEditor.Proofs.Regex.Captures

set_option autoImplicit false
set_option relaxedAutoImplicit false

/-!
# Quoted patterns

A text becomes a pattern for itself by a backslash before each byte that would mean something else
where it stands. Which bytes these are depends on the place: a dot and an opening bracket have a
meaning everywhere, a star behind something that it can repeat, a `^` only as the first byte and a
`$` only as the last one. A backslash must not stand before the bytes that mean something only
behind it. The pattern of a text that is quoted in this way has neither groups nor anchors, and
searching for it is searching for the text.

## Main definitions

* `LineEditor.Regex.quoted`: a text with a backslash before each of some bytes.
* `LineEditor.Regex.Sufficient`: which bytes must be quoted for a text to be read literally.
* `LineEditor.Regex.FirstOccurrence`: where a text stands first in a longer one.
* `LineEditor.Regex.SearchesFor`: a pattern that finds what a search for a text finds.

## Main results

* `LineEditor.Regex.ofPattern_quoted`: a text that is sufficiently quoted is read literally.
* `LineEditor.Regex.Program.search_literal_eq_some_iff`: a literal pattern is found where its text
  stands first.
* `LineEditor.Regex.find?_quoted`: every text can be searched for with all its special bytes quoted.
-/

namespace LineEditor.Regex

/-! ## Quoting -/

/-- The bytes that have a meaning of their own somewhere in a pattern, or that end something that
has one. -/
def specialBytes : Line :=
  [ascii '.', ascii '[', ascii ']', ascii '*', ascii '^', ascii '$', ascii '\\']

/-- A byte, with a backslash before it if it is one of the given ones. -/
def quote (special : Line) (b : UInt8) : Line := if b ∈ special then [ascii '\\', b] else [b]

/-- A text with a backslash before each of the given bytes in it. -/
def quoted (special text : Line) : Line := text.flatMap (quote special)

section Quoting

variable {special text : Line} {b : UInt8}

/-- A byte to be quoted gets a backslash. -/
theorem quote_of_mem (h : b ∈ special) : quote special b = [ascii '\\', b] := if_pos h

/-- Any other byte stands as it is. -/
theorem quote_of_not_mem (h : b ∉ special) : quote special b = [b] := if_neg h

/-- Nothing is quoted of an empty text. -/
@[simp] theorem quoted_nil (special : Line) : quoted special [] = [] := rfl

/-- The first byte of a text is quoted first. -/
theorem quoted_cons (special : Line) (b : UInt8) (text : Line) :
    quoted special (b :: text) = quote special b ++ quoted special text := List.flatMap_cons

/-- The last one is quoted last. -/
theorem quoted_concat (special text : Line) (b : UInt8) :
    quoted special (text ++ [b]) = quoted special text ++ quote special b := by
  simp [quoted]

/-- Quoting makes no text empty. -/
theorem quoted_ne_nil (h : text ≠ []) : quoted special text ≠ [] := by
  obtain ⟨b, text, rfl⟩ := List.exists_cons_of_ne_nil h
  rw [quoted_cons, quote]
  split <;> simp

/-- A quoted byte still comes last. -/
theorem getLast?_append_quote (front : Line) (special : Line) (b : UInt8) :
    (front ++ quote special b).getLast? = some b := by
  unfold quote
  split <;> simp

/-! ## Reading a quoted text -/

/-- The expression that matches a text and nothing else, byte by byte. -/
def Expression.literal : Line → Expression
  | [] => .empty
  | b :: text => .single (.literal b) .once (literal text)

/-- The given bytes are enough to be quoted in a text for it to be read literally, and none of them
gets a meaning by a backslash. -/
structure Sufficient (special text : Line) : Prop where
  /-- No byte that is quoted means something behind a backslash. -/
  plain : ∀ b ∈ special, b ∉ [ascii '(', ascii ')', ascii '\x7b', ascii '\x7d', ascii '+']
  /-- A backslash, a dot and an opening bracket are quoted everywhere. -/
  everywhere : ∀ b ∈ [ascii '\\', ascii '.', ascii '['], b ∈ text → b ∈ special
  /-- A star is quoted if there is something before it. -/
  star : ascii '*' ∈ text.tail → ascii '*' ∈ special
  /-- A `^` is quoted in front. -/
  caret : text.head? = some (ascii '^') → ascii '^' ∈ special
  /-- A `$` is quoted at the end. -/
  dollar : text.getLast? = some (ascii '$') → ascii '$' ∈ special

/-- No special byte means something behind a backslash. -/
theorem not_mem_of_mem_specialBytes (h : b ∈ specialBytes) :
    b ∉ [ascii '(', ascii ')', ascii '\x7b', ascii '\x7d', ascii '+'] := by
  simp only [specialBytes, List.mem_cons, List.not_mem_nil, or_false] at h
  rcases h with rfl | rfl | rfl | rfl | rfl | rfl | rfl <;> decide

/-- The bytes with a meaning everywhere are among the special ones. -/
theorem mem_specialBytes_of_mem (h : b ∈ [ascii '\\', ascii '.', ascii '[']) :
    b ∈ specialBytes := by
  simp only [List.mem_cons, List.not_mem_nil, or_false] at h
  rcases h with rfl | rfl | rfl <;> decide

/-- Quoting the special bytes is sufficient for every text. -/
theorem sufficient_specialBytes (text : Line) : Sufficient specialBytes text where
  plain := fun _ => not_mem_of_mem_specialBytes
  everywhere := fun _ hb _ => mem_specialBytes_of_mem hb
  star := fun _ => by decide
  caret := fun _ => by decide
  dollar := fun _ => by decide

/-- What one byte is read as, whether it is quoted or not. -/
theorem Sufficient.isAtom (h : Sufficient special text) (hb : b ∈ text) {first : Bool}
    (hstar : b = ascii '*' → b ∉ special → first = true) :
    IsAtom first (quote special b) (.literal b) := by
  by_cases hmem : b ∈ special
  · rw [quote_of_mem hmem]
    exact .escape (h.plain b hmem)
  · have hne : ∀ c ∈ [ascii '\\', ascii '.', ascii '['], b ≠ c := by
      rintro c hc rfl
      exact hmem (h.everywhere b hc hb)
    rw [quote_of_not_mem hmem]
    exact .byte (hne _ (by simp)) (hne _ (by simp)) (hne _ (by simp)) fun hb => hstar hb hmem

/-- Bytes that are read literally one by one are read as the text that they are. -/
theorem isSequence_quoted {groups : Nat}
    (h : ∀ b ∈ text, IsAtom false (quote special b) (.literal b)) :
    IsSequence false groups (quoted special text) (.literal text) groups := by
  induction text with
  | nil => exact .empty
  | cons b text ih =>
    obtain ⟨hb, htext⟩ := List.forall_mem_cons.1 h
    rw [quoted_cons]
    exact .single hb .absent (ih htext)

/-- A text that is sufficiently quoted is a sequence, and so is every part in front of it.

**Proof sketch.** By the first byte of the text, which is an atom in its own place; each byte behind
it is one where something that can be repeated stands before it. -/
theorem Sufficient.isSequence {front back : Line} (h : Sufficient special (front ++ back)) :
    IsSequence true 0 (quoted special front) (.literal front) 0 := by
  cases front with
  | nil => exact .empty
  | cons b front =>
    have hrest : ∀ c ∈ front, IsAtom false (quote special c) (.literal c) := by
      intro c hc
      apply h.isAtom (by simp [hc])
      rintro rfl hmem
      exact absurd (h.star (by simp [hc])) hmem
    rw [quoted_cons]
    exact .single (h.isAtom (by simp) fun _ _ => rfl) .absent (isSequence_quoted hrest)

/-- No start anchor is read in a quoted text.

**Proof sketch.** The text begins with a backslash, or with its own first byte, which is quoted if
it is a `^`. -/
theorem head?_quoted_ne (hcaret : text.head? = some (ascii '^') → ascii '^' ∈ special) :
    (quoted special text).head? ≠ some (ascii '^') := by
  cases text with
  | nil => simp
  | cons b text =>
    rw [quoted_cons]
    by_cases hmem : b ∈ special
    · rw [quote_of_mem hmem]
      show some (ascii '\\') ≠ some (ascii '^')
      decide
    · rw [quote_of_not_mem hmem]
      intro hb
      obtain rfl : b = ascii '^' := Option.some.inj hb
      exact hmem (hcaret rfl)

/-- Nor is an end anchor: a `$` at the end is taken by the backslash before it. -/
theorem Sufficient.endsInEscape (h : Sufficient special text)
    (hlast : (quoted special text).getLast? = some (ascii '$')) :
    EndsInEscape (quoted special text) := by
  rcases List.eq_nil_or_concat' text with rfl | ⟨front, b, rfl⟩
  · simp at hlast
  · rw [quoted_concat, getLast?_append_quote] at hlast
    obtain rfl : b = ascii '$' := Option.some.inj hlast
    have hmem : ascii '$' ∈ special := h.dollar List.getLast?_concat
    refine ⟨quoted special front, .literal front, 0, ?_, h.isSequence⟩
    rw [quoted_concat, quote_of_mem hmem]

/-- **A text that is sufficiently quoted is read literally.** -/
theorem ofPattern_quoted (h : Sufficient special text) :
    Regex.ofPattern (quoted special text) =
      .ok ⟨quoted special text, .literal text, false, false, 0⟩ := by
  have hall : Sufficient special (text ++ []) := by rwa [List.append_nil]
  have hprogram : Program.ofPattern (quoted special text) =
      .ok ⟨.literal text, false, false, 0⟩ := by
    rw [Program.ofPattern_eq_ofUnanchored (head?_quoted_ne h.caret), Program.ofUnanchored_eq_ok_iff]
    exact .plain hall.isSequence h.endsInEscape
  rw [Regex.ofPattern, hprogram]

end Quoting

/-! ## Occurrences -/

/-- A text stands in a longer one from a position on. -/
def OccursAt (part : Line) (text : Array UInt8) (start : Nat) : Prop :=
  ∃ front back, text.toList = front ++ part ++ back ∧ front.length = start

/-- The first position, from a given one on, at which a text stands in a longer one. -/
structure FirstOccurrence (part : Line) (text : Array UInt8) (lowest start : Nat) : Prop where
  /-- It is not before the given position. -/
  lowest_le : lowest ≤ start
  /-- The text stands there. -/
  occursAt : OccursAt part text start
  /-- It does not stand anywhere before. -/
  le : ∀ s, lowest ≤ s → OccursAt part text s → start ≤ s

section Occurrences

variable {part : Line} {text : Array UInt8} {start stop lowest : Nat}

/-- A text stands at a position exactly if it is what lies there.

**Proof sketch.** What stands before it and behind it is what lies before and behind these
positions. -/
theorem occursAt_iff :
    OccursAt part text start ↔ start + part.length ≤ text.size ∧
      between text start (start + part.length) = part := by
  constructor
  · rintro ⟨front, back, htext, rfl⟩
    constructor
    · have hlength := congrArg List.length htext
      simp only [Array.length_toList, List.length_append] at hlength
      omega
    · simp [between, htext]
  · rintro ⟨hle, hbetween⟩
    have hsplit : between text 0 start ++ between text start (start + part.length) ++
        between text (start + part.length) text.size = text.toList := by
      rw [between_append (Nat.zero_le _) (Nat.le_add_right ..), between_append (Nat.zero_le _) hle]
      simp [between]
    rw [hbetween] at hsplit
    refine ⟨between text 0 start, between text (start + part.length) text.size, hsplit.symm, ?_⟩
    rw [length_between (by omega), Nat.sub_zero]

/-- No text stands first at two positions. -/
theorem FirstOccurrence.unique {start' : Nat} (h : FirstOccurrence part text lowest start)
    (h' : FirstOccurrence part text lowest start') : start = start' :=
  Nat.le_antisymm (h.le _ h'.lowest_le h'.occursAt) (h'.le _ h.lowest_le h.occursAt)

/-! ## Searching for a literal text -/

/-- What is repeated once is what it is. -/
theorem Bounds.repeated_once (L : Language UInt8) : Bounds.once.repeated L = L := by
  ext w
  constructor
  · rintro ⟨k, hallows, hw⟩
    obtain rfl : k = 1 := Nat.le_antisymm (hallows.le_most 1 rfl) hallows.least_le
    rwa [pow_one] at hw
  · intro hw
    exact ⟨1, ⟨Nat.le_refl 1, fun _ hmost => (Option.some.inj hmost).le⟩, by rwa [pow_one]⟩

/-- The language of a literal expression has its text in it and nothing else.

**Proof sketch.** By induction on the text: its first byte is tested, and the others are those of
the literal expression behind it. -/
theorem Expression.mem_language_literal {w : Line} :
    w ∈ (Expression.literal part).language ↔ w = part := by
  induction part generalizing w with
  | nil => exact Language.mem_one w
  | cons b part ih =>
    rw [Expression.literal, Expression.language, Bounds.repeated_once, Language.mem_mul]
    constructor
    · rintro ⟨u, hu, v, hv, rfl⟩
      obtain rfl : u = [b] := hu
      rw [ih.1 hv]
      rfl
    · rintro rfl
      exact ⟨[b], rfl, part, ih.2 rfl, rfl⟩

/-- A literal expression has no groups. -/
theorem Expression.groups_literal (part : Line) : (Expression.literal part).groups = [] := by
  induction part with
  | nil => rfl
  | cons b part ih => exact ih

namespace Program

variable {p : Program}

/-- What is found without groups has captured nothing.

**Proof sketch.** Captures are those of groups, and there are none; the span of a match is from its
start to its end. -/
theorem eq_of_search_of_groups_eq_nil (hgroups : p.body.groups = []) {m : Match}
    (h : p.search text lowest = some m) :
    m = ⟨⟨m.start, m.stop - m.start⟩, .empty, p.groupCount⟩ := by
  have hsearch := search_eq p text lowest
  rw [h] at hsearch
  obtain ⟨-, hmatches, -⟩ := hsearch
  have hmatch := matchAt?_of_search h
  obtain ⟨-, -, -, -, hfound⟩ :=
    found_of_matchAt? (Nat.le_trans hmatches.start_le hmatches.stop_le) hmatch
  have hcaptures : m.captures = .empty := by
    ext i hi : 1
    rcases hfound.recaptured ⟨i, hi⟩ with hsame | ⟨body, span, hmem, -⟩
    · exact hsame
    · rw [hgroups] at hmem
      cases hmem
  have hcount : m.groupCount = p.groupCount := by
    obtain ⟨r, -, hr⟩ := Option.map_eq_some_iff.1 hmatch
    exact (congrArg Match.groupCount hr).symm
  have hlength : m.stop - m.start = m.span.length := Nat.add_sub_cancel_left ..
  rw [hlength, ← hcaptures, ← hcount]
  rfl

variable {groupCount : Nat}

/-- A literal pattern matches its text where this stands.

**Proof sketch.** What lies between the two positions is the text itself, whose length tells where
the match ends. -/
theorem matches_literal_iff :
    (⟨.literal part, false, false, groupCount⟩ : Program).Matches text start stop ↔
      OccursAt part text start ∧ stop = start + part.length := by
  rw [occursAt_iff]
  constructor
  · intro h
    have hpart : between text start stop = part := Expression.mem_language_literal.1 h.mem_language
    have hlength := length_between (p := start) h.stop_le
    have hle := h.start_le
    rw [hpart] at hlength
    obtain rfl : stop = start + part.length := by omega
    exact ⟨⟨h.stop_le, hpart⟩, rfl⟩
  · rintro ⟨⟨hle, hpart⟩, rfl⟩
    exact ⟨Nat.le_add_right .., hle, nofun, nofun, Expression.mem_language_literal.2 hpart⟩

/-- **A literal pattern is found where its text stands first**, and nothing is captured.

**Proof sketch.** A search finds something exactly if the pattern matches somewhere, and the
earliest it can; a literal pattern matches where its text stands, and what it has captured is
nothing. -/
theorem search_literal_eq_some_iff {m : Match} :
    (⟨.literal part, false, false, groupCount⟩ : Program).search text lowest = some m ↔
      ∃ start, FirstOccurrence part text lowest start ∧
        m = ⟨⟨start, part.length⟩, .empty, groupCount⟩ := by
  have hsearch := search_eq ⟨.literal part, false, false, groupCount⟩ text lowest
  simp only [matches_literal_iff] at hsearch
  cases hm : (⟨.literal part, false, false, groupCount⟩ : Program).search text lowest with
  | none =>
    rw [hm] at hsearch
    constructor
    · nofun
    · rintro ⟨start, hfirst, -⟩
      exact absurd ⟨hfirst.occursAt, rfl⟩ (hsearch start _ hfirst.lowest_le)
  | some found =>
    rw [hm] at hsearch
    obtain ⟨hle, ⟨hoccurs, hstop⟩, hbefore⟩ := hsearch
    have hfirst : FirstOccurrence part text lowest found.start :=
      ⟨hle, hoccurs, fun s hs hoccurs => hbefore s _ hs ⟨hoccurs, rfl⟩⟩
    have hfound := eq_of_search_of_groups_eq_nil (Expression.groups_literal part) hm
    rw [hstop, Nat.add_sub_cancel_left] at hfound
    constructor
    · rintro ⟨⟩
      exact ⟨_, hfirst, hfound⟩
    · rintro ⟨start, hfirst', rfl⟩
      rw [hfound, hfirst.unique hfirst']

/-- It is not found exactly if its text stands nowhere.

**Proof sketch.** Again by what is known of a search. -/
theorem search_literal_eq_none_iff :
    (⟨.literal part, false, false, groupCount⟩ : Program).search text lowest = none ↔
      ∀ start, lowest ≤ start → ¬OccursAt part text start := by
  have hsearch := search_eq ⟨.literal part, false, false, groupCount⟩ text lowest
  simp only [matches_literal_iff] at hsearch
  cases hm : (⟨.literal part, false, false, groupCount⟩ : Program).search text lowest with
  | none =>
    rw [hm] at hsearch
    exact iff_of_true rfl fun start hle hoccurs => hsearch start _ hle ⟨hoccurs, rfl⟩
  | some found =>
    rw [hm] at hsearch
    exact iff_of_false nofun fun h => h _ hsearch.1 hsearch.2.1.1

end Program

end Occurrences

/-- A pattern finds what a search for a text finds: the first place where the text stands, from the
position on where the search begins, and nothing if there is no such place. -/
structure SearchesFor (r : Regex) (part : Line) : Prop where
  /-- What is found is the text, where it stands first, without captures. -/
  find?_eq_some_iff : ∀ (text : Array UInt8) (lowest : Nat) (m : Match),
    r.find? text lowest = some m ↔
      ∃ start, FirstOccurrence part text lowest start ∧ m = ⟨⟨start, part.length⟩, .empty, 0⟩
  /-- If nothing is found, the text stands nowhere. -/
  find?_eq_none_iff : ∀ (text : Array UInt8) (lowest : Nat),
    r.find? text lowest = none ↔ ∀ start, lowest ≤ start → ¬OccursAt part text start

/-- A text that is sufficiently quoted is a pattern that searches for it. -/
theorem Sufficient.exists_searchesFor {special part : Line} (h : Sufficient special part) :
    ∃ r : Regex, Regex.ofPattern (quoted special part) = .ok r ∧ r.SearchesFor part :=
  ⟨_, ofPattern_quoted h, fun _ _ _ => Program.search_literal_eq_some_iff,
    fun _ _ => Program.search_literal_eq_none_iff⟩

/-- **Every text can be searched for**: with a backslash before each special byte it is a pattern
without groups and without anchors, and searching a text for it from any position on finds the first
place from there on where the text stands, and nothing if there is no such place. -/
theorem find?_quoted (part : Line) :
    ∃ r : Regex, Regex.ofPattern (quoted specialBytes part) = .ok r ∧ r.groupCount = 0 ∧
      r.program.body.groups = [] ∧ r.program.startAnchor = false ∧ r.program.endAnchor = false ∧
      r.SearchesFor part := by
  have hread := ofPattern_quoted (sufficient_specialBytes part)
  obtain ⟨r, hr, hsearches⟩ := (sufficient_specialBytes part).exists_searchesFor
  obtain rfl := Except.ok.inj (hread.symm.trans hr)
  exact ⟨_, hread, rfl, Expression.groups_literal part, rfl, rfl, hsearches⟩

end LineEditor.Regex
