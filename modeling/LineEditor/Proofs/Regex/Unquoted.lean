import LineEditor.Proofs.Regex.Quoting

set_option autoImplicit false
set_option relaxedAutoImplicit false

/-!
# What must be quoted

A text can be searched for when all bytes that would mean something else where they stand are
quoted. Nothing less will do: if one of them is not quoted, then the pattern is refused, or it
searches for something else. For the two anchors this is seen on a text that has one more byte. A
dot, a star or a bracket expression lets the pattern match a text that is no longer than the one to
be searched for and is another one, and in that nothing should be found.

## Main definitions

* `LineEditor.Regex.Harmless`: bytes whose quoting leaves a text a sequence of atoms.
* `LineEditor.Regex.MatchesWithin`: an expression that matches a text no longer than a given one.

## Main results

* `LineEditor.Regex.Harmless.matchesWithin`: what is read from a quoted text matches one that is no
  longer.
* `LineEditor.Regex.Harmless.sufficient_of_searchesFor`: what is not sufficiently quoted is not
  searched for.
-/

namespace LineEditor.Regex

/-! ## Taking a quoted text apart -/

section Necessity

variable {special text more : Line} {b : UInt8}

/-- What a quoted text begins with, if this is not a backslash, has not been quoted.

**Proof sketch.** By the first byte of the text, which begins the quoted text by itself or behind a
backslash. -/
theorem quoted_eq_cons (hb : b ≠ ascii '\\') (h : quoted special text = b :: more) :
    b ∉ special ∧ ∃ text', text = b :: text' ∧ more = quoted special text' := by
  cases text with
  | nil => cases h
  | cons c text =>
    rw [quoted_cons] at h
    by_cases hc : c ∈ special
    · rw [quote_of_mem hc] at h
      exact absurd (List.cons.inj h).1.symm hb
    · rw [quote_of_not_mem hc] at h
      obtain ⟨rfl, rfl⟩ := List.cons.inj h
      exact ⟨hc, text, rfl, rfl⟩

/-- Behind the backslash that a quoted text begins with there is a byte that has been quoted.

**Proof sketch.** By the first byte of the text: a backslash in front of it means that it has been
quoted, unless it is a backslash that has not been quoted, which is excluded. -/
theorem quoted_eq_escape (hescape : ascii '\\' ∈ special)
    (h : quoted special text = ascii '\\' :: b :: more) :
    b ∈ special ∧ ∃ text', text = b :: text' ∧ more = quoted special text' := by
  cases text with
  | nil => cases h
  | cons c text =>
    rw [quoted_cons] at h
    by_cases hc : c ∈ special
    · rw [quote_of_mem hc] at h
      obtain ⟨rfl, rfl⟩ := List.cons.inj (List.cons.inj h).2
      exact ⟨hc, text, rfl, rfl⟩
    · rw [quote_of_not_mem hc] at h
      obtain ⟨rfl, -⟩ := List.cons.inj h
      exact absurd hescape hc

/-- A text that is cut behind a byte that has been quoted leaves a quoted text.

**Proof sketch.** By induction on the text. A byte that has been quoted takes two bytes of the
quoted text, of which only the second can be the one behind which it is cut. -/
theorem quoted_eq_append_cons {front : Line} (hmem : b ∈ special) (hb : b ≠ ascii '\\')
    (h : quoted special text = front ++ b :: more) :
    ∃ text', text'.length < text.length ∧ more = quoted special text' := by
  induction text generalizing front with
  | nil => simp at h
  | cons c text ih =>
    have hshorter : text.length < (c :: text).length := Nat.lt_succ_self _
    have hrest {front : Line} (h : quoted special text = front ++ b :: more) :
        ∃ text', text'.length < (c :: text).length ∧ more = quoted special text' := by
      obtain ⟨text', hlt, hmore⟩ := ih h
      exact ⟨text', hlt.trans hshorter, hmore⟩
    rw [quoted_cons] at h
    by_cases hc : c ∈ special
    · rw [quote_of_mem hc] at h
      rcases front with _ | ⟨f, _ | ⟨g, front⟩⟩
      · exact absurd (List.cons.inj h).1.symm hb
      · obtain ⟨rfl, rfl⟩ := List.cons.inj (List.cons.inj h).2
        exact ⟨text, hshorter, rfl⟩
      · exact hrest (List.cons.inj (List.cons.inj h).2).2
    · rw [quote_of_not_mem hc] at h
      rcases front with _ | ⟨f, front⟩
      · obtain ⟨rfl, -⟩ := List.cons.inj h
        exact absurd hmem hc
      · exact hrest (List.cons.inj h).2

/-- A text that is cut behind bytes that have not been quoted leaves a quoted text. -/
theorem quoted_eq_replicate_append {n : Nat} (hb : b ≠ ascii '\\')
    (h : quoted special text = List.replicate n b ++ more) :
    ∃ text', text'.length ≤ text.length ∧ more = quoted special text' := by
  induction n generalizing text with
  | zero => exact ⟨text, Nat.le_refl _, h.symm⟩
  | succ n ih =>
    obtain ⟨-, text, rfl, hmore⟩ := quoted_eq_cons hb h
    obtain ⟨text', hle, hmore⟩ := ih hmore.symm
    exact ⟨text', Nat.le_succ_of_le hle, hmore⟩

/-- The backslashes of a quoted text come in pairs.

**Proof sketch.** By induction on the text: a backslash is quoted by another one, and any other byte
ends in none. -/
theorem endsEven_quoted (hescape : ascii '\\' ∈ special) (text : Line) :
    EndsEven (quoted special text) := by
  induction text with
  | nil => exact .nil
  | cons b text ih =>
    rw [quoted_cons]
    refine EndsEven.append ?_ ih
    by_cases hmem : b ∈ special
    · rw [quote_of_mem hmem]
      by_cases hb : b = ascii '\\'
      · rw [hb]
        rfl
      · exact .of_suffix (List.suffix_cons _ _) hb
    · rw [quote_of_not_mem hmem]
      refine .of_suffix List.suffix_rfl ?_
      rintro rfl
      exact hmem hescape

/-! ## What is read from a quoted text -/

/-- The given bytes leave a quoted text a sequence of atoms without groups and intervals: none of
them gets a meaning by a backslash, the backslash is one of them, and so is the `]` unless the `[`
is. -/
structure Harmless (special : Line) : Prop where
  /-- No byte that is quoted means something behind a backslash. -/
  plain : ∀ b ∈ special, b ∉ [ascii '(', ascii ')', ascii '\x7b', ascii '\x7d', ascii '+']
  /-- The backslash is quoted. -/
  escape : ascii '\\' ∈ special
  /-- A bracket expression ends in a byte that is quoted. -/
  bracket : ascii '[' ∉ special → ascii ']' ∈ special

variable {first : Bool} {groups groups' : Nat} {source atom quantifier rest : Line}
  {test : ByteTest} {bounds : Bounds} {e : Expression}

/-- In front of a quoted text stands no quantifier but stars that have not been quoted.

**Proof sketch.** By the kinds of quantifiers. A plus and an interval begin with an escape, which
stands in a quoted text only for a byte that is quoted, and these are not. -/
theorem Harmless.quantifier_cases (h : Harmless special)
    (hquantifier : IsQuantifier quantifier bounds)
    (hsource : quoted special text = quantifier ++ rest) :
    (quantifier = [] ∧ bounds = .once) ∨
      (bounds = ⟨0, none⟩ ∧ ∃ text', text'.length < text.length ∧ rest = quoted special text') := by
  cases hquantifier with
  | absent => exact .inl ⟨rfl, rfl⟩
  | star more =>
    right
    obtain ⟨-, text, rfl, hrest⟩ := quoted_eq_cons (by decide) hsource
    obtain ⟨text', hle, hrest⟩ := quoted_eq_replicate_append (by decide) hrest.symm
    exact ⟨rfl, text', Nat.lt_succ_of_le hle, hrest⟩
  | plus =>
    have hmem := (quoted_eq_escape h.escape hsource).1
    exact absurd (by simp) (h.plain _ hmem)
  | interval =>
    have hmem := (quoted_eq_escape h.escape hsource).1
    exact absurd (by simp) (h.plain _ hmem)

/-- In front of a quoted text stands an atom for its first byte, or a dot that has not been quoted,
or a bracket expression, which takes more than one byte of the text.

**Proof sketch.** By the kinds of atoms. A byte by itself has not been quoted, and an escape is that
of a byte that has. A bracket expression begins with a bracket that has not been quoted, and ends
with one that is quoted if it stands in the text; so it takes more than the first byte. -/
theorem Harmless.atom_cases (h : Harmless special) (hatom : IsAtom first atom test)
    (hsource : quoted special text = atom ++ rest) :
    ∃ b text', text = b :: text' ∧
      ((test = .literal b ∧ rest = quoted special text' ∧
          (b ∈ [ascii '.', ascii '['] → b ∈ special) ∧
          (b = ascii '*' → first = false → b ∈ special)) ∨
        (test = .any ∧ b = ascii '.' ∧ rest = quoted special text') ∨
        ∃ text'', text''.length < text'.length ∧ rest = quoted special text'') := by
  cases hatom with
  | @byte b hescape hany hbracket hstar =>
    obtain ⟨hmem, text, rfl, hrest⟩ := quoted_eq_cons hescape hsource
    refine ⟨b, text, rfl, .inl ⟨rfl, hrest, ?_, ?_⟩⟩
    · simp [hany, hbracket]
    · intro hb hfirst
      rw [hstar hb] at hfirst
      cases hfirst
  | @escape b _ =>
    obtain ⟨hmem, text, rfl, hrest⟩ := quoted_eq_escape h.escape hsource
    exact ⟨b, text, rfl, .inl ⟨rfl, hrest, fun _ => hmem, fun _ _ => hmem⟩⟩
  | any =>
    obtain ⟨-, text, rfl, hrest⟩ := quoted_eq_cons (by decide) hsource
    exact ⟨_, text, rfl, .inr (.inl ⟨rfl, rfl, hrest⟩)⟩
  | bracket hset =>
    obtain ⟨hmem, text, rfl, hrest⟩ := quoted_eq_cons (by decide) hsource
    obtain ⟨front, hfront⟩ := hset.suffix
    have hclosing : quoted special text = front ++ ascii ']' :: rest := by
      rw [← hrest, ← hfront]
      simp
    obtain ⟨text', hlt, hrest⟩ := quoted_eq_append_cons (h.bracket hmem) (by decide) hclosing
    exact ⟨_, text, rfl, .inr (.inr ⟨text', hlt, hrest⟩)⟩

/-! ## What is matched by it -/

/-- A byte that passes a test, and what follows it. -/
theorem Expression.cons_mem_language_once {c : UInt8} {w : Line} {next : Expression}
    (hc : test.accepts c) (hw : w ∈ next.language) :
    c :: w ∈ (Expression.single test .once next).language := by
  rw [Expression.language, Bounds.repeated_once, Language.mem_mul]
  exact ⟨[c], ByteTest.mem_language.2 ⟨c, hc, rfl⟩, w, hw, rfl⟩

/-- What follows a test that need not be met. -/
theorem Expression.mem_language_of_least_eq_zero {w : Line} {next : Expression}
    (hleast : bounds.least = 0) (hw : w ∈ next.language) :
    w ∈ (Expression.single test bounds next).language := by
  rw [Expression.language, Language.mem_mul]
  refine ⟨[], ⟨0, ⟨hleast.le, fun _ _ => Nat.zero_le _⟩, ?_⟩, w, hw, rfl⟩
  rw [pow_zero]
  exact Language.nil_mem_one

/-- Everything that has a meaning of its own in the middle of a pattern has been quoted in a text,
which begins in `first` place or behind something that can be repeated. -/
structure Plain (first : Bool) (special text : Line) : Prop where
  /-- A dot and an opening bracket are quoted everywhere. -/
  everywhere : ∀ b ∈ [ascii '.', ascii '['], b ∈ text → b ∈ special
  /-- A star is quoted if there is something before it. -/
  star : ascii '*' ∈ text.tail → ascii '*' ∈ special
  /-- This includes the byte in front if it is not in first place. -/
  front : first = false → ascii '*' ∈ text → ascii '*' ∈ special

/-- What is plain stays so with a byte in front, if this is quoted where it has to be. -/
theorem Plain.cons (h : Plain false special text)
    (hbracket : b ∈ [ascii '.', ascii '['] → b ∈ special)
    (hstar : b = ascii '*' → first = false → b ∈ special) : Plain first special (b :: text) where
  everywhere := by
    intro c hc hmem
    rcases List.mem_cons.1 hmem with rfl | hmem
    · exact hbracket hc
    · exact h.everywhere c hc hmem
  star := h.front rfl
  front := by
    intro hfirst hmem
    rcases List.mem_cons.1 hmem with hb | hmem
    · rw [hb]
      exact hstar hb.symm hfirst
    · exact h.front rfl hmem

/-- An expression matches a text that is no longer than a given one, and another one if something in
that would have had to be quoted. -/
def MatchesWithin (e : Expression) (first : Bool) (special text : Line) : Prop :=
  ∃ w ∈ e.language, w.length ≤ text.length ∧ (w = text → Plain first special text)

/-- A shorter text that is matched is one of those that are looked for. -/
theorem MatchesWithin.of_shorter {w : Line} (hw : w ∈ e.language)
    (hlt : w.length < text.length) : MatchesWithin e first special text := by
  refine ⟨w, hw, hlt.le, ?_⟩
  rintro rfl
  exact absurd hlt (Nat.lt_irrefl _)

/-- **What is read from a quoted text matches a text that is no longer**, and another one if it has
been misread: a dot matches other bytes too, a star allows to leave out what stands before it, and a
bracket expression matches a single byte.

**Proof sketch.** Induction on what is read, one atom with its quantifier at a time. -/
theorem Harmless.matchesWithin (h : Harmless special)
    (hread : IsSequence first groups source e groups') (hsource : quoted special text = source)
    (hne : ∃ u, u ∈ e.language) : MatchesWithin e first special text := by
  induction hread generalizing text with
  | empty =>
    refine ⟨[], Language.nil_mem_one, Nat.zero_le _, ?_⟩
    rintro rfl
    exact ⟨by simp, by simp, by simp⟩
  | @single first _ _ atom quantifier rest test bounds next hatom hquantifier _ ih =>
    obtain ⟨_, hne⟩ := hne
    obtain ⟨v, hv, u, hu, -⟩ := Language.mem_mul.1 hne
    have hnext {text : Line} (hrest : rest = quoted special text) :
        MatchesWithin next false special text := ih hrest.symm ⟨u, hu⟩
    obtain ⟨b, text, rfl, hcases⟩ := h.atom_cases hatom hsource
    -- Whatever the atom has taken, the quantifier stands in front of a quoted text.
    have hafter : ∃ text₁, text₁.length ≤ text.length ∧
        quantifier ++ rest = quoted special text₁ := by
      rcases hcases with ⟨-, hrest, -⟩ | ⟨-, -, hrest⟩ | ⟨text₁, hlt, hrest⟩
      · exact ⟨text, Nat.le_refl _, hrest⟩
      · exact ⟨text, Nat.le_refl _, hrest⟩
      · exact ⟨text₁, hlt.le, hrest⟩
    obtain ⟨text₁, hle, hafter⟩ := hafter
    rcases h.quantifier_cases hquantifier hafter.symm with ⟨rfl, rfl⟩ | ⟨rfl, text₂, hlt, hrest⟩
    · rcases hcases with ⟨rfl, hrest, hbracket, hstar⟩ | ⟨rfl, rfl, hrest⟩ | ⟨text₁, hlt, hrest⟩
      · obtain ⟨w, hw, hlength, hplain⟩ := hnext hrest
        refine ⟨b :: w, Expression.cons_mem_language_once (by simp [ByteTest.accepts]) hw,
          Nat.succ_le_succ hlength, ?_⟩
        intro hsame
        exact (hplain (List.cons.inj hsame).2).cons hbracket hstar
      · -- A dot matches an `a` as well.
        obtain ⟨w, hw, hlength, -⟩ := hnext hrest
        refine ⟨ascii 'a' :: w, Expression.cons_mem_language_once (by decide) hw,
          Nat.succ_le_succ hlength, ?_⟩
        intro hsame
        exact absurd (List.cons.inj hsame).1 (by decide)
      · -- A bracket expression matches a single byte of the given word.
        obtain ⟨w, hw, hlength, -⟩ := hnext hrest
        rw [Bounds.repeated_once] at hv
        obtain ⟨c, hc, -⟩ := ByteTest.mem_language.1 hv
        exact .of_shorter (Expression.cons_mem_language_once hc hw)
          (Nat.succ_lt_succ (Nat.lt_of_le_of_lt hlength hlt))
    · -- What is repeated can be left out.
      obtain ⟨w, hw, hlength, -⟩ := hnext hrest
      exact .of_shorter (Expression.mem_language_of_least_eq_zero rfl hw)
        (Nat.lt_succ_of_le (hlength.trans (hlt.le.trans hle)))
  | group =>
    have hmem := (quoted_eq_escape h.escape hsource).1
    exact absurd (by simp) (h.plain _ hmem)

/-! ## Searching with a text that is not sufficiently quoted -/

variable {r : Regex} {part : Line}

/-- A part stands behind what is in front of it. -/
theorem occursAt_append (front part back : Line) :
    OccursAt part (front ++ part ++ back).toArray front.length :=
  ⟨front, back, rfl, rfl⟩

/-- A search that begins where the text stands finds it there. -/
theorem SearchesFor.matches_append (h : r.SearchesFor part) (front back : Line) :
    r.program.Matches (front ++ part ++ back).toArray front.length
      (front.length + part.length) := by
  have hoccurs := occursAt_append front part back
  have hfirst : FirstOccurrence part (front ++ part ++ back).toArray front.length front.length :=
    ⟨Nat.le_refl _, hoccurs, fun s hs _ => hs⟩
  have hfind := (h.find?_eq_some_iff _ front.length _).2 ⟨_, hfirst, rfl⟩
  have hsearch := Program.search_eq r.program (front ++ part ++ back).toArray front.length
  rw [show r.program.search _ _ = _ from hfind] at hsearch
  exact hsearch.2.1

/-- What searches for a text has no start anchor, since the text may stand behind another byte. -/
theorem SearchesFor.startAnchor_eq_false (h : r.SearchesFor part) :
    r.program.startAnchor = false := by
  rw [Bool.eq_false_iff]
  intro hanchor
  exact absurd ((h.matches_append [ascii 'a'] []).at_start hanchor) (by simp)

/-- Nor has it an end anchor, since another byte may stand behind the text. -/
theorem SearchesFor.endAnchor_eq_false (h : r.SearchesFor part) :
    r.program.endAnchor = false := by
  rw [Bool.eq_false_iff]
  intro hanchor
  have hend := (h.matches_append [] [ascii 'a']).at_end hanchor
  simp at hend

/-- The text itself is matched. -/
theorem SearchesFor.mem_language (h : r.SearchesFor part) : part ∈ r.program.body.language := by
  have hmatches := h.matches_append [] []
  simpa [between] using hmatches.mem_language

/-- No other text that is no longer is matched.

**Proof sketch.** A text that is matched from its beginning to its end is found in itself, so that
the text to be searched for stands in it; and it is no longer than that. -/
theorem SearchesFor.eq_of_mem_language (h : r.SearchesFor part) {w : Line}
    (hw : w ∈ r.program.body.language) (hle : w.length ≤ part.length) : w = part := by
  have hmatches : r.program.Matches w.toArray 0 w.length :=
    ⟨Nat.zero_le _, Nat.le_refl _, fun _ => rfl, fun _ => rfl, by simpa [between] using hw⟩
  have hsearch := Program.search_eq r.program w.toArray 0
  cases hm : r.program.search w.toArray 0 with
  | none =>
    rw [hm] at hsearch
    exact absurd hmatches (hsearch 0 _ (Nat.le_refl _))
  | some m =>
    obtain ⟨start, hfirst, -⟩ := (h.find?_eq_some_iff _ 0 m).1 hm
    obtain ⟨front, back, htext, rfl⟩ := hfirst.occursAt
    have hlength := congrArg List.length htext
    simp only [List.length_append] at hlength
    obtain rfl : front = [] := List.eq_nil_of_length_eq_zero (by omega)
    obtain rfl : back = [] := List.eq_nil_of_length_eq_zero (by omega)
    simpa using htext

/-- An unanchored pattern has the start anchor it has been given. -/
theorem IsUnanchored.startAnchor_eq {startAnchor : Bool} {p : Program}
    (h : IsUnanchored startAnchor source p) : p.startAnchor = startAnchor := by
  cases h with
  | dollar => rfl
  | plain => rfl

/-- Without an end anchor all of the pattern is a sequence. -/
theorem IsUnanchored.isSequence {startAnchor : Bool} {p : Program}
    (h : IsUnanchored startAnchor source p) (hanchor : p.endAnchor = false) :
    IsSequence true 0 source p.body p.groupCount ∧
      (source.getLast? = some (ascii '$') → EndsInEscape source) := by
  cases h with
  | dollar => cases hanchor
  | plain h hdollar => exact ⟨h, hdollar⟩

/-- A `^` in front that is not quoted is read as a start anchor. -/
theorem startAnchor_of_head? (hread : Regex.ofPattern (quoted special text) = .ok r)
    (hhead : text.head? = some (ascii '^')) (hmem : ascii '^' ∉ special) :
    r.program.startAnchor = true := by
  obtain ⟨text, rfl⟩ := List.head?_eq_some_iff.1 hhead
  rw [quoted_cons, quote_of_not_mem hmem] at hread
  have hprogram : Program.ofUnanchored true (quoted special text) = .ok r.program :=
    program_of_ofPattern hread
  exact (Program.ofUnanchored_eq_ok_iff.1 hprogram).startAnchor_eq

/-- A `$` at the end of a quoted text that an escape takes is quoted.

**Proof sketch.** An even number of backslashes stands in front of the dollar sign if it is not
quoted, and an escape that takes it would leave an odd number there. -/
theorem dollar_mem_of_endsInEscape (hescape : ascii '\\' ∈ special)
    (hlast : text.getLast? = some (ascii '$')) (h : EndsInEscape (quoted special text)) :
    ascii '$' ∈ special := by
  by_contra hmem
  obtain ⟨front, rfl⟩ := List.getLast?_eq_some_iff.1 hlast
  rw [quoted_concat, quote_of_not_mem hmem] at h
  obtain ⟨before, _, _, hbefore, hsequence⟩ := h
  have happend : quoted special front ++ [ascii '$'] = (before ++ [ascii '\\']) ++ [ascii '$'] := by
    simpa using hbefore
  have heven := endsEven_quoted hescape front
  rw [List.append_cancel_right happend] at heven
  exact hsequence.endsEven.not_backslash heven

/-- **Which bytes must be quoted for a text to be searched for**: no fewer than those that are
sufficient.

**Proof sketch.** Without its first `^` quoted the pattern would be anchored, and such a pattern
does not search for the text. The pattern is therefore a sequence, which matches some text no longer
than this one, by `matchesWithin`; and since it is this text itself, every byte in it has been
quoted where it has to be. -/
theorem Harmless.sufficient_of_searchesFor (h : Harmless special)
    (hread : Regex.ofPattern (quoted special text) = .ok r) (hsearch : r.SearchesFor text) :
    Sufficient special text := by
  have hcaret : text.head? = some (ascii '^') → ascii '^' ∈ special := by
    intro hhead
    by_contra hmem
    have hanchor := startAnchor_of_head? hread hhead hmem
    rw [hsearch.startAnchor_eq_false] at hanchor
    cases hanchor
  have hprogram := program_of_ofPattern hread
  rw [Program.ofPattern_eq_ofUnanchored (head?_quoted_ne hcaret),
    Program.ofUnanchored_eq_ok_iff] at hprogram
  obtain ⟨hsequence, hdollar⟩ := hprogram.isSequence hsearch.endAnchor_eq_false
  obtain ⟨w, hw, hlength, hplain⟩ := h.matchesWithin hsequence rfl ⟨text, hsearch.mem_language⟩
  have htext := hplain (hsearch.eq_of_mem_language hw hlength)
  refine ⟨h.plain, ?_, htext.star, hcaret, ?_⟩
  · intro b hb hmem
    rcases List.mem_cons.1 hb with rfl | hb
    · exact h.escape
    · exact htext.everywhere b hb hmem
  · intro hlast
    apply dollar_mem_of_endsInEscape h.escape hlast
    apply hdollar
    obtain ⟨front, rfl⟩ := List.getLast?_eq_some_iff.1 hlast
    rw [quoted_concat, getLast?_append_quote]

/-- **A text is searched for with a pattern for it exactly if all bytes are quoted that must
be.** -/
theorem Harmless.exists_searchesFor_iff (h : Harmless special) :
    (∃ r : Regex, Regex.ofPattern (quoted special text) = .ok r ∧ r.SearchesFor text) ↔
      Sufficient special text :=
  ⟨fun ⟨_, hread, hsearch⟩ => h.sufficient_of_searchesFor hread hsearch,
    Sufficient.exists_searchesFor⟩

end Necessity

end LineEditor.Regex
