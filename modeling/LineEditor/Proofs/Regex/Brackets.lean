import Mathlib.Data.List.Chain
import LineEditor.Delimited

set_option autoImplicit false
set_option relaxedAutoImplicit false

/-!
# Where a bracket expression ends

A bracket expression is read twice: first only to find its end, so that a delimiter in it does not
end the pattern, and then for what it means. Both readers must find the same end. The first one
looks at one byte after the other, while the second one takes a range as a whole; so they differ if
a range ends in `[` and a colon follows it, which looks like the start of a class to the first
reader but not to the second one. There is no other difference.

## Main definitions

* `LineEditor.Regex.ByteSet.Plain`: no range up to `[` is followed by a colon.
* `LineEditor.Delimits`: a pattern up to the first delimiter that is neither escaped nor in a
  bracket expression.

## Main results

* `LineEditor.rest_splitBracket`: both readers find the same end of a bracket expression.
* `LineEditor.readPattern_delimits`: a pattern is read up to the delimiter that ends it.
-/

namespace LineEditor

namespace Regex

/-! ## Items that look like the start of a class -/

/-- A range up to `[`. -/
def BracketItem.endsInBracket : BracketItem → Bool
  | range _ high => high == ascii '['
  | _ => false

/-- An item whose first byte is a colon. -/
def BracketItem.startsWithColon : BracketItem → Bool
  | byte b => b == ascii ':'
  | range low _ => low == ascii ':'
  | named _ => false

/-- Two items that follow each other do not look like the start of a class. -/
def BracketItem.Apart (item next : BracketItem) : Prop :=
  item.endsInBracket = true → next.startsWithColon = false

instance (item next : BracketItem) : Decidable (item.Apart next) :=
  inferInstanceAs (Decidable (_ → _))

/-- No range up to `[` is followed by a colon. -/
def ByteSet.Plain (s : ByteSet) : Prop := s.items.IsChain BracketItem.Apart

instance (s : ByteSet) : Decidable s.Plain := inferInstanceAs (Decidable (List.IsChain _ _))

/-- An item that is read from a colon starts with it.

**Proof sketch.** The item is a range from the colon, or the colon itself. A class starts with
another byte. -/
theorem startsWithColon_of_readItem {source : Line} {item : Parsed BracketItem source}
    (h : readItem (ascii ':') source = .ok item) : item.value.startsWithColon = true := by
  unfold readItem at h
  split at h
  · cases h
    rfl
  · split at h
    · rename_i hclass
      exact absurd hclass.1 (by decide)
    · split at h
      · cases h
        rfl
      · split at h
        · split at h
          · cases h
          · cases h
            rfl
        · cases h
          rfl

/-- A class is read up to its closing `:]`. -/
theorem splitClassName_of_readClass {source : Line} {item : Parsed BracketItem source}
    (h : readClass source = .ok item) :
    ∃ name, splitClassName? source = some (name, item.rest) := by
  unfold readClass at h
  split at h
  · cases h
  · rename_i name after hname
    split at h
    · cases h
    · cases h
      exact ⟨name, hname⟩

end Regex

open Regex

/-! ## Finding the end -/

/-- The first reader takes most bytes as they are. -/
theorem rest_splitItems_cons {b : UInt8} {rest : Line} (hb : b ≠ ascii ']')
    (hclass : b = ascii '[' → rest.head? ≠ some (ascii ':')) :
    (splitItems (b :: rest)).2 = (splitItems rest).2 := by
  rw [splitItems, if_neg hb, if_neg fun h => hclass h.1 h.2]

/-- A class is skipped as a whole. -/
theorem rest_splitItems_class {rest name after : Line}
    (h : splitClassName? rest = some (name, after)) :
    (splitItems (ascii '[' :: ascii ':' :: rest)).2 = (splitItems after).2 := by
  have hsplit : (splitClass rest).2 = after := by rw [splitClass, h]
  rw [splitItems, if_neg (by decide), if_pos ⟨rfl, rfl⟩, List.tail_cons, hsplit]

/-- Behind the first byte of an item that is no class, the first reader goes through the rest of
it.

**Proof sketch.** A single byte has no more to go through. Of a range the dash and the upper end are
left. The first reader takes these as two bytes and goes wrong only if the upper end is `[` with a
colon behind it, which is excluded. -/
theorem rest_splitItems_tail {b : UInt8} {source : Line} {item : Parsed BracketItem source}
    (h : readItem b source = .ok item)
    (hclass : b = ascii '[' → source.head? ≠ some (ascii ':'))
    (hnext : item.value.endsInBracket = true → item.rest.head? ≠ some (ascii ':')) :
    (splitItems source).2 = (splitItems item.rest).2 := by
  unfold readItem at h
  split at h
  · cases h
    rfl
  · rename_i c rest
    rw [if_neg fun hc => hclass hc.1 (congrArg some hc.2)] at h
    split at h
    · cases h
      rfl
    · rename_i high after
      split at h
      · rename_i hrange
        obtain ⟨rfl, hhigh⟩ := hrange
        split at h
        · cases h
        · cases h
          -- A range: the dash and its last byte are taken as they are.
          rw [rest_splitItems_cons (by decide) fun hdash => absurd hdash (by decide)]
          refine rest_splitItems_cons hhigh fun hopen => hnext ?_
          simp [BracketItem.endsInBracket, hopen]
      · cases h
        rfl

/-- The first reader goes through an item up to its end.

**Proof sketch.** Either no class starts at the byte, and the rest of the item is gone through, or
the item is a class and both readers end it at the same place. -/
theorem rest_splitItems_of_readItem {b : UInt8} {source : Line} {item : Parsed BracketItem source}
    (h : readItem b source = .ok item) (hb : b ≠ ascii ']')
    (hnext : item.value.endsInBracket = true → item.rest.head? ≠ some (ascii ':')) :
    (splitItems (b :: source)).2 = (splitItems item.rest).2 := by
  by_cases hclass : b = ascii '[' → source.head? ≠ some (ascii ':')
  · rw [rest_splitItems_cons hb hclass]
    exact rest_splitItems_tail h hclass hnext
  · obtain ⟨rfl, hcolon⟩ := Classical.not_imp.1 hclass
    obtain ⟨rest, rfl⟩ : ∃ rest, source = ascii ':' :: rest := by
      cases source with
      | nil => simp at hcolon
      | cons c rest => exact ⟨rest, by simpa using hcolon⟩
    unfold readItem at h
    dsimp only at h
    rw [if_pos ⟨rfl, rfl⟩] at h
    cases hread : readClass rest with
    | error e =>
      rw [hread] at h
      cases h
    | ok named =>
      rw [hread] at h
      cases h
      obtain ⟨name, hname⟩ := splitClassName_of_readClass hread
      exact rest_splitItems_class hname

/-! ## Items up to the closing bracket -/

/-- What the second reader finds at the front: the closing `]`, or an item and other items.

**Proof sketch.** Reading succeeds if it ends at a closing bracket, or if an item and then the other
items are read. -/
theorem cases_of_readItems {first : Bool} {source : Line} {p : Parsed (List BracketItem) source}
    (h : readItems first source = .ok p) :
    (∃ rest, first = false ∧ source = ascii ']' :: rest ∧ p.value = [] ∧ p.rest = rest) ∨
      ∃ b rest, source = b :: rest ∧ (b = ascii ']' → first = true) ∧
        ∃ (item : Parsed BracketItem rest) (q : Parsed (List BracketItem) item.rest),
          readItem b rest = .ok item ∧ readItems false item.rest = .ok q ∧
            p.value = item.value :: q.value ∧ p.rest = q.rest := by
  unfold readItems at h
  split at h
  · cases h
  · rename_i b rest
    split at h
    · rename_i hclosing
      obtain ⟨rfl, rfl⟩ := hclosing
      cases h
      exact .inl ⟨rest, rfl, rfl, rfl, rfl⟩
    · rename_i hitem
      right
      refine ⟨b, rest, rfl, fun hb => by simpa [hb] using hitem, ?_⟩
      cases hread : readItem b rest with
      | error e => simp only [hread] at h; cases h
      | ok item =>
        simp only [hread] at h
        cases hrest : readItems false item.rest with
        | error e => rw [hrest] at h; cases h
        | ok q =>
          rw [hrest] at h
          cases h
          exact ⟨item, q, rfl, hrest, rfl, rfl⟩

/-- What follows an item that ends in `[` does not look like the rest of the start of a class.

**Proof sketch.** Behind such an item the closing bracket follows or an item that does not start
with a colon. -/
theorem head_ne_colon {item : BracketItem} {source : Line} {p : Parsed (List BracketItem) source}
    (h : readItems false source = .ok p) (hp : (item :: p.value).IsChain BracketItem.Apart)
    (hitem : item.endsInBracket = true) : source.head? ≠ some (ascii ':') := by
  obtain ⟨rest, -, rfl, -, -⟩ | ⟨b, rest, rfl, -, next, q, hread, -, hvalue, -⟩ :=
    cases_of_readItems h
  · simp [ascii]
  · intro hcolon
    obtain rfl : b = ascii ':' := by simpa using hcolon
    rw [hvalue, List.isChain_cons_cons] at hp
    have hstart := startsWithColon_of_readItem hread
    rw [hp.1 hitem] at hstart
    cases hstart

/-- Both readers find the same end, if no range up to `[` is followed by a colon.

**Proof sketch.** Strong induction on the number of bytes that are left, since every item leaves
fewer. An item is gone through as a whole, and the induction hypothesis takes care of the others. -/
theorem rest_splitItems_of_readItems {source : Line} {p : Parsed (List BracketItem) source}
    (h : readItems false source = .ok p) (hp : p.value.IsChain BracketItem.Apart) :
    (splitItems source).2 = p.rest := by
  -- Every item leaves fewer bytes to be read.
  induction hlength : source.length using Nat.strong_induction_on generalizing source with
  | _ n ih =>
    obtain ⟨rest, -, rfl, -, hq⟩ | ⟨b, rest, rfl, hfirst, item, q, hread, hrest, hvalue, hq⟩ :=
      cases_of_readItems h
    · rw [splitItems, if_pos rfl, hq]
    · rw [hvalue] at hp
      have hb : b ≠ ascii ']' := fun hb => by cases hfirst hb
      have hshorter : item.rest.length < n := by
        have := item.length_le
        rw [List.length_cons] at hlength
        omega
      rw [rest_splitItems_of_readItem hread hb (head_ne_colon hrest hp), hq]
      exact ih item.rest.length hshorter hrest hp.tail rfl

/-- A `]` in first place is an item for both readers.

**Proof sketch.** The first reader takes the bracket as a byte of its own, and then goes through
what is left of the item. Without a bracket in first place it begins with the items at once. -/
theorem rest_splitItems_of_first {source : Line} {p : Parsed (List BracketItem) source}
    (h : readItems true source = .ok p) (hp : p.value.IsChain BracketItem.Apart) :
    (splitItems (splitByte (ascii ']') source).2).2 = p.rest := by
  obtain ⟨_, hfirst, -⟩ | ⟨b, rest, rfl, -, item, q, hread, hrest, hvalue, hq⟩ :=
    cases_of_readItems h
  · cases hfirst
  · rw [hvalue] at hp
    have hnext := head_ne_colon hrest hp
    have hitems := rest_splitItems_of_readItems hrest hp.tail
    rw [hq, ← hitems]
    by_cases hb : b = ascii ']'
    · have hclass : b = ascii '[' → rest.head? ≠ some (ascii ':') := fun hopen => by
        rw [hb] at hopen
        exact absurd hopen (by decide)
      rw [splitByte, if_pos hb]
      exact rest_splitItems_tail hread hclass hnext
    · rw [splitByte, if_neg hb]
      exact rest_splitItems_of_readItem hread hb hnext

/-- **Both readers find the same end of a bracket expression**, if no range up to `[` in it is
followed by a colon.

**Proof sketch.** A caret in first place is stepped over by both readers. Behind it the items are
read, with a closing bracket in first place as one of them. -/
theorem rest_splitBracket {source : Line} {p : Parsed ByteSet source}
    (h : readBracket source = .ok p) (hp : p.value.Plain) : (splitBracket source).2 = p.rest := by
  unfold readBracket at h
  split at h
  · cases h
  · rename_i b rest
    split at h
    · rename_i hb
      cases hread : readItems true rest with
      | error e => rw [hread] at h; cases h
      | ok items =>
        rw [hread] at h
        cases h
        rw [splitBracket, splitByte, if_pos hb]
        exact rest_splitItems_of_first hread hp
    · rename_i hb
      cases hread : readItems true (b :: rest) with
      | error e => rw [hread] at h; cases h
      | ok items =>
        rw [hread] at h
        cases h
        rw [splitBracket, splitByte.eq_def (ascii '^')]
        dsimp only
        rw [if_neg hb]
        exact rest_splitItems_of_first hread hp

/-! ## Patterns -/

/-- A text up to the first delimiter that is neither escaped nor in a bracket expression, as the
second reader reads these: the text, the pattern in it, and what follows the delimiter. -/
inductive Delimits (delimiter : UInt8) : Line → Line → Line → Prop where
  /-- The delimiter ends the pattern. -/
  | closing {rest : Line} : Delimits delimiter (delimiter :: rest) [] rest
  /-- A delimiter that is escaped belongs to the pattern. -/
  | delimiter {bytes pattern rest : Line} (hdelimiter : ascii '\\' ≠ delimiter)
      (h : Delimits delimiter bytes pattern rest) :
      Delimits delimiter (ascii '\\' :: delimiter :: bytes) (delimiter :: pattern) rest
  /-- Any other escape is kept. -/
  | escape {c : UInt8} {bytes pattern rest : Line} (hdelimiter : ascii '\\' ≠ delimiter)
      (hc : c ≠ delimiter) (h : Delimits delimiter bytes pattern rest) :
      Delimits delimiter (ascii '\\' :: c :: bytes) (ascii '\\' :: c :: pattern) rest
  /-- A bracket expression is kept whole. -/
  | bracket {inside bytes pattern rest : Line} {p : Parsed ByteSet (inside ++ bytes)}
      (hdelimiter : ascii '[' ≠ delimiter) (hread : readBracket (inside ++ bytes) = .ok p)
      (hrest : p.rest = bytes) (hp : p.value.Plain) (h : Delimits delimiter bytes pattern rest) :
      Delimits delimiter (ascii '[' :: (inside ++ bytes)) (ascii '[' :: (inside ++ pattern)) rest
  /-- Any other byte is kept. -/
  | byte {b : UInt8} {bytes pattern rest : Line} (hdelimiter : b ≠ delimiter)
      (hescape : b ≠ ascii '\\') (hbracket : b ≠ ascii '[')
      (h : Delimits delimiter bytes pattern rest) :
      Delimits delimiter (b :: bytes) (b :: pattern) rest

/-- The first reader ends a pattern at its delimiter.

**Proof sketch.** Induction on how the pattern is delimited. A bracket expression is read up to the
end that the second reader finds, since it is plain. -/
theorem readDelimited_of_delimits {delimiter : UInt8} {bytes pattern rest : Line}
    (h : Delimits delimiter bytes pattern rest) :
    readDelimited delimiter true bytes = (pattern, some rest) := by
  induction h with
  | closing =>
    rw [readDelimited.eq_def]
    exact if_pos rfl
  | delimiter hdelimiter _ ih =>
    rw [readDelimited.eq_def]
    dsimp only
    rw [if_neg hdelimiter, if_pos rfl, if_pos rfl, ih]
  | escape hdelimiter hc _ ih =>
    rw [readDelimited.eq_def]
    dsimp only
    rw [if_neg hdelimiter, if_pos rfl, if_neg hc, ih]
  | @bracket inside bytes pattern rest p hdelimiter hread hrest hp _ ih =>
    have hafter : (splitBracket (inside ++ bytes)).2 = bytes := by
      rw [rest_splitBracket hread hp, hrest]
    have hinside : (splitBracket (inside ++ bytes)).1 = inside := by
      have happend := append_splitBracket (inside ++ bytes)
      rw [hafter] at happend
      exact List.append_cancel_right happend
    rw [readDelimited.eq_def]
    dsimp only
    rw [if_neg hdelimiter, if_neg (by decide), if_pos ⟨rfl, rfl⟩, hinside, hafter, ih]
    rfl
  | byte hdelimiter hescape hbracket _ ih =>
    rw [readDelimited.eq_def]
    dsimp only
    rw [if_neg hdelimiter, if_neg hescape, if_neg fun h => hbracket h.1, ih]

/-- **Both readers agree** on a text: they find the same end of a bracket expression if no range up
to `[` in it is followed by a colon, and then a pattern ends at the first delimiter that is neither
escaped nor in a bracket expression as the second reader reads it. -/
theorem readPattern_delimits (bytes : Line) (delimiter : UInt8) :
    (∀ p : Parsed ByteSet bytes, readBracket bytes = .ok p → p.value.Plain →
      (splitBracket bytes).2 = p.rest) ∧
    ∀ pattern rest : Line, Delimits delimiter bytes pattern rest →
      readPattern delimiter bytes = .ok (pattern, rest) := by
  refine ⟨fun p => rest_splitBracket, fun pattern rest h => ?_⟩
  rw [readPattern, readDelimited_of_delimits h]

/-- A pattern with a delimiter in a bracket expression and an escaped one.

**Proof sketch.** The bracket expression is read by computation, and the general statement applies
to it. -/
theorem readPattern_delimits_digits :
    let source := Line.ofString "^]/[:digit:]]\\/x/g"
    ∃ p : Parsed ByteSet source, readBracket source = .ok p ∧ p.value.Plain ∧
      (splitBracket source).2 = p.rest ∧
      Delimits (ascii '/') (ascii '[' :: source) (Line.ofString "[^]/[:digit:]]/x")
        (Line.ofString "g") ∧
      readPattern (ascii '/') (ascii '[' :: source) =
        .ok (Line.ofString "[^]/[:digit:]]/x", Line.ofString "g") := by
  intro source
  let p : Parsed ByteSet (Line.ofString "^]/[:digit:]]" ++ Line.ofString "\\/x/g") :=
    ⟨⟨true, [.byte (ascii ']'), .byte (ascii '/'), .named .digit]⟩, Line.ofString "\\/x/g",
      by decide⟩
  have hread : readBracket (Line.ofString "^]/[:digit:]]" ++ Line.ofString "\\/x/g") = .ok p := by
    with_unfolding_all rfl
  have hplain : p.value.Plain := by decide
  have hafter : Delimits (ascii '/') (Line.ofString "\\/x/g") (Line.ofString "/x")
      (Line.ofString "g") :=
    .delimiter (by decide) (.byte (by decide) (by decide) (by decide) .closing)
  have hdelimits : Delimits (ascii '/') (ascii '[' :: source) (Line.ofString "[^]/[:digit:]]/x")
      (Line.ofString "g") := .bracket (by decide) hread rfl hplain hafter
  exact ⟨p, hread, hplain, (readPattern_delimits source (ascii '/')).1 p hread hplain, hdelimits,
    (readPattern_delimits _ (ascii '/')).2 _ _ hdelimits⟩

/-- The two readers differ on a range up to `[` with a colon behind it: the second one finds the end
of the bracket expression, and the first one goes on to the end of the text.

**Proof sketch.** In `[+-[:]/x` the range ends at the opening bracket. The first reader takes this
bracket with the colon for the start of a class, which has no end. -/
theorem exists_rest_splitBracket_ne :
    ¬∀ {source : Line} {p : Parsed ByteSet source}, readBracket source = .ok p →
      (splitBracket source).2 = p.rest := by
  intro h
  let p : Parsed ByteSet (Line.ofString "+-[:]/x") :=
    ⟨⟨false, [.range (ascii '+') (ascii '['), .byte (ascii ':')]⟩, Line.ofString "/x", by decide⟩
  have hread : readBracket (Line.ofString "+-[:]/x") = .ok p := by
    with_unfolding_all rfl
  have hend : (splitBracket (Line.ofString "+-[:]/x")).2 = [] := by
    decide +kernel
  have hsame := h hread
  rw [hend] at hsame
  exact absurd hsame (by decide)

end LineEditor
