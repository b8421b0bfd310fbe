import LineEditor.Proofs.Regex.Brackets
import LineEditor.Proofs.Regex.Grammar

set_option autoImplicit false
set_option relaxedAutoImplicit false

/-!
# Pieces of a pattern are read by the grammar

Bracket expressions and quantifiers are read exactly where the grammar derives them. For each reader
one lemma says which texts it reads. Behind these, whatever the grammar derives is read, with any
text after it that cannot belong to it, and whatever is read is derived.

## Main definitions

* `LineEditor.Regex.Reads`: what a reader returns.

## Main results

* `LineEditor.Regex.reads_readBracket_iff`: bracket expressions are read by the grammar.
* `LineEditor.Regex.reads_readQuantifier_iff`: so are quantifiers, and no further one follows.
-/

namespace LineEditor.Regex

/-- A reader has read a value and leaves a rest. -/
def Reads {α : Type} {source : Line} (result : Except PatternError (Parsed α source)) (value : α)
    (rest : Line) : Prop := ∃ p, result = .ok p ∧ p.value = value ∧ p.rest = rest

section

variable {α : Type} {source rest : Line} {a : α}

/-- What has been read is known. -/
@[simp] theorem reads_ok_iff {p : Parsed α source} :
    Reads (.ok p) a rest ↔ p.value = a ∧ p.rest = rest := by
  simp [Reads]

/-- A reader that fails has read nothing. -/
@[simp] theorem not_reads_error {e : PatternError} :
    ¬Reads (.error e : Except PatternError (Parsed α source)) a rest := by
  simp [Reads]

end

/-! ## Items of bracket expressions -/

section Items

variable {first : Bool} {b : UInt8} {text source rest : Line} {item : BracketItem}
  {items : List BracketItem}

/-- The name of a class is cut off before its `:]`. -/
theorem splitClassName?_name (c : CharClass) (rest : Line) :
    splitClassName? (Line.ofString c.name ++ ascii ':' :: ascii ']' :: rest) =
      some (Line.ofString c.name, rest) := by
  cases c <;> rfl

/-- The name of a class is that of the class. -/
theorem ofName?_name (c : CharClass) : CharClass.ofName? (Line.ofString c.name) = some c := by
  cases c <;> decide

/-- No other name is. -/
theorem eq_name_of_ofName? {name : Line} {c : CharClass} (h : CharClass.ofName? name = some c) :
    name = Line.ofString c.name := by
  have hfind := List.find?_some h
  exact (beq_iff_eq.1 hfind).symm

/-- A class is read exactly where the name of one stands, closed by `:]`.

**Proof sketch.** What is read is the text that was cut off, and its name is that of the class; and
the name of every class is cut off and found again. -/
theorem reads_readClass_iff :
    Reads (readClass source) item rest ↔
      ∃ c, item = .named c ∧ source = Line.ofString c.name ++ ascii ':' :: ascii ']' :: rest := by
  unfold readClass
  constructor
  · rintro ⟨p, hp, rfl, rfl⟩
    split at hp
    · cases hp
    · rename_i name after hname
      split at hp
      · cases hp
      · rename_i c hc
        cases hp
        refine ⟨c, rfl, ?_⟩
        rw [← eq_name_of_ofName? hc, append_of_splitClassName? hname]
  · rintro ⟨c, rfl, rfl⟩
    split
    · rename_i hname
      rw [splitClassName?_name] at hname
      cases hname
    · rename_i name after hname
      rw [splitClassName?_name] at hname
      cases hname
      split
      · rename_i hc
        rw [ofName?_name] at hc
        cases hc
      · rename_i c' hc
        rw [ofName?_name] at hc
        cases hc
        exact ⟨_, rfl, rfl, rfl⟩

/-- A byte with which no class and no range starts is an item of its own.

**Proof sketch.** Without two bytes after it, the item can only be the byte. With them, a class and
a range are excluded by hypothesis. -/
theorem reads_readItem_byte (hclass : b = ascii '[' → source.head? ≠ some (ascii ':'))
    (hrange : continuesRange source = false) :
    Reads (readItem b source) (.byte b) source := by
  rcases source with _ | ⟨c, _ | ⟨high, rest⟩⟩
  · exact ⟨_, rfl, rfl, rfl⟩
  · rw [readItem, if_neg fun h => hclass h.1 (congrArg some h.2)]
    exact ⟨_, rfl, rfl, rfl⟩
  · rw [readItem, if_neg fun h => hclass h.1 (congrArg some h.2),
      if_neg fun h => by simp [continuesRange, h.1, h.2] at hrange]
    exact ⟨_, rfl, rfl, rfl⟩

/-- A range is read as one, if its ends are in order and it is closed. -/
theorem reads_readItem_range {high : UInt8} (hhigh : high ≠ ascii ']') (hle : b ≤ high) :
    Reads (readItem b (ascii '-' :: high :: rest)) (.range b high) rest := by
  rw [readItem, if_neg fun h => absurd h.2 (by decide), if_pos ⟨rfl, hhigh⟩,
    if_neg (UInt8.not_lt.2 hle)]
  exact ⟨_, rfl, rfl, rfl⟩

/-- A class is read as an item. -/
theorem reads_readItem_class (h : Reads (readClass source) item rest) :
    Reads (readItem (ascii '[') (ascii ':' :: source)) item rest := by
  obtain ⟨p, hp, rfl, rfl⟩ := h
  unfold readItem
  dsimp only
  rw [if_pos ⟨rfl, rfl⟩, hp]
  exact ⟨_, rfl, rfl, rfl⟩

/-- The item that starts with a byte: the byte alone, a range or a class.

**Proof sketch.** The reader looks at a class first, then at a range, and takes the byte alone if
neither begins; each of its branches is one of the three cases. -/
theorem cases_of_reads_readItem (h : Reads (readItem b source) item rest) :
    (item = .byte b ∧ source = rest ∧ (b = ascii '[' → rest.head? ≠ some (ascii ':')) ∧
        continuesRange rest = false) ∨
      (∃ high, item = .range b high ∧ source = ascii '-' :: high :: rest ∧ high ≠ ascii ']' ∧
        b ≤ high) ∨
      ∃ source', b = ascii '[' ∧ source = ascii ':' :: source' ∧
        Reads (readClass source') item rest := by
  obtain ⟨p, hp, rfl, rfl⟩ := h
  unfold readItem at hp
  split at hp
  · cases hp
    exact .inl ⟨rfl, rfl, fun _ => by simp, rfl⟩
  · rename_i c source
    split at hp
    · rename_i hclass
      obtain ⟨rfl, rfl⟩ := hclass
      cases hread : readClass source with
      | error e =>
        rw [hread] at hp
        cases hp
      | ok q =>
        rw [hread] at hp
        cases hp
        exact .inr (.inr ⟨source, rfl, rfl, q, hread, rfl, rfl⟩)
    · rename_i hclass
      have hhead : b = ascii '[' → (c :: source).head? ≠ some (ascii ':') := fun hb hc =>
        hclass ⟨hb, Option.some.inj hc⟩
      split at hp
      · cases hp
        exact .inl ⟨rfl, rfl, hhead, rfl⟩
      · rename_i high after
        split at hp
        · rename_i hrange
          obtain ⟨rfl, hhigh⟩ := hrange
          split at hp
          · cases hp
          · rename_i hle
            cases hp
            exact .inr (.inl ⟨high, rfl, rfl, hhigh, UInt8.not_lt.1 hle⟩)
        · rename_i hrange
          cases hp
          refine .inl ⟨rfl, rfl, hhead, ?_⟩
          simpa [continuesRange] using hrange

/-- What items begin with: the closing `]`, or an item.

**Proof sketch.** By what `cases_of_readItems` says about one step of the reader. -/
theorem reads_readItems_cons_iff :
    Reads (readItems first (b :: source)) items rest ↔
      (b = ascii ']' ∧ first = false ∧ items = [] ∧ source = rest) ∨
      (b = ascii ']' → first = true) ∧ ∃ item items' source', items = item :: items' ∧
        Reads (readItem b source) item source' ∧ Reads (readItems false source') items' rest := by
  constructor
  · rintro ⟨p, hp, rfl, rfl⟩
    obtain ⟨_, hfirst, hsource, hvalue, hrest⟩ | ⟨_, _, hsource, hfirst, item, q, hitem, hitems,
      hvalue, hrest⟩ := cases_of_readItems hp
    · cases hsource
      exact .inl ⟨rfl, hfirst, hvalue, hrest.symm⟩
    · cases hsource
      exact .inr ⟨hfirst, _, _, _, hvalue, ⟨item, hitem, rfl, rfl⟩, q, hitems, rfl, hrest.symm⟩
  · rintro (⟨rfl, rfl, rfl, rfl⟩ | ⟨hfirst, _, _, _, rfl, ⟨q, hitem, rfl, rfl⟩, r, hitems, rfl,
      rfl⟩)
    · rw [readItems, if_pos ⟨rfl, rfl⟩]
      simp
    · rw [readItems, if_neg fun h => absurd (hfirst h.1) (by simp [h.2])]
      simp only [hitem, hitems]
      simp

/-- Whether a range goes on in the items can be told from the items alone. -/
theorem IsItems.continuesRange_append (h : IsItems false text items) (rest : Line) :
    continuesRange (text ++ rest) = continuesRange text := by
  rcases text with _ | ⟨c, _ | ⟨d, text⟩⟩
  · cases h
  · obtain ⟨front, hfront⟩ := h.suffix
    obtain rfl : ascii ']' = c := by simpa using congrArg List.getLast? hfront
    cases rest <;> rfl
  · rfl

/-- What follows items does not change with which byte they begin, since they end with `]`. -/
theorem IsItems.head?_append (h : IsItems first text items) (rest : Line) :
    (text ++ rest).head? = text.head? := by
  cases h <;> rfl

/-- The items of a bracket expression are read.

**Proof sketch.** By induction on the grammar: the first item is read from what stands there, and
its byte does not depend on the text behind the items. -/
theorem IsItems.reads (h : IsItems first text items) (rest : Line) :
    Reads (readItems first (text ++ rest)) items rest := by
  induction h with
  | closing => exact reads_readItems_cons_iff.2 (.inl ⟨rfl, rfl, rfl, rfl⟩)
  | byte hb hclass hrange htext ih =>
    rw [List.cons_append]
    refine reads_readItems_cons_iff.2 (.inr ⟨hb, _, _, _, rfl, reads_readItem_byte ?_ ?_, ih⟩)
    · rwa [htext.head?_append]
    · rwa [htext.continuesRange_append]
  | range hlow hhigh hle _ ih =>
    exact reads_readItems_cons_iff.2
      (.inr ⟨hlow, _, _, _, rfl, reads_readItem_range hhigh hle, ih⟩)
  | @named _ c text _ _ ih =>
    refine reads_readItems_cons_iff.2 (.inr ⟨fun h => absurd h (by decide), _, _, _, rfl, ?_, ih⟩)
    refine reads_readItem_class (reads_readClass_iff.2 ⟨c, rfl, ?_⟩)
    simp

/-- Whatever is read as items are items.

**Proof sketch.** By induction on the length of the text. The reader either closes the expression or
reads one item, of one of the three kinds of `cases_of_reads_readItem`, and goes on with a shorter
text. -/
theorem isItems_of_reads (h : Reads (readItems first source) items rest) :
    ∃ text, source = text ++ rest ∧ IsItems first text items := by
  -- Every item leaves fewer bytes to be read.
  induction hlength : source.length using Nat.strongRecOn generalizing first source items with
  | ind n ih =>
    rcases source with _ | ⟨b, source⟩
    · obtain ⟨p, hp, -, -⟩ := h
      rw [readItems] at hp
      cases hp
    · obtain ⟨rfl, rfl, rfl, rfl⟩ | ⟨hb, item, items, source', rfl, hitem, hitems⟩ :=
        reads_readItems_cons_iff.1 h
      · exact ⟨[ascii ']'], rfl, .closing⟩
      · have hshorter : source'.length < n := by
          obtain ⟨p, -, -, rfl⟩ := hitem
          have := p.length_le
          rw [List.length_cons] at hlength
          omega
        obtain ⟨text, rfl, htext⟩ := ih _ hshorter hitems rfl
        obtain ⟨rfl, rfl, hclass, hrange⟩ | ⟨high, rfl, rfl, hhigh, hle⟩ | ⟨_, rfl, rfl, hnamed⟩ :=
          cases_of_reads_readItem hitem
        · rw [htext.head?_append] at hclass
          rw [htext.continuesRange_append] at hrange
          exact ⟨b :: text, rfl, .byte hb hclass hrange htext⟩
        · exact ⟨b :: ascii '-' :: high :: text, rfl, .range hb hhigh hle htext⟩
        · obtain ⟨c, rfl, rfl⟩ := reads_readClass_iff.1 hnamed
          exact ⟨_, by simp, .named htext⟩

end Items

/-- Behind a caret the items of a negated expression are read. -/
theorem reads_readBracket_caret_iff {source rest : Line} {s : ByteSet} :
    Reads (readBracket (ascii '^' :: source)) s rest ↔
      ∃ items, Reads (readItems true source) items rest ∧ ⟨true, items⟩ = s := by
  rw [readBracket, if_pos rfl]
  cases readItems true source with
  | error e => simp
  | ok p =>
    simp only [reads_ok_iff, and_assoc, exists_eq_left']
    exact and_comm

/-- Without a caret the items of a plain one are. -/
theorem reads_readBracket_iff_of_ne {source rest : Line} {s : ByteSet}
    (h : source.head? ≠ some (ascii '^')) :
    Reads (readBracket source) s rest ↔
      ∃ items, Reads (readItems true source) items rest ∧ ⟨false, items⟩ = s := by
  rcases source with _ | ⟨b, source⟩
  · simp [readBracket, readItems]
  · rw [readBracket, if_neg (by simpa using h)]
    cases readItems true (b :: source) with
    | error e => simp
    | ok p =>
      simp only [reads_ok_iff, and_assoc, exists_eq_left']
      exact and_comm

/-- **Bracket expressions** are read by the grammar.

**Proof sketch.** The expression begins with a caret or not, and in each case its items are read by
the grammar: `isItems_of_reads` gives one direction and `IsItems.reads` the other. Whether there is
a caret is told from the items themselves, since these are not empty. -/
theorem reads_readBracket_iff {source rest : Line} {s : ByteSet} :
    Reads (readBracket source) s rest ↔ ∃ text, source = text ++ rest ∧ IsBracket text s := by
  constructor
  · intro h
    by_cases hcaret : source.head? = some (ascii '^')
    · obtain ⟨source, rfl⟩ := List.head?_eq_some_iff.1 hcaret
      obtain ⟨items, hitems, rfl⟩ := reads_readBracket_caret_iff.1 h
      obtain ⟨text, rfl, htext⟩ := isItems_of_reads hitems
      exact ⟨ascii '^' :: text, rfl, .negated htext⟩
    · obtain ⟨items, hitems, rfl⟩ := (reads_readBracket_iff_of_ne hcaret).1 h
      obtain ⟨text, rfl, htext⟩ := isItems_of_reads hitems
      rw [htext.head?_append] at hcaret
      exact ⟨text, rfl, .plain hcaret htext⟩
  · rintro ⟨text, rfl, h⟩
    cases h with
    | plain hcaret h =>
      rw [← h.head?_append rest] at hcaret
      exact (reads_readBracket_iff_of_ne hcaret).2 ⟨_, h.reads rest, rfl⟩
    | negated h => exact reads_readBracket_caret_iff.2 ⟨_, h.reads rest, rfl⟩

/-! ## Quantifiers -/

section Quantifiers

variable {source rest : Line} {bounds bounds' : Bounds} {least : Nat} {bound most : Option Nat}

/-- A bound is read up to the first byte that is no digit.

**Proof sketch.** The reader takes the longest beginning of digits, whose value must be small
enough. A text that is cut into digits and something that begins with no digit is cut in the same
place. -/
theorem reads_readBound_iff :
    Reads (readBound source) bound rest ↔
      ∃ digits, source = digits ++ rest ∧ (∀ b ∈ rest.head?, isDigit b = false) ∧
        (digits = [] ∧ bound = none ∨ ∃ n ≤ maxRepeat, IsNumeral digits n ∧ bound = some n) := by
  have hread : Reads (readBound source) bound rest ↔
      numeral (source.takeWhile isDigit) ≤ maxRepeat ∧
        (if (source.takeWhile isDigit).isEmpty then none
          else some (numeral (source.takeWhile isDigit))) = bound ∧
        source.dropWhile isDigit = rest := by
    have hmin (n : Nat) : maxRepeat < min (maxRepeat + 1) n ↔ ¬n ≤ maxRepeat := by omega
    unfold readBound
    simp only [numeralUpTo_eq, hmin]
    by_cases hn : numeral (source.takeWhile isDigit) ≤ maxRepeat
    · have hmin' : min (maxRepeat + 1) (numeral (source.takeWhile isDigit)) =
          numeral (source.takeWhile isDigit) := by omega
      simp [hn, hmin']
    · simp [hn]
  rw [hread]
  constructor
  · rintro ⟨hn, rfl, rfl⟩
    refine ⟨source.takeWhile isDigit, (List.takeWhile_append_dropWhile).symm, ?_, ?_⟩
    · intro b hb
      have hhead := List.head?_dropWhile_not isDigit source
      rw [Option.mem_def.1 hb] at hhead
      exact hhead
    · by_cases hdigits : source.takeWhile isDigit = []
      · exact .inl ⟨hdigits, by simp [hdigits]⟩
      · refine .inr ⟨_, hn, ⟨hdigits, fun b hb => ?_, rfl⟩, by simp [hdigits]⟩
        exact List.all_eq_true.1 (List.all_takeWhile) b hb
  · rintro ⟨digits, rfl, hrest, hbound⟩
    have hdrop : rest.dropWhile isDigit = rest := by
      rcases rest with _ | ⟨b, rest⟩
      · rfl
      · exact List.dropWhile_cons_of_neg (by simp [hrest b rfl])
    have htake : rest.takeWhile isDigit = [] := by
      rcases rest with _ | ⟨b, rest⟩
      · rfl
      · exact List.takeWhile_cons_of_neg (by simp [hrest b rfl])
    obtain ⟨rfl, rfl⟩ | ⟨n, hn, hdigits, rfl⟩ := hbound
    · simp [htake, hdrop, numeral]
    · have htake' : (digits ++ rest).takeWhile isDigit = digits := by
        rw [List.takeWhile_append_of_pos hdigits.isDigit, htake, List.append_nil]
      have hdrop' : (digits ++ rest).dropWhile isDigit = rest := by
        rw [List.dropWhile_append_of_pos hdigits.isDigit, hdrop]
      rw [htake', hdrop', hdigits.value]
      exact ⟨hn, by simp [hdigits.ne_nil], rfl⟩

/-- An upper bound is that of the lower one, unless a comma follows. -/
theorem reads_readMost_iff :
    Reads (readMost least source) most rest ↔
      (source.head? ≠ some (ascii ',') ∧ some least = most ∧ source = rest) ∨
      ∃ source', source = ascii ',' :: source' ∧ Reads (readBound source') most rest := by
  rcases source with _ | ⟨b, source⟩
  · simp [readMost]
  · by_cases hb : b = ascii ','
    · obtain rfl := hb
      rw [readMost, if_pos rfl]
      cases hbound : readBound source with
      | error e => simp [hbound]
      | ok p => simp [hbound]
    · rw [readMost, if_neg hb]
      simp [hb]

/-- An interval is closed by `\}`, and its bounds are in order. -/
theorem reads_closeInterval_iff :
    Reads (closeInterval bounds source) bounds' rest ↔
      bounds = bounds' ∧ bounds.ordered = true ∧
        source = ascii '\\' :: ascii '\x7d' :: rest := by
  rcases source with _ | ⟨b, _ | ⟨c, source⟩⟩
  · simp [closeInterval]
  · simp [closeInterval]
  · by_cases hclose : b = ascii '\\' ∧ c = ascii '\x7d' ∧ bounds.ordered = true
    · obtain ⟨rfl, rfl, hordered⟩ := hclose
      rw [closeInterval, if_pos ⟨rfl, rfl, hordered⟩]
      simp [hordered]
    · rw [closeInterval, if_neg hclose]
      simp only [not_reads_error, false_iff, List.cons.injEq]
      rintro ⟨-, hordered, rfl, rfl, -⟩
      exact hclose ⟨rfl, rfl, hordered⟩

/-- An interval is a lower bound, what may follow it, and what closes it.

**Proof sketch.** The reader fails where the lower bound is missing. Otherwise the three steps are
read one after the other, each from what the one before left. -/
theorem reads_readInterval_steps :
    Reads (readInterval source) bounds rest ↔
      ∃ least afterLeast most afterMost, Reads (readBound source) (some least) afterLeast ∧
        Reads (readMost least afterLeast) most afterMost ∧
        Reads (closeInterval ⟨least, most⟩ afterMost) bounds rest := by
  unfold readInterval
  cases readBound source with
  | error e => simp
  | ok p =>
    obtain ⟨_ | least, afterLeast, hleast⟩ := p
    · simp
    · dsimp only
      cases hmost : readMost least afterLeast with
      | error e => simp [hmost]
      | ok q =>
        obtain ⟨most, afterMost, hle⟩ := q
        cases hclose : closeInterval ⟨least, most⟩ afterMost with
        | error e => simp [and_assoc, hmost, hclose]
        | ok r => simp [and_assoc, hmost, hclose]

/-- Intervals are read by the grammar.

**Proof sketch.** Read as the steps of `reads_readInterval_steps`. An upper bound is missing, open
or given, as in the three forms of the grammar; and each bound ends before the comma or the
backslash behind it, which is no digit. -/
theorem reads_readInterval_iff :
    Reads (readInterval source) bounds rest ↔
      ∃ text, source = text ++ ascii '\\' :: ascii '\x7d' :: rest ∧ IsInterval text bounds := by
  rw [reads_readInterval_steps]
  constructor
  · rintro ⟨least, afterLeast, most, afterMost, hleast, hmost, hclose⟩
    obtain ⟨rfl, hordered, rfl⟩ := reads_closeInterval_iff.1 hclose
    obtain ⟨digits, rfl, -, ⟨-, hnone⟩ | ⟨n, hn, hdigits, hsome⟩⟩ := reads_readBound_iff.1 hleast
    · cases hnone
    · cases hsome
      obtain ⟨-, rfl, rfl⟩ | ⟨afterComma, rfl, hbound⟩ := reads_readMost_iff.1 hmost
      · exact ⟨digits, rfl, .exactly hdigits hn⟩
      · obtain ⟨digits', rfl, -, ⟨rfl, rfl⟩ | ⟨m, hm, hdigits', rfl⟩⟩ :=
          reads_readBound_iff.1 hbound
        · exact ⟨digits ++ [ascii ','], by simp, .atLeast hdigits hn⟩
        · refine ⟨digits ++ ascii ',' :: digits', by simp, .between hdigits hdigits' ?_ hm⟩
          simpa [Bounds.ordered] using hordered
  · rintro ⟨text, rfl, h⟩
    have hback : ∀ b ∈ (ascii '\\' :: ascii '\x7d' :: rest).head?, isDigit b = false := by
      rintro _ ⟨⟩
      decide
    have hcomma (after : Line) : ∀ b ∈ (ascii ',' :: after).head?, isDigit b = false := by
      rintro _ ⟨⟩
      decide
    have hbound {digits after : Line} {n : Nat} (hdigits : IsNumeral digits n)
        (hn : n ≤ maxRepeat) (hafter : ∀ b ∈ after.head?, isDigit b = false) :
        Reads (readBound (digits ++ after)) (some n) after :=
      reads_readBound_iff.2 ⟨digits, rfl, hafter, .inr ⟨n, hn, hdigits, rfl⟩⟩
    cases h with
    | @exactly _ n hdigits hn =>
      have hmost : Reads (readMost n (ascii '\\' :: ascii '\x7d' :: rest)) (some n)
          (ascii '\\' :: ascii '\x7d' :: rest) :=
        reads_readMost_iff.2 (.inl ⟨by simp [ascii], rfl, rfl⟩)
      refine ⟨n, _, some n, _, hbound hdigits hn hback, hmost, ?_⟩
      exact reads_closeInterval_iff.2 ⟨rfl, by simp [Bounds.ordered], rfl⟩
    | @atLeast digits n hdigits hn =>
      have hmost : Reads (readMost n (ascii ',' :: ascii '\\' :: ascii '\x7d' :: rest)) none
          (ascii '\\' :: ascii '\x7d' :: rest) :=
        reads_readMost_iff.2
          (.inr ⟨_, rfl, reads_readBound_iff.2 ⟨[], rfl, hback, .inl ⟨rfl, rfl⟩⟩⟩)
      rw [List.append_assoc]
      refine ⟨n, _, none, _, hbound hdigits hn (hcomma _), hmost, ?_⟩
      exact reads_closeInterval_iff.2 ⟨rfl, rfl, rfl⟩
    | @between digits digits' n m hdigits hdigits' hnm hm =>
      have hmost : Reads (readMost n (ascii ',' ::
          (digits' ++ ascii '\\' :: ascii '\x7d' :: rest))) (some m)
          (ascii '\\' :: ascii '\x7d' :: rest) :=
        reads_readMost_iff.2 (.inr ⟨_, rfl, hbound hdigits' hm hback⟩)
      rw [List.append_assoc]
      refine ⟨n, _, some m, _, hbound hdigits (Nat.le_trans hnm hm) (hcomma _), hmost, ?_⟩
      exact reads_closeInterval_iff.2 ⟨rfl, by simpa [Bounds.ordered] using hnm, rfl⟩

/-- Stars are skipped up to the next other byte.

**Proof sketch.** What is dropped are stars only, and dropping stops at a byte that starts no
quantifier, and so is no star. -/
theorem dropWhile_stars_eq_iff (hrest : atQuantifier rest = false) :
    source.dropWhile (· == ascii '*') = rest ↔
      ∃ more, source = List.replicate more (ascii '*') ++ rest := by
  constructor
  · rintro rfl
    refine ⟨(source.takeWhile (· == ascii '*')).length, ?_⟩
    have hstars : source.takeWhile (· == ascii '*') =
        List.replicate (source.takeWhile (· == ascii '*')).length (ascii '*') :=
      List.eq_replicate_of_mem fun b hb =>
        beq_iff_eq.1 (List.all_eq_true.1 (List.all_takeWhile) b hb)
    rw [← hstars, List.takeWhile_append_dropWhile]
  · rintro ⟨more, rfl⟩
    rw [List.dropWhile_append_of_pos fun b hb => by simp [List.eq_of_mem_replicate hb]]
    rcases rest with _ | ⟨b, rest⟩
    · rfl
    · refine List.dropWhile_cons_of_neg fun hb => ?_
      simp [atQuantifier, beq_iff_eq.1 hb] at hrest

/-- A quantifier ends before a byte that starts none. Stars are skipped if they add nothing.

**Proof sketch.** The stars behind a quantifier are dropped if it can be repeated from zero times on
without an upper bound, and then the next byte must start no quantifier; otherwise nothing is
dropped at all. -/
theorem reads_finishQuantifier_iff :
    Reads (finishQuantifier bounds source) bounds' rest ↔
      bounds = bounds' ∧ atQuantifier rest = false ∧
        ∃ more, (0 < more → bounds = ⟨0, none⟩) ∧
          source = List.replicate more (ascii '*') ++ rest := by
  have hread : Reads (finishQuantifier bounds source) bounds' rest ↔
      bounds = bounds' ∧ atQuantifier rest = false ∧
        (if bounds.most = none ∧ bounds.least = 0 then source.dropWhile (· == ascii '*')
          else source) = rest := by
    unfold finishQuantifier
    extract_lets skipped
    by_cases hskipped : atQuantifier skipped = true
    · rw [if_pos hskipped]
      refine iff_of_false not_reads_error ?_
      rintro ⟨-, hrest, rfl⟩
      rw [hskipped] at hrest
      cases hrest
    · rw [if_neg hskipped, reads_ok_iff]
      constructor
      · rintro ⟨rfl, rfl⟩
        exact ⟨rfl, Bool.eq_false_iff.2 hskipped, rfl⟩
      · rintro ⟨rfl, -, rfl⟩
        exact ⟨rfl, rfl⟩
  rw [hread]
  refine and_congr_right fun _ => and_congr_right fun hrest => ?_
  by_cases hbounds : bounds.most = none ∧ bounds.least = 0
  · have hany : bounds = ⟨0, none⟩ := by
      obtain ⟨least, most⟩ := bounds
      obtain ⟨rfl, rfl⟩ := hbounds
      rfl
    rw [if_pos hbounds, dropWhile_stars_eq_iff hrest]
    simp [hany]
  · have hany : bounds ≠ ⟨0, none⟩ := fun h => hbounds (by simp [h])
    rw [if_neg hbounds]
    constructor
    · rintro rfl
      exact ⟨0, nofun, rfl⟩
    · rintro ⟨more, hmore, rfl⟩
      obtain rfl : more = 0 := Nat.eq_zero_of_not_pos fun h => hany (hmore h)
      rfl

/-! ### Starts of quantifiers -/

/-- A star is a quantifier that may be repeated, and is finished as such. -/
theorem reads_readQuantifier_star_iff :
    Reads (readQuantifier (ascii '*' :: source)) bounds rest ↔
      Reads (finishQuantifier ⟨0, none⟩ source) bounds rest := by
  rcases source with _ | ⟨c, source⟩
  · simp [readQuantifier, finishQuantifier, atQuantifier]
  · rw [readQuantifier, if_pos rfl]
    cases finishQuantifier ⟨0, none⟩ (c :: source) with
    | error e => simp
    | ok q => simp

/-- So is `\+`, which does not begin at zero. -/
theorem reads_readQuantifier_plus_iff :
    Reads (readQuantifier (ascii '\\' :: ascii '+' :: source)) bounds rest ↔
      Reads (finishQuantifier ⟨1, none⟩ source) bounds rest := by
  rw [readQuantifier, if_neg (by decide), if_pos ⟨rfl, rfl⟩]
  cases finishQuantifier ⟨1, none⟩ source with
  | error e => simp
  | ok q => simp

/-- So is an interval. -/
theorem reads_readQuantifier_interval_iff :
    Reads (readQuantifier (ascii '\\' :: ascii '\x7b' :: source)) bounds rest ↔
      ∃ bounds' source', Reads (readInterval source) bounds' source' ∧
        Reads (finishQuantifier bounds' source') bounds rest := by
  rw [readQuantifier, if_neg (by decide), if_neg (by decide), if_pos ⟨rfl, rfl⟩]
  cases readInterval source with
  | error e => simp
  | ok p =>
    obtain ⟨bounds', source', h⟩ := p
    cases hfinish : finishQuantifier bounds' source' with
    | error e => simp [and_assoc, hfinish]
    | ok q => simp [and_assoc, hfinish]

/-- Without any of these there is no quantifier. -/
theorem reads_readQuantifier_absent_iff (h : atQuantifier source = false) :
    Reads (readQuantifier source) bounds rest ↔ .once = bounds ∧ source = rest := by
  rcases source with _ | ⟨b, _ | ⟨c, source⟩⟩
  · simp [readQuantifier]
  · have hb : b ≠ ascii '*' := by rintro rfl; simp [atQuantifier] at h
    rw [readQuantifier, if_neg hb, reads_ok_iff]
  · have hb : b ≠ ascii '*' := by rintro rfl; simp [atQuantifier] at h
    have hplus : ¬(b = ascii '\\' ∧ c = ascii '+') := by
      rintro ⟨rfl, rfl⟩
      simp [atQuantifier] at h
    have hinterval : ¬(b = ascii '\\' ∧ c = ascii '\x7b') := by
      rintro ⟨rfl, rfl⟩
      simp [atQuantifier] at h
    rw [readQuantifier, if_neg hb, if_neg hplus, if_neg hinterval, reads_ok_iff]

/-- A quantifier begins in one of three ways. -/
theorem cases_of_atQuantifier (h : atQuantifier source = true) :
    ∃ source', source = ascii '*' :: source' ∨ source = ascii '\\' :: ascii '+' :: source' ∨
      source = ascii '\\' :: ascii '\x7b' :: source' := by
  rcases source with _ | ⟨b, source⟩
  · cases h
  · simp only [atQuantifier, Bool.or_eq_true, Bool.and_eq_true, beq_iff_eq,
      List.head?_eq_some_iff] at h
    obtain rfl | ⟨rfl, ⟨source', rfl⟩ | ⟨source', rfl⟩⟩ := h
    · exact ⟨source, .inl rfl⟩
    · exact ⟨source', .inr (.inl rfl)⟩
    · exact ⟨source', .inr (.inr rfl)⟩

/-- **Quantifiers** are read by the grammar, and no further one follows.

**Proof sketch.** Where a quantifier begins, it begins in one of three ways, and each is read in its
own way above; where none begins, the quantifier is the absent one. In both cases `finishQuantifier`
says that no further quantifier follows. -/
theorem reads_readQuantifier_iff :
    Reads (readQuantifier source) bounds rest ↔
      atQuantifier rest = false ∧ ∃ text, source = text ++ rest ∧ IsQuantifier text bounds := by
  constructor
  · intro h
    cases hat : atQuantifier source with
    | false =>
      obtain ⟨rfl, rfl⟩ := (reads_readQuantifier_absent_iff hat).1 h
      exact ⟨hat, [], rfl, .absent⟩
    | true =>
      obtain ⟨source', rfl | rfl | rfl⟩ := cases_of_atQuantifier hat
      · obtain ⟨rfl, hrest, more, -, rfl⟩ :=
          reads_finishQuantifier_iff.1 (reads_readQuantifier_star_iff.1 h)
        exact ⟨hrest, _, rfl, .star more⟩
      · obtain ⟨rfl, hrest, more, hmore, rfl⟩ :=
          reads_finishQuantifier_iff.1 (reads_readQuantifier_plus_iff.1 h)
        obtain rfl : more = 0 := Nat.eq_zero_of_not_pos fun h => by cases hmore h
        exact ⟨hrest, _, rfl, .plus⟩
      · obtain ⟨bounds, source', hinterval, hfinish⟩ := reads_readQuantifier_interval_iff.1 h
        obtain ⟨rfl, hrest, more, hmore, rfl⟩ := reads_finishQuantifier_iff.1 hfinish
        obtain ⟨text, rfl, htext⟩ := reads_readInterval_iff.1 hinterval
        exact ⟨hrest, _, by simp, .interval htext more hmore⟩
  · rintro ⟨hrest, text, rfl, h⟩
    cases h with
    | absent => exact (reads_readQuantifier_absent_iff hrest).2 ⟨rfl, rfl⟩
    | star more =>
      refine reads_readQuantifier_star_iff.2 (reads_finishQuantifier_iff.2 ⟨rfl, hrest, more, ?_⟩)
      exact ⟨fun _ => rfl, rfl⟩
    | plus =>
      refine reads_readQuantifier_plus_iff.2 (reads_finishQuantifier_iff.2 ⟨rfl, hrest, 0, ?_⟩)
      exact ⟨nofun, rfl⟩
    | @interval text bounds htext more hmore =>
      have hfinish := reads_finishQuantifier_iff.2 ⟨rfl, hrest, more, hmore, rfl⟩
      refine reads_readQuantifier_interval_iff.2 ⟨bounds, _, ?_, hfinish⟩
      exact reads_readInterval_iff.2 ⟨text, by simp, htext⟩

end Quantifiers

end LineEditor.Regex
