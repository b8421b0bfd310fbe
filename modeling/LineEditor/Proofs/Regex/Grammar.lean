import Mathlib.Data.List.Basic
import LineEditor.Regex.Parser

set_option autoImplicit false
set_option relaxedAutoImplicit false

/-!
# The grammar of patterns

What patterns there are and what they mean, independently of how they are read. Each judgment
relates a text to what it stands for. Where the same bytes could be taken in two ways, the rules say
which one counts: a byte with a dash and an upper end behind it is the lower end of a range, a star
in front of a sequence is an ordinary byte, and a `$` at the end of a pattern is an anchor unless an
escape takes it.

That the last `$` can be told from the bytes right before it rests on one fact: a sequence ends in
an even number of backslashes, since an escape takes two bytes and nothing else ends in one.

## Main definitions

* `LineEditor.Regex.IsBracket`: bracket expressions.
* `LineEditor.Regex.IsQuantifier`: quantifiers.
* `LineEditor.Regex.IsAtom`, `LineEditor.Regex.IsSequence`: atoms, and sequences of atoms and
  groups.
* `LineEditor.Regex.IsPattern`: whole patterns.

## Main results

* `LineEditor.Regex.IsSequence.endsEven`: a sequence ends in an even number of
  backslashes.
* `LineEditor.Regex.IsSequence.of_append_escape`: the last escape can be taken off a sequence.
-/

namespace LineEditor.Regex

/-! ## Bracket expressions -/

/-- Whether a text goes on as a range does behind its lower end: with a dash and an upper end. -/
def continuesRange : Line → Bool
  | dash :: high :: _ => dash == ascii '-' && high != ascii ']'
  | _ => false

/-- Items of a bracket expression and the `]` that closes it. In `first` place a `]` is an item. -/
inductive IsItems : (first : Bool) → Line → List BracketItem → Prop where
  /-- The closing `]`. -/
  | closing : IsItems false [ascii ']'] []
  /-- A byte that stands for itself: no class and no range starts with it. -/
  | byte {first : Bool} {b : UInt8} {text : Line} {items : List BracketItem}
      (hb : b = ascii ']' → first = true)
      (hclass : b = ascii '[' → text.head? ≠ some (ascii ':'))
      (hrange : continuesRange text = false) (h : IsItems false text items) :
      IsItems first (b :: text) (.byte b :: items)
  /-- A range, whose ends are in order. -/
  | range {first : Bool} {low high : UInt8} {text : Line} {items : List BracketItem}
      (hlow : low = ascii ']' → first = true) (hhigh : high ≠ ascii ']') (hle : low ≤ high)
      (h : IsItems false text items) :
      IsItems first (low :: ascii '-' :: high :: text) (.range low high :: items)
  /-- A class with a known name. -/
  | named {first : Bool} {c : CharClass} {text : Line} {items : List BracketItem}
      (h : IsItems false text items) :
      IsItems first
        (ascii '[' :: ascii ':' :: (Line.ofString c.name ++ ascii ':' :: ascii ']' :: text))
        (.named c :: items)

/-- A bracket expression behind its opening `[`. -/
inductive IsBracket : Line → ByteSet → Prop where
  /-- The bytes that are in one of the items. -/
  | plain {text : Line} {items : List BracketItem} (hcaret : text.head? ≠ some (ascii '^'))
      (h : IsItems true text items) : IsBracket text ⟨false, items⟩
  /-- The bytes that are in none of them. -/
  | negated {text : Line} {items : List BracketItem} (h : IsItems true text items) :
      IsBracket (ascii '^' :: text) ⟨true, items⟩

/-! ## Quantifiers -/

/-- Decimal digits that denote a number. -/
structure IsNumeral (digits : Line) (n : Nat) : Prop where
  /-- There is a digit. -/
  ne_nil : digits ≠ []
  /-- There are only digits. -/
  isDigit : ∀ b ∈ digits, isDigit b = true
  /-- They denote the number. -/
  value : numeral digits = n

/-- An interval between its `\{` and its `\}`. -/
inductive IsInterval : Line → Bounds → Prop where
  /-- A number of repetitions. -/
  | exactly {digits : Line} {n : Nat} (h : IsNumeral digits n) (hn : n ≤ maxRepeat) :
      IsInterval digits ⟨n, some n⟩
  /-- A least number of repetitions. -/
  | atLeast {digits : Line} {n : Nat} (h : IsNumeral digits n) (hn : n ≤ maxRepeat) :
      IsInterval (digits ++ [ascii ',']) ⟨n, none⟩
  /-- A least and a greatest number of repetitions. -/
  | between {digits digits' : Line} {n m : Nat} (h : IsNumeral digits n) (h' : IsNumeral digits' m)
      (hnm : n ≤ m) (hm : m ≤ maxRepeat) :
      IsInterval (digits ++ ascii ',' :: digits') ⟨n, some m⟩

/-- A quantifier, which may be missing. Further stars may follow one that allows every number of
repetitions. -/
inductive IsQuantifier : Line → Bounds → Prop where
  /-- No quantifier. -/
  | absent : IsQuantifier [] .once
  /-- Stars. -/
  | star (more : Nat) :
      IsQuantifier (ascii '*' :: List.replicate more (ascii '*')) ⟨0, none⟩
  /-- At least once. -/
  | plus : IsQuantifier [ascii '\\', ascii '+'] ⟨1, none⟩
  /-- An interval. -/
  | interval {text : Line} {bounds : Bounds} (h : IsInterval text bounds) (more : Nat)
      (hmore : 0 < more → bounds = ⟨0, none⟩) :
      IsQuantifier (ascii '\\' :: ascii '\x7b' ::
        (text ++ ascii '\\' :: ascii '\x7d' :: List.replicate more (ascii '*'))) bounds

/-! ## Sequences -/

/-- An atom that is no group. In `first` place a star is an ordinary byte. -/
inductive IsAtom (first : Bool) : Line → ByteTest → Prop where
  /-- An ordinary byte. -/
  | byte {b : UInt8} (hescape : b ≠ ascii '\\') (hany : b ≠ ascii '.') (hbracket : b ≠ ascii '[')
      (hstar : b = ascii '*' → first = true) : IsAtom first [b] (.literal b)
  /-- An escaped byte. -/
  | escape {b : UInt8}
      (h : b ∉ [ascii '(', ascii ')', ascii '\x7b', ascii '\x7d', ascii '+']) :
      IsAtom first [ascii '\\', b] (.literal b)
  /-- A dot. -/
  | any : IsAtom first [ascii '.'] .any
  /-- A bracket expression. -/
  | bracket {text : Line} {s : ByteSet} (h : IsBracket text s) :
      IsAtom first (ascii '[' :: text) (.set s)

/-- A group around a text, without its quantifier. -/
def enclosed (inside : Line) : Line :=
  ascii '\\' :: ascii '(' :: (inside ++ [ascii '\\', ascii ')'])

/-- A sequence of atoms and groups, each with its quantifier, when `groups` groups have been opened
before; the number opened in the end comes last. -/
inductive IsSequence : (first : Bool) → (groups : Nat) → Line → Expression → Nat → Prop where
  /-- Nothing. -/
  | empty {first : Bool} {groups : Nat} : IsSequence first groups [] .empty groups
  /-- An atom, and what follows it. -/
  | single {first : Bool} {groups groups' : Nat} {atom quantifier rest : Line} {test : ByteTest}
      {bounds : Bounds} {next : Expression} (hatom : IsAtom first atom test)
      (hquantifier : IsQuantifier quantifier bounds)
      (hnext : IsSequence false groups rest next groups') :
      IsSequence first groups (atom ++ (quantifier ++ rest)) (.single test bounds next) groups'
  /-- A group, which gets the next number, and what follows it. -/
  | group {first : Bool} {groups groups₁ groups₂ : Nat} {inside quantifier rest : Line}
      {body next : Expression} {bounds : Bounds} (hgroups : groups < maxGroups)
      (hbody : IsSequence true (groups + 1) inside body groups₁)
      (hquantifier : IsQuantifier quantifier bounds)
      (hnext : IsSequence false groups₁ rest next groups₂) :
      IsSequence first groups (enclosed inside ++ (quantifier ++ rest))
        (.group ⟨groups, hgroups⟩ body bounds next) groups₂

/-! ## Patterns -/

/-- A `$` at the end is taken by an escape: there is a backslash before it, which starts the escape
since a sequence stands before that. -/
def EndsInEscape (text : Line) : Prop :=
  ∃ (front : Line) (body : Expression) (groups : Nat),
    text = front ++ [ascii '\\', ascii '$'] ∧ IsSequence true 0 front body groups

/-- A pattern behind its start anchor. -/
inductive IsUnanchored (startAnchor : Bool) : Line → Program → Prop where
  /-- A sequence with an end anchor. -/
  | dollar {text : Line} {body : Expression} {groups : Nat}
      (h : IsSequence true 0 text body groups) :
      IsUnanchored startAnchor (text ++ [ascii '$']) ⟨body, startAnchor, true, groups⟩
  /-- A sequence alone. If it ends in a `$`, an escape has taken it. -/
  | plain {text : Line} {body : Expression} {groups : Nat}
      (h : IsSequence true 0 text body groups)
      (hdollar : text.getLast? = some (ascii '$') → EndsInEscape text) :
      IsUnanchored startAnchor text ⟨body, startAnchor, false, groups⟩

/-- A pattern, and the program that it stands for. -/
inductive IsPattern : Line → Program → Prop where
  /-- With a start anchor. -/
  | caret {text : Line} {program : Program} (h : IsUnanchored true text program) :
      IsPattern (ascii '^' :: text) program
  /-- Without one. -/
  | plain {text : Line} {program : Program} (hcaret : text.head? ≠ some (ascii '^'))
      (h : IsUnanchored false text program) : IsPattern text program

/-! ## What texts end in -/

/-- The number of backslashes at the end of a text. -/
def trailingBackslashes (text : Line) : Nat :=
  (text.reverse.takeWhile (· == ascii '\\')).length

/-- A further byte continues the backslashes at the end, or ends them. -/
theorem trailingBackslashes_append_singleton (text : Line) (b : UInt8) :
    trailingBackslashes (text ++ [b]) =
      if b = ascii '\\' then trailingBackslashes text + 1 else 0 := by
  by_cases hb : b = ascii '\\'
  · simp [trailingBackslashes, hb]
  · simp [trailingBackslashes, hb]

/-- Only a text of nothing but backslashes adds to those of the text before it. -/
theorem trailingBackslashes_append (xs ys : Line) :
    trailingBackslashes (xs ++ ys) =
      if trailingBackslashes ys = ys.length then trailingBackslashes xs + ys.length
      else trailingBackslashes ys := by
  unfold trailingBackslashes
  rw [List.reverse_append, List.takeWhile_append, List.length_reverse]
  split
  · rw [List.length_append, List.length_reverse, Nat.add_comm]
  · rfl

/-- A text ends in an even number of backslashes. -/
def EndsEven (text : Line) : Prop := trailingBackslashes text % 2 = 0

/-- The empty text ends in no backslash. -/
theorem EndsEven.nil : EndsEven [] := rfl

/-- A text that ends in another byte than a backslash. -/
theorem EndsEven.of_suffix {text : Line} {b : UInt8} (h : [b] <:+ text) (hb : b ≠ ascii '\\') :
    EndsEven text := by
  obtain ⟨front, rfl⟩ := h
  rw [EndsEven, trailingBackslashes_append_singleton, if_neg hb]

/-- What stands before a text does not matter if it ends in an even number itself. -/
theorem EndsEven.append_iff {xs ys : Line} (h : EndsEven xs) :
    EndsEven (xs ++ ys) ↔ EndsEven ys := by
  unfold EndsEven at h ⊢
  rw [trailingBackslashes_append]
  split <;> omega

/-- Texts with an even number each have an even number together. -/
theorem EndsEven.append {xs ys : Line} (h : EndsEven xs) (h' : EndsEven ys) :
    EndsEven (xs ++ ys) := h.append_iff.2 h'

/-- One more backslash makes the number odd. -/
theorem EndsEven.not_backslash {text : Line} (h : EndsEven text) :
    ¬EndsEven (text ++ [ascii '\\']) := by
  unfold EndsEven at h ⊢
  rw [trailingBackslashes_append_singleton, if_pos rfl]
  omega

/-- An odd number is one more than an even one. -/
theorem EndsEven.exists_of_not {text : Line} (h : ¬EndsEven text) :
    ∃ front, text = front ++ [ascii '\\'] ∧ EndsEven front := by
  unfold EndsEven at h ⊢
  obtain rfl | ⟨front, b, rfl⟩ := List.eq_nil_or_concat' text
  · exact absurd rfl h
  · rw [trailingBackslashes_append_singleton] at h
    split at h
    · rename_i hb
      exact ⟨front, by rw [hb], by omega⟩
    · exact absurd rfl h

/-- A text with an end anchor ends in a `$` with an even number of backslashes before it. -/
theorem endsWithAnchor_append_singleton (text : Line) (b : UInt8) :
    endsWithAnchor (text ++ [b]) = true ↔ b = ascii '$' ∧ EndsEven text := by
  simp [endsWithAnchor, EndsEven, trailingBackslashes]

/-- Items end in the `]` that closes them. -/
theorem IsItems.suffix {first : Bool} {text : Line} {items : List BracketItem}
    (h : IsItems first text items) : [ascii ']'] <:+ text := by
  induction h with
  | closing => exact List.suffix_rfl
  | byte _ _ _ _ ih => exact ih.trans (List.suffix_cons _ _)
  | @range _ low high _ _ _ _ _ _ ih => exact ih.trans ⟨[low, ascii '-', high], rfl⟩
  | @named _ c _ _ _ ih =>
    refine ih.trans
      ⟨ascii '[' :: ascii ':' :: (Line.ofString c.name ++ [ascii ':', ascii ']']), ?_⟩
    simp

/-- A bracket expression ends with its closing bracket. -/
theorem IsBracket.suffix {text : Line} {s : ByteSet} (h : IsBracket text s) :
    [ascii ']'] <:+ text := by
  cases h with
  | plain _ h => exact h.suffix
  | negated h => exact h.suffix.trans (List.suffix_cons _ _)

/-- A quantifier that is not missing ends in a byte that is neither a backslash nor a `$`.

**Proof sketch.** By the kinds of quantifiers: a star, a plus and a closing brace are other bytes,
and the stars behind an interval are stars. -/
theorem IsQuantifier.eq_nil_or_suffix {text : Line} {bounds : Bounds}
    (h : IsQuantifier text bounds) :
    text = [] ∨ ∃ b, [b] <:+ text ∧ b ≠ ascii '\\' ∧ b ≠ ascii '$' := by
  have hstars (more : Nat) : [ascii '*'] <:+ List.replicate (more + 1) (ascii '*') :=
    ⟨List.replicate more (ascii '*'), List.replicate_succ'.symm⟩
  cases h with
  | absent => exact .inl rfl
  | star more => exact .inr ⟨ascii '*', hstars more, by decide, by decide⟩
  | plus => exact .inr ⟨ascii '+', ⟨[ascii '\\'], rfl⟩, by decide, by decide⟩
  | @interval text _ _ more _ =>
    right
    cases more with
    | zero =>
      refine ⟨ascii '\x7d', ?_, by decide, by decide⟩
      exact ⟨ascii '\\' :: ascii '\x7b' :: (text ++ [ascii '\\']), by simp⟩
    | succ more =>
      refine ⟨ascii '*', (hstars more).trans ?_, by decide, by decide⟩
      exact ⟨ascii '\\' :: ascii '\x7b' :: (text ++ [ascii '\\', ascii '\x7d']), by simp⟩

/-- So a quantifier ends in no backslash at all. -/
theorem IsQuantifier.endsEven {text : Line} {bounds : Bounds} (h : IsQuantifier text bounds) :
    EndsEven text := by
  obtain rfl | ⟨b, hsuffix, hb, -⟩ := h.eq_nil_or_suffix
  · exact .nil
  · exact .of_suffix hsuffix hb

/-- An atom ends in an even number of backslashes: the byte of an escape may be one, but then the
backslash before it is another.

**Proof sketch.** By the kinds of atoms. -/
theorem IsAtom.endsEven {first : Bool} {text : Line} {test : ByteTest}
    (h : IsAtom first text test) :
    EndsEven text := by
  cases h with
  | byte hescape => exact .of_suffix List.suffix_rfl hescape
  | @escape b _ =>
    by_cases hb : b = ascii '\\'
    · rw [hb]
      rfl
    · exact .of_suffix (List.suffix_cons _ _) hb
  | any => rfl
  | bracket h => exact .of_suffix (h.suffix.trans (List.suffix_cons _ _)) (by decide)

/-- A group ends with the parenthesis of its closing. -/
theorem suffix_enclosed (inside : Line) : [ascii ')'] <:+ enclosed inside :=
  ⟨ascii '\\' :: ascii '(' :: (inside ++ [ascii '\\']), by simp [enclosed]⟩

/-- So it ends in no backslash. -/
theorem endsEven_enclosed (inside : Line) : EndsEven (enclosed inside) :=
  .of_suffix (suffix_enclosed inside) (by decide)

/-- **A sequence ends in an even number of backslashes.** -/
theorem IsSequence.endsEven {first : Bool} {groups groups' : Nat} {text : Line} {e : Expression}
    (h : IsSequence first groups text e groups') : EndsEven text := by
  induction h with
  | empty => exact .nil
  | single hatom hquantifier _ ih => exact hatom.endsEven.append (hquantifier.endsEven.append ih)
  | @group _ _ _ _ inside _ _ _ _ _ _ _ hquantifier _ _ ih =>
    exact (endsEven_enclosed inside).append (hquantifier.endsEven.append ih)

/-! ## Taking off the last escape -/

/-- A text that ends with a byte and with `\$` ends with a dollar sign. -/
theorem eq_dollar_of_suffix {text front : Line} {b : UInt8} (h : [b] <:+ text)
    (htext : text = front ++ [ascii '\\', ascii '$']) : b = ascii '$' := by
  obtain ⟨before, rfl⟩ := h
  have happend : before ++ [b] = (front ++ [ascii '\\']) ++ [ascii '$'] := by simpa using htext
  exact List.head_eq_of_cons_eq (List.append_inj' happend rfl).2

/-- If a piece, its quantifier and what follows end in an escape, then the escape is the piece or
stands at the end of what follows. It cannot begin with the last byte of the piece or of the
quantifier, since these end in an even number of backslashes.

**Proof sketch.** The escape is cut off behind the two pieces, between its two bytes, or as a whole
in front of their end. The second would leave an odd number of backslashes to the pieces. In the
third case it is the end of the piece, since a quantifier that is there ends in another byte. -/
theorem append_escape_cases {piece quantifier rest front : Line} {bounds : Bounds}
    (h : piece ++ (quantifier ++ rest) = front ++ [ascii '\\', ascii '$'])
    (hpiece : EndsEven piece) (hquantifier : IsQuantifier quantifier bounds)
    (hfront : EndsEven front) :
    piece = front ++ [ascii '\\', ascii '$'] ∨
      ∃ front', rest = front' ++ [ascii '\\', ascii '$'] ∧ EndsEven front' ∧
        front = piece ++ (quantifier ++ front') := by
  have heven := hpiece.append hquantifier.endsEven
  rw [← List.append_assoc, List.append_eq_append_iff] at h
  obtain ⟨front', rfl, hrest⟩ | ⟨middle, hpieces, hmiddle⟩ := h
  · exact .inr ⟨front', hrest, heven.append_iff.1 hfront, List.append_assoc ..⟩
  · rcases middle with _ | ⟨b, _ | ⟨c, tail⟩⟩
    · rw [List.append_nil] at hpieces
      refine .inr ⟨[], hmiddle.symm, .nil, ?_⟩
      rw [List.append_nil, hpieces]
    · obtain ⟨rfl, -⟩ := List.cons.inj hmiddle
      rw [hpieces] at heven
      exact absurd heven hfront.not_backslash
    · obtain ⟨rfl, rfl, htail⟩ : ascii '\\' = b ∧ ascii '$' = c ∧ [] = tail ++ rest := by
        simpa using hmiddle
      obtain ⟨rfl, rfl⟩ := List.append_eq_nil_iff.1 htail.symm
      obtain rfl | ⟨b, hsuffix, -, hb⟩ := hquantifier.eq_nil_or_suffix
      · rw [List.append_nil] at hpieces
        exact .inl hpieces
      · have hlast := hsuffix.trans (List.suffix_append piece quantifier)
        exact absurd (eq_dollar_of_suffix hlast hpieces) hb

/-- **The last escape can be taken off a sequence**, if there is an even number of backslashes
before it.

**Proof sketch.** By induction on the sequence, with `append_escape_cases` for its first piece. The
escape is at the end of what follows, which is shorter, or it is the piece, which then is that
escape alone: neither a bracket expression nor a group ends in it. -/
theorem IsSequence.of_append_escape {first : Bool} {groups groups' : Nat} {text front : Line}
    {e : Expression} (h : IsSequence first groups text e groups')
    (htext : text = front ++ [ascii '\\', ascii '$']) (hfront : EndsEven front) :
    ∃ e' groups₁, IsSequence first groups front e' groups₁ := by
  induction h generalizing front with
  | empty => simp at htext
  | single hatom hquantifier hnext ih =>
    obtain hatom' | ⟨front', hrest, heven, rfl⟩ :=
      append_escape_cases htext hatom.endsEven hquantifier hfront
    · -- The escape is an atom, which must be the first one.
      cases hatom with
      | byte | any => simp [List.cons_eq_append_iff] at hatom'
      | escape =>
        obtain rfl : front = [] := by simpa using congrArg List.length hatom'
        exact ⟨_, _, .empty⟩
      | bracket h =>
        have hlast := h.suffix.trans (List.suffix_cons (ascii '[') _)
        exact absurd (eq_dollar_of_suffix hlast hatom') (by decide)
    · obtain ⟨_, _, hnext'⟩ := ih hrest heven
      exact ⟨_, _, .single hatom hquantifier hnext'⟩
  | @group _ _ _ _ inside _ _ _ _ _ hgroups hbody hquantifier hnext _ ih =>
    obtain hgroup | ⟨front', hrest, heven, rfl⟩ :=
      append_escape_cases htext (endsEven_enclosed inside) hquantifier hfront
    · exact absurd (eq_dollar_of_suffix (suffix_enclosed inside) hgroup) (by decide)
    · obtain ⟨_, _, hnext'⟩ := ih hrest heven
      exact ⟨_, _, .group hgroups hbody hquantifier hnext'⟩

end LineEditor.Regex
