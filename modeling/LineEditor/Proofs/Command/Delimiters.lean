import Mathlib.Data.List.Basic
import LineEditor.Delimited

set_option autoImplicit false
set_option relaxedAutoImplicit false

/-!
# Texts up to their delimiters

The readers of bracket expressions and of delimited texts look far ahead: a class goes up to its
`:]`, wherever in the line that is, and a bracket expression that does not end is all the line. But
what they have found, they have found in the bytes that they have taken. So a text that is closed
is read in the same way whatever follows its delimiter.

## Main definitions

* `LineEditor.ClosedText`: the bytes that are read as a text, the delimiter at their end included.

## Main results

* `LineEditor.exists_closedText`: what is read up to a delimiter is a closed text.
-/

namespace LineEditor

/-! ## Bracket expressions -/

/-- A name of a class is read in the same way whatever follows the class.

**Proof sketch.** Induction on the search for the end of the class. The byte behind an inner byte is
the same with any continuation, since the name that is still to be read or the end of the class
begins with it. -/
theorem Regex.splitClassName?_append {bytes name after : Line}
    (h : splitClassName? bytes = some (name, after)) (more : Line) :
    splitClassName? (name ++ ascii ':' :: ascii ']' :: more) = some (name, more) := by
  fun_induction splitClassName? bytes generalizing name after with
  | case1 => cases h
  | case2 => cases h
  | case3 b c rest hend =>
    obtain ⟨rfl, rfl⟩ : [] = name ∧ rest = after := by simpa using h
    rfl
  | case4 b c rest hend ih =>
    simp only [Option.map_eq_some_iff, Prod.mk.injEq] at h
    obtain ⟨⟨name', after'⟩, h', rfl, rfl⟩ := h
    -- the first byte behind `b` is still `c`, so that `b` is no end of the class either
    have happend := append_of_splitClassName? h'
    obtain ⟨tail, htail⟩ : ∃ tail, name' ++ ascii ':' :: ascii ']' :: more = c :: tail := by
      cases name' with
      | nil => exact ⟨_, congrArg (· :: _) (List.cons.inj happend).1⟩
      | cons d name' => exact ⟨_, congrArg (· :: _) (List.cons.inj happend).1⟩
    have hname := ih h'
    rw [htail] at hname
    rw [List.cons_append, htail, splitClassName?, if_neg hend, hname]
    rfl

/-- A class that ends is read in the same way whatever follows it.

**Proof sketch.** The class has an end, or nothing would be left behind it, and its name is read in
the same way. -/
theorem splitClass_append {bytes : Line} (h : (splitClass bytes).2 ≠ []) (more : Line) :
    splitClass ((splitClass bytes).1 ++ more) = ((splitClass bytes).1, more) := by
  cases hname : Regex.splitClassName? bytes with
  | none => exact absurd (by rw [splitClass, hname]) h
  | some found =>
    have hclass : (splitClass bytes).1 = found.1 ++ [ascii ':', ascii ']'] := by
      rw [splitClass, hname]
    rw [hclass, List.append_assoc]
    unfold splitClass
    rw [List.cons_append, List.cons_append, List.nil_append, Regex.splitClassName?_append hname]

/-- Items that end have at least their closing bracket. -/
theorem splitItems_fst_ne_nil {bytes : Line} (h : (splitItems bytes).2 ≠ []) :
    (splitItems bytes).1 ≠ [] := by
  fun_cases splitItems bytes with
  | case1 => simp [splitItems] at h
  | case2 => simp
  | case3 => simp
  | case4 => simp

/-- The items of a bracket expression that ends are read in the same way whatever follows it.

**Proof sketch.** Induction on the items. The class at the front of the rest is read in the same
way, and whether a class starts depends on the byte behind the opening bracket alone, which is the
same. -/
theorem splitItems_append {bytes : Line} (h : (splitItems bytes).2 ≠ []) (more : Line) :
    splitItems ((splitItems bytes).1 ++ more) = ((splitItems bytes).1, more) := by
  fun_induction splitItems bytes with
  | case1 => exact absurd rfl h
  | case2 rest => rw [List.singleton_append, splitItems, if_pos rfl]
  | case3 b rest hb hclass items left hitems ih =>
    rw [hitems] at ih
    have hends : (splitClass rest.tail).2 ≠ [] := by
      intro hnil
      rw [hnil] at hitems
      rw [splitItems] at hitems
      exact h (congrArg Prod.snd hitems).symm
    simp only [List.cons_append, List.append_assoc]
    rw [splitItems, if_neg hb, if_pos ⟨hclass.1, rfl⟩, List.tail_cons, splitClass_append hends]
    dsimp only
    rw [ih h]
    rfl
  | case4 b rest hb hclass items left hitems ih =>
    -- the same byte follows `b`, so that no class starts here either
    have hitem : items ≠ [] := by
      have hne : (splitItems rest).1 ≠ [] := splitItems_fst_ne_nil (by rw [hitems]; exact h)
      rwa [hitems] at hne
    have hhead : (items ++ more).head? = rest.head? := by
      have happend := append_splitItems rest
      rw [hitems] at happend
      rw [← happend, List.head?_append_of_ne_nil _ hitem, List.head?_append_of_ne_nil _ hitem]
    rw [hitems] at ih
    rw [List.cons_append, splitItems, if_neg hb, if_neg (hhead ▸ hclass), ih h]

/-- A byte at the front, or its absence, is found again if the same byte follows. -/
theorem splitByte_append {b : UInt8} {bytes more : Line}
    (h : more.head? = (splitByte b bytes).2.head?) :
    splitByte b ((splitByte b bytes).1 ++ more) = ((splitByte b bytes).1, more) := by
  cases bytes with
  | nil =>
    obtain rfl : more = [] := List.head?_eq_none_iff.1 h
    rfl
  | cons c rest =>
    simp only [splitByte] at h ⊢
    by_cases hc : c = b
    · rw [if_pos hc, List.singleton_append]
      simp [hc]
    · rw [if_neg hc] at h ⊢
      obtain ⟨tail, rfl⟩ := List.head?_eq_some_iff.1 h
      simp [hc]

/-- A bracket expression that ends is read in the same way whatever follows it.

**Proof sketch.** The expression is cut into its caret, a bracket at the front and its items. The
items are read in the same way and are not empty, so that the same byte follows the first two
parts. -/
theorem splitBracket_append {bytes : Line} (h : (splitBracket bytes).2 ≠ []) (more : Line) :
    splitBracket ((splitBracket bytes).1 ++ more) = ((splitBracket bytes).1, more) := by
  obtain ⟨caret, afterCaret, hcaret⟩ : ∃ x y, splitByte (ascii '^') bytes = (x, y) := ⟨_, _, rfl⟩
  obtain ⟨bracket, afterBracket, hbracket⟩ : ∃ x y, splitByte (ascii ']') afterCaret = (x, y) :=
    ⟨_, _, rfl⟩
  have hfst : (splitBracket bytes).1 = caret ++ bracket ++ (splitItems afterBracket).1 := by
    simp only [splitBracket, hcaret, hbracket]
  have hsnd : (splitBracket bytes).2 = (splitItems afterBracket).2 := by
    simp only [splitBracket, hcaret, hbracket]
  rw [hsnd] at h
  have hitems := splitItems_append h more
  have hne := splitItems_fst_ne_nil h
  have happend := append_splitItems afterBracket
  generalize (splitItems afterBracket).1 = items at hfst hitems hne happend
  have hafterBracket : (items ++ more).head? = afterBracket.head? := by
    rw [← happend, List.head?_append_of_ne_nil _ hne, List.head?_append_of_ne_nil _ hne]
  have hafterCaret : (bracket ++ (items ++ more)).head? = afterCaret.head? := by
    have hcut := append_splitByte (ascii ']') afterCaret
    rw [hbracket] at hcut
    rw [← hcut, List.head?_append, hafterBracket, ← List.head?_append]
  have hsplitBracket := splitByte_append (hafterBracket.trans (by rw [hbracket]))
  have hsplitCaret := splitByte_append (hafterCaret.trans (by rw [hcaret]))
  rw [hbracket] at hsplitBracket
  rw [hcaret] at hsplitCaret
  rw [hfst, List.append_assoc, List.append_assoc]
  simp only [splitBracket, hsplitCaret, hsplitBracket, hitems, List.append_assoc]

/-! ## Delimited texts -/

/-- Bytes that are read as a text up to a delimiter, which is the last of them. Brackets are kept
whole. -/
def ClosedText (delimiter : UInt8) (bytes text : Line) : Prop :=
  ∀ more, readDelimited delimiter true (bytes ++ more) = (text, some more)

/-- What is read up to a delimiter is a closed text.

**Proof sketch.** Induction on what is read. At each step the part at the front is settled by
itself: the delimiter, an escape, a bracket expression that has an end since a delimiter follows it,
or a single byte. -/
theorem exists_closedText {delimiter : UInt8} {bytes text rest : Line}
    (h : readDelimited delimiter true bytes = (text, some rest)) :
    ∃ front, front ++ rest = bytes ∧ ClosedText delimiter front text := by
  fun_induction readDelimited delimiter true bytes generalizing text with
  | case1 => cases h
  | case2 rest' =>
    obtain ⟨rfl, rfl⟩ : [] = text ∧ rest' = rest := by simpa using h
    refine ⟨[delimiter], rfl, fun more => ?_⟩
    rw [List.singleton_append, readDelimited.eq_def]
    exact if_pos rfl
  | case3 => cases h
  | case4 c after text' left hread hdelimiter ih =>
    obtain ⟨rfl, rfl⟩ := Prod.mk.inj h
    obtain ⟨front, happend, hclosed⟩ := ih hread
    refine ⟨ascii '\\' :: c :: front, by rw [← happend]; rfl, fun more => ?_⟩
    rw [List.cons_append, List.cons_append, readDelimited.eq_def]
    dsimp only
    rw [if_neg hdelimiter, if_pos rfl, hclosed]
  | case5 b inside hdelimiter hescape hbracket text' left hread ih =>
    obtain ⟨rfl, rfl⟩ := Prod.mk.inj h
    obtain ⟨front, happend, hclosed⟩ := ih hread
    -- a delimiter follows the bracket expression, so this has an end
    have hends : (splitBracket inside).2 ≠ [] := by
      intro hnil
      rw [hnil] at hread
      simp [readDelimited] at hread
    refine ⟨b :: (splitBracket inside).1 ++ front, ?_, fun more => ?_⟩
    · rw [List.append_assoc, happend, List.cons_append, append_splitBracket]
    · rw [List.append_assoc, List.cons_append, readDelimited.eq_def]
      dsimp only
      rw [if_neg hdelimiter, if_neg hescape, if_pos hbracket, splitBracket_append hends]
      dsimp only
      rw [hclosed]
  | case6 b rest' hdelimiter hescape hbracket text' left hread ih =>
    obtain ⟨rfl, rfl⟩ := Prod.mk.inj h
    obtain ⟨front, happend, hclosed⟩ := ih hread
    refine ⟨b :: front, by rw [← happend]; rfl, fun more => ?_⟩
    rw [List.cons_append, readDelimited.eq_def]
    dsimp only
    rw [if_neg hdelimiter, if_neg hescape, if_neg hbracket, hclosed]

end LineEditor
