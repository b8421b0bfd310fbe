import Mathlib.Data.Set.Insert
import LineEditor.Proofs.Regex.Reading
import LineEditor.Proofs.Regex.Tables
import LineEditor.Regex.Search

set_option autoImplicit false
set_option relaxedAutoImplicit false

/-!
# Writing bracket expressions

Items can be written between brackets one after the other, whatever bytes they are made of: nothing
needs an escape, and a backslash is a byte like all others. Only the order matters. A `]` that
stands for itself comes first, since it closes the expression anywhere else; a dash comes first or
last, since it makes a range of what stands around it anywhere else; a `^` does not come first,
since it would negate the expression; and no colon follows a `[`, since the two would begin a class.
The reader looks two bytes ahead, but items in such an order do not run into each other: what
follows an item never begins with something that the item would take.

## Main definitions

* `LineEditor.Regex.BracketItem.written`: how an item is written.
* `LineEditor.Regex.BracketItem.bytes`: the bytes that an item stands for.
* `LineEditor.Regex.Separable`: items in an order in which they can be written.

## Main results

* `LineEditor.Regex.Separable.isItems`: such items are read as what they are.
* `LineEditor.Regex.ofPattern_bracket`: between brackets they are a pattern for a single byte, which
  is in one of the items, or in none of them if there is a `^` in front.
-/

namespace LineEditor.Regex

/-! ## What items stand for -/

/-- The ranges of ASCII codes that make up a named class. -/
def CharClass.ranges : CharClass → List (UInt8 × UInt8)
  | alpha => [(0x41, 0x5a), (0x61, 0x7a)]
  | digit => [(0x30, 0x39)]
  | alnum => [(0x30, 0x39), (0x41, 0x5a), (0x61, 0x7a)]
  | upper => [(0x41, 0x5a)]
  | lower => [(0x61, 0x7a)]
  | space => [(0x09, 0x0d), (0x20, 0x20)]
  | blank => [(0x09, 0x09), (0x20, 0x20)]
  | punct => [(0x21, 0x2f), (0x3a, 0x40), (0x5b, 0x60), (0x7b, 0x7e)]
  | print => [(0x20, 0x7e)]
  | graph => [(0x21, 0x7e)]
  | cntrl => [(0x00, 0x1f), (0x7f, 0x7f)]
  | xdigit => [(0x30, 0x39), (0x41, 0x46), (0x61, 0x66)]

/-- The bytes of a named class. -/
def CharClass.bytes (c : CharClass) : Set UInt8 :=
  {b | ∃ range ∈ c.ranges, range.1 ≤ b ∧ b ≤ range.2}

/-- The bytes that an item stands for. -/
def BracketItem.bytes : BracketItem → Set UInt8
  | byte b => {b}
  | range low high => {b | low ≤ b ∧ b ≤ high}
  | named c => c.bytes

/-- The bytes that a class accepts are the bytes between the ends of one of its ranges.

**Proof sketch.** For each class both sides say the same in comparisons of numbers. -/
theorem CharClass.contains_iff (c : CharClass) (b : UInt8) : c.contains b ↔ b ∈ c.bytes := by
  show _ ↔ ∃ range ∈ c.ranges, range.1 ≤ b ∧ b ≤ range.2
  cases c <;>
    simp [CharClass.contains, CharClass.ranges, isUpper, isLower, isDigit, isBlank, ascii,
      UInt8.le_iff_toNat_le, ← UInt8.toNat_inj] <;>
    omega

/-- The bytes that an item accepts are the bytes it stands for. -/
theorem BracketItem.contains_iff (item : BracketItem) (b : UInt8) :
    item.contains b ↔ b ∈ item.bytes := by
  cases item with
  | byte c =>
    rw [BracketItem.contains, beq_iff_eq]
    exact eq_comm
  | range low high =>
    rw [BracketItem.contains, Bool.and_eq_true, decide_eq_true_iff, decide_eq_true_iff]
    rfl
  | named c => exact c.contains_iff b

/-- A bracket expression has the bytes of its items. -/
theorem ByteSet.contains_plain_iff (items : List BracketItem) (b : UInt8) :
    ByteSet.contains ⟨false, items⟩ b ↔ ∃ item ∈ items, b ∈ item.bytes := by
  simp [ByteSet.contains, BracketItem.contains_iff]

/-- A negated one has all others. -/
theorem ByteSet.contains_negated_iff (items : List BracketItem) (b : UInt8) :
    ByteSet.contains ⟨true, items⟩ b ↔ ¬∃ item ∈ items, b ∈ item.bytes := by
  simp [ByteSet.contains, BracketItem.contains_iff]

/-! ## How items are written -/

namespace BracketItem

/-- How an item is written in a bracket expression. -/
def written : BracketItem → Line
  | byte b => [b]
  | range low high => [low, ascii '-', high]
  | named c => ascii '[' :: ascii ':' :: (Line.ofString c.name ++ [ascii ':', ascii ']'])

/-- The byte that an item begins with. -/
def firstByte : BracketItem → UInt8
  | byte b => b
  | range low _ => low
  | named _ => ascii '['

/-- The ends of a range are in order, and the upper one is not the `]` that would close the
expression. -/
def InOrder : BracketItem → Prop
  | range low high => low ≤ high ∧ high ≠ ascii ']'
  | _ => True

/-- An item that is written out begins with its first byte. -/
theorem exists_written_eq (item : BracketItem) :
    ∃ tail, item.written = item.firstByte :: tail := by
  cases item with
  | byte => exact ⟨_, rfl⟩
  | range => exact ⟨_, rfl⟩
  | named => exact ⟨_, rfl⟩

end BracketItem

/-- Items, each right behind the one before. -/
def writtenItems (items : List BracketItem) : Line := items.flatMap BracketItem.written

/-- Items that can be written one after the other between brackets. -/
structure Separable (items : List BracketItem) : Prop where
  /-- There is an item. -/
  ne_nil : items ≠ []
  /-- The ranges are in order. -/
  inOrder : ∀ item ∈ items, item.InOrder
  /-- An item that begins with a `]` comes first. -/
  closing : ∀ i (_ : i < items.length), items[i].firstByte = ascii ']' → i = 0
  /-- One that begins with a dash comes first, or it is a single dash that comes last. -/
  dash : ∀ i (_ : i < items.length), items[i].firstByte = ascii '-' →
    i = 0 ∨ items[i] = .byte (ascii '-') ∧ i + 1 = items.length
  /-- The first item does not begin with a `^`. -/
  caret : ∀ item ∈ items.head?, item.firstByte ≠ ascii '^'
  /-- Behind a `[` stands no item that begins with a colon. -/
  colon : items.IsChain fun item next => item = .byte (ascii '[') → next.firstByte ≠ ascii ':'

section

variable {items front back : List BracketItem} {item : BracketItem}

/-- Items are written one behind the other. -/
theorem writtenItems_cons (item : BracketItem) (items : List BracketItem) :
    writtenItems (item :: items) = item.written ++ writtenItems items := List.flatMap_cons

/-- What follows an item begins with the next item, or is the closing `]`. -/
theorem head?_writtenItems (back : List BracketItem) :
    (writtenItems back ++ [ascii ']']).head? =
      some ((back.head?.map BracketItem.firstByte).getD (ascii ']')) := by
  cases back with
  | nil => rfl
  | cons item back =>
    obtain ⟨tail, htail⟩ := item.exists_written_eq
    rw [writtenItems_cons, htail]
    rfl

namespace Separable

/-- Nothing stands before an item that begins with a `]`. -/
theorem front_eq_nil (h : Separable (front ++ item :: back)) (hbyte : item.firstByte = ascii ']') :
    front = [] := by
  have hzero := h.closing front.length (by simp) (by simpa using hbyte)
  exact List.eq_nil_of_length_eq_zero hzero

/-- A dash that does not come first is a single one that comes last. -/
theorem dash_cases (h : Separable (front ++ item :: back)) (hbyte : item.firstByte = ascii '-') :
    front = [] ∨ item = .byte (ascii '-') ∧ back = [] := by
  rcases h.dash front.length (by simp) (by simpa using hbyte) with hzero | ⟨hsingle, hlast⟩
  · exact .inl (List.eq_nil_of_length_eq_zero hzero)
  · rw [List.length_append, List.length_cons] at hlast
    exact .inr ⟨by simpa using hsingle, List.eq_nil_of_length_eq_zero (by omega)⟩

/-- Behind a `[` the next item does not begin with a colon, so no class is opened. -/
theorem firstByte_ne_colon {next : BracketItem}
    (h : Separable (front ++ .byte (ascii '[') :: next :: back)) : next.firstByte ≠ ascii ':' :=
  (List.isChain_append_cons_cons.1 h.colon).2.1 rfl

/-- Behind a single byte the items do not go on as a range does.

**Proof sketch.** A byte goes on as a range only if a dash follows. In a separable order an item
that begins with a dash is the first one or the last one. It is not the first one here, since
another item stands before it; and behind the last one only the closing `]` is left, which does not
go on as a range. -/
theorem continuesRange_eq_false (h : Separable (front ++ item :: back)) :
    continuesRange (writtenItems back ++ [ascii ']']) = false := by
  rcases back with _ | ⟨next, back⟩
  · rfl
  · have hsplit : (front ++ [item]) ++ next :: back = front ++ item :: next :: back := by simp
    rw [← hsplit] at h
    by_cases hdash : next.firstByte = ascii '-'
    · rcases h.dash_cases hdash with hfront | ⟨rfl, rfl⟩
      · simp at hfront
      · rfl
    · obtain ⟨tail, htail⟩ := next.exists_written_eq
      rw [writtenItems_cons, htail, List.append_assoc, List.cons_append]
      unfold continuesRange
      split
      · rename_i heq
        obtain ⟨rfl, -⟩ := List.cons.inj heq
        rw [beq_eq_false_iff_ne.2 hdash, Bool.false_and]
      · rfl

/-- **Items in such an order are read as what they are.** What has been written before them does not
matter, but for whether there is something.

**Proof sketch.** Induction on the items, from the last one on. -/
theorem isItems_append (h : Separable (front ++ back)) {first : Bool}
    (hfirst : first = true ↔ front = []) :
    IsItems first (writtenItems back ++ [ascii ']']) back := by
  induction back generalizing front first with
  | nil =>
    have hne : front ≠ [] := by simpa using h.ne_nil
    obtain rfl : first = false := Bool.eq_false_iff.2 fun htrue => hne (hfirst.1 htrue)
    exact .closing
  | cons item back ih =>
    have hclosing (hbyte : item.firstByte = ascii ']') : first = true :=
      hfirst.2 (h.front_eq_nil hbyte)
    have hsplit : (front ++ [item]) ++ back = front ++ item :: back := by simp
    have hrest : IsItems false (writtenItems back ++ [ascii ']']) back :=
      ih (hsplit ▸ h) (by simp)
    rw [writtenItems_cons, List.append_assoc]
    cases item with
    | byte b =>
      refine .byte hclosing ?_ h.continuesRange_eq_false hrest
      rintro rfl
      show (writtenItems back ++ [ascii ']']).head? ≠ _
      rcases back with _ | ⟨next, back⟩
      · decide
      · rw [head?_writtenItems]
        intro hcolon
        exact h.firstByte_ne_colon (Option.some.inj hcolon)
    | range low high =>
      obtain ⟨hle, hhigh⟩ := h.inOrder (.range low high) (by simp)
      exact .range hclosing hhigh hle hrest
    | named c =>
      have hnamed : IsItems first _ (.named c :: back) := .named hrest
      simpa [BracketItem.written] using hnamed

/-- The items of a bracket expression are read up to the `]` behind them. -/
theorem isItems (h : Separable items) : IsItems true (writtenItems items ++ [ascii ']']) items := by
  have hall : Separable ([] ++ items) := h
  exact hall.isItems_append (by simp)

/-- Without a `^` in front, what is between the brackets is not negated. -/
theorem isBracket (h : Separable items) :
    IsBracket (writtenItems items ++ [ascii ']']) ⟨false, items⟩ := by
  refine .plain ?_ h.isItems
  rw [head?_writtenItems]
  rcases items with _ | ⟨item, items⟩
  · exact absurd rfl h.ne_nil
  · intro hcaret
    exact h.caret item rfl (Option.some.inj hcaret)

end Separable

/-- The program that tests a single byte for being in a set. -/
def Program.ofSet (s : ByteSet) : Program := ⟨.single (.set s) .once .empty, false, false, 0⟩

/-- A bracket expression alone is a pattern for a single byte.

**Proof sketch.** The pattern is a sequence of one piece, a set that stands once. It begins with `[`
and ends with `]`, so that it has no anchors, and the grammar of patterns gives the program. -/
theorem ofPattern_of_isBracket {text : Line} {s : ByteSet} (h : IsBracket text s) :
    Regex.ofPattern (ascii '[' :: text) = .ok ⟨ascii '[' :: text, .ofSet s⟩ := by
  have hsequence : IsSequence true 0 (ascii '[' :: text ++ ([] ++ []))
      (.single (.set s) .once .empty) 0 := .single (.bracket h) .absent .empty
  rw [List.append_nil, List.append_nil] at hsequence
  have hcaret : (ascii '[' :: text).head? ≠ some (ascii '^') := by
    show some (ascii '[') ≠ some (ascii '^')
    decide
  have hlast : (ascii '[' :: text).getLast? ≠ some (ascii '$') := by
    obtain ⟨front, rfl⟩ := h.suffix
    rw [← List.cons_append, List.getLast?_concat]
    decide
  have hprogram : Program.ofPattern (ascii '[' :: text) = .ok (.ofSet s) := by
    rw [Program.ofPattern_eq_ofUnanchored hcaret, Program.ofUnanchored_eq_ok_iff]
    exact .plain hsequence fun hdollar => absurd hdollar hlast
  rw [Regex.ofPattern, hprogram]

/-- **Items between brackets are a pattern for a single byte that is in one of them**, and with a
`^` in front for one that is in none of them, if they are in an order in which they can be written.
The tables of the two sets have the same bytes.

**Proof sketch.** Both expressions are in the grammar of brackets, with the items in question, and
each is a pattern for one byte. What the two sets accept, and what their tables accept, has been
shown for sets of any items. -/
theorem ofPattern_bracket (h : Separable items) :
    ∃ (plain negated : ByteSet) (r r' : Regex),
      Regex.ofPattern (ascii '[' :: (writtenItems items ++ [ascii ']'])) = .ok r ∧
      Regex.ofPattern (ascii '[' :: ascii '^' :: (writtenItems items ++ [ascii ']'])) = .ok r' ∧
      r.program = .ofSet plain ∧ r'.program = .ofSet negated ∧
      ∀ b : UInt8,
        (plain.contains b ↔ ∃ item ∈ items, b ∈ item.bytes) ∧
        (negated.contains b ↔ ¬∃ item ∈ items, b ∈ item.bytes) ∧
        plain.table.contains b = plain.contains b ∧
        negated.table.contains b = negated.contains b := by
  refine ⟨⟨false, items⟩, ⟨true, items⟩, _, _, ofPattern_of_isBracket h.isBracket,
    ofPattern_of_isBracket (.negated h.isItems), rfl, rfl, fun b => ⟨?_, ?_, ?_, ?_⟩⟩
  · exact ByteSet.contains_plain_iff items b
  · exact ByteSet.contains_negated_iff items b
  · exact ByteSet.contains_table _ b
  · exact ByteSet.contains_table _ b

end

/-- The expression `[]a-c[:digit:]\$-]` is for a `]`, a letter from `a` to `c`, a digit, a
backslash, a `$` or a dash.

**Proof sketch.** The order is separable by its definition, and the general statement applies. -/
theorem ofPattern_bracket_allKinds :
    let items : List BracketItem :=
      [.byte (ascii ']'), .range (ascii 'a') (ascii 'c'), .named .digit, .byte (ascii '\\'),
        .byte (ascii '$'), .byte (ascii '-')]
    Separable items ∧ writtenItems items ++ [ascii ']'] = Line.ofString "]a-c[:digit:]\\$-]" ∧
      ∃ (plain negated : ByteSet) (r r' : Regex),
        Regex.ofPattern (ascii '[' :: Line.ofString "]a-c[:digit:]\\$-]") = .ok r ∧
        Regex.ofPattern (ascii '[' :: ascii '^' :: Line.ofString "]a-c[:digit:]\\$-]") = .ok r' ∧
        r.program = .ofSet plain ∧ r'.program = .ofSet negated ∧
        plain.contains (ascii '\\') ∧ negated.contains 0 ∧ plain.table.contains (ascii 'b') := by
  intro items
  have hitems : Separable items := {
    ne_nil := by decide
    inOrder := by simp [items, BracketItem.InOrder, ascii]
    closing := by decide
    dash := by decide
    caret := by decide
    colon := by decide }
  have hwritten : writtenItems items ++ [ascii ']'] = Line.ofString "]a-c[:digit:]\\$-]" := by
    decide
  obtain ⟨plain, negated, r, r', hr, hr', hplain, hnegated, hbytes⟩ := ofPattern_bracket hitems
  rw [hwritten] at hr hr'
  refine ⟨hitems, hwritten, plain, negated, r, r', hr, hr', hplain, hnegated, ?_, ?_, ?_⟩
  · exact (hbytes _).1.2 ⟨.byte (ascii '\\'), by simp [items], rfl⟩
  · refine (hbytes 0).2.1.2 ?_
    simp [items, BracketItem.bytes, CharClass.bytes, CharClass.ranges, ascii]
  · rw [(hbytes _).2.2.1]
    exact (hbytes _).1.2 ⟨.range (ascii 'a') (ascii 'c'), by simp [items], by decide, by decide⟩

end LineEditor.Regex
