import Mathlib.Data.Nat.Bitwise
import LineEditor.Regex.Syntax

set_option autoImplicit false
set_option relaxedAutoImplicit false

/-!
# Bracket expressions as tables

A bracket expression can be kept as a table of 256 bits in four words, one bit for each byte. The
table is made from the items one after the other: each of them puts in its own bytes and leaves the
others as they are, whatever has been put in before, and a negated expression turns all bits over in
the end. What such a table tells of a byte is what the items tell of it.

## Main definitions

* `LineEditor.Regex.ByteTable`: a table of bytes.
* `LineEditor.Regex.ByteSet.table`: the table of a bracket expression.

## Main results

* `LineEditor.Regex.ByteTable.contains_insert`, `LineEditor.Regex.ByteTable.contains_invert`: what
  the operations do to each byte.
* `LineEditor.Regex.ByteSet.contains_table`: the table of a bracket expression has its bytes.
-/

namespace LineEditor.Regex

/-- A set of bytes with one bit for each of them. -/
structure ByteTable where
  /-- The bits, those of 64 bytes in each word. -/
  words : Vector UInt64 4
  deriving DecidableEq

namespace ByteTable

/-! ## Operations on tables -/

/-- The word that a byte has its bit in. -/
def wordIndex (b : UInt8) : Fin 4 :=
  ⟨(b >>> 6).toNat, by
    have hb := b.toNat_lt
    rw [UInt8.toNat_shiftRight, Nat.shiftRight_eq_div_pow]
    exact Nat.div_lt_of_lt_mul hb⟩

/-- One of the four words. -/
def word (t : ByteTable) (i : Fin 4) : UInt64 := t.words[i]

/-- The bit of a byte in its word. -/
def bit (b : UInt8) : UInt64 := 1 <<< (b &&& 63).toUInt64

/-- The table of no bytes. -/
def empty : ByteTable := ⟨Vector.replicate 4 0⟩

/-- Puts in a byte. -/
def insert (t : ByteTable) (b : UInt8) : ByteTable :=
  ⟨t.words.set (wordIndex b) (t.word (wordIndex b) ||| bit b) (wordIndex b).isLt⟩

/-- Puts in some bytes, one after the other. -/
def insertAll (t : ByteTable) (bytes : List UInt8) : ByteTable := bytes.foldl insert t

/-- The bytes from one to another, both included. -/
def bytesFrom (low high : UInt8) : List UInt8 :=
  (List.range' low.toNat (high.toNat + 1 - low.toNat)).map UInt8.ofNat

/-- Puts in all bytes from one to another. -/
def insertRange (t : ByteTable) (low high : UInt8) : ByteTable := t.insertAll (bytesFrom low high)

/-- Puts in all bytes that pass a test. -/
def insertWhere (t : ByteTable) (test : UInt8 → Bool) : ByteTable :=
  t.insertAll ((bytesFrom 0 255).filter test)

/-- The table of the other bytes. -/
def invert (t : ByteTable) : ByteTable := ⟨t.words.map (~~~·)⟩

/-- Whether a byte is in a table. -/
def contains (t : ByteTable) (b : UInt8) : Bool := t.word (wordIndex b) &&& bit b != 0

/-! ## What is in a table -/

section

variable {b c : UInt8}

/-- The word of a byte is that of its upper two bits. -/
theorem val_wordIndex (b : UInt8) : (wordIndex b).val = b.toNat / 64 := by
  show (b >>> 6).toNat = _
  rw [UInt8.toNat_shiftRight, Nat.shiftRight_eq_div_pow]
  rfl

/-- The bit of a byte is that of its lower six bits.

**Proof sketch.** These select a bit of 64, so that the shift does not leave the word. -/
theorem toNat_bit (b : UInt8) : (bit b).toNat = 2 ^ (b.toNat % 64) := by
  have hmod : (b &&& 63).toNat = b.toNat % 64 := by
    rw [UInt8.toNat_and]
    exact Nat.and_two_pow_sub_one_eq_mod b.toNat 6
  have hlt : b.toNat % 64 < 64 := Nat.mod_lt _ (by decide)
  have hpow : 2 ^ (b.toNat % 64) < 2 ^ 64 := Nat.pow_lt_pow_right (by decide) hlt
  rw [bit, UInt64.toNat_shiftLeft, UInt8.toNat_toUInt64, hmod, Nat.mod_eq_of_lt hlt]
  show 1 <<< (b.toNat % 64) % 2 ^ 64 = _
  rw [Nat.one_shiftLeft, Nat.mod_eq_of_lt hpow]

/-- A byte is in a table if its bit is set in its word. -/
theorem contains_eq_testBit (t : ByteTable) (b : UInt8) :
    t.contains b = (t.word (wordIndex b)).toNat.testBit (b.toNat % 64) := by
  rw [Bool.eq_iff_iff, contains, bne_iff_ne, ne_eq, ← UInt64.toNat_inj, UInt64.toNat_and,
    toNat_bit, Nat.and_two_pow]
  simp

/-- A byte is known by its word and its bit in that. -/
theorem eq_of_wordIndex_eq (hword : wordIndex b = wordIndex c)
    (hbit : b.toNat % 64 = c.toNat % 64) : b = c := by
  have hdiv := congrArg Fin.val hword
  rw [val_wordIndex, val_wordIndex] at hdiv
  apply UInt8.toNat_inj.1
  omega

/-- The bytes of a range are those between its ends.

**Proof sketch.** Every number between them is that of a byte, and bytes are ordered as their
numbers are. -/
theorem mem_bytesFrom {low high : UInt8} : b ∈ bytesFrom low high ↔ low ≤ b ∧ b ≤ high := by
  rw [bytesFrom, List.mem_map, UInt8.le_iff_toNat_le, UInt8.le_iff_toNat_le]
  have hhigh := high.toNat_lt
  constructor
  · rintro ⟨n, hn, rfl⟩
    rw [List.mem_range'_1] at hn
    have hlt : n < 256 := by omega
    have hvalue : (UInt8.ofNat n).toNat = n := UInt8.toNat_ofNat_of_lt' hlt
    omega
  · rintro ⟨hlow, hle⟩
    exact ⟨b.toNat, List.mem_range'_1.2 (by omega), UInt8.ofNat_toNat⟩

/-- An empty table has no byte. -/
@[simp] theorem contains_empty (b : UInt8) : empty.contains b = false := by
  have hword : empty.word (wordIndex b) = 0 := Vector.getElem_replicate (wordIndex b).isLt
  rw [contains_eq_testBit, hword]
  exact Nat.zero_testBit _

/-- Putting a byte in sets its bit in its word. -/
theorem word_insert_self (t : ByteTable) (b : UInt8) :
    (t.insert b).word (wordIndex b) = t.word (wordIndex b) ||| bit b :=
  Vector.getElem_set_self (wordIndex b).isLt

/-- It leaves all other words alone. -/
theorem word_insert_of_ne (t : ByteTable) {i : Fin 4} (h : wordIndex b ≠ i) :
    (t.insert b).word i = t.word i :=
  Vector.getElem_set_ne (wordIndex b).isLt i.isLt (Fin.val_ne_of_ne h)

/-- **Putting in a byte changes nothing for the others.** -/
theorem contains_insert (t : ByteTable) (b c : UInt8) :
    (t.insert b).contains c = (t.contains c || b == c) := by
  rw [contains_eq_testBit, contains_eq_testBit]
  by_cases hword : wordIndex b = wordIndex c
  · rw [← hword, word_insert_self, UInt64.toNat_or, Nat.testBit_or, toNat_bit,
      Nat.testBit_two_pow]
    congr 1
    rw [Bool.eq_iff_iff, decide_eq_true_iff, beq_iff_eq]
    exact ⟨eq_of_wordIndex_eq hword, fun h => by rw [h]⟩
  · have hne : (b == c) = false := beq_eq_false_iff_ne.2 fun h => hword (by rw [h])
    rw [word_insert_of_ne t hword, hne, Bool.or_false]

/-- Putting in several bytes puts in just these.

**Proof sketch.** By induction on them, with `contains_insert` for each. -/
theorem contains_insertAll (t : ByteTable) (bytes : List UInt8) (b : UInt8) :
    (t.insertAll bytes).contains b = (t.contains b || decide (b ∈ bytes)) := by
  induction bytes generalizing t with
  | nil =>
    show t.contains b = _
    rw [decide_eq_false List.not_mem_nil, Bool.or_false]
  | cons c bytes ih =>
    have hstep : t.insertAll (c :: bytes) = (t.insert c).insertAll bytes := rfl
    have hmem : decide (b ∈ c :: bytes) = (c == b || decide (b ∈ bytes)) := by
      rw [Bool.eq_iff_iff, decide_eq_true_iff, List.mem_cons, Bool.or_eq_true, beq_iff_eq,
        decide_eq_true_iff, eq_comm]
    rw [hstep, ih, contains_insert, Bool.or_assoc, hmem]

/-- Putting in a range puts in the bytes of the range. -/
theorem contains_insertRange (t : ByteTable) (low high b : UInt8) :
    (t.insertRange low high).contains b = (t.contains b || (low ≤ b && b ≤ high)) := by
  rw [insertRange, contains_insertAll]
  simp [mem_bytesFrom]

/-- Putting in what passes a test puts in just these bytes. -/
theorem contains_insertWhere (t : ByteTable) (test : UInt8 → Bool) (b : UInt8) :
    (t.insertWhere test).contains b = (t.contains b || test b) := by
  have hall : b ∈ bytesFrom 0 255 :=
    mem_bytesFrom.2 ⟨UInt8.le_iff_toNat_le.2 (Nat.zero_le _),
      UInt8.le_iff_toNat_le.2 (Nat.le_of_lt_succ b.toNat_lt)⟩
  rw [insertWhere, contains_insertAll]
  simp [List.mem_filter, hall]

/-- **Turning a table over turns over what it tells of each byte.** -/
theorem contains_invert (t : ByteTable) (b : UInt8) : t.invert.contains b = !t.contains b := by
  have hlt : b.toNat % 64 < 64 := Nat.mod_lt _ (by decide)
  have hword : t.invert.word (wordIndex b) = ~~~t.word (wordIndex b) :=
    Vector.getElem_map _ (wordIndex b).isLt
  have hnot : (~~~t.word (wordIndex b)).toNat = 2 ^ 64 - ((t.word (wordIndex b)).toNat + 1) := by
    rw [UInt64.toNat_not, Nat.sub_sub, Nat.add_comm 1]
    rfl
  rw [contains_eq_testBit, contains_eq_testBit, hword, hnot,
    Nat.testBit_two_pow_sub_succ (UInt64.toNat_lt _), decide_eq_true hlt, Bool.true_and]

end

end ByteTable

/-! ## The table of a bracket expression -/

/-- Puts in the bytes of an item. -/
def BracketItem.insertInto (item : BracketItem) (t : ByteTable) : ByteTable :=
  match item with
  | byte b => t.insert b
  | range low high => t.insertRange low high
  | named c => t.insertWhere c.contains

/-- The table of a bracket expression, made item by item. -/
def ByteSet.table (s : ByteSet) : ByteTable :=
  let union := s.items.foldl (fun t item => item.insertInto t) .empty
  if s.negated then union.invert else union

/-- An item puts in its own bytes. -/
theorem BracketItem.contains_insertInto (item : BracketItem) (t : ByteTable) (b : UInt8) :
    (item.insertInto t).contains b = (t.contains b || item.contains b) := by
  cases item with
  | byte c => exact t.contains_insert c b
  | range low high => exact t.contains_insertRange low high b
  | named c => exact t.contains_insertWhere c.contains b

/-- Items put in their bytes one after the other. -/
theorem ByteTable.contains_foldl (t : ByteTable) (items : List BracketItem) (b : UInt8) :
    (items.foldl (fun t item => item.insertInto t) t).contains b =
      (t.contains b || items.any (·.contains b)) := by
  induction items generalizing t with
  | nil => simp
  | cons item items ih =>
    rw [List.foldl_cons, ih, BracketItem.contains_insertInto, List.any_cons, Bool.or_assoc]

/-- **The table of a bracket expression has exactly its bytes.** -/
theorem ByteSet.contains_table (s : ByteSet) (b : UInt8) : s.table.contains b = s.contains b := by
  have hunion := ByteTable.empty.contains_foldl s.items b
  rw [ByteTable.contains_empty, Bool.false_or] at hunion
  unfold table contains
  cases s.negated with
  | false => simpa using hunion
  | true => simp [ByteTable.contains_invert, hunion]

end LineEditor.Regex
