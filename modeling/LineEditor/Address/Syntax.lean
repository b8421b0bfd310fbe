import LineEditor.Delimited

set_option autoImplicit false
set_option relaxedAutoImplicit false

/-!
# The written form of addresses

A command line starts with any number of addresses, separated by commas or semicolons (a percent
sign is another comma). An address has an anchor, which is a line number, the current line, the
last line, a mark or a search, and offsets that are added to it. Blanks may stand between all of
these. What an address means depends on the buffer; how it is written does not. Numbers that no word
of 64 bits holds are all alike.

## Main definitions

* `LineEditor.Address`: an anchor with its offsets.
* `LineEditor.AddressList`: the addresses at the front of a command line.
* `LineEditor.readAddress`: one address.
* `LineEditor.readAddresses`: all of them.
-/

namespace LineEditor

/-- Which way a search goes. -/
inductive Direction where
  /-- To the lines after the current one. -/
  | forward
  /-- To the lines before the current one. -/
  | backward
  deriving Repr, DecidableEq

/-- The line that an address starts from. -/
inductive Anchor where
  /-- The line of a given number. -/
  | number (n : Nat)
  /-- The current line. -/
  | current
  /-- The last line. -/
  | last
  /-- The line marked by a letter. -/
  | mark (letter : UInt8)
  /-- A quote that no mark follows. -/
  | badMark
  /-- The next line that has a match of a pattern. -/
  | search (direction : Direction) (pattern : Line)
  /-- A search whose pattern is not closed. -/
  | unclosedSearch
  deriving Repr, DecidableEq

/-- An anchor and the offsets that are added to it. -/
structure Address where
  /-- The line to start from. -/
  anchor : Anchor
  /-- The offsets, in the order in which they are added. -/
  offsets : List Int
  deriving Repr, DecidableEq

/-- What stands between two addresses. -/
inductive Separator where
  /-- The next address is resolved with the same current line. -/
  | comma
  /-- The next address is resolved with this address as its current line. -/
  | semicolon
  deriving Repr, DecidableEq

/-- The addresses of a command line. -/
structure AddressList where
  /-- The addresses that a separator follows. Before a separator an address may be missing. -/
  links : List (Option Address × Separator)
  /-- The address after the last separator. -/
  final : Option Address
  deriving Repr, DecidableEq

/-! ## Reading an address -/

/-- A byte that starts a signed offset. -/
def isSign (b : UInt8) : Bool := b == ascii '+' || b == ascii '-' || b == ascii '^'

/-- The offset of a sign: one line down or up if no number follows. -/
def signedOffset (sign : UInt8) (digits : Line) : Int :=
  let size : Int := if digits.isEmpty then 1 else numeralUpTo wordSize digits
  if sign = ascii '+' then size else -size

/-- Reads an anchor, if there is one. A sign stands for the current line and is left to the
offsets. -/
def readAnchor (bytes : Line) : Option (Anchor × Line) :=
  match bytes with
  | [] => none
  | b :: rest =>
    if isDigit b then
      some (.number (numeralUpTo wordSize (bytes.takeWhile isDigit)), bytes.dropWhile isDigit)
    else if b = ascii '.' then some (.current, rest)
    else if b = ascii '$' then some (.last, rest)
    else if b = ascii '\'' then
      match rest with
      | [] => some (.badMark, [])
      | letter :: rest => some (if isLower letter then .mark letter else .badMark, rest)
    else if b = ascii '/' ∨ b = ascii '?' then
      match readDelimited b true rest with
      | (_, none) => some (.unclosedSearch, [])
      | (pattern, some rest) =>
        some (.search (if b = ascii '/' then .forward else .backward) pattern, rest)
    else if isSign b then some (.current, bytes)
    else none

/-- What follows an anchor is no longer than the text.

**Proof sketch.** One case for each kind of anchor. Only what follows an address with offsets but
without an anchor is all of the text. -/
theorem length_readAnchor_le {bytes rest : Line} {anchor : Anchor}
    (h : readAnchor bytes = some (anchor, rest)) : rest.length ≤ bytes.length := by
  unfold readAnchor at h
  split at h
  · simp at h
  · rename_i b tail
    split at h
    · obtain ⟨-, rfl⟩ := Prod.mk.inj (Option.some.inj h)
      exact (List.dropWhile_suffix _).length_le
    · split at h
      · obtain ⟨-, rfl⟩ := Prod.mk.inj (Option.some.inj h)
        simp
      · split at h
        · obtain ⟨-, rfl⟩ := Prod.mk.inj (Option.some.inj h)
          simp
        · split at h
          · split at h
            · obtain ⟨-, rfl⟩ := Prod.mk.inj (Option.some.inj h)
              simp
            · obtain ⟨-, rfl⟩ := Prod.mk.inj (Option.some.inj h)
              simp only [List.length_cons]; omega
          · split at h
            · split at h
              · obtain ⟨-, rfl⟩ := Prod.mk.inj (Option.some.inj h)
                simp
              · rename_i hr
                obtain ⟨-, rfl⟩ := Prod.mk.inj (Option.some.inj h)
                have := length_readDelimited_lt hr
                simp only [List.length_cons]; omega
            · split at h
              · obtain ⟨-, rfl⟩ := Prod.mk.inj (Option.some.inj h)
                exact Nat.le_refl _
              · simp at h

/-- Reads the offsets of an address and the blanks around them. -/
def readOffsets (bytes : Line) : List Int × Line :=
  match h : skipBlanks bytes with
  | [] => ([], [])
  | b :: rest =>
    have : rest.length < bytes.length := by
      have := length_skipBlanks_le bytes
      rw [h, List.length_cons] at this
      omega
    if isSign b then
      let (offsets, left) := readOffsets (rest.dropWhile isDigit)
      (signedOffset b (rest.takeWhile isDigit) :: offsets, left)
    else if isDigit b then
      let (offsets, left) := readOffsets (rest.dropWhile isDigit)
      (numeralUpTo wordSize (b :: rest.takeWhile isDigit) :: offsets, left)
    else ([], b :: rest)
termination_by bytes.length
decreasing_by
  all_goals
    have : (rest.dropWhile isDigit).length ≤ rest.length := (List.dropWhile_suffix _).length_le
    omega

/-- What follows the offsets is no longer than the text.

**Proof sketch.** Induction along the offsets, each of which is a sign or a digit and the digits
behind it. -/
theorem length_readOffsets_le (bytes : Line) : (readOffsets bytes).2.length ≤ bytes.length := by
  fun_induction readOffsets bytes with
  | case1 => simp
  | case2 bytes b rest _ hlt _ offsets left hr ih =>
    rw [hr] at ih
    have : (rest.dropWhile isDigit).length ≤ rest.length := (List.dropWhile_suffix _).length_le
    simp only at *; omega
  | case3 bytes b rest _ hlt _ _ offsets left hr ih =>
    rw [hr] at ih
    have : (rest.dropWhile isDigit).length ≤ rest.length := (List.dropWhile_suffix _).length_le
    simp only at *; omega
  | case4 bytes b rest _ hlt => simp only [List.length_cons]; omega

/-- Reads an address, if there is one, and the blanks around it. -/
def readAddress (bytes : Line) : Option Address × Line :=
  match readAnchor (skipBlanks bytes) with
  | none => (none, skipBlanks bytes)
  | some (anchor, rest) =>
    let (offsets, left) := readOffsets rest
    (some ⟨anchor, offsets⟩, left)

/-- What follows an address and the blanks around it is no longer than the text. -/
theorem length_readAddress_le (bytes : Line) : (readAddress bytes).2.length ≤ bytes.length := by
  have h₁ := length_skipBlanks_le bytes
  unfold readAddress
  split
  · exact h₁
  · rename_i rest h
    have h₂ := length_readAnchor_le h
    have h₃ := length_readOffsets_le rest
    simp only; omega

/-! ## Reading all addresses -/

/-- The separator that a byte stands for. -/
def Separator.ofByte? (b : UInt8) : Option Separator :=
  if b = ascii ',' ∨ b = ascii '%' then some .comma
  else if b = ascii ';' then some .semicolon
  else none

/-- Reads the addresses at the front of a command line; what is left starts with the command. -/
def readAddresses (bytes : Line) : AddressList × Line :=
  match h : readAddress bytes with
  | (address, []) => (⟨[], address⟩, [])
  | (address, b :: rest) =>
    match Separator.ofByte? b with
    | none => (⟨[], address⟩, b :: rest)
    | some separator =>
      have : rest.length < bytes.length := by
        have := length_readAddress_le bytes
        rw [h] at this
        simp only [List.length_cons] at this
        omega
      let (list, left) := readAddresses rest
      (⟨(address, separator) :: list.links, list.final⟩, left)
termination_by bytes.length

end LineEditor
