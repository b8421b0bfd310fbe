import Mathlib.Data.List.TakeWhile
import LineEditor.Proofs.Address.Searching
import LineEditor.Proofs.Command.Delimiters

set_option autoImplicit false
set_option relaxedAutoImplicit false

/-!
# What addresses are spelled like

The written form of addresses as a grammar, with the exact numbers that their digits denote. The
readers return these addresses, except that numbers beyond the words of 64 bits become alike. They
end where the text does, whatever follows, as long as it does not go on with an address. And what
they have read is always spelled like this, except in a line that ends within a mark or a search.

## Main definitions

* `LineEditor.SpellsOffsets`, `LineEditor.SpellsAnchor`, `LineEditor.SpellsAddress`,
  `LineEditor.SpellsList`: the texts that spell offsets, an anchor, an address and several ones.
* `LineEditor.Address.clamped`: an address as it is read.

## Main results

* `LineEditor.SpellsList.readAddresses_eq`: the reader finds the addresses that a text spells.
* `LineEditor.spells_readAddresses`: the addresses that it finds are spelled by what it has read.
-/

namespace LineEditor

/-! ## Where a text stops -/

/-- A text does not go on with bytes of a kind: it is empty or begins with another one. -/
def Stops (p : UInt8 → Bool) (rest : Line) : Prop := ∀ b ∈ rest.head?, p b = false

section

variable {p q : UInt8 → Bool} {text rest : Line}

/-- An empty text stops everywhere. -/
theorem Stops.nil : Stops p [] := by simp [Stops]

/-- A text stops where its first byte is of another kind. -/
theorem stops_cons {b : UInt8} : Stops p (b :: rest) ↔ p b = false := by simp [Stops]

/-- A text that stops at some bytes stops at fewer of them. -/
theorem Stops.mono (hpq : ∀ b, q b = true → p b = true) (h : Stops p rest) : Stops q rest := by
  intro b hb
  by_contra hq
  have hp := hpq b (Bool.eq_true_of_not_eq_false hq)
  rw [h b hb] at hp
  cases hp

/-- A text stops where its front does, or where the rest does if the front is empty. -/
theorem Stops.append (htext : Stops p text) (hrest : Stops p rest) : Stops p (text ++ rest) := by
  cases text with
  | nil => exact hrest
  | cons b text => exact stops_cons.2 (stops_cons.1 htext)

/-- What a text does not begin with, its front does not begin with either. -/
theorem Stops.of_append (h : Stops p (text ++ rest)) : Stops p text := by
  cases text with
  | nil => exact Stops.nil
  | cons b text => exact stops_cons.2 (stops_cons.1 h)

/-- What is left of a text after some bytes stops at these bytes. -/
theorem stops_dropWhile : Stops p (rest.dropWhile p) := by
  intro b hb
  have hhead := List.head?_dropWhile_not p rest
  rwa [Option.mem_def.1 hb] at hhead

/-- Of a text that stops, nothing is dropped. -/
theorem Stops.dropWhile_eq (h : Stops p rest) : rest.dropWhile p = rest := by
  cases rest with
  | nil => rfl
  | cons b rest => exact List.dropWhile_cons_of_neg (by simp [stops_cons.1 h])

/-- Of a text that stops, nothing is taken. -/
theorem Stops.takeWhile_eq (h : Stops p rest) : rest.takeWhile p = [] := by
  cases rest with
  | nil => rfl
  | cons b rest => exact List.takeWhile_cons_of_neg (by simp [stops_cons.1 h])

/-- A run of bytes of a kind is dropped up to where it stops. -/
theorem Stops.dropWhile_append (htext : ∀ b ∈ text, p b = true) (h : Stops p rest) :
    (text ++ rest).dropWhile p = rest := by
  rw [List.dropWhile_append_of_pos htext, h.dropWhile_eq]

/-- A run of bytes of a kind is taken up to where it stops. -/
theorem Stops.takeWhile_append (htext : ∀ b ∈ text, p b = true) (h : Stops p rest) :
    (text ++ rest).takeWhile p = text := by
  rw [List.takeWhile_append_of_pos htext, h.takeWhile_eq, List.append_nil]

end

/-! ## Offsets -/

/-- A byte that goes on with the offsets of an address. -/
def inOffsets (b : UInt8) : Bool := isBlank b || isDigit b || isSign b

/-- The number of lines that a sign and the digits behind it move an address by. -/
def exactOffset (sign : UInt8) (digits : Line) : Int :=
  let size : Int := if digits.isEmpty then 1 else numeral digits
  if sign = ascii '+' then size else -size

/-- Texts that spell offsets: signs with or without numbers, and numbers alone. Blanks may stand
before each and at the end. -/
inductive SpellsOffsets : Line → List Int → Prop where
  /-- Nothing but blanks. -/
  | none {blanks : Line} (hblanks : ∀ b ∈ blanks, isBlank b = true) : SpellsOffsets blanks []
  /-- A sign, perhaps with a number. -/
  | signed {blanks digits text : Line} {sign : UInt8} {offsets : List Int}
    (hblanks : ∀ b ∈ blanks, isBlank b = true) (hsign : isSign sign = true)
    (hdigits : ∀ b ∈ digits, isDigit b = true) (hstops : Stops isDigit text)
    (htext : SpellsOffsets text offsets) :
    SpellsOffsets (blanks ++ sign :: (digits ++ text)) (exactOffset sign digits :: offsets)
  /-- A number alone. -/
  | unsigned {blanks digits text : Line} {b : UInt8} {offsets : List Int}
    (hblanks : ∀ b ∈ blanks, isBlank b = true) (hdigits : ∀ d ∈ b :: digits, isDigit d = true)
    (hstops : Stops isDigit text) (htext : SpellsOffsets text offsets) :
    SpellsOffsets (blanks ++ b :: (digits ++ text)) (numeral (b :: digits) :: offsets)

/-- A number as it is read: what no word of 64 bits holds is cut off. -/
def clampOffset (offset : Int) : Int := max (-wordSize) (min wordSize offset)

/-- The value of digits is clamped as it is read. -/
theorem clampOffset_numeral (digits : Line) :
    clampOffset (numeral digits) = numeralUpTo wordSize digits := by
  rw [numeralUpTo_eq, clampOffset]
  omega

/-- So is a signed offset.

**Proof sketch.** What is read is the smaller of the value and the greatest word, with its sign; and
a sign with no digits stands for one, which is no greater. -/
theorem clampOffset_exactOffset (sign : UInt8) (digits : Line) :
    clampOffset (exactOffset sign digits) = signedOffset sign digits := by
  have hone : (1 : Int) ≤ wordSize := by decide
  unfold clampOffset exactOffset signedOffset
  rw [numeralUpTo_eq]
  dsimp only
  split
  · split
    · omega
    · omega
  · split
    · omega
    · omega

section

variable {bytes rest text digits : Line} {sign b : UInt8} {offsets : List Int}

/-- Blanks in front of a text are skipped. -/
theorem skipBlanks_append {blanks : Line} (h : ∀ b ∈ blanks, isBlank b = true) (rest : Line) :
    skipBlanks (blanks ++ rest) = skipBlanks rest := List.dropWhile_append_of_pos h

/-- Where there is none, nothing is skipped. -/
theorem skipBlanks_cons (h : isBlank b = false) : skipBlanks (b :: rest) = b :: rest :=
  Stops.dropWhile_eq (stops_cons.2 h)

/-- A line in two parts: its first blanks and what follows them. -/
theorem exists_blanks (bytes : Line) :
    ∃ blanks, (∀ b ∈ blanks, isBlank b = true) ∧ blanks ++ skipBlanks bytes = bytes :=
  ⟨bytes.takeWhile isBlank, fun _ => List.mem_takeWhile_imp, List.takeWhile_append_dropWhile⟩

/-- A sign is no blank. -/
theorem isBlank_eq_false_of_isSign (h : isSign b = true) : isBlank b = false := by
  simp only [isSign, Bool.or_eq_true, beq_iff_eq] at h
  obtain (rfl | rfl) | rfl := h
  all_goals rfl

/-- A digit is no blank. -/
theorem isBlank_eq_false_of_isDigit (h : isDigit b = true) : isBlank b = false := by
  by_contra hblank
  simp only [isBlank, Bool.not_eq_false, Bool.or_eq_true, beq_iff_eq] at hblank
  obtain rfl | rfl := hblank
  all_goals exact absurd h (by decide)

/-- A digit is no sign. -/
theorem isSign_eq_false_of_isDigit (h : isDigit b = true) : isSign b = false := by
  by_contra hsign
  simp only [isSign, Bool.not_eq_false, Bool.or_eq_true, beq_iff_eq] at hsign
  obtain (rfl | rfl) | rfl := hsign
  all_goals exact absurd h (by decide)

/-- The steps of the reader of offsets, without the proof that it comes to an end.

**Proof sketch.** By the equation of the reader, after which only the names of its branches
differ. -/
theorem readOffsets_step (bytes : Line) :
    readOffsets bytes =
      match skipBlanks bytes with
      | [] => ([], [])
      | b :: rest =>
        let more := readOffsets (rest.dropWhile isDigit)
        if isSign b then (signedOffset b (rest.takeWhile isDigit) :: more.1, more.2)
        else if isDigit b then
          ((numeralUpTo wordSize (b :: rest.takeWhile isDigit) : Int) :: more.1, more.2)
        else ([], b :: rest) := by
  rw [readOffsets.eq_def]
  split
  · rename_i hbytes
    rw [hbytes]
  · rename_i hbytes
    simp only [hbytes]

/-- Where no offset begins, none is read. -/
theorem readOffsets_of_stops (h : Stops inOffsets rest) : readOffsets rest = ([], rest) := by
  rw [readOffsets_step]
  cases rest with
  | nil => rfl
  | cons b rest =>
    have hb := stops_cons.1 h
    simp only [inOffsets, Bool.or_eq_false_iff] at hb
    obtain ⟨⟨hblank, hdigit⟩, hsign⟩ := hb
    rw [skipBlanks_cons hblank]
    simp [hdigit, hsign]

/-- The reader finds the offsets that a text spells.

**Proof sketch.** By induction on the offsets. Each is behind blanks and begins with a sign or a
digit, so that the reader takes that byte and the digits behind it. The text goes on with offsets,
which is why the digits end where those of the reader do. -/
theorem SpellsOffsets.readOffsets_eq (h : SpellsOffsets text offsets)
    (hrest : Stops inOffsets rest) :
    readOffsets (text ++ rest) = (offsets.map clampOffset, rest) := by
  have hrestDigit : Stops isDigit rest := hrest.mono fun b hb => by simp [inOffsets, hb]
  have hrestBlank : Stops isBlank rest := hrest.mono fun b hb => by simp [inOffsets, hb]
  induction h with
  | none hblanks =>
    rw [readOffsets_step, skipBlanks_append hblanks]
    exact (readOffsets_step rest).symm.trans (readOffsets_of_stops hrest)
  | @signed blanks digits text sign offsets hblanks hsign hdigits hstops _ ih =>
    have hmore : Stops isDigit (text ++ rest) := hstops.append hrestDigit
    rw [readOffsets_step, List.append_assoc, skipBlanks_append hblanks, List.cons_append,
      skipBlanks_cons (isBlank_eq_false_of_isSign hsign), List.append_assoc]
    dsimp only
    rw [if_pos hsign, hmore.takeWhile_append hdigits, hmore.dropWhile_append hdigits, ih,
      List.map_cons, clampOffset_exactOffset]
  | @unsigned blanks digits text b offsets hblanks hdigits hstops _ ih =>
    have hmore : Stops isDigit (text ++ rest) := hstops.append hrestDigit
    obtain ⟨hb, hdigits'⟩ := List.forall_mem_cons.1 hdigits
    rw [readOffsets_step, List.append_assoc, skipBlanks_append hblanks, List.cons_append,
      skipBlanks_cons (isBlank_eq_false_of_isDigit hb), List.append_assoc]
    dsimp only
    rw [if_neg (Bool.eq_false_iff.1 (isSign_eq_false_of_isDigit hb)), if_pos hb,
      hmore.takeWhile_append hdigits', hmore.dropWhile_append hdigits', ih, List.map_cons,
      clampOffset_numeral]

/-- What the reader has read spells the offsets that it has found.

**Proof sketch.** By induction along the reading. The blanks that were skipped are put in front of
what was read, and the rest of the text behind it. The digits that were taken end where the text
does, since a digit further would have been taken, too. -/
theorem spells_readOffsets (bytes : Line) :
    ∃ text offsets, text ++ (readOffsets bytes).2 = bytes ∧ SpellsOffsets text offsets ∧
      (readOffsets bytes).1 = offsets.map clampOffset ∧ Stops inOffsets (readOffsets bytes).2 := by
  have hdigit (rest : Line) : ∀ d ∈ rest.takeWhile isDigit, isDigit d = true :=
    fun _ => List.mem_takeWhile_imp
  have hstops {rest text left : Line} (happend : text ++ left = rest.dropWhile isDigit) :
      Stops isDigit text := (happend ▸ stops_dropWhile : Stops isDigit (text ++ left)).of_append
  fun_induction readOffsets bytes with
  | case1 bytes hbytes =>
    obtain ⟨blanks, hblanks, happend⟩ := exists_blanks bytes
    rw [hbytes] at happend
    exact ⟨blanks, [], happend, .none hblanks, rfl, Stops.nil⟩
  | case2 bytes sign rest hbytes hlt hsign offsets left hread ih =>
    obtain ⟨blanks, hblanks, happend⟩ := exists_blanks bytes
    obtain ⟨text, exact, htext, hspells, hoffsets, hleft⟩ := ih
    rw [hread] at htext hoffsets hleft
    rw [hbytes] at happend
    refine ⟨blanks ++ sign :: (rest.takeWhile isDigit ++ text), _, ?_,
      .signed hblanks hsign (hdigit rest) (hstops htext) hspells, ?_, hleft⟩
    · rw [← happend, List.append_assoc, List.cons_append, List.append_assoc, htext,
        List.takeWhile_append_dropWhile]
    · rw [List.map_cons, clampOffset_exactOffset, ← hoffsets]
  | case3 bytes b rest hbytes hlt hsign hb offsets left hread ih =>
    obtain ⟨blanks, hblanks, happend⟩ := exists_blanks bytes
    obtain ⟨text, exact, htext, hspells, hoffsets, hleft⟩ := ih
    rw [hread] at htext hoffsets hleft
    rw [hbytes] at happend
    refine ⟨blanks ++ b :: (rest.takeWhile isDigit ++ text), _, ?_,
      .unsigned hblanks (List.forall_mem_cons.2 ⟨hb, hdigit rest⟩) (hstops htext) hspells, ?_,
      hleft⟩
    · rw [← happend, List.append_assoc, List.cons_append, List.append_assoc, htext,
        List.takeWhile_append_dropWhile]
    · rw [List.map_cons, clampOffset_numeral, ← hoffsets]
  | case4 bytes b rest hbytes hlt hsign hb =>
    obtain ⟨blanks, hblanks, happend⟩ := exists_blanks bytes
    rw [hbytes] at happend
    have hblank : isBlank b = false := by
      have hrest : Stops isBlank (b :: rest) := hbytes ▸ stops_dropWhile
      exact stops_cons.1 hrest
    refine ⟨blanks, [], happend, .none hblanks, rfl, stops_cons.2 ?_⟩
    simp [inOffsets, hblank, hsign, hb]

end

/-! ## Addresses -/

/-- Texts that spell the anchor of an address. A quote goes with the byte behind it, whether there
can be such a mark or not. -/
inductive SpellsAnchor : Line → Anchor → Prop where
  /-- The number of a line. -/
  | number {b : UInt8} {digits : Line} (hdigits : ∀ d ∈ b :: digits, isDigit d = true) :
    SpellsAnchor (b :: digits) (.number (numeral (b :: digits)))
  /-- The current line. -/
  | current : SpellsAnchor [ascii '.'] .current
  /-- The last line. -/
  | last : SpellsAnchor [ascii '$'] .last
  /-- A line that is marked. -/
  | mark {letter : UInt8} (hletter : isLower letter = true) :
    SpellsAnchor [ascii '\'', letter] (.mark letter)
  /-- A quote with another byte. -/
  | badMark {letter : UInt8} (hletter : isLower letter = false) :
    SpellsAnchor [ascii '\'', letter] .badMark
  /-- A search. -/
  | search {direction : Direction} {bytes pattern : Line}
    (hclosed : ClosedText direction.delimiter bytes pattern) :
    SpellsAnchor (direction.delimiter :: bytes) (.search direction pattern)

/-- Texts that spell an address. -/
inductive SpellsAddress : Line → Address → Prop where
  /-- An anchor and offsets. The digits of a number all belong to it. -/
  | anchored {blanks front text : Line} {anchor : Anchor} {offsets : List Int}
    (hblanks : ∀ b ∈ blanks, isBlank b = true) (hanchor : SpellsAnchor front anchor)
    (hstops : ∀ n, anchor = .number n → Stops isDigit text) (htext : SpellsOffsets text offsets) :
    SpellsAddress (blanks ++ (front ++ text)) ⟨anchor, offsets⟩
  /-- Offsets alone, with a sign in front: they are added to the current line. -/
  | implied {blanks text : Line} {sign : UInt8} {offsets : List Int}
    (hblanks : ∀ b ∈ blanks, isBlank b = true) (hsign : isSign sign = true)
    (htext : SpellsOffsets (sign :: text) offsets) :
    SpellsAddress (blanks ++ sign :: text) ⟨.current, offsets⟩

/-- An anchor as it is read. -/
def Anchor.clamped : Anchor → Anchor
  | number n => number (min wordSize n)
  | anchor => anchor

/-- An address as it is read: of a number that no word of 64 bits holds, it is only known that it
is so. -/
def Address.clamped (a : Address) : Address := ⟨a.anchor.clamped, a.offsets.map clampOffset⟩

/-- An address in a line that ends within it: a quote that nothing follows, or a search that is not
closed. -/
def Address.CutOff (a : Address) : Prop := a = ⟨.badMark, []⟩ ∨ a = ⟨.unclosedSearch, []⟩

section

variable {bytes front rest text : Line} {anchor : Anchor} {a : Address}

/-- The reader finds the anchor that a text spells.

**Proof sketch.** By the anchor. A number is read up to where the digits end, which is behind it
since the text does not go on with digits; the others are one or two bytes, or a search with its own
closing delimiter. -/
theorem SpellsAnchor.readAnchor_eq (h : SpellsAnchor front anchor)
    (hrest : ∀ n, anchor = .number n → Stops isDigit rest) :
    readAnchor (front ++ rest) = some (anchor.clamped, rest) := by
  cases h with
  | @number b digits hdigits =>
    have hstops := hrest _ rfl
    have hb : isDigit b = true := hdigits b List.mem_cons_self
    have htake := hstops.takeWhile_append hdigits
    have hdrop := hstops.dropWhile_append hdigits
    rw [List.cons_append] at htake hdrop ⊢
    unfold readAnchor
    dsimp only
    rw [if_pos hb, htake, hdrop, numeralUpTo_eq]
    rfl
  | current => rfl
  | last => rfl
  | @mark letter hletter =>
    change some ((if isLower letter then Anchor.mark letter else .badMark), rest) = _
    rw [if_pos hletter]
    rfl
  | @badMark letter hletter =>
    change some ((if isLower letter then Anchor.mark letter else .badMark), rest) = _
    rw [if_neg (Bool.eq_false_iff.1 hletter)]
    rfl
  | search hclosed => exact Address.readAnchor_delimiter _ (hclosed rest)

/-- An anchor does not begin with a blank.

**Proof sketch.** By the anchor, each of which begins with a byte of its own. -/
theorem SpellsAnchor.stops_isBlank (h : SpellsAnchor front anchor) (rest : Line) :
    Stops isBlank (front ++ rest) := by
  cases h with
  | @number b digits hdigits =>
    exact stops_cons.2 (isBlank_eq_false_of_isDigit (hdigits b List.mem_cons_self))
  | current => exact stops_cons.2 rfl
  | last => exact stops_cons.2 rfl
  | mark => exact stops_cons.2 rfl
  | badMark => exact stops_cons.2 rfl
  | @search direction => exact stops_cons.2 (by cases direction <;> rfl)

/-- What the reader has read spells the anchor that it has found, unless this is the current line
in front of a sign, or the line ends within it.

**Proof sketch.** By the branches of the reader, one for each byte with which an anchor can begin.
What is read is the anchor that its bytes spell, with numbers clamped, except for a mark or a search
at which the line ends, and a sign, behind which the current line is implied. -/
theorem spells_readAnchor (h : readAnchor bytes = some (anchor, rest)) :
    (∃ front exact, front ++ rest = bytes ∧ SpellsAnchor front exact ∧ anchor = exact.clamped ∧
      ∀ n, exact = .number n → Stops isDigit rest) ∨
    (anchor = .current ∧ rest = bytes ∧ ∃ sign tail, bytes = sign :: tail ∧ isSign sign = true) ∨
    (rest = [] ∧ (anchor = .badMark ∨ anchor = .unclosedSearch)) := by
  revert h
  fun_cases readAnchor bytes with
  | case1 => exact fun h => by cases h
  | case2 b tail hb => -- a number
    rintro ⟨⟩
    have hdigits : ∀ d ∈ b :: tail.takeWhile isDigit, isDigit d = true :=
      List.forall_mem_cons.2 ⟨hb, fun _ => List.mem_takeWhile_imp⟩
    rw [List.takeWhile_cons_of_pos hb, List.dropWhile_cons_of_pos hb, numeralUpTo_eq]
    exact .inl ⟨_, _, congrArg (b :: ·) List.takeWhile_append_dropWhile, .number hdigits, rfl,
      fun _ _ => stops_dropWhile⟩
  | case3 => -- the current line
    rintro ⟨⟩
    exact .inl ⟨_, _, rfl, .current, rfl, fun _ hn => by cases hn⟩
  | case4 => -- the last line
    rintro ⟨⟩
    exact .inl ⟨_, _, rfl, .last, rfl, fun _ hn => by cases hn⟩
  | case5 => -- a quote at the end
    rintro ⟨⟩
    exact .inr (.inr ⟨rfl, .inl rfl⟩)
  | case6 letter => -- a quote and a byte
    rintro ⟨⟩
    refine .inl ?_
    by_cases hletter : isLower letter = true
    · rw [if_pos hletter]
      exact ⟨_, _, rfl, .mark hletter, rfl, fun _ hn => by cases hn⟩
    · rw [if_neg hletter]
      exact ⟨_, _, rfl, .badMark (Bool.eq_false_iff.2 hletter), rfl, fun _ hn => by cases hn⟩
  | case7 => -- a search that is not closed
    rintro ⟨⟩
    exact .inr (.inr ⟨rfl, .inr rfl⟩)
  | case8 b tail _ _ _ _ hdelimiter pattern after hread => -- a search
    rintro ⟨⟩
    obtain ⟨bytes, rfl, hclosed⟩ := exists_closedText hread
    refine .inl ?_
    obtain rfl | rfl := hdelimiter
    · exact ⟨_, _, rfl, @SpellsAnchor.search .forward _ _ hclosed, rfl, fun _ hn => by cases hn⟩
    · exact ⟨_, _, rfl, @SpellsAnchor.search .backward _ _ hclosed, rfl, fun _ hn => by cases hn⟩
  | case9 sign tail _ _ _ _ _ hsign => -- a sign
    rintro ⟨⟩
    exact .inr (.inl ⟨rfl, rfl, sign, tail, rfl, hsign⟩)
  | case10 => exact fun h => by cases h

/-- The reader finds the address that a text spells.

**Proof sketch.** The blanks are skipped, the anchor is read in front of the offsets, and the
offsets to where the text ends. An implied anchor is read where a sign begins the offsets. -/
theorem SpellsAddress.readAddress_eq (h : SpellsAddress text a) (hrest : Stops inOffsets rest) :
    readAddress (text ++ rest) = (some a.clamped, rest) := by
  cases h with
  | @anchored blanks front text anchor offsets hblanks hanchor hstops htext =>
    have hdigit : Stops isDigit rest := hrest.mono fun b hb => by simp [inOffsets, hb]
    have hskip : skipBlanks (blanks ++ (front ++ text) ++ rest) = front ++ (text ++ rest) := by
      rw [List.append_assoc, List.append_assoc, skipBlanks_append hblanks]
      exact (hanchor.stops_isBlank _).dropWhile_eq
    unfold readAddress
    rw [hskip, hanchor.readAnchor_eq fun n hn => (hstops n hn).append hdigit]
    dsimp only
    rw [htext.readOffsets_eq hrest]
    rfl
  | @implied blanks text sign offsets hblanks hsign htext =>
    have hskip : skipBlanks (blanks ++ sign :: text ++ rest) = sign :: (text ++ rest) := by
      rw [List.append_assoc, skipBlanks_append hblanks]
      exact skipBlanks_cons (isBlank_eq_false_of_isSign hsign)
    have hanchor : readAnchor (sign :: (text ++ rest)) =
        some (.current, sign :: (text ++ rest)) := by
      simp only [isSign, Bool.or_eq_true, beq_iff_eq] at hsign
      obtain (rfl | rfl) | rfl := hsign
      all_goals rfl
    have hoffsets := htext.readOffsets_eq hrest
    rw [List.cons_append] at hoffsets
    unfold readAddress
    rw [hskip, hanchor]
    dsimp only
    rw [hoffsets]
    rfl

/-- A byte that an address can begin with, blanks apart. -/
def startsAddress (b : UInt8) : Bool :=
  isDigit b || isSign b || [ascii '.', ascii '$', ascii '\'', ascii '/', ascii '?'].contains b

/-- Where no address begins, none is read.

**Proof sketch.** The reader compares the first byte with those that begin an anchor, of which it is
none. -/
theorem readAnchor_of_stops (h : Stops startsAddress rest) : readAnchor rest = none := by
  cases rest with
  | nil => rfl
  | cons b rest =>
    have hb := stops_cons.1 h
    simp only [startsAddress, Bool.or_eq_false_iff, List.contains_eq_mem, decide_eq_false_iff_not,
      List.mem_cons, List.not_mem_nil, or_false, not_or] at hb
    obtain ⟨⟨hdigit, hsign⟩, hdot, hdollar, hquote, hslash, hquestion⟩ := hb
    simp [readAnchor, hdigit, hsign, hdot, hdollar, hquote, hslash, hquestion]

/-- A place for an address: an address, or nothing but blanks. -/
inductive SpellsEntry : Line → Option Address → Prop where
  /-- The address is missing. -/
  | missing {blanks : Line} (hblanks : ∀ b ∈ blanks, isBlank b = true) : SpellsEntry blanks none
  /-- The address is there. -/
  | address {text : Line} {a : Address} (h : SpellsAddress text a) : SpellsEntry text (some a)

/-- The reader finds the address that a text spells, or that there is none.

**Proof sketch.** An address is read by `SpellsAddress.readAddress_eq`. Where one is missing, the
blanks are skipped and no anchor begins behind them. -/
theorem SpellsEntry.readAddress_eq {entry : Option Address} (h : SpellsEntry text entry)
    (hrest : Stops inOffsets rest) (hmissing : entry = none → Stops startsAddress rest) :
    readAddress (text ++ rest) = (entry.map Address.clamped, rest) := by
  cases h with
  | missing hblanks =>
    have hblank : Stops isBlank rest := hrest.mono fun b hb => by simp [inOffsets, hb]
    have hskip : skipBlanks (text ++ rest) = rest :=
      (skipBlanks_append hblanks rest).trans hblank.dropWhile_eq
    unfold readAddress
    rw [hskip, readAnchor_of_stops (hmissing rfl)]
    rfl
  | address h => exact h.readAddress_eq hrest

/-- What the reader has read spells the address that it has found, unless the line ends within
it.

**Proof sketch.** By `spells_readAnchor` and `spells_readOffsets`. If the anchor is cut off by the
end of the line, nothing is left of the line for the offsets, and the address is cut off as well. -/
theorem spells_readAddress (bytes : Line) :
    (∃ text entry, text ++ (readAddress bytes).2 = bytes ∧ SpellsEntry text entry ∧
      (readAddress bytes).1 = entry.map Address.clamped) ∨
    (readAddress bytes).2 = [] ∧ ∃ a, (readAddress bytes).1 = some a ∧ a.CutOff := by
  obtain ⟨blanks, hblanks, happend⟩ := exists_blanks bytes
  unfold readAddress
  cases hanchor : readAnchor (skipBlanks bytes) with
  | none => exact .inl ⟨blanks, none, happend, .missing hblanks, rfl⟩
  | some found =>
    obtain ⟨anchor, rest⟩ := found
    obtain ⟨text, offsets, htext, hspells, hoffsets, hleft⟩ := spells_readOffsets rest
    generalize hread : readOffsets rest = result at htext hoffsets hleft
    simp only [hread]
    obtain ⟨front, exact, hfront, hspellsAnchor, rfl, hstops⟩ |
      ⟨rfl, rfl, sign, tail, htail, hsign⟩ | ⟨rfl, hcut⟩ := spells_readAnchor hanchor
    · refine .inl ⟨blanks ++ (front ++ text), some ⟨exact, offsets⟩, ?_, ?_, ?_⟩
      · rw [List.append_assoc, List.append_assoc, htext, hfront, happend]
      · have hdigit (n : Nat) (hn : exact = .number n) : Stops isDigit text :=
          (htext ▸ hstops n hn : Stops isDigit (text ++ result.2)).of_append
        exact .address (.anchored hblanks hspellsAnchor hdigit hspells)
      · rw [hoffsets]
        rfl
    · -- the sign belongs to the offsets, since these end at a byte of another kind
      obtain ⟨text, rfl⟩ : ∃ text', text = sign :: text' := by
        rw [htail] at htext
        cases text with
        | nil =>
          rw [List.nil_append] at htext
          rw [htext, stops_cons] at hleft
          simp [inOffsets, hsign] at hleft
        | cons b text => exact ⟨text, congrArg (· :: text) (List.cons.inj htext).1⟩
      refine .inl ⟨blanks ++ sign :: text, some ⟨.current, offsets⟩, ?_, ?_, ?_⟩
      · rw [List.append_assoc, htext, happend]
      · exact .address (.implied hblanks hsign hspells)
      · rw [hoffsets]
        rfl
    · obtain rfl : ([], []) = result := (readOffsets_of_stops Stops.nil).symm.trans hread
      refine .inr ⟨rfl, _, rfl, ?_⟩
      obtain rfl | rfl := hcut
      · exact .inl rfl
      · exact .inr rfl

end

/-! ## All addresses -/

/-- Texts that spell addresses with separators between them. -/
inductive SpellsList : Line → AddressList → Prop where
  /-- One place without a separator. -/
  | single {text : Line} {entry : Option Address} (hentry : SpellsEntry text entry) :
    SpellsList text ⟨[], entry⟩
  /-- A place, a separator and other places. -/
  | cons {text rest : Line} {entry : Option Address} {b : UInt8} {separator : Separator}
    {list : AddressList} (hentry : SpellsEntry text entry)
    (hseparator : Separator.ofByte? b = some separator) (hlist : SpellsList rest list) :
    SpellsList (text ++ b :: rest) ⟨(entry, separator) :: list.links, list.final⟩

/-- Addresses as they are read. -/
def AddressList.clamped (list : AddressList) : AddressList where
  links := list.links.map fun (entry, separator) => (entry.map Address.clamped, separator)
  final := list.final.map Address.clamped

/-- A byte that can go on with the addresses of a command line. -/
def inAddresses (b : UInt8) : Bool :=
  inOffsets b || startsAddress b || (Separator.ofByte? b).isSome

/-- A separator is no byte of an address.

**Proof sketch.** By the bytes that separate addresses, of which there are three. -/
theorem not_inOffsets_of_separator {b : UInt8} {separator : Separator}
    (h : Separator.ofByte? b = some separator) : inOffsets b = false ∧ startsAddress b = false := by
  unfold Separator.ofByte? at h
  split at h
  · rename_i hb
    obtain rfl | rfl := hb
    all_goals decide
  · split at h
    · rename_i hb
      subst hb
      decide
    · cases h

/-- The steps of the reader of addresses, without the proof that it comes to an end.

**Proof sketch.** By the equation of the reader, after which only the names of its branches
differ. -/
theorem readAddresses_step (bytes : Line) :
    readAddresses bytes =
      match readAddress bytes with
      | (entry, []) => (⟨[], entry⟩, [])
      | (entry, b :: rest) =>
        match Separator.ofByte? b with
        | none => (⟨[], entry⟩, b :: rest)
        | some separator =>
          let more := readAddresses rest
          (⟨(entry, separator) :: more.1.links, more.1.final⟩, more.2) := by
  rw [readAddresses.eq_def]
  split
  · rename_i hread
    rw [hread]
  · rename_i entry b rest hread
    cases hseparator : Separator.ofByte? b with
    | none => simp [hread, hseparator]
    | some separator => simp [hread, hseparator]

/-- **The reader finds the addresses that a text spells**, whatever follows that is no more of
them.

**Proof sketch.** By induction on the list. Every address ends at its separator, which is no byte of
an address, and the last one ends where the list does. -/
theorem SpellsList.readAddresses_eq {text rest : Line} {list : AddressList}
    (h : SpellsList text list) (hrest : Stops inAddresses rest) :
    readAddresses (text ++ rest) = (list.clamped, rest) := by
  induction h with
  | single hentry =>
    have hoffsets : Stops inOffsets rest := hrest.mono fun b hb => by simp [inAddresses, hb]
    have hstarts : Stops startsAddress rest := hrest.mono fun b hb => by simp [inAddresses, hb]
    rw [readAddresses_step, hentry.readAddress_eq hoffsets fun _ => hstarts]
    cases rest with
    | nil => rfl
    | cons b rest =>
      have hb := stops_cons.1 hrest
      simp only [inAddresses, Bool.or_eq_false_iff, Option.isSome_eq_false_iff,
        Option.isNone_iff_eq_none] at hb
      simp only [hb.2]
      rfl
  | @cons text more entry b separator list hentry hseparator _ ih =>
    obtain ⟨hoffsets, hstarts⟩ := not_inOffsets_of_separator hseparator
    rw [readAddresses_step, List.append_assoc, List.cons_append,
      hentry.readAddress_eq (stops_cons.2 hoffsets) fun _ => stops_cons.2 hstarts]
    simp only [hseparator, ih]
    rfl

/-- **What the reader has read spells the addresses that it has found**, unless the line ends within
the last one.

**Proof sketch.** By induction along the reading: what was read of one address is put in front of
what was read behind its separator. Only the last address can be cut off, since a separator follows
the others. -/
theorem spells_readAddresses (bytes : Line) :
    (∃ text list, text ++ (readAddresses bytes).2 = bytes ∧ SpellsList text list ∧
      (readAddresses bytes).1 = list.clamped) ∨
    (readAddresses bytes).2 = [] ∧ ∃ a, (readAddresses bytes).1.final = some a ∧ a.CutOff := by
  fun_induction readAddresses bytes with
  | case1 bytes entry hread =>
    have hspells := spells_readAddress bytes
    rw [hread] at hspells
    obtain ⟨text, exact, happend, hentry, rfl⟩ | ⟨-, hcut⟩ := hspells
    · exact .inl ⟨text, ⟨[], exact⟩, happend, .single hentry, rfl⟩
    · exact .inr ⟨rfl, hcut⟩
  | case2 bytes entry b rest hread hseparator =>
    have hspells := spells_readAddress bytes
    rw [hread] at hspells
    obtain ⟨text, exact, happend, hentry, rfl⟩ | ⟨hnil, -⟩ := hspells
    · exact .inl ⟨text, ⟨[], exact⟩, happend, .single hentry, rfl⟩
    · cases hnil
  | case3 bytes entry b rest hread separator hseparator hlt list left hmore ih =>
    have hspells := spells_readAddress bytes
    rw [hread] at hspells
    rw [hmore] at ih
    obtain ⟨text, exact, happend, hentry, rfl⟩ | ⟨hnil, -⟩ := hspells
    · obtain ⟨more, exactList, happendMore, hlist, rfl⟩ | hcut := ih
      · refine .inl ⟨text ++ b :: more, _, ?_, .cons hentry hseparator hlist, rfl⟩
        rw [List.append_assoc, List.cons_append, happendMore, happend]
      · exact .inr hcut
    · cases hnil

/-- Addresses in front of something are read in the same way in front of anything that is no more of
them.

**Proof sketch.** What was read spells the addresses, and since something is left of the line, none
of them is cut off. What spells them is read in front of anything else as well. -/
theorem exists_readAddresses_append {bytes rest : Line} {list : AddressList}
    (h : readAddresses bytes = (list, rest)) (hrest : rest ≠ []) :
    ∃ text, text ++ rest = bytes ∧
      ∀ more, Stops inAddresses more → readAddresses (text ++ more) = (list, more) := by
  obtain ⟨text, exact, happend, hspells, hlist⟩ | ⟨hnil, -⟩ := spells_readAddresses bytes
  · rw [h] at happend hlist
    dsimp only at hlist
    subst hlist
    exact ⟨text, happend, fun _ => hspells.readAddresses_eq⟩
  · rw [h] at hnil
    exact absurd hnil hrest

end LineEditor
