import LineEditor.Command.Parser
import LineEditor.Proofs.Address.Spelling
import LineEditor.Proofs.Regex.PatternBounds

set_option autoImplicit false
set_option relaxedAutoImplicit false

/-!
# Accesses to the text of a command line

The readers of a command line go through its text by positions, and take parts of it: a bracket
expression between delimiters, what stands behind the opening of a class, and the rest of the line,
which may be a file name, a destination or a command list. They never go beyond the end of the line,
but for one step: an address that consists of a quote only is stepped over as if a letter followed.
Nothing is taken from the line after that.

## Main definitions

* `LineEditor.delimitedTrail`: the trail of the reader of a delimited text.
* `LineEditor.Stands`: where the bytes stand that a reader has left.
* `LineEditor.addressesTrail`: the trail of the reader of addresses.
* `LineEditor.flagAccesses`: what is accessed to read the flags of a substitution.

## Main results

* `LineEditor.leaves_delimitedTrail`: a delimited text is read within the line.
* `LineEditor.addressesTrail_spec`: so are addresses.
-/

namespace LineEditor

open Regex (Occurrence)

variable {size pos : Nat} {bytes : Line}

/-! ## Bracket expressions -/

/-- The position behind a class of which the opening `[:` stands at a position. A class that does
not end is all the rest of the line. -/
def classStop (size pos : Nat) (bytes : Line) : Nat :=
  match Regex.splitClassName? bytes with
  | none => size
  | some (name, _) => pos + 2 + name.length + 2

/-- The way through the items of a bracket expression. What stands behind the opening of a class is
looked through for its end. -/
def splitItemsTrail (size pos : Nat) (bytes : Line) : Trail :=
  match bytes with
  | [] => .reach size
  | b :: rest =>
    if b = ascii ']' then .reach (pos + 1)
    else if b = ascii '[' ∧ rest.head? = some (ascii ':') then
      (splitItemsTrail size (classStop size pos rest.tail) (splitClass rest.tail).2).after
        [.slice (pos + 2) size size]
    else splitItemsTrail size (pos + 1) rest
termination_by bytes.length
decreasing_by
  · have := length_splitClass_le rest.tail
    have := rest.length_tail
    simp only [List.length_cons]; omega
  · simp

/-- The position behind a given byte, if it stands at a position. -/
def byteStop (b : UInt8) (pos : Nat) (bytes : Line) : Nat :=
  match bytes with
  | [] => pos
  | c :: _ => if c = b then pos + 1 else pos

/-- The way through a bracket expression whose opening stands before a position. -/
def splitBracketTrail (size pos : Nat) (bytes : Line) : Trail :=
  let (_, rest) := splitByte (ascii '^') bytes
  let pos := byteStop (ascii '^') pos bytes
  splitItemsTrail size (byteStop (ascii ']') pos rest) (splitByte (ascii ']') rest).2

/-- What stands behind a class stands at the position where this ends.

**Proof sketch.** The name, the closing and what is left make up the bytes of the class. Without a
closing nothing is left. -/
theorem classStop_add_length (h : pos + 2 + bytes.length = size) :
    classStop size pos bytes + (splitClass bytes).2.length = size := by
  unfold classStop splitClass
  cases hsplit : Regex.splitClassName? bytes with
  | none => rfl
  | some split =>
    obtain ⟨name, after⟩ := split
    have hlength := congrArg List.length (Regex.append_of_splitClassName? hsplit)
    rw [List.length_append, List.length_cons, List.length_cons] at hlength
    show pos + 2 + name.length + 2 + after.length = size
    omega

/-- The items of a bracket expression are read within the line.

**Proof sketch.** Induction along the reader. Every position is moved on by as many bytes as are
taken; behind the opening of a class there are two bytes more than are left. -/
theorem leaves_splitItemsTrail (h : pos + bytes.length = size) :
    (splitItemsTrail size pos bytes).Leaves size (splitItems bytes).2 := by
  fun_induction splitItems bytes generalizing pos with
  | case1 =>
    rw [splitItemsTrail]
    exact Trail.leaves_reach (Nat.add_zero size)
  | case2 rest =>
    rw [List.length_cons] at h
    rw [splitItemsTrail, if_pos rfl]
    refine Trail.leaves_reach ?_
    show pos + 1 + rest.length = size
    omega
  | case3 b rest hclose hclass items left hitems ih =>
    rw [hitems] at ih
    have htail : rest.tail.length + 1 = rest.length := by
      cases rest with
      | nil => cases hclass.2
      | cons c rest => rfl
    rw [List.length_cons] at h
    rw [splitItemsTrail, if_neg hclose, if_pos hclass]
    refine (ih (classStop_add_length (by omega))).after (List.forall_mem_singleton.2 ?_)
    exact ⟨by omega, Nat.le_refl _⟩
  | case4 b rest hclose hclass items left hitems ih =>
    rw [hitems] at ih
    rw [List.length_cons] at h
    rw [splitItemsTrail, if_neg hclose, if_neg hclass]
    exact ih (by omega)

/-- What stands behind a byte, if this is there, stands at the next position. -/
theorem byteStop_add_length (b : UInt8) (h : pos + bytes.length = size) :
    byteStop b pos bytes + (splitByte b bytes).2.length = size := by
  cases bytes with
  | nil => exact h
  | cons c rest =>
    rw [List.length_cons] at h
    unfold byteStop splitByte
    dsimp only
    split
    · dsimp only
      omega
    · exact h

/-- A bracket expression is read within the line. -/
theorem leaves_splitBracketTrail (h : pos + bytes.length = size) :
    (splitBracketTrail size pos bytes).Leaves size (splitBracket bytes).2 :=
  leaves_splitItemsTrail (byteStop_add_length _ (byteStop_add_length _ h))

/-! ## Delimited texts -/

/-- The way through a delimited text and the delimiter behind it. A bracket expression is taken from
the line as a whole. -/
def delimitedTrail (delimiter : UInt8) (brackets : Bool) (size pos : Nat) (bytes : Line) : Trail :=
  match bytes with
  | [] => .reach pos
  | b :: rest =>
    if b = delimiter then .reach (pos + 1)
    else if b = ascii '\\' then
      match rest with
      | [] => .reach (pos + 1)
      | _ :: after => delimitedTrail delimiter brackets size (pos + 2) after
    else if b = ascii '[' ∧ brackets then
      let bracket := splitBracketTrail size (pos + 1) rest
      (delimitedTrail delimiter brackets size bracket.stop (splitBracket rest).2).after
        (bracket.accesses ++ [.slice pos bracket.stop size])
    else delimitedTrail delimiter brackets size (pos + 1) rest
termination_by bytes.length
decreasing_by
  · simp only [List.length_cons]; omega
  · have := length_splitBracket_le rest
    simp only [List.length_cons]; omega
  · simp

/-- **A delimited text is read within the line.** What follows its delimiter stands at the position
that is reached, and nothing is left if there is no delimiter.

**Proof sketch.** Induction along the reader, one case for each kind of byte. A bracket expression
ends behind its opening and within the line, so that it can be taken from there. -/
theorem leaves_delimitedTrail (delimiter : UInt8) (brackets : Bool)
    (h : pos + bytes.length = size) :
    (delimitedTrail delimiter brackets size pos bytes).Leaves size
      ((readDelimited delimiter brackets bytes).2.getD []) := by
  fun_induction readDelimited delimiter brackets bytes generalizing pos with
  | case1 =>
    rw [delimitedTrail]
    exact Trail.leaves_reach h
  | case2 rest =>
    rw [List.length_cons] at h
    rw [delimitedTrail.eq_def]
    dsimp only
    rw [if_pos rfl]
    refine Trail.leaves_reach ?_
    show pos + 1 + rest.length = size
    omega
  | case3 hdelimiter =>
    rw [delimitedTrail.eq_def]
    dsimp only
    rw [if_neg hdelimiter, if_pos rfl]
    exact Trail.leaves_reach h
  | case4 c after text left hread hdelimiter ih =>
    rw [hread] at ih
    rw [List.length_cons, List.length_cons] at h
    rw [delimitedTrail.eq_def]
    dsimp only
    rw [if_neg hdelimiter, if_pos rfl]
    exact ih (by omega)
  | case5 b rest hdelimiter hescape hbracket text left hread ih =>
    rw [hread] at ih
    rw [List.length_cons] at h
    have hinside : (splitBracketTrail size (pos + 1) rest).Leaves size (splitBracket rest).2 :=
      leaves_splitBracketTrail (by omega)
    have hmoved : pos ≤ (splitBracketTrail size (pos + 1) rest).stop := by
      have hstop := hinside.stop_add
      have hle := length_splitBracket_le rest
      omega
    rw [delimitedTrail.eq_def]
    dsimp only
    rw [if_neg hdelimiter, if_neg hescape, if_pos hbracket]
    exact (ih hinside.stop_add).after (List.forall_mem_append.2
      ⟨hinside.valid, List.forall_mem_singleton.2 ⟨hmoved, hinside.stop_le⟩⟩)
  | case6 b rest hdelimiter hescape hbracket text left hread ih =>
    rw [hread] at ih
    rw [List.length_cons] at h
    rw [delimitedTrail.eq_def]
    dsimp only
    rw [if_neg hdelimiter, if_neg hescape, if_neg hbracket]
    exact ih (by omega)

/-- Where no bracket expressions are kept whole, nothing is taken from the line.

**Proof sketch.** Induction on the scan: only a bracket expression that is kept whole is copied. -/
theorem accesses_delimitedTrail_false (delimiter : UInt8) (size pos : Nat) (bytes : Line) :
    (delimitedTrail delimiter false size pos bytes).accesses = [] := by
  fun_induction delimitedTrail delimiter false size pos bytes with
  | case1 => rfl
  | case2 => rfl
  | case3 => rfl
  | case4 _ _ _ _ ih => exact ih
  | case5 _ _ _ _ _ hbracket => cases hbracket.2
  | case6 _ _ _ _ _ _ ih => exact ih

/-! ## Addresses -/

/-- If there are bytes left of a line, they stand at the given position. -/
def Stands (size pos : Nat) (bytes : Line) : Prop := bytes ≠ [] → pos + bytes.length = size

/-- Where nothing is left every position will do. -/
theorem Stands.nil (size pos : Nat) : Stands size pos [] := fun h => absurd rfl h

/-- The way through an anchor. -/
def anchorTrail (size pos : Nat) (bytes : Line) : Trail :=
  match bytes with
  | [] => .reach pos
  | b :: rest =>
    if isDigit b then
      (Trail.reach (pos + (bytes.takeWhile isDigit).length)).after
        (digitAccesses (bytes.takeWhile isDigit))
    else if b = ascii '.' then .reach (pos + 1)
    else if b = ascii '$' then .reach (pos + 1)
    else if b = ascii '\'' then .reach (pos + 2)
    else if b = ascii '/' ∨ b = ascii '?' then delimitedTrail b true size (pos + 1) rest
    else .reach pos

/-- The position behind the blanks that stand at a position. -/
def blankStop (pos : Nat) (bytes : Line) : Nat := pos + (bytes.takeWhile isBlank).length

/-- The way through the offsets of an address and the blanks around them. -/
def offsetsTrail (pos : Nat) (bytes : Line) : Trail :=
  match h : skipBlanks bytes with
  | [] => .reach (blankStop pos bytes)
  | b :: rest =>
    have : rest.length < bytes.length := by
      have := length_skipBlanks_le bytes
      rw [h, List.length_cons] at this
      omega
    if isSign b then
      (offsetsTrail (blankStop pos bytes + 1 + (rest.takeWhile isDigit).length)
        (rest.dropWhile isDigit)).after (digitAccesses (rest.takeWhile isDigit))
    else if isDigit b then
      (offsetsTrail (blankStop pos bytes + 1 + (rest.takeWhile isDigit).length)
        (rest.dropWhile isDigit)).after (digitAccesses (b :: rest.takeWhile isDigit))
    else .reach (blankStop pos bytes)
termination_by bytes.length
decreasing_by
  all_goals
    have : (rest.dropWhile isDigit).length ≤ rest.length := (List.dropWhile_suffix _).length_le
    omega

/-- The way through an address, if there is one, and the blanks around it. -/
def addressTrail (size pos : Nat) (bytes : Line) : Trail :=
  match readAnchor (skipBlanks bytes) with
  | none => .reach (blankStop pos bytes)
  | some (_, rest) =>
    let anchor := anchorTrail size (blankStop pos bytes) (skipBlanks bytes)
    (offsetsTrail anchor.stop rest).after anchor.accesses

/-- The way through the addresses at the front of a command line. -/
def addressesTrail (size pos : Nat) (bytes : Line) : Trail :=
  match h : readAddress bytes with
  | (_, []) => addressTrail size pos bytes
  | (_, b :: rest) =>
    match Separator.ofByte? b with
    | none => addressTrail size pos bytes
    | some _ =>
      have : rest.length < bytes.length := by
        have := length_readAddress_le bytes
        rw [h] at this
        simp only [List.length_cons] at this
        omega
      let address := addressTrail size pos bytes
      (addressesTrail size (address.stop + 1) rest).after address.accesses
termination_by bytes.length

/-- What stands behind blanks stands at the position behind them. -/
theorem blankStop_add_length (pos : Nat) (bytes : Line) :
    blankStop pos bytes + (skipBlanks bytes).length = pos + bytes.length := by
  have hlength := Regex.length_takeWhile_add_length_dropWhile isBlank bytes
  unfold blankStop skipBlanks
  omega

/-- What is left behind blanks stands at the position behind them. -/
theorem Stands.skipBlanks (h : Stands size pos bytes) :
    Stands size (blankStop pos bytes) (skipBlanks bytes) := by
  intro hne
  rw [blankStop_add_length]
  refine h fun hnil => hne ?_
  rw [hnil]
  rfl

/-- An anchor is read within the line.

**Proof sketch.** One case for each kind of anchor. The bytes that it takes up and those that are
left make up the line. Two positions are stepped over for a mark; if its letter is missing then
nothing is left, and nothing is read from there. -/
theorem anchorTrail_spec {anchor : Anchor} {rest : Line} (h : Stands size pos bytes)
    (hread : readAnchor bytes = some (anchor, rest)) :
    (∀ a ∈ (anchorTrail size pos bytes).accesses, a.Valid) ∧
      Stands size (anchorTrail size pos bytes).stop rest := by
  rcases bytes with _ | ⟨b, tail⟩
  · cases hread
  have hsize := h (List.cons_ne_nil b tail)
  rw [List.length_cons] at hsize
  unfold anchorTrail
  unfold readAnchor at hread
  dsimp only at hread ⊢
  by_cases hdigit : isDigit b
  · rw [if_pos hdigit] at hread ⊢
    obtain ⟨-, rfl⟩ := Prod.mk.inj (Option.some.inj hread)
    refine ⟨List.forall_mem_append.2
      ⟨valid_digitAccesses_takeWhile _, List.forall_mem_nil _⟩, fun _ => ?_⟩
    have hlength := Regex.length_takeWhile_add_length_dropWhile isDigit (b :: tail)
    rw [List.length_cons] at hlength
    show pos + ((b :: tail).takeWhile isDigit).length + _ = size
    omega
  rw [if_neg hdigit] at hread ⊢
  have hone : Stands size (pos + 1) tail := fun _ => by omega
  by_cases hdot : b = ascii '.'
  · rw [if_pos hdot] at hread ⊢
    obtain ⟨-, rfl⟩ := Prod.mk.inj (Option.some.inj hread)
    exact ⟨List.forall_mem_nil _, hone⟩
  rw [if_neg hdot] at hread ⊢
  by_cases hdollar : b = ascii '$'
  · rw [if_pos hdollar] at hread ⊢
    obtain ⟨-, rfl⟩ := Prod.mk.inj (Option.some.inj hread)
    exact ⟨List.forall_mem_nil _, hone⟩
  rw [if_neg hdollar] at hread ⊢
  by_cases hquote : b = ascii '\''
  · rw [if_pos hquote] at hread ⊢
    refine ⟨List.forall_mem_nil _, ?_⟩
    -- The position is moved on by two, also if there is no letter; then nothing is left.
    cases tail with
    | nil =>
      obtain ⟨-, rfl⟩ := Prod.mk.inj (Option.some.inj hread)
      exact .nil size _
    | cons letter tail =>
      obtain ⟨-, rfl⟩ := Prod.mk.inj (Option.some.inj hread)
      rw [List.length_cons] at hsize
      intro _
      show pos + 2 + tail.length = size
      omega
  rw [if_neg hquote] at hread ⊢
  by_cases hslash : b = ascii '/' ∨ b = ascii '?'
  · rw [if_pos hslash] at hread ⊢
    have hleaves : (delimitedTrail b true size (pos + 1) tail).Leaves size
        ((readDelimited b true tail).2.getD []) := leaves_delimitedTrail b true (by omega)
    refine ⟨hleaves.valid, ?_⟩
    have hstop := hleaves.stop_add
    split at hread
    · obtain ⟨-, rfl⟩ := Prod.mk.inj (Option.some.inj hread)
      exact .nil size _
    · rename_i hdelimited
      rw [hdelimited] at hstop
      obtain ⟨-, rfl⟩ := Prod.mk.inj (Option.some.inj hread)
      exact fun _ => hstop
  rw [if_neg hslash] at hread ⊢
  split at hread
  · obtain ⟨-, rfl⟩ := Prod.mk.inj (Option.some.inj hread)
    exact ⟨List.forall_mem_nil _, h⟩
  · cases hread

/-- Behind blanks there is a signed offset, a number, or the end of the offsets. -/
theorem offsetsTrail_of_cons {b : UInt8} {rest : Line} (h : skipBlanks bytes = b :: rest) :
    offsetsTrail pos bytes =
      let next := offsetsTrail (blankStop pos bytes + 1 + (rest.takeWhile isDigit).length)
        (rest.dropWhile isDigit)
      if isSign b then next.after (digitAccesses (rest.takeWhile isDigit))
      else if isDigit b then next.after (digitAccesses (b :: rest.takeWhile isDigit))
      else .reach (blankStop pos bytes) := by
  rw [offsetsTrail]
  split
  · rename_i hnil
    rw [h] at hnil
    cases hnil
  · rename_i hcons
    obtain ⟨rfl, rfl⟩ := List.cons.inj (h.symm.trans hcons)
    rfl

/-- Offsets are read within the line.

**Proof sketch.** Induction along the reader. A number is stepped over digit by digit, and the
values of its digits are computed. -/
theorem offsetsTrail_spec (h : Stands size pos bytes) :
    (∀ a ∈ (offsetsTrail pos bytes).accesses, a.Valid) ∧
      Stands size (offsetsTrail pos bytes).stop (readOffsets bytes).2 := by
  -- Behind a byte and the digits after it the next offset stands.
  have hnext {bytes : Line} {b : UInt8} {rest : Line} {pos : Nat} (h : Stands size pos bytes)
      (hblank : skipBlanks bytes = b :: rest) :
      Stands size (blankStop pos bytes + 1 + (rest.takeWhile isDigit).length)
        (rest.dropWhile isDigit) := by
    intro _
    have hsize := h.skipBlanks (by rw [hblank]; exact List.cons_ne_nil b rest)
    have hlength := Regex.length_takeWhile_add_length_dropWhile isDigit rest
    rw [hblank, List.length_cons] at hsize
    omega
  fun_induction readOffsets bytes generalizing pos with
  | case1 bytes hblank =>
    rw [offsetsTrail]
    split
    · exact ⟨List.forall_mem_nil _, .nil size _⟩
    · rename_i hcons
      rw [hblank] at hcons
      cases hcons
  | case2 bytes b rest hblank hlt hsign offsets left hread ih =>
    rw [hread] at ih
    rw [offsetsTrail_of_cons hblank]
    dsimp only
    rw [if_pos hsign]
    obtain ⟨hvalid, hstands⟩ := ih (hnext h hblank)
    exact ⟨List.forall_mem_append.2 ⟨valid_digitAccesses_takeWhile rest, hvalid⟩, hstands⟩
  | case3 bytes b rest hblank hlt hsign hdigit offsets left hread ih =>
    rw [hread] at ih
    rw [offsetsTrail_of_cons hblank]
    dsimp only
    rw [if_neg hsign, if_pos hdigit]
    obtain ⟨hvalid, hstands⟩ := ih (hnext h hblank)
    have hdigits : ∀ d ∈ b :: rest.takeWhile isDigit, isDigit d :=
      List.forall_mem_cons.2 ⟨hdigit, fun _ => List.mem_takeWhile_imp⟩
    exact ⟨List.forall_mem_append.2 ⟨valid_digitAccesses hdigits, hvalid⟩, hstands⟩
  | case4 bytes b rest hblank hlt hsign hdigit =>
    rw [offsetsTrail_of_cons hblank]
    dsimp only
    rw [if_neg hsign, if_neg hdigit, ← hblank]
    exact ⟨List.forall_mem_nil _, h.skipBlanks⟩

/-- An address is read within the line.

**Proof sketch.** The anchor is read behind the blanks, and the offsets behind the anchor. -/
theorem addressTrail_spec (h : Stands size pos bytes) :
    (∀ a ∈ (addressTrail size pos bytes).accesses, a.Valid) ∧
      Stands size (addressTrail size pos bytes).stop (readAddress bytes).2 := by
  unfold addressTrail readAddress
  cases hread : readAnchor (skipBlanks bytes) with
  | none => exact ⟨List.forall_mem_nil _, h.skipBlanks⟩
  | some anchor =>
    obtain ⟨anchor, rest⟩ := anchor
    obtain ⟨hvalid, hstands⟩ := anchorTrail_spec h.skipBlanks hread
    obtain ⟨hvalid', hstands'⟩ := offsetsTrail_spec hstands
    exact ⟨List.forall_mem_append.2 ⟨hvalid, hvalid'⟩, hstands'⟩

/-- The steps of the way through addresses, without the proof that it comes to an end. -/
theorem addressesTrail_step (size pos : Nat) (bytes : Line) :
    addressesTrail size pos bytes =
      match readAddress bytes with
      | (_, []) => addressTrail size pos bytes
      | (_, b :: rest) =>
        match Separator.ofByte? b with
        | none => addressTrail size pos bytes
        | some _ =>
          let address := addressTrail size pos bytes
          (addressesTrail size (address.stop + 1) rest).after address.accesses := by
  rw [addressesTrail.eq_def]
  split
  · rename_i hread
    rw [hread]
  · rename_i address b rest hread
    cases hseparator : Separator.ofByte? b with
    | none => simp [hread, hseparator]
    | some separator => simp [hread, hseparator]

/-- **Addresses are read within the line**, and what follows them stands at the position that is
reached.

**Proof sketch.** Induction on the number of bytes that are left. After an address and its separator
the next address starts. -/
theorem addressesTrail_spec (h : Stands size pos bytes) :
    (∀ a ∈ (addressesTrail size pos bytes).accesses, a.Valid) ∧
      Stands size (addressesTrail size pos bytes).stop (readAddresses bytes).2 := by
  induction hlength : bytes.length using Nat.strong_induction_on generalizing bytes pos with
  | _ n ih =>
    subst hlength
    obtain ⟨hvalid, hstands⟩ := addressTrail_spec h
    have hle := length_readAddress_le bytes
    rw [addressesTrail_step, readAddresses_step]
    generalize readAddress bytes = read at hstands hle ⊢
    obtain ⟨address, left⟩ := read
    cases left with
    | nil => exact ⟨hvalid, hstands⟩
    | cons b rest =>
      dsimp only at hstands hle ⊢
      cases Separator.ofByte? b with
      | none => exact ⟨hvalid, hstands⟩
      | some separator =>
        have hsize := hstands (List.cons_ne_nil b rest)
        rw [List.length_cons] at hsize hle
        have hnext : Stands size ((addressTrail size pos bytes).stop + 1) rest := fun _ => by omega
        obtain ⟨hvalid', hstands'⟩ := ih rest.length hle hnext rfl
        exact ⟨List.forall_mem_append.2 ⟨hvalid, hvalid'⟩, hstands'⟩

/-! ## Arguments -/

/-- The rest of a line from a position on, or nothing if this is behind the end. -/
def restAccess (size pos : Nat) : Access := .slice (min pos size) size size

/-- The rest of a line can be taken from every position. -/
theorem valid_restAccess (size pos : Nat) : (restAccess size pos).Valid :=
  ⟨Nat.min_le_right pos size, Nat.le_refl size⟩

/-- What is accessed to read the flags of a substitution: the values of the digits of a number. -/
def flagAccesses (occurrence : Option Occurrence) (bytes : Line) : List Access :=
  match bytes with
  | [] => []
  | b :: rest =>
    if b = ascii 'g' ∧ occurrence = none then flagAccesses (some .all) rest
    else if isDigit b ∧ occurrence = none then
      let n := numeralUpTo wordSize (b :: rest.takeWhile isDigit)
      digitAccesses (b :: rest.takeWhile isDigit) ++
        flagAccesses (some (.nth n)) (rest.dropWhile isDigit)
    else
      match PrintMode.ofByte? b with
      | none => []
      | some _ => flagAccesses occurrence rest
termination_by bytes.length
decreasing_by
  · simp
  · have : (rest.dropWhile isDigit).length ≤ rest.length := (List.dropWhile_suffix _).length_le
    simp only [List.length_cons]; omega
  · simp

/-- The digits of a flag are digits.

**Proof sketch.** Induction on the flags. Those that are digits begin with a digit and go on with
digits. -/
theorem valid_flagAccesses (occurrence : Option Occurrence) (bytes : Line) :
    ∀ a ∈ flagAccesses occurrence bytes, a.Valid := by
  fun_induction flagAccesses occurrence bytes with
  | case1 => exact List.forall_mem_nil _
  | case2 _ b rest _ ih => exact ih
  | case3 _ b rest _ hdigit n ih =>
    refine List.forall_mem_append.2 ⟨valid_digitAccesses ?_, ih⟩
    exact List.forall_mem_cons.2 ⟨hdigit.1, fun _ => List.mem_takeWhile_imp⟩
  | case4 => exact List.forall_mem_nil _
  | case5 _ b rest _ _ _ _ ih => exact ih

/-- What is accessed to read a file name: the rest of the line behind the blanks. -/
def filenameAccesses (size pos : Nat) (rest : Line) : List Access :=
  match rest with
  | [] => []
  | b :: _ => if isBlank b then [restAccess size (blankStop pos rest)] else []

/-- A file name is the rest of the line. -/
theorem valid_filenameAccesses (size pos : Nat) (rest : Line) :
    ∀ a ∈ filenameAccesses size pos rest, a.Valid := by
  unfold filenameAccesses
  split
  · exact List.forall_mem_nil _
  · split
    · exact List.forall_mem_singleton.2 (valid_restAccess size _)
    · exact List.forall_mem_nil _

end LineEditor
