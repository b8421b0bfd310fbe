import LineEditor.Proofs.Buffer.Bounds
import LineEditor.Proofs.Command.TextBounds

set_option autoImplicit false
set_option relaxedAutoImplicit false

/-!
# Accesses of command lines

A command line is read once more with all accesses checked: those to its text, those of the reader
of patterns, and those to the lines of the buffer, which the addresses of a command line see. A
search goes from line to line and looks for a match in the text of each, and a mark has its place
among those of all letters. The command line is read in the same way as without the checks: no
search leaves the buffer, whatever line it starts from, and no reader leaves the line.

## Main definitions

* `LineEditor.Checked.recallPattern`: a pattern that is read with checks.
* `LineEditor.Checked.searchFrom`: a search with checks.
* `LineEditor.Checked.readLine`: a command line that is read with checks.

## Main results

* `LineEditor.Checked.agrees_readLine`: reading a command line accesses nothing out of bounds.
-/

namespace LineEditor.Checked

variable {σ : Type}

/-! ## Searches and anchors -/

/-- The pattern that is meant: the remembered one, or the one that is written. -/
def recallPattern (pattern : Line) : Checked (Option Regex) Regex := do
  if pattern.isEmpty = false then access (Regex.patternAccesses pattern)
  of (LineEditor.recallPattern pattern)

/-- What is computed to find the line that a search looks at after a given one. -/
def stepAccesses (direction : Direction) (line : Nat) : List Access :=
  match direction with
  | .forward => []
  | .backward => if line ≤ 1 then [] else [.difference line 1]

/-- The first of the given number of lines after `line`, in the search's direction, that has a
match. -/
def searchFrom (ctx : AddressContext) (direction : Direction) (r : Regex) :
    (steps line : Nat) → Checked σ (Option Nat)
  | 0, _ => pure none
  | steps + 1, line => do
    access (stepAccesses direction line)
    let line := direction.nextLine ctx.last line
    access [.difference line 1]
    let text := (ctx.lines[line - 1]?).getD []
    access (r.matchesLineAccesses text)
    if r.matchesLine text then return some line
    searchFrom ctx direction r steps line

/-- The line that an anchor means. -/
def anchorValue (ctx : AddressContext) : Anchor → Checked (Option Regex) Int
  | .mark letter => do
    access (Marks.accesses letter)
    of (Anchor.value ctx (.mark letter))
  | .search direction pattern => do
    let r ← recallPattern pattern
    match ← searchFrom ctx direction r ctx.last ctx.current with
    | none => throw (.refused .noMatch)
    | some line => return line
  | anchor => of (anchor.value ctx)

/-- The line of an address. -/
def addressValue (ctx : AddressContext) (a : Address) : Checked (Option Regex) Nat := do
  let v ← of (addOffsets (← anchorValue ctx a.anchor) a.offsets)
  if v < 0 ∨ ctx.last < v then throw (.refused .invalidAddress)
  return v.toNat

/-- Resolves one address that a separator follows. -/
def link (ctx : AddressContext) (p : AddressProgress) (address : Option Address)
    (separator : Separator) : Checked (Option Regex) AddressProgress :=
  match address with
  | some a => do
    let v ← addressValue { ctx with current := p.current } a
    return {
      addresses := { p.addresses.push v with separator := true }
      pending := some v
      current := if separator = .semicolon then v else p.current }
  | none => of (p.link ctx none separator)

/-- Resolves the addresses that separators follow. -/
def links (ctx : AddressContext) (p : AddressProgress) :
    List (Option Address × Separator) → Checked (Option Regex) AddressProgress
  | [] => pure p
  | (address, separator) :: rest => do
    let p ← link ctx p address separator
    links ctx p rest

/-- The lines of a command's addresses. -/
def values (ctx : AddressContext) (list : AddressList) : Checked (Option Regex) Addresses := do
  let p ← links ctx ⟨.none, none, ctx.current⟩ list.links
  match list.final with
  | some a => return p.addresses.push (← addressValue { ctx with current := p.current } a)
  | none =>
    match p.pending with
    | some line => return p.addresses.push line
    | none => return p.addresses

/-! ## Commands -/

/-- Reads the destination of a move or a copy, which stands at a position of a line of the given
size. The rest of the line is taken, and addresses are read from its start. -/
def readDestination (ctx : AddressContext) (size pos : Nat) (rest : Line) :
    Checked (Option Regex) (Nat × Line) := do
  access [restAccess size pos]
  access (addressesTrail (size - min pos size) 0 rest).accesses
  let (list, rest) := readAddresses rest
  let addresses ← values ctx list
  match addresses.second with
  | none => throw (.refused .invalidDestination)
  | some line => return (line, rest)

/-- Reads the file name after a command. -/
def readFilename (size pos : Nat) (rest : Line) : Checked σ (Option FileName) := do
  access (filenameAccesses size pos rest)
  of (ofResult (LineEditor.readFilename rest))

/-- Reads a pattern between two delimiters, the first of which stands at a position. -/
def readRegex (size pos : Nat) (rest : Line) :
    Checked (Option Regex) (Regex × UInt8 × Line) := do
  let (delimiter, rest) ← of (ofResult (readDelimiter rest))
  access (delimitedTrail delimiter true size (pos + 1) rest).accesses
  let (pattern, rest) ← of (ofResult (readPattern delimiter rest))
  let regex ← recallPattern pattern
  return (regex, delimiter, rest)

/-- The position behind a pattern and its two delimiters. -/
def patternStop (size pos : Nat) (rest : Line) : Nat :=
  match rest with
  | [] => pos
  | delimiter :: rest => (delimitedTrail delimiter true size (pos + 1) rest).stop

/-- Reads the flags of a substitution. -/
def readFlags (rest : Line) : Checked σ (Option Regex.Occurrence × Option PrintMode) := do
  access (flagAccesses none rest)
  of (ofResult (LineEditor.readFlags none none rest))

/-- Reads a substitution after its `s`. -/
def readSubstitution (size pos : Nat) (rest : Line) :
    Checked (Option Regex) (Command × Option PrintMode) := do
  if rest.isEmpty then return (.repeatSubstitute none, none)
  if rest.head?.any isFlag then
    let (occurrence, mode) ← readFlags rest
    return (.repeatSubstitute occurrence, mode)
  let (regex, delimiter, left) ← readRegex size pos rest
  access (delimitedTrail delimiter false size (patternStop size pos rest) left).accesses
  match readDelimited delimiter false left with
  | (replacement, none) => return (.substitute ⟨regex, replacement, .first⟩, some .plain)
  | (replacement, some left) =>
    let (occurrence, mode) ← readFlags left
    return (.substitute ⟨regex, replacement, occurrence.getD .first⟩, mode)

/-- Reads a global command after its letter. Its command list is the rest of the line. -/
def readGlobal (invert : Bool) (size pos : Nat) (rest : Line) :
    Checked (Option Regex) Command := do
  let (regex, _, left) ← readRegex size pos rest
  access [restAccess size (patternStop size pos rest)]
  return .global invert regex (.ofLine left)

/-- Reads what belongs to a command after its letter, at a position of a line of the given size.
The other commands have nothing there, or the letter of a mark. -/
def readCommand (ctx : AddressContext) (size pos : Nat) (letter : UInt8) (rest : Line) :
    Checked (Option Regex) (Command × Option PrintMode × Line) := do
  if letter = ascii 'm' then
    let (dest, rest) ← readDestination ctx size pos rest
    return (.move dest, none, rest)
  else if letter = ascii 't' then
    let (dest, rest) ← readDestination ctx size pos rest
    return (.copy dest, none, rest)
  else if letter = ascii 'r' then
    return (.read (← readFilename size pos rest), none, [])
  else if letter = ascii 'w' then
    let quit := rest.head? = some (ascii 'q')
    let path ← readFilename size (if quit then pos + 1 else pos) (if quit then rest.tail else rest)
    return (.write path false quit, none, [])
  else if letter = ascii 'W' then
    return (.write (← readFilename size pos rest) true false, none, [])
  else if letter = ascii 'e' then
    return (.edit (← readFilename size pos rest) false, none, [])
  else if letter = ascii 'E' then
    return (.edit (← readFilename size pos rest) true, none, [])
  else if letter = ascii 'f' then
    return (.filename (← readFilename size pos rest), none, [])
  else if letter = ascii 's' then
    let (command, mode) ← readSubstitution size pos rest
    return (command, mode, [])
  else if letter = ascii 'g' then return (← readGlobal false size pos rest, none, [])
  else if letter = ascii 'v' then return (← readGlobal true size pos rest, none, [])
  else of (LineEditor.readCommand ctx letter rest)

/-- Reads a command line. -/
def readLine (ctx : AddressContext) (line : Line) : Checked (Option Regex) CommandLine := do
  let trail := addressesTrail line.length 0 line
  access trail.accesses
  let (list, rest) := readAddresses line
  let addresses ← values ctx list
  match rest with
  | [] => return ⟨addresses, .null, none⟩
  | letter :: rest =>
    let (command, mode, rest) ← readCommand ctx line.length (trail.stop + 1) letter rest
    if 0 < addresses.count ∧ command.takesAddresses = false then
      throw (.refused .unexpectedAddress)
    return ⟨addresses, command, ← of (ofResult (readPrintSuffix mode rest))⟩

/-! ## Addresses mean the same -/

/-- A pattern is read without an access that is out of bounds. -/
theorem agrees_recallPattern (pattern : Line) :
    Agrees (recallPattern pattern) (LineEditor.recallPattern pattern) := by
  unfold recallPattern
  split
  · exact .access_bind (Regex.valid_patternAccesses pattern) (.of _)
  · exact .of _

/-- The line that a search looks at next is counted from 1. -/
theorem one_le_nextLine (direction : Direction) {last : Nat} (h : 0 < last) (line : Nat) :
    1 ≤ direction.nextLine last line := by
  cases direction <;> unfold Direction.nextLine <;> dsimp only <;> split <;> omega

/-- A search goes back by one line only if it is not at the first one. -/
theorem valid_stepAccesses (direction : Direction) (line : Nat) :
    ∀ a ∈ stepAccesses direction line, a.Valid := by
  unfold stepAccesses
  cases direction with
  | forward => exact List.forall_mem_nil _
  | backward =>
    dsimp only
    split
    · exact List.forall_mem_nil _
    · rename_i h
      exact List.forall_mem_singleton.2 (Nat.le_of_not_le h)

/-- A search looks at the lines of the buffer only, and in each of them within its text.

**Proof sketch.** Induction on the lines that are still to be looked at. There are none in an empty
buffer, and in any other one the next line is counted from 1. -/
theorem agrees_searchFrom {ctx : AddressContext} (direction : Direction) (r : Regex)
    {steps : Nat} (h : steps ≤ ctx.last) (line : Nat) :
    Agrees (searchFrom ctx direction r steps line : Checked σ (Option Nat))
      (pure (ctx.searchFrom direction r steps line)) := by
  induction steps generalizing line with
  | zero => exact .pure none
  | succ steps ih =>
    have hline := one_le_nextLine direction (Nat.zero_lt_of_lt h) line
    refine .access_bind (valid_stepAccesses direction line) ?_
    refine .access_bind (List.forall_mem_singleton.2 hline) ?_
    refine .access_bind (r.valid_matchesLineAccesses _) ?_
    unfold AddressContext.searchFrom
    dsimp only
    split
    · exact .pure _
    · exact ih (Nat.le_of_succ_le h) _

/-- An anchor means the same line.

**Proof sketch.** The letter of a mark has a slot in the table. A search takes as many steps as
there are lines, each of them from a line of the buffer or from the place before them. No other
anchor accesses anything. -/
theorem agrees_anchorValue (ctx : AddressContext) (anchor : Anchor) :
    Agrees (anchorValue ctx anchor) (anchor.value ctx) := by
  cases anchor with
  | mark letter => exact .access_bind (Marks.valid_accesses letter) (.of _)
  | search direction pattern =>
    refine .bind (agrees_recallPattern pattern) fun r => ?_
    have hsearch : Agrees (searchFrom ctx direction r ctx.last ctx.current)
        (pure (ctx.search direction r) : Recall (Option Nat)) :=
      agrees_searchFrom direction r (Nat.le_refl ctx.last) ctx.current
    unfold Agrees at hsearch ⊢
    rw [hsearch, of_pure, pure_bind]
    unfold AddressContext.search
    cases ctx.searchFrom direction r ctx.last ctx.current <;> rfl
  | _ => exact .of _

/-- An address means the same line. -/
theorem agrees_addressValue (ctx : AddressContext) (a : Address) :
    Agrees (addressValue ctx a) (a.value ctx) :=
  .bind (agrees_anchorValue ctx a.anchor) fun _ => .bind (.of _) fun _ =>
    .ite (fun _ => .throw _) fun _ => .pure _

/-- An address before a separator means the same line. -/
theorem agrees_link (ctx : AddressContext) (p : AddressProgress) (address : Option Address)
    (separator : Separator) :
    Agrees (link ctx p address separator) (p.link ctx address separator) := by
  cases address with
  | some a => exact .bind (agrees_addressValue _ a) fun _ => .pure _
  | none => exact .of _

/-- So do all addresses before separators, one after the other. -/
theorem agrees_links (ctx : AddressContext) (p : AddressProgress)
    (rest : List (Option Address × Separator)) : Agrees (links ctx p rest) (p.links ctx rest) := by
  induction rest generalizing p with
  | nil => exact .pure p
  | cons entry rest ih => exact .bind (agrees_link ctx p entry.1 entry.2) ih

/-- The addresses of a command line mean the same lines. -/
theorem agrees_values (ctx : AddressContext) (list : AddressList) :
    Agrees (values ctx list) (list.values ctx) := by
  refine .bind (agrees_links ctx _ list.links) fun p => ?_
  cases list.final with
  | some a => exact .bind (agrees_addressValue _ a) fun _ => .pure _
  | none =>
    dsimp only
    cases p.pending with
    | some line => exact .pure _
    | none => exact .pure _

/-! ## Command lines are read in the same way -/

section

variable {size pos : Nat} {rest : Line}

/-- A destination is read within the rest of the line.

**Proof sketch.** The rest of the line is cut off at its position, which is within the line, and the
addresses are read within this rest. -/
theorem agrees_readDestination (ctx : AddressContext) (h : pos + rest.length = size) :
    Agrees (readDestination ctx size pos rest) (LineEditor.readDestination ctx rest) := by
  have hstands : Stands (size - min pos size) 0 rest := fun _ => by omega
  refine .access_bind (List.forall_mem_singleton.2 (valid_restAccess size pos)) ?_
  refine .access_bind (addressesTrail_spec hstands).1 ?_
  refine .bind (agrees_values ctx _) fun addresses => ?_
  cases addresses.second with
  | none => exact .throw _
  | some line => exact .pure _

/-- A file name is the rest of the line. -/
theorem agrees_readFilename (size pos : Nat) (rest : Line) :
    Agrees (readFilename size pos rest : Checked σ _) (ofResult (LineEditor.readFilename rest)) :=
  .access_bind (valid_filenameAccesses size pos rest) (.of _)

/-- A pattern is read within the line.

**Proof sketch.** The delimiter is the first byte of the rest, so that the pattern starts at the
next position. -/
theorem agrees_readRegex (h : pos + rest.length = size) :
    Agrees (readRegex size pos rest) (LineEditor.readRegex rest) := by
  refine .ofResult_bind fun read hread => ?_
  obtain ⟨delimiter, left⟩ := read
  have hleft : pos + 1 + left.length = size := by
    unfold readDelimiter at hread
    match rest, hread with
    | b :: rest, hread =>
      dsimp only at hread
      split at hread
      · cases hread
      · obtain ⟨rfl, rfl⟩ := Prod.mk.inj (Except.ok.inj hread)
        rw [List.length_cons] at h
        omega
  exact .access_bind (leaves_delimitedTrail delimiter true hleft).valid <|
    .bind (.of _) fun _ => .bind (agrees_recallPattern _) fun _ => .pure _

/-- The flags of a substitution are read without an access that is out of bounds. -/
theorem agrees_readFlags (rest : Line) :
    Agrees (readFlags rest : Checked σ _) (ofResult (LineEditor.readFlags none none rest)) :=
  .access_bind (valid_flagAccesses none rest) (.of _)

/-- A substitution is read within the line.

**Proof sketch.** The pattern is read within the line. The replacement is copied byte by byte, and
the flags are digits and letters behind it. -/
theorem agrees_readSubstitution (h : pos + rest.length = size) :
    Agrees (readSubstitution size pos rest) (LineEditor.readSubstitution rest) := by
  refine .ite (fun _ => .pure _) fun _ => .ite (fun _ => ?_) fun _ => ?_
  · exact .bind (agrees_readFlags rest) fun _ => .pure _
  refine .bind (agrees_readRegex h) fun read => ?_
  obtain ⟨regex, delimiter, left⟩ := read
  dsimp only
  -- No bracket expression is kept whole in a replacement, so that nothing is taken for one.
  rw [accesses_delimitedTrail_false]
  refine .access_bind (List.forall_mem_nil _) ?_
  cases readDelimited delimiter false left with
  | mk replacement left =>
    cases left with
    | none => exact .pure _
    | some left => exact .bind (agrees_readFlags left) fun _ => .pure _

/-- A global command is read within the line. -/
theorem agrees_readGlobal (invert : Bool) (h : pos + rest.length = size) :
    Agrees (readGlobal invert size pos rest) (LineEditor.readGlobal invert rest) :=
  .bind (agrees_readRegex h) fun _ =>
    .access_bind (List.forall_mem_singleton.2 (valid_restAccess size _)) (.pure _)

/-- What belongs to a command is read within the line.

**Proof sketch.** One case for each of the letters that something may follow; for the other letters
nothing is checked. -/
theorem agrees_readCommand (ctx : AddressContext) (letter : UInt8) (h : pos + rest.length = size) :
    Agrees (readCommand ctx size pos letter rest) (LineEditor.readCommand ctx letter rest) := by
  have hdest (f : Nat → Command) : Agrees
      (readDestination ctx size pos rest >>= fun read =>
        pure (f read.1, (none : Option PrintMode), read.2))
      (LineEditor.readDestination ctx rest >>= fun read => pure (f read.1, none, read.2)) :=
    .bind (agrees_readDestination ctx h) fun _ => .pure _
  have hname (f : Option FileName → Command) : Agrees
      ((readFilename size pos rest : Checked (Option Regex) _) >>= fun path =>
        pure (f path, (none : Option PrintMode), ([] : Line)))
      (ofResult (LineEditor.readFilename rest) >>= fun path => pure (f path, none, [])) :=
    .bind (agrees_readFilename size pos rest) fun _ => .pure _
  unfold readCommand
  by_cases hm : letter = ascii 'm'
  · rw [if_pos hm, hm]
    exact hdest .move
  rw [if_neg hm]
  by_cases ht : letter = ascii 't'
  · rw [if_pos ht, ht]
    exact hdest .copy
  rw [if_neg ht]
  by_cases hr : letter = ascii 'r'
  · rw [if_pos hr, hr]
    exact hname .read
  rw [if_neg hr]
  by_cases hw : letter = ascii 'w'
  · rw [if_pos hw, hw]
    exact .bind (agrees_readFilename size _ _) fun _ => .pure _
  rw [if_neg hw]
  by_cases happend : letter = ascii 'W'
  · rw [if_pos happend, happend]
    exact hname (.write · true false)
  rw [if_neg happend]
  by_cases he : letter = ascii 'e'
  · rw [if_pos he, he]
    exact hname (.edit · false)
  rw [if_neg he]
  by_cases hforced : letter = ascii 'E'
  · rw [if_pos hforced, hforced]
    exact hname (.edit · true)
  rw [if_neg hforced]
  by_cases hf : letter = ascii 'f'
  · rw [if_pos hf, hf]
    exact hname .filename
  rw [if_neg hf]
  by_cases hs : letter = ascii 's'
  · rw [if_pos hs, hs]
    exact .bind (agrees_readSubstitution h) fun _ => .pure _
  rw [if_neg hs]
  by_cases hg : letter = ascii 'g'
  · rw [if_pos hg, hg]
    exact .bind (agrees_readGlobal false h) fun _ => .pure _
  rw [if_neg hg]
  by_cases hv : letter = ascii 'v'
  · rw [if_pos hv, hv]
    exact .bind (agrees_readGlobal true h) fun _ => .pure _
  rw [if_neg hv]
  exact .of _

/-- **Reading a command line accesses nothing out of bounds**, neither of the line itself nor of the
buffer, whatever the line is and whatever the addresses see.

**Proof sketch.** The addresses are read within the line and leave the position of the letter. The
command is read from the next position on, and what it leaves is only looked at for a print
suffix. -/
theorem agrees_readLine (ctx : AddressContext) (line : Line) :
    Agrees (readLine ctx line) (CommandLine.read ctx line) := by
  have hstands : Stands line.length 0 line := fun _ => Nat.zero_add _
  obtain ⟨hvalid, hleft⟩ := addressesTrail_spec hstands
  refine .access_bind hvalid ?_
  unfold CommandLine.read
  generalize readAddresses line = read at hleft ⊢
  obtain ⟨list, rest⟩ := read
  refine .bind (agrees_values ctx list) fun addresses => ?_
  cases rest with
  | nil => exact .pure _
  | cons letter rest =>
    have hsize := hleft (List.cons_ne_nil letter rest)
    rw [List.length_cons] at hsize
    refine .bind (agrees_readCommand ctx letter (by omega)) fun read => ?_
    exact .ite (fun _ => .bind (.throw _) fun _ => .bind (.of _) fun _ => .pure _) fun _ =>
      .bind (.of _) fun _ => .pure _

end

end LineEditor.Checked
