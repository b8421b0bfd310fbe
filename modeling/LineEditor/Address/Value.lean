import LineEditor.Address.Syntax
import LineEditor.Regex.Search

set_option autoImplicit false
set_option relaxedAutoImplicit false

/-!
# The lines that addresses mean

Lines are numbered from 1; line 0 is the place before the first line. An address is resolved in a
buffer of which it sees the lines, the current line and the marks. Its value is the exact sum of
its anchor and its offsets: the sum is computed in 64-bit words, a step that leaves their range is
an error, and so is a result outside the buffer.

The last pattern that was used is remembered and stands for an empty one, so resolving an address
may change it, even if the address turns out to be wrong.

## Main definitions

* `LineEditor.AddressContext`: what an address sees of the buffer.
* `LineEditor.recallPattern`: the pattern that is meant, and remembered.
* `LineEditor.Address.value`: the line of an address.
* `LineEditor.AddressList.values`: the lines of a command's addresses.
-/

namespace LineEditor

/-- What an address sees of the buffer. -/
structure AddressContext where
  /-- The number of the current line; 0 in an empty buffer. -/
  current : Nat
  /-- The lines of the buffer. -/
  lines : Array Line
  /-- The number of the line marked by a letter. -/
  mark : UInt8 → Option Nat

/-- The number of the last line; 0 in an empty buffer. -/
def AddressContext.last (ctx : AddressContext) : Nat := ctx.lines.size

/-- Computations that may use the remembered pattern, change it and fail. -/
abbrev Recall := EStateM EditError (Option Regex)

/-- The pattern that is meant: the remembered one if the written one is empty, else the written
one, which is then remembered. -/
def recallPattern (pattern : Line) : Recall Regex := do
  if pattern.isEmpty then
    match ← get with
    | none => throw .noPreviousPattern
    | some r => return r
  else
    match Regex.ofPattern pattern with
    | .error e => throw (.pattern e)
    | .ok r =>
      set (some r)
      return r

/-! ## Searching the buffer -/

/-- The line that a search looks at after a given one, in a buffer of `last` lines. At an end of
the buffer it goes on at the other. -/
def Direction.nextLine (direction : Direction) (last line : Nat) : Nat :=
  match direction with
  | forward => if last ≤ line then 1 else line + 1
  | backward => if line ≤ 1 then last else line - 1

/-- The first of the given number of lines after `line`, in the search's direction, that has a
match. -/
def AddressContext.searchFrom (ctx : AddressContext) (direction : Direction) (r : Regex) :
    (steps line : Nat) → Option Nat
  | 0, _ => none
  | steps + 1, line =>
    let line := direction.nextLine ctx.last line
    if r.matchesLine ((ctx.lines[line - 1]?).getD []) then some line
    else ctx.searchFrom direction r steps line

/-- The line that a search finds. Every line is looked at once, the current one last. -/
def AddressContext.search (ctx : AddressContext) (direction : Direction) (r : Regex) :
    Option Nat :=
  ctx.searchFrom direction r ctx.last ctx.current

/-! ## The value of an address -/

/-- The largest number that a signed word of 64 bits holds. -/
def maxWord : Int := 0x7fffffffffffffff

/-- The smallest number that a signed word of 64 bits holds. -/
def minWord : Int := -0x8000000000000000

/-- A number, if a signed word of 64 bits holds it. -/
def checkWord (v : Int) : Recall Int :=
  if minWord ≤ v ∧ v ≤ maxWord then pure v else throw .numberOutOfRange

/-- The line that an anchor means. -/
def Anchor.value (ctx : AddressContext) : Anchor → Recall Int
  | number n => checkWord n
  | current => pure ctx.current
  | last => pure ctx.last
  | mark letter =>
    match ctx.mark letter with
    | none => throw .invalidAddress
    | some line => pure line
  | badMark => throw .invalidMark
  | search direction pattern => do
    let r ← recallPattern pattern
    match ctx.search direction r with
    | none => throw .noMatch
    | some line => return line
  | unclosedSearch => throw .missingDelimiter

/-- Adds offsets one after the other. The size of an offset must itself fit in a word. -/
def addOffsets (v : Int) : List Int → Recall Int
  | [] => pure v
  | offset :: offsets => do
    let _ ← checkWord offset.natAbs
    let v ← checkWord (v + offset)
    addOffsets v offsets

/-- The line of an address, which may be 0 but must not lie after the last line. -/
def Address.value (ctx : AddressContext) (a : Address) : Recall Nat := do
  let v ← addOffsets (← a.anchor.value ctx) a.offsets
  if v < 0 ∨ ctx.last < v then throw .invalidAddress
  return v.toNat

/-! ## The values of all addresses -/

/-- The lines that a command is given. -/
structure Addresses where
  /-- The last line but one, or the only one. -/
  first : Option Nat
  /-- The last line. -/
  second : Option Nat
  /-- How many lines there are. -/
  count : Nat
  /-- Whether a separator was written. -/
  separator : Bool
  deriving Repr, DecidableEq

namespace Addresses

/-- No line is given. -/
def none : Addresses := ⟨.none, .none, 0, false⟩

/-- One line more. -/
def push (a : Addresses) (line : Nat) : Addresses :=
  { a with first := a.second.or (some line), second := some line, count := a.count + 1 }

end Addresses

/-- The addresses resolved so far. -/
structure AddressProgress where
  /-- Their lines. -/
  addresses : Addresses
  /-- The line that a missing address after the last separator means. -/
  pending : Option Nat
  /-- The current line for the next address. -/
  current : Nat
  deriving Repr, DecidableEq

/-- Resolves one address that a separator follows. A missing one means line 1 before a comma and
the current line before a semicolon; after it, a missing one means the last line. -/
def AddressProgress.link (ctx : AddressContext) (p : AddressProgress)
    (address : Option Address) (separator : Separator) : Recall AddressProgress := do
  match address with
  | some a =>
    let v ← a.value { ctx with current := p.current }
    return {
      addresses := { p.addresses.push v with separator := true }
      pending := some v
      current := if separator = .semicolon then v else p.current }
  | none =>
    let start := if separator = .semicolon then p.current else 1
    return {
      addresses := { p.addresses.push (min start ctx.last) with separator := true }
      pending := some ctx.last
      current := p.current }

/-- Resolves the addresses that separators follow. -/
def AddressProgress.links (ctx : AddressContext) (p : AddressProgress) :
    List (Option Address × Separator) → Recall AddressProgress
  | [] => pure p
  | (address, separator) :: rest => do
    let p ← p.link ctx address separator
    p.links ctx rest

/-- The lines of a command's addresses, resolved from left to right. A semicolon makes the line
before it the current one for the addresses after it; the buffer's own current line stays. -/
def AddressList.values (ctx : AddressContext) (list : AddressList) : Recall Addresses := do
  let p ← AddressProgress.links ctx ⟨.none, none, ctx.current⟩ list.links
  match list.final with
  | some a => return p.addresses.push (← a.value { ctx with current := p.current })
  | none =>
    match p.pending with
    | some line => return p.addresses.push line
    | none => return p.addresses

end LineEditor
