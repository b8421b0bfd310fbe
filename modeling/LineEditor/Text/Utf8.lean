import LineEditor.Byte

set_option autoImplicit false
set_option relaxedAutoImplicit false

/-!
# Reading UTF-8

Text that is shown to a person is decoded from UTF-8. A sequence of bytes that encodes no
character is cut into *maximal invalid parts*: the longest start of a well-formed sequence, or a
single byte that can start none. The strict reading refuses a text with such a part, the lenient
one shows each part as one replacement character.

## Main definitions

* `LineEditor.Utf8.parts`: the characters and the invalid parts of a text.
* `LineEditor.Utf8.decode?`: the strict reading.
* `LineEditor.Utf8.decodeLossy`: the lenient reading.
* `LineEditor.Utf8.lossyPieces`: the lenient reading in pieces.
-/

namespace LineEditor.Utf8

/-- The bytes that may follow a lead byte in second place, and the number of bytes that follow it
in all. `none` for a byte that leads no sequence of more than one byte. -/
def shape? (lead : UInt8) : Option (UInt8 × UInt8 × Nat) :=
  if 0xc2 ≤ lead ∧ lead ≤ 0xdf then some (0x80, 0xbf, 1)
  else if lead = 0xe0 then some (0xa0, 0xbf, 2)
  else if lead = 0xed then some (0x80, 0x9f, 2)
  else if 0xe1 ≤ lead ∧ lead ≤ 0xef then some (0x80, 0xbf, 2)
  else if lead = 0xf0 then some (0x90, 0xbf, 3)
  else if lead = 0xf4 then some (0x80, 0x8f, 3)
  else if 0xf1 ≤ lead ∧ lead ≤ 0xf3 then some (0x80, 0xbf, 3)
  else none

/-- The bits that a lead byte contributes when `following` bytes come after it. -/
def leadBits (lead : UInt8) (following : Nat) : Nat := lead.toNat % Nat.pow 2 (6 - following)

/-- Reads the bytes after a lead byte: `missing` of them are still to come, the next one must lie
in `low` to `high`, and `value` is what the bytes before it denote. Returns the character, or
`none` for an invalid part, and the bytes that are left. -/
def readFollowing (low high : UInt8) (value : Nat) : Nat → Line → Option Char × Line
  | 0, rest => (some (Char.ofNat value), rest)
  | _ + 1, [] => (none, [])
  | missing + 1, b :: rest =>
    if low ≤ b ∧ b ≤ high then
      readFollowing 0x80 0xbf (64 * value + b.toNat % 64) missing rest
    else (none, b :: rest)

/-- What follows the bytes of a character is no longer than the text.

**Proof sketch.** Induction along the bytes that are missing. -/
theorem length_readFollowing_le (low high : UInt8) (value missing : Nat) (bytes : Line) :
    (readFollowing low high value missing bytes).2.length ≤ bytes.length := by
  fun_induction readFollowing low high value missing bytes with
  | case1 => simp
  | case2 => simp
  | case3 low high value missing b rest _ ih => simp only [List.length_cons]; omega
  | case4 => simp

/-- Reads the character or the invalid part at the front of `lead :: rest`. -/
def readPart (lead : UInt8) (rest : Line) : Option Char × Line :=
  if lead < 0x80 then (some (Char.ofNat lead.toNat), rest)
  else
    match shape? lead with
    | none => (none, rest)
    | some (low, high, following) => readFollowing low high (leadBits lead following) following rest

/-- What follows a character or an invalid part is no longer than what followed its first byte. -/
theorem length_readPart_le (lead : UInt8) (rest : Line) :
    (readPart lead rest).2.length ≤ rest.length := by
  unfold readPart
  split
  · simp
  · split
    · simp
    · exact length_readFollowing_le ..

/-- The characters of a text in order, with `none` for each maximal invalid part; `before` holds
what has been read already, last part first. -/
def partsAfter (before : List (Option Char)) : Line → List (Option Char)
  | [] => before.reverse
  | lead :: rest =>
    partsAfter ((readPart lead rest).1 :: before) (readPart lead rest).2
termination_by bytes => bytes.length
decreasing_by
  have := length_readPart_le lead rest
  simp only [List.length_cons]; omega

/-- The characters of a text in order, with `none` for each maximal invalid part. -/
def parts (bytes : Line) : List (Option Char) := partsAfter [] bytes

/-- The text as a string, if every part of it is a character. -/
def decode? (bytes : Line) : Option String := ((parts bytes).mapM id).map String.ofList

/-- The text as a string, with a replacement character for each invalid part. -/
def decodeLossy (bytes : Line) : String :=
  String.ofList ((parts bytes).map (·.getD '\ufffd'))

/-- The runs of characters between invalid parts, with a replacement character for each of
these. -/
def runs (parts : List (Option Char)) : List (List Char) :=
  parts.foldr (fun part pieces =>
    match part, pieces with
    | none, _ => [] :: ['\ufffd'] :: pieces
    | some c, [] => [[c]]
    | some c, run :: pieces => (c :: run) :: pieces) []

/-- The pieces that the text is written in for a person to read: each replacement character is a
piece by itself. -/
def lossyPieces (bytes : Line) : List String := (runs (parts bytes)).map String.ofList

end LineEditor.Utf8
