import LineEditor.Byte
import LineEditor.Error

set_option autoImplicit false
set_option relaxedAutoImplicit false

/-!
# Writing output

Output goes to a device that may stop accepting bytes. In front of the device may stand buffers,
one behind the other. A buffer hands on what it holds when more would not fit, and all of them do
when they are flushed; one that goes by lines hands on complete lines at once. How a text is cut
into pieces decides when it reaches the device, but not what reaches it in the end: no buffer
loses or reorders bytes.

## Main definitions

* `LineEditor.OutputBuffer`: a buffer.
* `LineEditor.Sink`: a device with the buffers in front of it.
* `LineEditor.Sink.write`: writes a piece of text.
* `LineEditor.Sink.flush`: hands on what the buffers hold.

## Main statements

* `LineEditor.OutputBuffer.join_accept`: a buffer loses no bytes and keeps their order.
-/

namespace LineEditor

/-! ## Buffers -/

/-- A buffer in front of a device or of another buffer. -/
structure OutputBuffer where
  /-- How many bytes it can hold. -/
  capacity : Nat
  /-- Whether it hands on a line as soon as the line is complete. -/
  byLine : Bool
  /-- What it holds. -/
  pending : Array UInt8
  deriving Repr, DecidableEq

/-- Pieces of text behind one another. -/
def joinPieces (pieces : List (Array UInt8)) : Array UInt8 := pieces.foldl (· ++ ·) #[]

/-- Pieces that are appended one after the other to some bytes come behind these, joined.

**Proof sketch.** Induction on the pieces, for all bytes in front. The same fact is used with the
first piece in front, since joining starts with no bytes. -/
theorem foldl_append_eq (pieces : List (Array UInt8)) (before : Array UInt8) :
    pieces.foldl (· ++ ·) before = before ++ joinPieces pieces := by
  unfold joinPieces
  induction pieces generalizing before with
  | nil => simp
  | cons piece pieces ih => simp only [List.foldl_cons]; rw [ih, ih (#[] ++ piece)]; simp

/-- Joined pieces begin with the first one. -/
theorem joinPieces_cons (piece : Array UInt8) (pieces : List (Array UInt8)) :
    joinPieces (piece :: pieces) = piece ++ joinPieces pieces := by
  rw [joinPieces, List.foldl_cons, foldl_append_eq]
  simp

namespace OutputBuffer

/-- A buffer that holds nothing. -/
def empty (capacity : Nat) (byLine : Bool) : OutputBuffer := ⟨capacity, byLine, #[]⟩

/-- A buffer after it has handed on what it held. -/
def drained (b : OutputBuffer) : OutputBuffer := { b with pending := #[] }

/-- Takes a piece of text without regard to lines. Returns what is handed on: what the buffer
holds, if the piece does not fit behind it, and the piece too, if it would fill the buffer by
itself. -/
def hold (b : OutputBuffer) (piece : Array UInt8) : OutputBuffer × List (Array UInt8) :=
  if piece.size < b.capacity then
    if b.pending.size + piece.size ≤ b.capacity then
      ({ b with pending := b.pending ++ piece }, [])
    else ({ b with pending := piece }, [b.pending])
  else (b.drained, [b.pending, piece])

/-- The length of a piece of text up to its last newline. -/
def lineEnd (piece : Array UInt8) : Nat :=
  piece.size - (piece.toList.reverse.takeWhile (· != newline)).length

/-- Takes a piece of text and returns what is handed on. A buffer that goes by lines keeps only
what stands behind the last newline. -/
def accept (b : OutputBuffer) (piece : Array UInt8) : OutputBuffer × List (Array UInt8) :=
  let size := lineEnd piece
  if b.byLine ∧ size ≠ 0 then
    let (rest, handed) := b.drained.hold (piece.extract size piece.size)
    (rest, b.pending :: piece.extract 0 size :: handed)
  else b.hold piece

/-- What a full buffer hands on and what it then holds is what it held and what it was given. -/
theorem join_hold (b : OutputBuffer) (piece : Array UInt8) :
    joinPieces (b.hold piece).2 ++ (b.hold piece).1.pending = b.pending ++ piece := by
  unfold hold
  split
  · split <;> simp [joinPieces]
  · simp [joinPieces, drained]

/-- A buffer loses no bytes and keeps their order: what it hands on and what it then holds is what
it held and what it took.

**Proof sketch.** By whether the buffer breaks at lines. If it does and the piece has the end of a
line, what it held and the piece up to there are handed on, and the rest is held by `join_hold`. -/
theorem join_accept (b : OutputBuffer) (piece : Array UInt8) :
    joinPieces (b.accept piece).2 ++ (b.accept piece).1.pending = b.pending ++ piece := by
  simp only [accept]
  split
  · have h := join_hold b.drained (piece.extract (lineEnd piece) piece.size)
    have hsize : lineEnd piece ≤ piece.size := Nat.sub_le ..
    have hparts : piece.extract 0 (lineEnd piece) ++ piece.extract (lineEnd piece) piece.size =
        piece := by
      rw [Array.extract_append_extract]
      simp [hsize]
    rw [joinPieces_cons, joinPieces_cons, Array.append_assoc, Array.append_assoc, h]
    simp [drained, hparts]
  · exact join_hold b piece

/-- Takes pieces of text one after the other. -/
def acceptAll (b : OutputBuffer) : List (Array UInt8) → OutputBuffer × List (Array UInt8)
  | [] => (b, [])
  | piece :: pieces =>
    let (b, handed) := b.accept piece
    let (b, more) := b.acceptAll pieces
    (b, handed ++ more)

end OutputBuffer

/-! ## Devices -/

/-- A device that output goes to, with the buffers in front of it. -/
structure Sink where
  /-- What the device has accepted. -/
  delivered : Array UInt8
  /-- The buffers, the one that is written to first. -/
  buffers : List OutputBuffer
  /-- How many more bytes the device accepts; `none` if there is no limit. -/
  room : Option Nat
  /-- Why the device accepts no more. -/
  reason : String
  deriving Repr, DecidableEq

namespace Sink

/-- A device behind buffers that accepts the given number of bytes. -/
def behind (buffers : List OutputBuffer) (room : Option Nat) (reason : String) : Sink :=
  ⟨#[], buffers, room, reason⟩

/-- A device without a buffer that accepts the given number of bytes. -/
def direct (room : Option Nat) (reason : String) : Sink := behind [] room reason

/-- Hands bytes to the device, which accepts those that it has room for. -/
def deliver (bytes : Array UInt8) : EStateM EditError Sink Unit := fun sink =>
  match sink.room with
  | none => .ok () { sink with delivered := sink.delivered ++ bytes }
  | some room =>
    if bytes.size ≤ room then
      .ok () { sink with delivered := sink.delivered ++ bytes, room := some (room - bytes.size) }
    else
      .error (.output sink.reason)
        { sink with delivered := sink.delivered ++ bytes.extract 0 room, room := some 0 }

/-- Sends pieces of text through buffers, and if these are flushed also what they hold. Returns
what is left for the device. -/
def pass (flushed : Bool) :
    List OutputBuffer → List (Array UInt8) → List OutputBuffer × List (Array UInt8)
  | [], pieces => ([], pieces)
  | b :: buffers, pieces =>
    let (b, handed) := b.acceptAll pieces
    if flushed then
      let (buffers, out) := pass flushed buffers (handed ++ [b.pending])
      (b.drained :: buffers, out)
    else
      let (buffers, out) := pass flushed buffers handed
      (b :: buffers, out)

/-- Sends pieces of text through the buffers to the device. -/
def send (flushed : Bool) (pieces : List (Array UInt8)) : EStateM EditError Sink Unit := do
  let sink ← get
  let (buffers, out) := pass flushed sink.buffers pieces
  set { sink with buffers }
  deliver (joinPieces out)

/-- Writes a piece of text. -/
def write (piece : Array UInt8) : EStateM EditError Sink Unit := send false [piece]

/-- Hands on what the buffers hold. -/
def flush : EStateM EditError Sink Unit := send true []

end Sink

end LineEditor
