import Mathlib.Data.Set.Insert
import LineEditor.Buffer.Edit

set_option autoImplicit false
set_option relaxedAutoImplicit false

/-!
# Lines with identities

The buffer as one would first think of it: a list of lines, each with an identity that it keeps for
as long as it exists. A mark and a line that a global command has yet to visit are identities, so
nothing has to be done to them when lines are inserted, deleted or moved; where such a line stands
is looked up when it is asked for. A line that is new gets an identity that no line ever had.

There is an identity for each letter that may be a mark. The letters are told apart by their places
in the alphabet, of which there is one for each of them and none for any other byte.

## Main definitions

* `LineEditor.TaggedBuffer`: lines with identities, and what refers to them.
* `LineEditor.TaggedBuffer.position?`: where the line of an identity stands.
* `LineEditor.TaggedBuffer.insertFresh`, `remove`, `move`, `join` and so on: the operations.

## Main results

* `LineEditor.Marks.isSome_place?_iff`, `LineEditor.Marks.place?_eq_some_iff`: the lowercase letters
  and only they have places, each one of its own.
-/

namespace LineEditor

/-- A line with its identity. -/
structure TaggedLine where
  /-- The identity. -/
  identity : Nat
  /-- The text. -/
  text : Line
  deriving Repr, DecidableEq

/-- Where the line of an identity stands. -/
def position? (lines : List TaggedLine) (identity : Nat) : Option Nat :=
  lines.findIdx? (·.identity == identity)

/-- The identities of lines. -/
def identities (lines : List TaggedLine) : List Nat := lines.map (·.identity)

/-! ## Letters and their places -/

namespace Marks

/-- The letter of a place has this place. -/
theorem place?_letter (place : Fin letterCount) : place? (letter place) = some place := by
  revert place
  decide +kernel

/-- A byte that has a place is the letter of this place, so that no two bytes share one. -/
theorem place?_eq_some_iff {b : UInt8} {place : Fin letterCount} :
    place? b = some place ↔ b = letter place := by
  refine ⟨fun h => ?_, fun h => h ▸ place?_letter place⟩
  unfold place? at h
  dsimp only at h
  split at h
  · obtain rfl := Option.some.inj h
    show b = ascii 'a' + UInt8.ofNat (b - ascii 'a').toNat
    rw [UInt8.ofNat_toNat, UInt8.add_comm, UInt8.sub_add_cancel]
  · cases h

/-- The bytes that have a place are the lowercase letters.

**Proof sketch.** A place is a difference of bytes below 26. Below the letter a the difference wraps
around to at least 159, and behind the letter z it is at least 26. -/
theorem isSome_place?_iff (b : UInt8) : (place? b).isSome ↔ isLower b := by
  have ha : (ascii 'a').toNat = 97 := rfl
  have hz : (ascii 'z').toNat = 122 := rfl
  have hcount : letterCount = 26 := rfl
  have hb := b.toNat_lt
  have hplace : (b - ascii 'a').toNat = (256 - 97 + b.toNat) % 256 := by
    rw [UInt8.toNat_sub, ha]
  have hlower : isLower b ↔ 97 ≤ b.toNat ∧ b.toNat ≤ 122 := by
    rw [isLower, Bool.and_eq_true, decide_eq_true_eq, decide_eq_true_eq, UInt8.le_iff_toNat_le,
      UInt8.le_iff_toNat_le, ha, hz]
  have hsome : (place? b).isSome ↔ (b - ascii 'a').toNat < letterCount := by
    unfold place?
    dsimp only
    split
    · exact iff_of_true rfl ‹_›
    · exact iff_of_false Bool.false_ne_true ‹_›
  rw [hsome, hlower]
  omega

end Marks

/-! ## Lines, marks and targets -/

/-- A list with a block put in, so that it begins at the index `k`. -/
def putAt {α : Type} (k : Nat) (block xs : List α) : List α := xs.take k ++ block ++ xs.drop k

/-- The elements of a list in a range. -/
def LineRange.inside {α : Type} (r : LineRange) (xs : List α) : List α :=
  (xs.drop r.first).take r.size

/-- The elements of a list outside a range. -/
def LineRange.outside {α : Type} (r : LineRange) (xs : List α) : List α :=
  xs.take r.first ++ xs.drop (r.last + 1)

/-- Lines with identities from `fresh` on. -/
def tagFrom (fresh : Nat) : List Line → List TaggedLine
  | [] => []
  | text :: texts => ⟨fresh, text⟩ :: tagFrom (fresh + 1) texts

/-- Lines and marks that belong together. -/
structure TaggedSnapshot where
  /-- The lines. -/
  lines : List TaggedLine
  /-- The identity that each letter marks, if it ever marked one. -/
  marks : Vector (Option Nat) letterCount
  deriving Repr, DecidableEq

/-- The lines of a buffer with their identities, and what refers to them. -/
structure TaggedBuffer extends TaggedSnapshot where
  /-- The lines that a running global command has yet to visit, the next one last. Some of them may
  be gone. -/
  targets : List Nat
  /-- What undoing a command brings back. -/
  saved : Option TaggedSnapshot
  /-- No line ever had this identity or a larger one. -/
  fresh : Nat
  deriving Repr, DecidableEq

/-- Lines with marks by index as lines with identities from `fresh` on. -/
def TaggedSnapshot.ofLines (fresh : Nat) (lines : Array Line) (marks : Marks) : TaggedSnapshot where
  lines := tagFrom fresh lines.toList
  marks := marks.map (·.map (fresh + ·))

namespace TaggedBuffer

/-- A buffer with an identity for each line, at first its index. The lines that undoing would bring
back get other identities. -/
def ofBuffer (b : LineBuffer) : TaggedBuffer where
  toTaggedSnapshot := .ofLines 0 b.lines b.marks
  targets := b.targets.toList
  saved := b.saved.map fun s => .ofLines b.size s.lines s.marks
  fresh := b.size + b.saved.elim 0 (·.lines.size)

/-- The texts of the lines. -/
def texts (n : TaggedBuffer) : List Line := n.lines.map (·.text)

/-- The line that a letter marks, if there still is one. -/
def mark? (n : TaggedBuffer) (letter : UInt8) : Option Nat :=
  (Marks.place? letter).bind fun place =>
    (getElem n.marks place place.isLt).bind (position? n.lines)

/-- A lowercase letter marks the line whose identity is kept for it, as long as there is this
line. -/
theorem mark?_letter (n : TaggedBuffer) (place : Fin letterCount) :
    n.mark? (Marks.letter place) =
      (getElem n.marks place place.isLt).bind (position? n.lines) := by
  rw [mark?, Marks.place?_letter]
  rfl

/-- Other bytes mark no line. -/
theorem mark?_of_not_isLower (n : TaggedBuffer) {b : UInt8} (h : isLower b = false) :
    n.mark? b = none := by
  have hplace : Marks.place? b = none := by
    rw [← Option.not_isSome_iff_eq_none, Marks.isSome_place?_iff, h]
    exact Bool.false_ne_true
  rw [mark?, hplace]
  rfl

/-- The lines that are still to be visited, without those that are gone. -/
def pending (n : TaggedBuffer) : List Nat := n.targets.filterMap (position? n.lines)

/-! ## Operations -/

/-- Inserts new lines, so that the first of them stands at `start`. -/
def insertFresh (start : Nat) (block : List Line) (n : TaggedBuffer) : TaggedBuffer :=
  { n with
    lines := putAt start (tagFrom n.fresh block) n.lines
    fresh := n.fresh + block.length }

/-- Removes the lines of a range. -/
def remove (r : LineRange) (n : TaggedBuffer) : TaggedBuffer :=
  { n with lines := r.outside n.lines }

/-- A list of lines with a block put behind the line of an identity. -/
def putBehind (identity : Nat) (block : List TaggedLine) : List TaggedLine → List TaggedLine
  | [] => block
  | line :: lines =>
    if line.identity = identity then line :: (block ++ lines)
    else line :: putBehind identity block lines

/-- Takes the lines of a range out and puts them behind another line, or before all. -/
def move (r : LineRange) (dest : Option Nat) (n : TaggedBuffer) : TaggedBuffer :=
  { n with
    lines :=
      match dest.bind (n.lines[·]?) with
      | none => r.inside n.lines ++ r.outside n.lines
      | some line => putBehind line.identity (r.inside n.lines) (r.outside n.lines) }

/-- Gives a line another text. -/
def retext (index : Nat) (text : Line) (n : TaggedBuffer) : TaggedBuffer :=
  { n with lines := n.lines.modify index fun line => { line with text } }

/-- Gives the lines of a range the texts that a function makes of theirs. -/
def retextRange (r : LineRange) (f : Line → Line) (n : TaggedBuffer) : TaggedBuffer :=
  { n with
    lines := n.lines.take r.first ++
      (r.inside n.lines).map (fun line => { line with text := f line.text }) ++
      n.lines.drop (r.last + 1) }

/-- Joins the lines of a range into the first one. -/
def join (r : LineRange) (n : TaggedBuffer) : TaggedBuffer :=
  (n.remove ⟨r.first + 1, r.last⟩).retext r.first ((r.inside n.lines).map (·.text)).flatten

/-- Marks a line by the letter of a place. -/
def setMark (place : Fin letterCount) (index : Nat) (n : TaggedBuffer) : TaggedBuffer :=
  { n with marks := n.marks.set place (n.lines[index]?.map (·.identity)) place.isLt }

/-- Exchanges lines and marks with a snapshot. Nothing is to be visited any more. -/
def exchange (s : TaggedSnapshot) (n : TaggedBuffer) : TaggedBuffer :=
  { n with toTaggedSnapshot := s, targets := [], saved := some n.toTaggedSnapshot }

/-- Puts new lines in the place of all. Nothing is marked or to be visited any more. -/
def replaceAll (texts : List Line) (n : TaggedBuffer) : TaggedBuffer :=
  { n with
    lines := tagFrom n.fresh texts
    marks := Vector.replicate letterCount none
    targets := []
    fresh := n.fresh + texts.length }

/-- Sets the lines that are to be visited. -/
def setTargets (indices : List Nat) (n : TaggedBuffer) : TaggedBuffer :=
  { n with targets := indices.filterMap fun index => n.lines[index]?.map (·.identity) }

/-- The lines that are to be visited and still exist. -/
def live (n : TaggedBuffer) : List Nat :=
  n.targets.filter fun identity => (position? n.lines identity).isSome

/-- Forgets the next line to visit, and those before it that are gone. -/
def dropTarget (n : TaggedBuffer) : TaggedBuffer := { n with targets := n.live.dropLast }

end TaggedBuffer

end LineEditor
