import LineEditor.Byte
import LineEditor.Error

set_option autoImplicit false
set_option relaxedAutoImplicit false

/-!
# Reading lines

Command lines and the blocks of text that some commands take come from the same source. It is
either a list of lines that is known beforehand, as in the replay of a command list, or a stream of
bytes that is cut into lines one by one, and that may break.

## Main definitions

* `LineEditor.Source`: where lines come from.
* `LineEditor.Source.next`: the next line.
* `LineEditor.Source.readUntil`: the lines up to a closing one.
* `LineEditor.Source.readBlock`: a block of text, which a lone dot closes.
* `LineEditor.Source.readCommandList`: a command list, which a brace closes.
-/

namespace LineEditor

/-- Where lines come from. -/
inductive Source where
  /-- Lines that are known beforehand. -/
  | script (lines : List Line)
  /-- Bytes that are cut into lines as they are read. After them the stream ends, or it breaks for
  the given reason. -/
  | stream (bytes : Line) (broken : Option String)
  deriving Repr, DecidableEq

/-- The bytes before the first newline, and those after it if there is one. -/
def cutLine (bytes : Line) : Line × Option Line :=
  match bytes.dropWhile (· != newline) with
  | [] => (bytes, none)
  | _ :: rest => (bytes.takeWhile (· != newline), some rest)

/-- Behind the end of a line there is less than before, since the newline is gone. -/
theorem length_cutLine_lt {bytes line rest : Line} (h : cutLine bytes = (line, some rest)) :
    rest.length < bytes.length := by
  unfold cutLine at h
  split at h
  · simp at h
  · rename_i b after hdrop
    obtain ⟨-, h⟩ := Prod.mk.inj h
    obtain rfl := Option.some.inj h
    have := (List.dropWhile_suffix (l := bytes) (· != newline)).length_le
    rw [hdrop, List.length_cons] at this
    omega

namespace Source

/-- A bound on the number of lines that are still to come. -/
def size : Source → Nat
  | script lines => lines.length
  | stream bytes _ => bytes.length

/-- The next line, or `none` at the end. If a stream breaks, the line in progress is lost. -/
def next : EStateM EditError Source (Option Line)
  | script [] => .ok none (script [])
  | script (line :: lines) => .ok (some line) (script lines)
  | stream bytes broken =>
    match cutLine bytes with
    | (line, some rest) => .ok (some line) (stream rest broken)
    | (line, none) =>
      match broken with
      | some reason => .error (.input reason) (stream [] broken)
      | none => .ok (if line.isEmpty then none else some line) (stream [] none)

/-- **Reading a line makes the source smaller.**

**Proof sketch.** A script loses its first line. Of a stream a line is cut off with its newline;
without one all the rest is taken, which is not empty then, since an empty rest ends the input. -/
theorem size_next_lt {source after : Source} {line : Line}
    (h : source.next = .ok (some line) after) : after.size < source.size := by
  unfold next at h
  split at h
  · simp at h
  · obtain ⟨-, rfl⟩ := EStateM.Result.ok.inj h
    simp [size]
  · rename_i bytes broken
    split at h
    · rename_i hcut
      obtain ⟨-, rfl⟩ := EStateM.Result.ok.inj h
      exact length_cutLine_lt hcut
    · rename_i text hcut
      split at h
      · simp at h
      · obtain ⟨hline, rfl⟩ := EStateM.Result.ok.inj h
        unfold cutLine at hcut
        split at hcut
        · obtain ⟨rfl, -⟩ := Prod.mk.inj hcut
          cases bytes with
          | nil => simp at hline
          | cons b rest => simp [size]
        · simp at hcut

/-- The lines before the next one that closes them, which is read as well, and whether there was
one; `before` holds the lines that have been read already, last line first. -/
def readUntilAfter (closes : Line → Bool) (before : List Line) (source : Source) :
    EStateM.Result EditError Source (List Line × Bool) :=
  match _h : source.next with
  | .error e after => .error e after
  | .ok none after => .ok (before.reverse, false) after
  | .ok (some line) after =>
    if closes line then .ok (before.reverse, true) after
    else readUntilAfter closes (line :: before) after
termination_by source.size
decreasing_by exact size_next_lt _h

/-- The lines before the next one that closes them, which is read as well, and whether there was
one. Without one, all lines that are left are read. -/
def readUntil (closes : Line → Bool) : EStateM EditError Source (List Line × Bool) :=
  readUntilAfter closes []

/-- Reads a block of text. A line with a single dot closes it, and so does the end. -/
def readBlock : EStateM EditError Source (List Line) := do
  let (lines, _) ← readUntil (· == [ascii '.'])
  return lines

/-- Reads a command list. Only a line with a single closing brace ends it. -/
def readCommandList : EStateM EditError Source (List Line) := do
  let (lines, closed) ← readUntil (trimSpace · == [ascii '\x7d'])
  if closed then return lines else throw .unterminatedCommandList

/-- Reads all lines that are left. -/
def readAll : EStateM EditError Source (List Line) := do
  let (lines, _) ← readUntil fun _ => false
  return lines

end Source

end LineEditor
