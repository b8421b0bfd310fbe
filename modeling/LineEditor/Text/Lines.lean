import LineEditor.Byte

set_option autoImplicit false
set_option relaxedAutoImplicit false

/-!
# Lines of a file

A file is a sequence of lines, each ended by a newline. The newline after the last line may be
missing when a file is read; it is always written.

## Main definitions

* `LineEditor.segments`: the parts of a text that are each ended by a given byte.
* `LineEditor.splitLines`: the lines of a file's bytes.
* `LineEditor.joinLines`: the bytes of a file with given lines.
-/

namespace LineEditor

/-- Puts one byte in front of the parts that follow it: the ending byte ends a new empty part, any
other byte belongs to the first part, which it opens if there is none. -/
def consByte (ending b : UInt8) (parts : List Line) : List Line :=
  if b = ending then [] :: parts
  else
    match parts with
    | [] => [[b]]
    | part :: rest => (b :: part) :: rest

/-- The parts of a text that are each ended by a given byte. What follows the last of these bytes is
a part too, unless it is empty. -/
def segments (ending : UInt8) (bytes : Line) : List Line := bytes.foldr (consByte ending) []

/-- The lines of a file's bytes. A last line without a newline counts as a line. -/
def splitLines (bytes : Line) : List Line := segments newline bytes

/-- The bytes of a file with the given lines, a newline after each. -/
def joinLines (lines : List Line) : Line := lines.flatMap (· ++ [newline])

/-- The size of a file with the given lines: their lengths and one newline for each. -/
def byteCount (lines : List Line) : Nat := lines.foldl (fun n line => n + line.length + 1) 0

end LineEditor
