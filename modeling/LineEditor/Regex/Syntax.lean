import LineEditor.Byte

set_option autoImplicit false
set_option relaxedAutoImplicit false

/-!
# Basic regular expressions

The abstract form of a basic regular expression over bytes. An expression is a sequence of pieces;
a piece is a single-byte test or a capture group, each with bounds on its repetition. The two
anchors stand outside the sequence, since they are special only at the edges of a pattern.

## Main definitions

* `LineEditor.Regex.CharClass`: the twelve named classes of bytes.
* `LineEditor.Regex.ByteSet`: a bracket expression.
* `LineEditor.Regex.ByteTest`: what a single byte is tested for.
* `LineEditor.Regex.Expression`: a sequence of pieces.
* `LineEditor.Regex.Program`: an expression with its anchors and its number of groups.
-/

namespace LineEditor.Regex

/-- The number of capture groups that a pattern may have. -/
def maxGroups : Nat := 9

/-- The largest bound that may be written in an interval. -/
def maxRepeat : Nat := 255

/-! ## Sets of bytes -/

/-- The named classes of bytes. -/
inductive CharClass where
  | alpha
  | digit
  | alnum
  | upper
  | lower
  | space
  | blank
  | punct
  | print
  | graph
  | cntrl
  | xdigit
  deriving Repr, DecidableEq

namespace CharClass

/-- All named classes. -/
def all : List CharClass :=
  [alpha, digit, alnum, upper, lower, space, blank, punct, print, graph, cntrl, xdigit]

/-- The name of a class, as it is written between `[:` and `:]`. -/
def name : CharClass → String
  | alpha => "alpha"
  | digit => "digit"
  | alnum => "alnum"
  | upper => "upper"
  | lower => "lower"
  | space => "space"
  | blank => "blank"
  | punct => "punct"
  | print => "print"
  | graph => "graph"
  | cntrl => "cntrl"
  | xdigit => "xdigit"

/-- The class of a given name. -/
def ofName? (name : Line) : Option CharClass :=
  all.find? fun c => Line.ofString c.name == name

/-- Membership in a named class. Every class holds ASCII bytes only. -/
def contains (c : CharClass) (b : UInt8) : Bool :=
  match c with
  | alpha => isUpper b || isLower b
  | digit => isDigit b
  | alnum => isUpper b || isLower b || isDigit b
  | upper => isUpper b
  | lower => isLower b
  | space => isBlank b || (0x0a ≤ b && b ≤ 0x0d)
  | blank => isBlank b
  | punct => (0x21 ≤ b && b ≤ 0x7e) && !(isUpper b || isLower b || isDigit b)
  | print => 0x20 ≤ b && b ≤ 0x7e
  | graph => 0x21 ≤ b && b ≤ 0x7e
  | cntrl => b ≤ 0x1f || b == 0x7f
  | xdigit =>
    isDigit b || (ascii 'a' ≤ b && b ≤ ascii 'f') || (ascii 'A' ≤ b && b ≤ ascii 'F')

end CharClass

/-- One item of a bracket expression. -/
inductive BracketItem where
  /-- A byte that stands for itself. -/
  | byte (b : UInt8)
  /-- All bytes from `low` to `high`, both included. -/
  | range (low high : UInt8)
  /-- A named class. -/
  | named (c : CharClass)
  deriving Repr, DecidableEq

/-- Membership in one item of a bracket expression. -/
def BracketItem.contains (item : BracketItem) (b : UInt8) : Bool :=
  match item with
  | byte c => c == b
  | range low high => low ≤ b && b ≤ high
  | named c => c.contains b

/-- A bracket expression: the union of its items, or the complement of that union. -/
structure ByteSet where
  /-- Whether the set is the complement of its items. -/
  negated : Bool
  /-- The items in the order in which they are written. -/
  items : List BracketItem
  deriving Repr, DecidableEq

/-- Membership in a bracket expression. -/
def ByteSet.contains (s : ByteSet) (b : UInt8) : Bool :=
  s.items.any (·.contains b) != s.negated

/-- What a single byte of the text is tested for. -/
inductive ByteTest where
  /-- Equal to a byte. -/
  | literal (b : UInt8)
  /-- Any byte but NUL. -/
  | any
  /-- In a bracket expression. -/
  | set (s : ByteSet)
  deriving Repr, DecidableEq

/-- Whether a byte passes a test. -/
def ByteTest.accepts (test : ByteTest) (b : UInt8) : Bool :=
  match test with
  | literal c => c == b
  | any => b != 0
  | set s => s.contains b

/-! ## Sequences of pieces -/

/-- How often a piece may be repeated. -/
structure Bounds where
  /-- The least number of repetitions. -/
  least : Nat
  /-- The greatest number of repetitions; `none` if there is no limit. -/
  most : Option Nat
  deriving Repr, DecidableEq

namespace Bounds

/-- Exactly one repetition: the bounds of a piece without a quantifier. -/
def once : Bounds := ⟨1, some 1⟩

/-- Whether one more repetition is allowed after `count`. -/
def allowsMore (bounds : Bounds) (count : Nat) : Bool :=
  match bounds.most with
  | none => true
  | some most => count < most

/-- The number of repetitions that fit both the bounds and the room there is. -/
def cap (bounds : Bounds) (room : Nat) : Nat :=
  match bounds.most with
  | none => room
  | some most => min most room

end Bounds

/-- A sequence of pieces, each repeated within its bounds. -/
inductive Expression where
  /-- The empty sequence. -/
  | empty
  /-- Bytes that pass a test, and what follows them. -/
  | single (test : ByteTest) (bounds : Bounds) (next : Expression)
  /-- A capture group with its body, and what follows it. -/
  | group (index : Fin maxGroups) (body : Expression) (bounds : Bounds) (next : Expression)
  deriving Repr, DecidableEq

/-- The byte that every match of an expression starts with, if the first piece fixes one. -/
def Expression.firstByte? : Expression → Option UInt8
  | .single (.literal b) bounds _ => if 0 < bounds.least then some b else none
  | _ => none

/-- A compiled pattern. -/
structure Program where
  /-- The pieces to match. -/
  body : Expression
  /-- Whether a match may start only at the start of the text. -/
  startAnchor : Bool
  /-- Whether a match must reach the end of the text. -/
  endAnchor : Bool
  /-- The number of capture groups. -/
  groupCount : Nat
  deriving Repr, DecidableEq

end LineEditor.Regex
