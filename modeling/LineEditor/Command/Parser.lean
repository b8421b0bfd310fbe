import LineEditor.Command.Basic

set_option autoImplicit false
set_option relaxedAutoImplicit false

/-!
# Reading a command line

A command line has addresses, a letter that names the command, what belongs to the command, and
a suffix that prints the current line afterwards. A line that ends after its addresses is the null
command.

## Main definitions

* `LineEditor.CommandLine.read`: a command line, read for a given buffer.
-/

namespace LineEditor

open Regex (Occurrence)

/-- Reads the file name after a command, which blanks must precede. -/
def readFilename (rest : Line) : Except EditError (Option FileName) :=
  match rest with
  | [] => .ok none
  | b :: _ =>
    if isBlank b then
      match skipBlanks rest with
      | [] => .ok none
      | name => .ok (some name)
    else .error .invalidSuffix

/-- Reads the print suffix at the end of a command line: of several letters the last one counts,
and `mode` if there is none. -/
def readPrintSuffix (mode : Option PrintMode) : Line → Except EditError (Option PrintMode)
  | [] => .ok mode
  | b :: rest =>
    match PrintMode.ofByte? b with
    | none => .error .invalidSuffix
    | some m => readPrintSuffix (some m) rest

/-- Reads the delimiter of a pattern. -/
def readDelimiter (rest : Line) : Except EditError (UInt8 × Line) :=
  match rest with
  | [] => .error .invalidPatternDelimiter
  | b :: rest =>
    if b = ascii ' ' ∨ b = newline then .error .invalidPatternDelimiter else .ok (b, rest)

/-- Reads the flags of a substitution up to the end of the line: which occurrence is replaced, at
most once, and print letters, of which the last one counts. -/
def readFlags (occurrence : Option Occurrence) (mode : Option PrintMode) (bytes : Line) :
    Except EditError (Option Occurrence × Option PrintMode) :=
  match bytes with
  | [] => .ok (occurrence, mode)
  | b :: rest =>
    if b = ascii 'g' ∧ occurrence = none then readFlags (some .all) mode rest
    else if isDigit b ∧ occurrence = none then
      let n := numeralUpTo wordSize (b :: rest.takeWhile isDigit)
      if wordSize ≤ n then .error .numberOutOfRange
      else if n = 0 then .error .invalidSuffix
      else readFlags (some (.nth n)) mode (rest.dropWhile isDigit)
    else
      match PrintMode.ofByte? b with
      | none => .error .invalidSuffix
      | some m => readFlags occurrence (some m) rest
termination_by bytes.length
decreasing_by
  · simp
  · have : (rest.dropWhile isDigit).length ≤ rest.length := (List.dropWhile_suffix _).length_le
    simp only [List.length_cons]; omega
  · simp

/-- Whether a byte after `s` is a flag, so that the last substitution is repeated. -/
def isFlag (b : UInt8) : Bool :=
  isDigit b || b == ascii 'g' || (PrintMode.ofByte? b).isSome

/-- Reads a pattern between two delimiters. Returns what it means, the delimiter, and what follows
the second one. -/
def readRegex (rest : Line) : Recall (Regex × UInt8 × Line) := do
  let (delimiter, rest) ← ofResult (readDelimiter rest)
  let (pattern, rest) ← ofResult (readPattern delimiter rest)
  let regex ← recallPattern pattern
  return (regex, delimiter, rest)

/-- Reads a substitution after its `s`, up to the end of the line. If the replacement is not closed
the first match is replaced and the line printed. -/
def readSubstitution (rest : Line) : Recall (Command × Option PrintMode) := do
  if rest.isEmpty then return (.repeatSubstitute none, none)
  if rest.head?.any isFlag then
    let (occurrence, mode) ← ofResult (readFlags none none rest)
    return (.repeatSubstitute occurrence, mode)
  let (regex, delimiter, rest) ← readRegex rest
  match readDelimited delimiter false rest with
  | (replacement, none) => return (.substitute ⟨regex, replacement, .first⟩, some .plain)
  | (replacement, some rest) =>
    let (occurrence, mode) ← ofResult (readFlags none none rest)
    return (.substitute ⟨regex, replacement, occurrence.getD .first⟩, mode)

/-- The command list that follows the pattern of a global command: an opening brace, or one
command line, which is a print command if nothing is written. -/
def CommandList.ofLine (rest : Line) : CommandList :=
  if trimSpace rest = [ascii '{'] then .block
  else if rest.isEmpty then .inline [ascii 'p']
  else .inline rest

/-- Reads a global command after its letter, up to the end of the line. -/
def readGlobal (invert : Bool) (rest : Line) : Recall Command := do
  let (regex, _, rest) ← readRegex rest
  return .global invert regex (.ofLine rest)

/-- Reads the destination of a move or a copy. Returns what follows as well. -/
def readDestination (ctx : AddressContext) (rest : Line) : Recall (Nat × Line) := do
  let (list, rest) := readAddresses rest
  let addresses ← list.values ctx
  match addresses.second with
  | none => throw .invalidDestination
  | some line => return (line, rest)

/-- Reads the letter of a mark. Returns what follows as well. -/
def readMark (rest : Line) : Except EditError (UInt8 × Line) :=
  match rest with
  | [] => .error .invalidMark
  | b :: rest => if isLower b then .ok (b, rest) else .error .invalidMark

/-- Reads what belongs to a command after its letter. Returns the command, the print suffix if one
is among its flags, and what follows. -/
def readCommand (ctx : AddressContext) (letter : UInt8) (rest : Line) :
    Recall (Command × Option PrintMode × Line) := do
  if letter = ascii 'a' then return (.append, none, rest)
  else if letter = ascii 'i' then return (.insert, none, rest)
  else if letter = ascii 'c' then return (.change, none, rest)
  else if letter = ascii 'd' then return (.delete, none, rest)
  else if letter = ascii 'p' then return (.print .plain, none, rest)
  else if letter = ascii 'n' then return (.print .numbered, none, rest)
  else if letter = ascii 'l' then return (.print .listing, none, rest)
  else if letter = ascii '=' then return (.lineNumber, none, rest)
  else if letter = ascii 'j' then return (.join, none, rest)
  else if letter = ascii 'k' then
    let (mark, rest) ← ofResult (readMark rest)
    return (.mark mark, none, rest)
  else if letter = ascii 'm' then
    let (dest, rest) ← readDestination ctx rest
    return (.move dest, none, rest)
  else if letter = ascii 't' then
    let (dest, rest) ← readDestination ctx rest
    return (.copy dest, none, rest)
  else if letter = ascii 'r' then
    return (.read (← ofResult (readFilename rest)), none, [])
  else if letter = ascii 'w' then
    let quit := rest.head? = some (ascii 'q')
    let path ← ofResult (readFilename (if quit then rest.tail else rest))
    return (.write path false quit, none, [])
  else if letter = ascii 'W' then
    return (.write (← ofResult (readFilename rest)) true false, none, [])
  else if letter = ascii 'e' then
    return (.edit (← ofResult (readFilename rest)) false, none, [])
  else if letter = ascii 'E' then
    return (.edit (← ofResult (readFilename rest)) true, none, [])
  else if letter = ascii 'f' then
    return (.filename (← ofResult (readFilename rest)), none, [])
  else if letter = ascii 'q' then return (.quit false, none, rest)
  else if letter = ascii 'Q' then return (.quit true, none, rest)
  else if letter = ascii 'u' then return (.undo, none, rest)
  else if letter = ascii 'h' then return (.help, none, rest)
  else if letter = ascii 'H' then return (.toggleVerbose, none, rest)
  else if letter = ascii 'P' then return (.togglePrompt, none, rest)
  else if letter = ascii 's' then
    let (command, mode) ← readSubstitution rest
    return (command, mode, [])
  else if letter = ascii 'g' then return (← readGlobal false rest, none, [])
  else if letter = ascii 'v' then return (← readGlobal true rest, none, [])
  else throw .unknownCommand

/-- Reads a command line. -/
def CommandLine.read (ctx : AddressContext) (line : Line) : Recall CommandLine := do
  let (list, rest) := readAddresses line
  let addresses ← list.values ctx
  match rest with
  | [] => return ⟨addresses, .null, none⟩
  | letter :: rest =>
    let (command, mode, rest) ← readCommand ctx letter rest
    if 0 < addresses.count ∧ command.takesAddresses = false then throw .unexpectedAddress
    return ⟨addresses, command, ← ofResult (readPrintSuffix mode rest)⟩

end LineEditor
