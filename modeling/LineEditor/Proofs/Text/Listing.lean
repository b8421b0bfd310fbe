import LineEditor.Proofs.Regex.Grammar
import LineEditor.Proofs.Text.Files
import LineEditor.Text.Escaped

set_option autoImplicit false
set_option relaxedAutoImplicit false

/-!
# Reading a listing back

The listing of a line puts one, two or four bytes for each of its bytes, with nothing between them.
A reader can tell from the first ones how many there are: a backslash begins an escape, and the byte
behind it says whether this has two bytes or four. So a listing is read from left to right, whatever
follows it, and no two lines have the same one.

A dollar sign that belongs to the line is escaped. Since nothing but an escape has a backslash, and
each escape is over before the next one begins, an odd number of backslashes stands before it, and
an even number before the one that closes the line. Newlines are escaped as well, so that the
listings of several lines can be told apart.

## Main definitions

* `LineEditor.Listing.readLine`: reads the listing of a line.
* `LineEditor.Listing.line?`, `LineEditor.Listing.lines?`: the line or the lines of a listing.

## Main results

* `LineEditor.Listing.readLine_escapeLine`: the listing of a line is read as this line.
* `LineEditor.Listing.lines?_joinLines`: so are the listings of several lines.
* `LineEditor.Listing.endsEven_iff`: the dollar sign that closes a line can be told from all others.
-/

namespace LineEditor

namespace Listing

open Regex (EndsEven)

/-! ## Reading -/

/-- The control characters with a letter of their own. -/
def namedControls : Line := [0x07, 0x08, 0x0c, ascii '\r', ascii '\t', 0x0b]

/-- The control character that a letter behind a backslash stands for. -/
def control? (letter : UInt8) : Option UInt8 :=
  namedControls.find? fun b => controlLetter? b == some letter

/-- The byte that three octal digits stand for. -/
def octalByte (high middle low : UInt8) : UInt8 :=
  (64 * digitValue high + 8 * digitValue middle + digitValue low).toUInt8

/-- Reads an escape behind its backslash. Returns the byte that it stands for and what follows. -/
def readEscape : Line → Option (UInt8 × Line)
  | [] => none
  | b :: rest =>
    if b = ascii '\\' ∨ b = ascii '$' then some (b, rest)
    else
      match control? b with
      | some c => some (c, rest)
      | none =>
        match rest with
        | middle :: low :: rest => some (octalByte b middle low, rest)
        | _ => none

/-- Reading an escape uses up its bytes. -/
theorem length_readEscape_lt {bytes rest : Line} {b : UInt8}
    (h : readEscape bytes = some (b, rest)) : rest.length < bytes.length := by
  revert h
  fun_cases readEscape bytes with
  | case1 => exact nofun
  | case2 => rintro ⟨⟩; simp
  | case3 => rintro ⟨⟩; simp
  | case4 => rintro ⟨⟩; simp only [List.length_cons]; omega
  | case5 => exact nofun

/-- A byte that is not escaped itself stands for a control character or begins a number.

**Proof sketch.** The first byte is neither of the two that stand for themselves, so that the reader
looks it up among the control letters and otherwise takes two more bytes. -/
theorem readEscape_cons {b : UInt8} (hbackslash : b ≠ ascii '\\') (hdollar : b ≠ ascii '$')
    (rest : Line) :
    readEscape (b :: rest) =
      match control? b with
      | some c => some (c, rest)
      | none =>
        match rest with
        | middle :: low :: rest => some (octalByte b middle low, rest)
        | _ => none := by
  unfold readEscape
  dsimp only
  rw [if_neg (not_or.2 ⟨hbackslash, hdollar⟩)]
  rfl

/-- Reads the listing of a line up to the dollar sign that closes it. Returns the line and what
follows. -/
def readLine (bytes : Line) : Option (Line × Line) :=
  match bytes with
  | [] => none
  | b :: rest =>
    if b = ascii '$' then some ([], rest)
    else if b = ascii '\\' then
      match _h : readEscape rest with
      | none => none
      | some (c, rest) => (readLine rest).map fun (line, left) => (c :: line, left)
    else (readLine rest).map fun (line, left) => (b :: line, left)
termination_by bytes.length
decreasing_by
  · have := length_readEscape_lt _h
    simp only [List.length_cons]; omega
  · simp

/-- The line of a listing. -/
def line? (bytes : Line) : Option Line :=
  match readLine bytes with
  | some (line, []) => some line
  | _ => none

/-- The lines of listings that are each ended by a newline. -/
def lines? (bytes : Line) : Option (List Line) := (splitLines bytes).mapM line?

/-! ## The parts of a listing -/

/-- A byte that prints in ASCII. -/
def Printable (b : UInt8) : Prop := 0x20 ≤ b ∧ b ≤ 0x7e

instance : DecidablePred Printable := fun b => inferInstanceAs (Decidable (0x20 ≤ b ∧ b ≤ 0x7e))

variable {b c letter : UInt8} {line front back : Line}

/-- A letter stands for one of the control characters. -/
theorem mem_namedControls (h : controlLetter? b = some letter) : b ∈ namedControls := by
  by_contra hb
  simp only [namedControls, List.mem_cons, List.not_mem_nil, or_false, not_or] at hb
  simp [controlLetter?, hb] at h

/-- The letter of a control character stands for this character and for nothing else. -/
theorem control?_of_controlLetter? (h : controlLetter? b = some letter) :
    letter ∈ Line.ofString "abfrtv" ∧ control? letter = some b := by
  have hletters : ∀ b ∈ namedControls, ∀ letter ∈ controlLetter? b,
      letter ∈ Line.ofString "abfrtv" ∧ control? letter = some b := by decide +kernel
  exact hletters b (mem_namedControls h) letter h

/-- An octal digit is a digit. -/
theorem octalDigit_mem (n : Nat) : octalDigit n ∈ Line.ofString "01234567" := by
  have hdigits : ∀ m < 8, ascii '0' + m.toUInt8 ∈ Line.ofString "01234567" := by decide
  exact hdigits _ (Nat.mod_lt n (by decide))

/-- Its value is what it stands for. -/
theorem digitValue_octalDigit (n : Nat) : digitValue (octalDigit n) = n % 8 := by
  have hdigits : ∀ m < 8, digitValue (ascii '0' + m.toUInt8) = m := by decide
  exact hdigits _ (Nat.mod_lt n (by decide))

/-- A byte is the one that its three octal digits stand for. -/
theorem octalByte_octalDigits (b : UInt8) :
    octalByte (octalDigit (b.toNat / 64)) (octalDigit (b.toNat / 8)) (octalDigit b.toNat) = b := by
  have hlt := b.toNat_lt
  have hsum : 64 * (b.toNat / 64 % 8) + 8 * (b.toNat / 8 % 8) + b.toNat % 8 = b.toNat := by omega
  unfold octalByte
  rw [digitValue_octalDigit, digitValue_octalDigit, digitValue_octalDigit, hsum]
  exact UInt8.ofNat_toNat

/-- What stands behind the backslash of an escape. -/
structure IsEscape (b : UInt8) (tail : Line) : Prop where
  /-- It is read as the byte, whatever follows. -/
  read : ∀ rest, readEscape (tail ++ rest) = some (b, rest)
  /-- It prints. -/
  printable : ∀ c ∈ tail, Printable c
  /-- There is a dollar sign in it only if it is the one that is escaped. -/
  dollar : ascii '$' ∈ tail → tail = [ascii '$']
  /-- If it has a backslash at its end, this is the one that is escaped. -/
  even : EndsEven (ascii '\\' :: tail)

/-- A backslash and a dollar sign stand for themselves. -/
theorem isEscape_self (hb : b = ascii '\\' ∨ b = ascii '$') : IsEscape b [b] := by
  refine ⟨fun rest => if_pos hb, ?_, ?_, ?_⟩
  · obtain rfl | rfl := hb <;> decide +kernel
  · obtain rfl | rfl := hb <;> decide
  · obtain rfl | rfl := hb <;> rfl

/-- A letter stands for its control character.

**Proof sketch.** It is none of the two bytes that stand for themselves, and looking it up finds the
one control character that has it. -/
theorem isEscape_letter (h : controlLetter? b = some letter) : IsEscape b [letter] := by
  obtain ⟨hmem, hcontrol⟩ := control?_of_controlLetter? h
  have hletters : ∀ letter ∈ Line.ofString "abfrtv", letter ≠ ascii '\\' ∧ letter ≠ ascii '$' ∧
      Printable letter := by decide +kernel
  obtain ⟨hbackslash, hdollar, hprintable⟩ := hletters letter hmem
  refine ⟨fun rest => ?_, List.forall_mem_singleton.2 hprintable, fun hmem => ?_,
    .of_suffix ⟨[ascii '\\'], rfl⟩ hbackslash⟩
  · rw [List.singleton_append, readEscape_cons hbackslash hdollar, hcontrol]
  · exact absurd (List.mem_singleton.1 hmem).symm hdollar

/-- Three octal digits stand for any byte.

**Proof sketch.** The first one is no control letter and none of the two bytes that stand for
themselves, and the value of all three is the byte by `octalByte_octalDigits`. -/
theorem isEscape_octal (b : UInt8) :
    IsEscape b [octalDigit (b.toNat / 64), octalDigit (b.toNat / 8), octalDigit b.toNat] := by
  have hdigits : ∀ digit ∈ Line.ofString "01234567", digit ≠ ascii '\\' ∧ digit ≠ ascii '$' ∧
      Printable digit ∧ control? digit = none := by decide +kernel
  have hall : ∀ digit ∈ [octalDigit (b.toNat / 64), octalDigit (b.toNat / 8),
      octalDigit b.toNat], digit ∈ Line.ofString "01234567" := by
    simp [octalDigit_mem]
  obtain ⟨hbackslash, hdollar, -, hcontrol⟩ := hdigits _ (octalDigit_mem (b.toNat / 64))
  refine ⟨fun rest => ?_, fun c hc => (hdigits c (hall c hc)).2.2.1,
    fun hmem => absurd rfl (hdigits _ (hall _ hmem)).2.1,
    .of_suffix ⟨[_, _, _], rfl⟩ (hdigits _ (octalDigit_mem b.toNat)).1⟩
  rw [List.cons_append, readEscape_cons hbackslash hdollar, hcontrol]
  exact congrArg (fun b => some (b, rest)) (octalByte_octalDigits b)

/-- A byte is listed as it is, or by an escape.

**Proof sketch.** By the four branches of `escapeByte`. -/
theorem escapeByte_cases (b : UInt8) :
    (escapeByte b = [b] ∧ b ≠ ascii '\\' ∧ b ≠ ascii '$' ∧ Printable b) ∨
    ∃ tail, escapeByte b = ascii '\\' :: tail ∧ IsEscape b tail := by
  fun_cases escapeByte b with
  | case1 hb => exact .inr ⟨[b], rfl, isEscape_self hb⟩
  | case2 hb letter hletter => exact .inr ⟨[letter], rfl, isEscape_letter hletter⟩
  | case3 hb hletter hprintable =>
    rw [not_or] at hb
    exact .inl ⟨rfl, hb.1, hb.2, hprintable⟩
  | case4 => exact .inr ⟨_, rfl, isEscape_octal b⟩

/-! ## The listing of a line -/

/-- **The listing of a line is read as this line**, whatever follows.

**Proof sketch.** By induction on the line: its first byte is listed as it is, which is neither the
dollar sign that ends the line nor a backslash, or by an escape, which is read as the byte whatever
follows it. -/
theorem readLine_escapeLine (line rest : Line) :
    readLine (escapeLine line ++ rest) = some (line, rest) := by
  induction line with
  | nil =>
    change readLine (ascii '$' :: rest) = _
    rw [readLine, if_pos rfl]
  | cons b line ih =>
    have hcons : escapeLine (b :: line) ++ rest = escapeByte b ++ (escapeLine line ++ rest) := by
      simp only [escapeLine, List.flatMap_cons, List.append_assoc]
    rw [hcons]
    obtain ⟨hescape, hbackslash, hdollar, -⟩ | ⟨tail, hescape, htail⟩ := escapeByte_cases b
    · rw [hescape, List.singleton_append, readLine, if_neg hdollar, if_neg hbackslash, ih]
      rfl
    · rw [hescape, List.cons_append, readLine, if_neg (by decide), if_pos rfl, htail.read]
      dsimp only
      rw [ih]
      rfl

/-- A line is what its listing stands for. -/
theorem line?_escapeLine (line : Line) : line? (escapeLine line) = some line := by
  have hread := readLine_escapeLine line []
  rw [List.append_nil] at hread
  unfold line?
  rw [hread]

/-- No two lines have the same listing. -/
theorem escapeLine_injective : Function.Injective escapeLine := by
  intro line line' h
  have hline := line?_escapeLine line
  rw [h, line?_escapeLine] at hline
  exact (Option.some.inj hline).symm

/-- A listing prints in ASCII.

**Proof sketch.** Each byte of the listing is one of a byte of the line or the dollar sign behind
them. -/
theorem printable_of_mem_escapeLine (h : c ∈ escapeLine line) : Printable c := by
  rcases List.mem_append.1 h with h | h
  · obtain ⟨b, -, hc⟩ := List.mem_flatMap.1 h
    obtain ⟨hescape, -, -, hb⟩ | ⟨tail, hescape, htail⟩ := escapeByte_cases b
    · rw [hescape, List.mem_singleton] at hc
      exact hc ▸ hb
    · rw [hescape] at hc
      rcases List.mem_cons.1 hc with rfl | hc
      · decide
      · exact htail.printable c hc
  · rw [List.mem_singleton.1 h]
    decide

/-- A listing ends with a dollar sign. -/
theorem getLast?_escapeLine (line : Line) : (escapeLine line).getLast? = some (ascii '$') := by
  rw [escapeLine, List.getLast?_append]
  rfl

/-! ## Dollar signs -/

/-- The listing of a byte leaves an even number of backslashes behind it. -/
theorem endsEven_escapeByte (b : UInt8) : EndsEven (escapeByte b) := by
  obtain ⟨hescape, hb, -⟩ | ⟨tail, hescape, htail⟩ := escapeByte_cases b
  · exact hescape ▸ .of_suffix (List.suffix_refl [b]) hb
  · exact hescape ▸ htail.even

/-- A dollar sign that belongs to a line stands behind the backslash of its escape.

**Proof sketch.** A byte that is listed as it is is no dollar sign, so that this one is part of an
escape; there it stands for itself, and only the backslash stands before it. -/
theorem eq_of_escapeByte_eq_append (h : escapeByte b = front ++ ascii '$' :: back) :
    front = [ascii '\\'] := by
  have hmem : ascii '$' ∈ escapeByte b := by simp [h]
  obtain ⟨hescape, -, hb, -⟩ | ⟨tail, hescape, htail⟩ := escapeByte_cases b
  · rw [hescape, List.mem_singleton] at hmem
    exact absurd hmem.symm hb
  · rw [hescape] at hmem h
    have htail : tail = [ascii '$'] :=
      htail.dollar ((List.mem_cons.1 hmem).resolve_left (by decide))
    rw [htail] at h
    match front with
    | [] => cases h
    | [_] =>
      cases h
      rfl
    | _ :: _ :: front =>
      have hlength := congrArg List.length h
      simp only [List.length_cons, List.length_nil, List.length_append] at hlength
      omega

/-- **The dollar sign that closes a line** is the one with an even number of backslashes before
it.

**Proof sketch.** By induction on the line. The listing of its first byte is all before the dollar
sign, and leaves an even number of backslashes, so that what is behind it decides; or it ends
exactly there; or the dollar sign is within it, behind the one backslash of its escape, and then the
one that closes the line still follows. -/
theorem endsEven_iff (h : escapeLine line = front ++ ascii '$' :: back) :
    EndsEven front ↔ back = [] := by
  induction line generalizing front with
  | nil =>
    match front with
    | [] =>
      cases h
      exact ⟨fun _ => rfl, fun _ => EndsEven.nil⟩
    | _ :: front =>
      have hlength := congrArg List.length h
      simp [escapeLine] at hlength
  | cons b line ih =>
    have hcons : escapeByte b ++ escapeLine line = front ++ ascii '$' :: back := by
      rw [← h]
      simp only [escapeLine, List.flatMap_cons, List.append_assoc]
    obtain ⟨rest, rfl, hrest⟩ | ⟨rest, hrest, hback⟩ := List.append_eq_append_iff.1 hcons
    · rw [(endsEven_escapeByte b).append_iff]
      exact ih hrest
    · match rest with
      | [] =>
        rw [List.append_nil] at hrest
        have hline : EndsEven [] ↔ back = [] := ih hback.symm
        rw [← hrest]
        exact ⟨fun _ => hline.1 EndsEven.nil, fun _ => endsEven_escapeByte b⟩
      | _ :: rest =>
        obtain ⟨rfl, rfl⟩ := List.cons.inj hback
        -- the dollar sign is one of the line, and the closing one follows
        rw [eq_of_escapeByte_eq_append hrest]
        exact ⟨fun heven => absurd heven EndsEven.nil.not_backslash,
          fun hnil => by simp [escapeLine] at hnil⟩

/-! ## The listings of several lines -/

/-- **The listings of lines, a newline after each, are read as these lines.**

**Proof sketch.** A listing has no newline, so that cutting at newlines gives back the listings, and
each is read as its line. -/
theorem lines?_joinLines (lines : List Line) :
    lines? (joinLines (lines.map escapeLine)) = some lines := by
  have hover : ∀ listing ∈ lines.map escapeLine, listing.Over notNewline := by
    intro listing hlisting b hb
    obtain ⟨line, -, rfl⟩ := List.mem_map.1 hlisting
    rintro rfl
    exact absurd (printable_of_mem_escapeLine hb) (by decide)
  rw [lines?, splitLines_joinLines hover]
  induction lines with
  | nil => rfl
  | cons line lines ih =>
    rw [List.map_cons, List.mapM_cons, line?_escapeLine, ih]
    · rfl
    · exact fun listing hlisting => hover listing (List.mem_cons_of_mem _ hlisting)

end Listing

end LineEditor
