import Mathlib.Data.List.TakeWhile
import Mathlib.Data.Set.Basic
import LineEditor.Command.Parser
import LineEditor.Proofs.Computations
import LineEditor.Source
import LineEditor.Text.Lines

set_option autoImplicit false
set_option relaxedAutoImplicit false

/-!
# Lines over an alphabet

Which bytes can stand in a line is decided where the line comes from: from the input, from a file,
or from other lines, which are split, joined or used in a substitution. None of this makes up a
byte, and what is cut at newlines has none.

## Main definitions

* `LineEditor.Line.Over`: lines that have only bytes of an alphabet.
* `LineEditor.notNewline`: all bytes but the newline.
* `LineEditor.Source.Over`: sources whose lines are over an alphabet.
* `LineEditor.Command.Over`: commands whose texts are.

## Main results

* `LineEditor.Substitution.over_apply?`: substitutions make up no byte.
* `LineEditor.CommandLine.yields_read`: commands have no byte that is not in their line.
-/

namespace LineEditor

variable {A : Set UInt8}

/-- A line has only bytes of an alphabet. -/
def Line.Over (A : Set UInt8) (line : Line) : Prop := ∀ b ∈ line, b ∈ A

/-- All bytes but the newline. -/
def notNewline : Set UInt8 := {b | b ≠ newline}

namespace Line.Over

variable {line line' : Line} {lines : List Line}

/-- A line with fewer bytes is over the same alphabet. -/
theorem of_subset (h : line.Over A) (hsub : ∀ b ∈ line', b ∈ line) : Over A line' :=
  fun b hb => h b (hsub b hb)

/-- A line is over every larger alphabet. -/
theorem mono {A' : Set UInt8} (h : line.Over A) (hA : A ⊆ A') : line.Over A' :=
  fun b hb => hA (h b hb)

/-- Two lines over an alphabet make up another one. -/
theorem append (h : line.Over A) (h' : line'.Over A) : Over A (line ++ line') := by
  intro b hb
  rcases List.mem_append.1 hb with hb | hb
  · exact h b hb
  · exact h' b hb

/-- So do several lines. -/
theorem flatten (h : ∀ line ∈ lines, line.Over A) : Over A lines.flatten := by
  intro b hb
  obtain ⟨line, hline, hb⟩ := List.mem_flatten.1 hb
  exact h line hline b hb

end Line.Over

/-! ## Lines that are cut at newlines -/

/-- The parts of a text are those of its rest, with the first byte put in front. -/
theorem segments_cons (ending b : UInt8) (bytes : Line) :
    segments ending (b :: bytes) = consByte ending b (segments ending bytes) := rfl

/-- No part has the byte at which the parts end.

**Proof sketch.** By induction on the text. The first byte either ends a part, before which no byte
stands, or becomes the first byte of the first part, where it is another byte than the one that ends
parts. -/
theorem not_mem_of_mem_segments {ending : UInt8} {bytes part : Line}
    (h : part ∈ segments ending bytes) : ending ∉ part := by
  induction bytes generalizing part with
  | nil => cases h
  | cons b bytes ih =>
    rw [segments_cons] at h
    unfold consByte at h
    split at h
    · rcases List.mem_cons.1 h with rfl | h
      · exact List.not_mem_nil
      · exact ih h
    · rename_i hb
      split at h
      · rw [List.mem_singleton] at h
        rw [h, List.mem_singleton]
        exact Ne.symm hb
      · rename_i first rest hsegments
        rcases List.mem_cons.1 h with rfl | h
        · rw [List.mem_cons, not_or]
          exact ⟨Ne.symm hb, ih (by rw [hsegments]; exact List.mem_cons_self)⟩
        · exact ih (by rw [hsegments]; exact List.mem_cons_of_mem _ h)

/-- A line that is cut out of a text has no newline in it. -/
theorem over_of_mem_splitLines {bytes line : Line} (h : line ∈ splitLines bytes) :
    line.Over notNewline := by
  rintro b hb rfl
  exact not_mem_of_mem_segments h hb

/-- Nor has a line that is cut off in front.

**Proof sketch.** Such a line is the longest beginning without a newline, or the whole of a text
that has none. -/
theorem over_cutLine {bytes line : Line} {rest : Option Line}
    (h : cutLine bytes = (line, rest)) : line.Over notNewline := by
  intro b hb
  unfold cutLine at h
  split at h
  · rename_i hdrop
    obtain ⟨rfl, -⟩ := Prod.mk.inj h
    have := List.dropWhile_eq_nil_iff.1 hdrop b hb
    simpa [notNewline] using this
  · obtain ⟨rfl, -⟩ := Prod.mk.inj h
    have := List.mem_takeWhile_imp hb
    simpa [notNewline] using this

/-! ## Sources -/

/-- The lines of a source are over an alphabet, as far as they are not cut out of a stream. -/
def Source.Over (A : Set UInt8) : Source → Prop
  | script lines => ∀ line ∈ lines, line.Over A
  | stream _ _ => True

namespace Source

open EState

variable (hA : notNewline ⊆ A)

include hA

/-- A source over an alphabet gives such lines and stays over it.

**Proof sketch.** A script gives one of its own lines. A line that is cut off a stream has no
newline, so that it is over the alphabet whatever the stream is. -/
theorem maintains_next : Maintains (Over A) (fun line? => ∀ line ∈ line?, line.Over A) next := by
  rintro (lines | ⟨bytes, broken⟩) h
  · cases lines with
    | nil => exact ⟨h, nofun⟩
    | cons line lines =>
      refine ⟨fun line' hline => h line' (List.mem_cons_of_mem _ hline), ?_⟩
      rintro _ ⟨⟩
      exact h line List.mem_cons_self
  · dsimp only [next]
    rcases hcut : cutLine bytes with ⟨line, _ | rest⟩
    · cases broken with
      | some reason => trivial
      | none =>
        refine ⟨trivial, ?_⟩
        intro line' hline
        split at hline
        · cases hline
        · cases hline
          exact (over_cutLine hcut).mono hA
    · refine ⟨trivial, ?_⟩
      rintro _ ⟨⟩
      exact (over_cutLine hcut).mono hA

/-- So do the lines that are read until one closes them.

**Proof sketch.** By induction along the reading, the lines read before being over the alphabet. -/
theorem maintains_readUntilAfter (closes : Line → Bool) {before : List Line}
    (hbefore : ∀ line ∈ before, line.Over A) :
    Maintains (Over A) (fun p => ∀ line ∈ p.1, line.Over A) (readUntilAfter closes before) := by
  intro source hsource
  fun_induction readUntilAfter closes before source with
  | case1 before source e after h => exact (maintains_next hA).of_error hsource h
  | case2 before source after h =>
    refine ⟨((maintains_next hA).of_ok hsource h).1, fun line hline => hbefore line ?_⟩
    simpa using hline
  | case3 before source line after h =>
    refine ⟨((maintains_next hA).of_ok hsource h).1, fun line hline => hbefore line ?_⟩
    simpa using hline
  | case4 before source line after h _ ih =>
    obtain ⟨hafter, hline⟩ := (maintains_next hA).of_ok hsource h
    refine ih ?_ hafter
    intro line' hmem
    rcases List.mem_cons.1 hmem with rfl | hmem
    · exact hline _ rfl
    · exact hbefore line' hmem

/-- So do the lines of a text. -/
theorem maintains_readBlock :
    Maintains (Over A) (fun lines => ∀ line ∈ lines, line.Over A) readBlock :=
  (maintains_readUntilAfter hA _ fun _ hline => absurd hline List.not_mem_nil).bind
    fun _ hlines => .pure hlines

/-- So do the lines of a command list. -/
theorem maintains_readCommandList :
    Maintains (Over A) (fun lines => ∀ line ∈ lines, line.Over A) readCommandList :=
  (maintains_readUntilAfter hA _ fun _ hline => absurd hline List.not_mem_nil).bind fun _ hlines =>
    .ite (fun _ => .pure hlines) fun _ => .throw _

end Source

/-! ## Substitutions -/

namespace Regex

variable {text : Array UInt8} {replacement line : Line}

/-- A portion of a line has only bytes of the line. -/
theorem over_extract (htext : Line.Over A text.toList) (start stop : Nat) :
    Line.Over A (text.extract start stop).toList := by
  intro b hb
  rw [Array.toList_extract, List.extract_eq_take_drop] at hb
  exact htext b (List.mem_of_mem_drop (List.mem_of_mem_take hb))

/-- What a part of a replacement stands for is over the alphabet, if a byte that the part names is
in it.

**Proof sketch.** A named byte stands for itself, and every other part for a portion of the line. -/
theorem Part.over_text (htext : Line.Over A text.toList) (m : Match) {part : Part}
    (hpart : ∀ b, part = .literal b → b ∈ A) : (part.text text m).Over A := by
  intro b hb
  unfold Part.text at hb
  split at hb
  · rw [List.mem_singleton] at hb
    exact hb ▸ hpart _ rfl
  · split at hb
    · cases hb
    · exact over_extract htext _ _ b hb

/-- The bytes that a replacement names are bytes of it.

**Proof sketch.** By induction along the reading of its parts: an escaped byte and one that is not
escaped are both in what is read. -/
theorem mem_of_mem_parts {b : UInt8} (h : Part.literal b ∈ parts replacement) :
    b ∈ replacement := by
  fun_induction parts replacement with
  | case1 => cases h
  | case2 c => simpa using h
  | case3 c rest ih =>
    rcases List.mem_cons.1 h with h | h
    · unfold Part.ofEscaped at h
      split at h
      · cases h
      · cases h
        simp
    · exact List.mem_cons_of_mem _ (List.mem_cons_of_mem _ (ih h))
  | case4 c d rest hc ih =>
    rcases List.mem_cons.1 h with h | h
    · cases h
      exact List.mem_cons_self
    · exact List.mem_cons_of_mem _ (ih h)

/-- A replacement over the alphabet is rendered over it.

**Proof sketch.** Each byte of the rendered text comes from a part, and what a part stands for is
over the alphabet by `Part.over_text`. -/
theorem over_render (htext : Line.Over A text.toList) (m : Match) (h : replacement.Over A) :
    (render text m replacement).Over A := by
  intro b hb
  obtain ⟨part, hpart, hb⟩ := List.mem_flatMap.1 hb
  refine Part.over_text htext m ?_ b hb
  rintro c rfl
  exact h c (mem_of_mem_parts hpart)

/-- So is a line with its first match replaced.

**Proof sketch.** It is made of a portion of the line, the rendered replacement and another
portion. -/
theorem over_replaceFirst? {r : Regex} (htext : Line.Over A text.toList) (h : replacement.Over A) :
    ∀ line' ∈ r.replaceFirst? text replacement, line'.Over A := by
  intro line' hline'
  unfold replaceFirst? at hline'
  split at hline'
  · cases hline'
  · cases hline'
    rw [Array.toList_append, Array.toList_append]
    exact ((over_extract htext _ _).append (over_render htext _ h)).append
      (over_extract htext _ _)

/-- Taking a match leaves what is written over the alphabet.

**Proof sketch.** A match before the end of the last one writes nothing, any other a portion of the
line and, if it is replaced, the rendered replacement. -/
theorem Progress.over_take (htext : Line.Over A text.toList) (h : replacement.Over A)
    (occurrence : Occurrence) (m : Match) {p : Progress} (hp : Line.Over A p.written.toList) :
    Line.Over A (p.take text replacement occurrence m).written.toList := by
  obtain ⟨written, copied, seen, lastStop, replaced⟩ := p
  dsimp only [take]
  split
  · exact hp
  · split
    · rw [Array.toList_append, Array.toList_append]
      exact (hp.append (over_extract htext _ _)).append (over_render htext m h)
    · exact hp

/-- So does the scan of a line.

**Proof sketch.** By induction along the scan, each round of which takes one match. -/
theorem over_scan {r : Regex} {occurrence : Occurrence} (htext : Line.Over A text.toList)
    (h : replacement.Over A) {p : Progress} (position : Nat)
    (hp : Line.Over A p.written.toList) :
    Line.Over A (r.scan text replacement occurrence p position).written.toList := by
  fun_induction scan r text replacement occurrence p position with
  | case1 => exact hp
  | case2 p position m hm p' hstop => exact Progress.over_take htext h _ m hp
  | case3 p position m hm p' hstop hbeyond => exact Progress.over_take htext h _ m hp
  | case4 p position m hm p' hstop hbeyond hle hlt ih =>
    exact ih (Progress.over_take htext h _ m hp)

/-- A line with matches replaced is over the alphabet.

**Proof sketch.** For the first match alone by `over_replaceFirst?`. Otherwise the scan writes such
a text, and what comes after the last match is a portion of the line. -/
theorem over_replace? {r : Regex} {occurrence : Occurrence} (hline : line.Over A)
    (h : replacement.Over A) :
    ∀ line' ∈ r.replace? line replacement occurrence, line'.Over A := by
  intro line' hline'
  unfold replace? at hline'
  dsimp only at hline'
  split at hline'
  · exact over_replaceFirst? hline h line' hline'
  · unfold Progress.finish? at hline'
    split at hline'
    · cases hline'
      rw [Array.toList_append]
      exact (over_scan hline h 0 (fun _ hb => absurd hb List.not_mem_nil)).append
        (over_extract hline _ _)
    · cases hline'

end Regex

/-- **Substitutions make up no byte**: what they make of a line has only bytes of the line and of
the replacement. -/
theorem Substitution.over_apply? {s : Substitution} {line : Line} (hs : s.replacement.Over A)
    (hline : line.Over A) : ∀ line' ∈ s.apply? line, line'.Over A := Regex.over_replace? hline hs

/-! ## What is read from a command line -/

/-- Skipping blanks adds no bytes. -/
theorem subset_skipBlanks (bytes : Line) : skipBlanks bytes ⊆ bytes :=
  (List.dropWhile_suffix isBlank).subset

/-- Nor does taking the byte after them away. -/
theorem subset_of_skipBlanks {bytes rest : Line} {b : UInt8} (h : skipBlanks bytes = b :: rest) :
    rest ⊆ bytes := by
  have hsubset := subset_skipBlanks bytes
  rw [h] at hsubset
  exact List.Subset.trans (List.subset_cons_self b rest) hsubset

/-- A bracket and what follows it are parts of what is read. -/
theorem subset_splitBracket (bytes : Line) :
    (splitBracket bytes).1 ⊆ bytes ∧ (splitBracket bytes).2 ⊆ bytes := by
  have happend := append_splitBracket bytes
  rw [← List.append_subset, happend]
  exact List.Subset.refl _

/-- A delimited text and what follows it are parts of what is read.

**Proof sketch.** By induction along the reading. An escape and a bracket are taken over as they
stand, and the delimiter alone is left out of both texts. -/
theorem subset_readDelimited (delimiter : UInt8) (brackets : Bool) (bytes : Line) :
    (readDelimited delimiter brackets bytes).1 ⊆ bytes ∧
      ∀ rest ∈ (readDelimited delimiter brackets bytes).2, rest ⊆ bytes := by
  fun_induction readDelimited delimiter brackets bytes with
  | case1 => exact ⟨List.nil_subset _, by simp⟩
  | case2 rest =>
    refine ⟨List.nil_subset _, ?_⟩
    rintro _ ⟨⟩
    exact List.subset_cons_self ..
  | case3 => exact ⟨List.Subset.refl _, by simp⟩
  | case4 c after text left hread hne ih =>
    rw [hread] at ih
    refine ⟨?_, fun rest hrest =>
      List.subset_cons_of_subset _ (List.subset_cons_of_subset _ (ih.2 rest hrest))⟩
    dsimp only
    split
    · exact List.subset_cons_of_subset _ (List.cons_subset_cons c ih.1)
    · exact List.cons_subset_cons _ (List.cons_subset_cons c ih.1)
  | case5 b inside hne hescape hbracket text left hread ih =>
    rw [hread] at ih
    obtain ⟨hitems, hleft⟩ := subset_splitBracket inside
    refine ⟨?_, fun rest hrest =>
      List.subset_cons_of_subset b (List.Subset.trans (ih.2 rest hrest) hleft)⟩
    exact List.cons_subset_cons b (List.append_subset.2 ⟨hitems, List.Subset.trans ih.1 hleft⟩)
  | case6 b rest hne hescape hbracket text left hread ih =>
    rw [hread] at ih
    exact ⟨List.cons_subset_cons b ih.1, fun rest hrest =>
      List.subset_cons_of_subset b (ih.2 rest hrest)⟩

/-- What follows an anchor is a part of what is read.

**Proof sketch.** By the kinds of anchors: digits are dropped, one or two bytes are taken off, and
behind a search comes what follows its delimited pattern. -/
theorem subset_of_readAnchor {bytes rest : Line} {anchor : Anchor}
    (h : readAnchor bytes = some (anchor, rest)) : rest ⊆ bytes := by
  unfold readAnchor at h
  split at h
  · cases h
  · rename_i b tail
    split at h
    · cases h
      exact (List.dropWhile_suffix _).subset
    · split at h
      · cases h
        exact List.subset_cons_self ..
      · split at h
        · cases h
          exact List.subset_cons_self ..
        · split at h
          · split at h
            · cases h
              exact List.nil_subset _
            · cases h
              exact List.subset_cons_of_subset _ (List.subset_cons_self ..)
          · split at h
            · split at h
              · cases h
                exact List.nil_subset _
              · rename_i hread
                cases h
                have hrest := (subset_readDelimited b true tail).2
                rw [hread] at hrest
                exact List.subset_cons_of_subset b (hrest _ rfl)
            · split at h
              · cases h
                exact List.Subset.refl _
              · cases h

/-- So is what follows offsets.

**Proof sketch.** By induction along the reading: of every offset its sign, the blanks before it and
its digits are dropped. -/
theorem subset_readOffsets (bytes : Line) : (readOffsets bytes).2 ⊆ bytes := by
  fun_induction readOffsets bytes with
  | case1 => exact List.nil_subset _
  | case2 bytes b rest hskip _ _ offsets left hread ih =>
    rw [hread] at ih
    have hdigits : rest.dropWhile isDigit ⊆ rest := (List.dropWhile_suffix _).subset
    exact List.Subset.trans ih (List.Subset.trans hdigits (subset_of_skipBlanks hskip))
  | case3 bytes b rest hskip _ _ _ offsets left hread ih =>
    rw [hread] at ih
    have hdigits : rest.dropWhile isDigit ⊆ rest := (List.dropWhile_suffix _).subset
    exact List.Subset.trans ih (List.Subset.trans hdigits (subset_of_skipBlanks hskip))
  | case4 bytes b rest hskip => exact hskip ▸ subset_skipBlanks bytes

/-- So is what follows an address. -/
theorem subset_readAddress (bytes : Line) : (readAddress bytes).2 ⊆ bytes := by
  unfold readAddress
  split
  · exact subset_skipBlanks bytes
  · rename_i h
    exact List.Subset.trans (subset_readOffsets _)
      (List.Subset.trans (subset_of_readAnchor h) (subset_skipBlanks bytes))

/-- So is what follows a list of addresses.

**Proof sketch.** By induction along the reading, each address being followed by its separator. -/
theorem subset_readAddresses (bytes : Line) : (readAddresses bytes).2 ⊆ bytes := by
  fun_induction readAddresses bytes with
  | case1 => exact List.nil_subset _
  | case2 bytes address b rest hread _ =>
    have hsubset := subset_readAddress bytes
    rwa [hread] at hsubset
  | case3 bytes address b rest hread separator _ _ list left hrest ih =>
    rw [hrest] at ih
    have hsubset := subset_readAddress bytes
    rw [hread] at hsubset
    exact List.Subset.trans ih (List.Subset.trans (List.subset_cons_self b rest) hsubset)

/-! ## Commands -/

/-- The texts of a command are over an alphabet: the replacement of a substitution, and the command
line that a global command carries out. -/
def Command.Over (A : Set UInt8) : Command → Prop
  | substitute s => s.replacement.Over A
  | global _ _ (.inline line) => line.Over A
  | _ => True

section Reading

open EState

variable {rest : Line}

/-- Reading makes up no byte, whatever pattern is remembered. -/
abbrev Recall.Yields {α : Type} (P : α → Prop) (x : Recall α) : Prop :=
  Maintains (fun _ => True) P x

/-- Every computation yields something. -/
theorem yields_trivial {α : Type} (x : Recall α) : x.Yields fun _ => True := by
  intro r _
  cases x r <;> trivial

/-- What follows a regex is over the alphabet.

**Proof sketch.** It is what is left behind the closing delimiter, which is a part of what follows
the opening one. -/
theorem yields_readRegex (h : rest.Over A) :
    (readRegex rest).Yields fun read => read.2.2.Over A := by
  refine .bind (.ofResult _) fun p hp => .bind (.ofResult _) fun q hq => ?_
  refine (yields_trivial _).seq fun regex => .pure ?_
  have hdelimited : p.2.Over A := by
    unfold readDelimiter at hp
    split at hp
    · cases hp
    · split at hp
      · cases hp
      · cases hp
        exact h.of_subset fun b hb => List.mem_cons_of_mem _ hb
  unfold readPattern at hq
  split at hq
  · cases hq
  · rename_i hread
    cases hq
    have hrest := (subset_readDelimited p.1 true p.2).2
    rw [hread] at hrest
    exact hdelimited.of_subset (hrest _ rfl)

/-- A substitution that is read is over the alphabet.

**Proof sketch.** Without a pattern it has no replacement. With one, the replacement is the next
delimited text, or all that is left where nothing closes it. -/
theorem yields_readSubstitution (h : rest.Over A) :
    (readSubstitution rest).Yields fun read => read.1.Over A := by
  refine .ite (fun _ => .pure trivial) fun _ => .ite (fun _ => ?_) fun _ => ?_
  · exact .bind (.ofResult _) fun _ _ => .pure trivial
  · refine (yields_readRegex h).bind fun ⟨regex, delimiter, rest⟩ hrest => ?_
    have hreplacement := (subset_readDelimited delimiter false rest).1
    dsimp only
    split
    · rename_i replacement hread
      rw [hread] at hreplacement
      exact .pure (hrest.of_subset hreplacement)
    · rename_i replacement left hread
      rw [hread] at hreplacement
      exact .bind (.ofResult _) fun _ _ => .pure (hrest.of_subset hreplacement)

/-- So is a global command.

**Proof sketch.** Its list is empty, stands on the line behind the regex, or is the command that
prints, whose byte is no newline. -/
theorem yields_readGlobal (hA : notNewline ⊆ A) (invert : Bool) (h : rest.Over A) :
    (readGlobal invert rest).Yields (Command.Over A) := by
  refine (yields_readRegex h).bind fun ⟨regex, delimiter, rest⟩ hrest => .pure ?_
  unfold CommandList.ofLine
  split
  · trivial
  · split
    · intro b hb
      rw [List.mem_singleton.1 hb]
      exact hA (show ascii 'p' ≠ newline by decide)
    · exact hrest

/-- So is any command that is read. -/
theorem yields_readCommand (hA : notNewline ⊆ A) (ctx : AddressContext) (letter : UInt8)
    (h : rest.Over A) : (readCommand ctx letter rest).Yields fun read => read.1.Over A := by
  unfold readCommand
  repeat' refine .ite (fun _ => ?_) fun _ => ?_
  -- Only a substitution and a global command have a text in them.
  all_goals first
    | exact .pure trivial
    | exact .throw _
    | exact (yields_readSubstitution h).bind fun _ hcommand => .pure hcommand
    | exact (yields_readGlobal hA _ h).bind fun _ hcommand => .pure hcommand
    | exact (yields_trivial _).seq fun _ => .pure trivial

end Reading

/-- **Commands have no byte that is not in their line**, except for a command that is carried out
when none is given.

**Proof sketch.** What is left behind the addresses is a part of the line, and the command is read
from that; neither the check for addresses nor the print suffix changes the command. -/
theorem CommandLine.yields_read (hA : notNewline ⊆ A) (ctx : AddressContext) {text : Line}
    (h : text.Over A) : (CommandLine.read ctx text).Yields fun line => line.command.Over A := by
  refine (yields_trivial _).seq fun addresses => ?_
  have hrest := h.of_subset (subset_readAddresses text)
  split
  · exact .pure trivial
  · rename_i letter rest hread
    rw [hread] at hrest
    refine (yields_readCommand hA ctx letter (hrest.of_subset fun b hb =>
      List.mem_cons_of_mem _ hb)).bind fun read hcommand => ?_
    obtain ⟨command, mode, rest⟩ := read
    refine .ite (fun _ => .throw _) fun _ => ?_
    exact .bind (.ofResult _) fun _ _ => .pure hcommand

end LineEditor
