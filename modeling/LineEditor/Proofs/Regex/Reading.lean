import LineEditor.Proofs.Regex.Pieces

set_option autoImplicit false
set_option relaxedAutoImplicit false

/-!
# Patterns are read by the grammar

A text is a pattern exactly if it can be read, and then it is read as the program that it stands
for. Sequences are followed by induction: over the derivation to show that they are read, and over
the number of bytes that are left to show that whatever is read has a derivation. The end anchor is
decided before anything is read, by the backslashes before the last byte; this agrees with reading
from the left since a sequence ends in an even number of them.

## Main results

* `LineEditor.Regex.IsSequence.reads`: a sequence is read.
* `LineEditor.Regex.isSequence_of_reads`: whatever is read is a sequence.
* `LineEditor.Regex.Program.ofPattern_eq_ok_iff`: a text can be read exactly if it is a pattern.
-/

namespace LineEditor.Regex

/-! ## Heads of sequences -/

section Heads

variable {first : Bool} {source rest : Line} {test : ByteTest}

/-- A bracket expression is an atom. -/
theorem readHead_bracket {s : ByteSet} (h : Reads (readBracket source) s rest) :
    ∃ hlt, readHead (ascii '[' :: source) = .ok (.test (.set s) rest hlt) := by
  obtain ⟨p, hp, rfl, rfl⟩ := h
  rw [readHead, if_neg (by decide), if_neg (by decide), if_pos rfl, hp]
  exact ⟨_, rfl⟩

/-- Atoms are read.

**Proof sketch.** By the kinds of atoms. The reader looks at the first byte, and at the second one
behind a backslash. -/
theorem IsAtom.readHead {text : Line} (h : IsAtom first text test) (rest : Line) :
    ∃ hlt, readHead (text ++ rest) = .ok (.test test rest hlt) := by
  cases h with
  | byte hescape hany hbracket _ =>
    rw [List.singleton_append, Regex.readHead, if_neg hescape, if_neg hany, if_neg hbracket]
    exact ⟨_, rfl⟩
  | @escape b hb =>
    simp only [List.mem_cons, List.not_mem_nil, or_false, not_or] at hb
    obtain ⟨hopening, hclosing, hleft, hright, hplus⟩ := hb
    have hescape : readEscape (b :: rest) = .ok (.test (.literal b) rest (by simp)) := by
      rw [readEscape, if_neg hopening, if_neg hclosing, if_neg (not_or.2 ⟨hleft, hplus⟩),
        if_neg hright]
    refine ⟨Nat.lt_succ_of_lt (Nat.lt_succ_self _), ?_⟩
    simp only [List.cons_append, List.nil_append, Regex.readHead, if_true, hescape]
  | any =>
    rw [List.singleton_append, Regex.readHead, if_neg (by decide), if_pos rfl]
    exact ⟨_, rfl⟩
  | @bracket text s hs => exact readHead_bracket (reads_readBracket_iff.2 ⟨text, rfl, hs⟩)

/-- Behind a backslash stands a parenthesis, which opens or closes a group, or a byte that is
escaped.

**Proof sketch.** The reader refuses the others, which are the braces and the plus. -/
theorem cases_of_readEscape {head : Head source} (h : readEscape source = .ok head) :
    (∃ rest hlt, source = ascii ')' :: rest ∧ head = .closing rest hlt) ∨
    (∃ rest hlt, source = ascii '(' :: rest ∧ head = .opening rest hlt) ∨
    ∃ b rest hlt, source = b :: rest ∧ head = .test (.literal b) rest hlt ∧
      b ∉ [ascii '(', ascii ')', ascii '\x7b', ascii '\x7d', ascii '+'] := by
  rcases source with _ | ⟨b, source⟩
  · cases h
  · rw [readEscape] at h
    split at h
    · rename_i hb
      cases h
      exact .inr (.inl ⟨source, _, by rw [hb], rfl⟩)
    · split at h
      · rename_i hb
        cases h
        exact .inl ⟨source, _, by rw [hb], rfl⟩
      · split at h
        · cases h
        · split at h
          · cases h
          · cases h
            refine .inr (.inr ⟨b, source, _, rfl, rfl, ?_⟩)
            simp_all

/-- What stands where an atom is expected: nothing, the end or the start of a group, or an atom.

**Proof sketch.** By the first byte: a backslash is read by `cases_of_readEscape`, a bracket by the
grammar of bracket expressions, and any other byte is an atom by itself. A star is one only where it
may come first. -/
theorem cases_of_readHead {head : Head source} (h : readHead source = .ok head)
    (hstar : source.head? = some (ascii '*') → first = true) :
    (source = [] ∧ head = .finished) ∨
    (∃ rest hlt, source = ascii '\\' :: ascii ')' :: rest ∧ head = .closing rest hlt) ∨
    (∃ rest hlt, source = ascii '\\' :: ascii '(' :: rest ∧ head = .opening rest hlt) ∨
    ∃ atom test rest hlt, source = atom ++ rest ∧ head = .test test rest hlt ∧
      IsAtom first atom test := by
  rcases source with _ | ⟨b, source⟩
  · cases h
    exact .inl ⟨rfl, rfl⟩
  · right
    rw [readHead] at h
    split at h
    · rename_i hb
      obtain rfl := hb
      cases hread : readEscape source with
      | error e => rw [hread] at h; cases h
      | ok escape =>
        rw [hread] at h
        obtain ⟨rest, hlt, rfl, rfl⟩ | ⟨rest, hlt, rfl, rfl⟩ | ⟨b, rest, hlt, rfl, rfl, hb⟩ :=
          cases_of_readEscape hread
        · cases h
          exact .inl ⟨rest, _, rfl, rfl⟩
        · cases h
          exact .inr (.inl ⟨rest, _, rfl, rfl⟩)
        · cases h
          exact .inr (.inr ⟨[ascii '\\', b], _, rest, _, rfl, rfl, .escape hb⟩)
    · rename_i hescape
      refine .inr (.inr ?_)
      split at h
      · rename_i hb
        cases h
        exact ⟨[b], _, source, _, rfl, rfl, hb ▸ .any⟩
      · rename_i hany
        split at h
        · rename_i hb
          obtain rfl := hb
          cases hread : readBracket source with
          | error e => rw [hread] at h; cases h
          | ok p =>
            rw [hread] at h
            cases h
            obtain ⟨text, htext, hs⟩ := reads_readBracket_iff.1 ⟨p, hread, rfl, rfl⟩
            exact ⟨ascii '[' :: text, _, p.rest, _, congrArg _ htext, rfl, .bracket hs⟩
        · rename_i hbracket
          cases h
          refine ⟨[b], _, source, _, rfl, rfl, .byte hescape hany hbracket fun hb => hstar ?_⟩
          rw [hb]
          rfl

end Heads

/-! ## Sequences -/

section Sequences

variable {first nested : Bool} {groups groups' : Nat} {source text rest : Line} {e : Expression}

/-- A sequence that is not nested ends where the text does. -/
theorem reads_readSequence_nil_iff :
    Reads (readSequence nested groups []) (e, groups') rest ↔
      nested = false ∧ (.empty, groups) = (e, groups') ∧ [] = rest := by
  rw [readSequence, readHead]
  cases nested <;> simp

/-- One that is nested ends where its group is closed. -/
theorem reads_readSequence_closing_iff :
    Reads (readSequence nested groups (ascii '\\' :: ascii ')' :: source)) (e, groups') rest ↔
      nested = true ∧ (.empty, groups) = (e, groups') ∧ source = rest := by
  have hhead : readHead (ascii '\\' :: ascii ')' :: source) =
      .ok (.closing source (Nat.lt_succ_of_lt (Nat.lt_succ_self _))) := by
    rw [readHead, if_pos rfl, readEscape, if_neg (by decide), if_pos rfl]
  rw [readSequence, hhead]
  cases nested <;> simp

/-- A sequence that begins with a test goes on with its quantifier and what follows.

**Proof sketch.** The test has been read by hypothesis, and each of the two other readers fails or
leaves a rest for the next one. -/
theorem reads_readSequence_single_iff {test : ByteTest} {afterTest : Line}
    (h : ∃ hlt, readHead source = .ok (.test test afterTest hlt)) :
    Reads (readSequence nested groups source) (e, groups') rest ↔
      ∃ bounds afterBounds next, Reads (readQuantifier afterTest) bounds afterBounds ∧
        Reads (readSequence nested groups afterBounds) (next, groups') rest ∧
        .single test bounds next = e := by
  obtain ⟨hlt, hhead⟩ := h
  rw [readSequence, hhead]
  dsimp only
  cases readQuantifier afterTest with
  | error err => simp
  | ok p =>
    obtain ⟨bounds, afterBounds, hle⟩ := p
    cases hnext : readSequence nested groups afterBounds with
    | error err => simp [and_assoc, hnext]
    | ok q =>
      obtain ⟨⟨next, groups''⟩, rest', hle'⟩ := q
      simpa [and_assoc, hnext] using and_rotate

/-- One that begins with a group goes on with its body, its quantifier and what follows, if there
may be another group.

**Proof sketch.** In the same way as for a test, but with three readers. -/
theorem reads_readSequence_group_iff :
    Reads (readSequence nested groups (ascii '\\' :: ascii '(' :: source)) (e, groups') rest ↔
      ∃ (hgroups : groups < maxGroups) (body next : Expression) (bounds : Bounds) (groups₁ : Nat)
        (afterBody afterBounds : Line),
        Reads (readSequence true (groups + 1) source) (body, groups₁) afterBody ∧
        Reads (readQuantifier afterBody) bounds afterBounds ∧
        Reads (readSequence nested groups₁ afterBounds) (next, groups') rest ∧
        .group ⟨groups, hgroups⟩ body bounds next = e := by
  have hhead : readHead (ascii '\\' :: ascii '(' :: source) =
      .ok (.opening source (Nat.lt_succ_of_lt (Nat.lt_succ_self _))) := by
    rw [readHead, if_pos rfl, readEscape, if_pos rfl]
  rw [readSequence, hhead]
  dsimp only
  by_cases hgroups : groups < maxGroups
  · rw [dif_pos hgroups]
    cases hbody : readSequence true (groups + 1) source with
    | error err => simp
    | ok p =>
      obtain ⟨⟨body, groups₁⟩, afterBody, hle⟩ := p
      cases hquantifier : readQuantifier afterBody with
      | error err => simp [and_assoc, hquantifier]
      | ok q =>
        obtain ⟨bounds, afterBounds, hle'⟩ := q
        cases hnext : readSequence nested groups₁ afterBounds with
        | error err => simp [and_assoc, hquantifier, hnext]
        | ok r =>
          obtain ⟨⟨next, groups₂⟩, rest', hle''⟩ := r
          simpa [and_assoc, hquantifier, hnext, hgroups] using and_rotate
  · rw [dif_neg hgroups]
    refine iff_of_false not_reads_error ?_
    rintro ⟨h, -⟩
    exact hgroups h

/-- What closes a sequence: the end of a group, or nothing. -/
def closed (nested : Bool) (rest : Line) : Line :=
  if nested then ascii '\\' :: ascii ')' :: rest else rest

/-- No quantifier follows an atom but its own: the next atom starts with none.

**Proof sketch.** By what the next piece begins with: an escape of an atom or a group is none of a
quantifier, and a star that comes first among others is no atom. -/
theorem IsSequence.atQuantifier_eq_false (h : IsSequence false groups text e groups')
    (hrest : nested = false → rest = []) : atQuantifier (text ++ closed nested rest) = false := by
  cases h with
  | empty =>
    cases nested with
    | false => rw [hrest rfl]; rfl
    | true => rfl
  | single hatom =>
    cases hatom with
    | byte hescape _ _ hstar =>
      have hstar' := mt hstar Bool.false_ne_true
      simp [atQuantifier, hescape, hstar']
    | escape hb =>
      have hback : ascii '\\' ≠ ascii '*' := by decide
      simp only [List.mem_cons, not_or] at hb
      simp [atQuantifier, hback, hb]
    | any => rfl
    | bracket => rfl
  | group => rfl

/-- **Sequences are read.**

**Proof sketch.** By induction on the sequence. Each piece is read with its quantifier in front of
what follows, where no further quantifier stands, and what follows is read by the induction. -/
theorem IsSequence.reads (h : IsSequence first groups text e groups')
    (hrest : nested = false → rest = []) :
    Reads (readSequence nested groups (text ++ closed nested rest)) (e, groups') rest := by
  induction h generalizing nested rest with
  | empty =>
    cases nested with
    | false =>
      obtain rfl := hrest rfl
      exact reads_readSequence_nil_iff.2 ⟨rfl, rfl, rfl⟩
    | true => exact reads_readSequence_closing_iff.2 ⟨rfl, rfl, rfl⟩
  | @single _ _ _ atom quantifier text _ bounds next hatom hquantifier hnext ih =>
    rw [List.append_assoc, List.append_assoc]
    refine (reads_readSequence_single_iff (hatom.readHead _)).2 ⟨bounds, _, next, ?_, ih hrest, rfl⟩
    exact reads_readQuantifier_iff.2
      ⟨hnext.atQuantifier_eq_false hrest, quantifier, rfl, hquantifier⟩
  | @group _ _ groups₁ _ inside quantifier text body next bounds hgroups hbody hquantifier hnext
      ihbody ihnext =>
    have happend : enclosed inside ++ (quantifier ++ text) ++ closed nested rest =
        ascii '\\' :: ascii '(' ::
          (inside ++ closed true (quantifier ++ (text ++ closed nested rest))) := by
      simp [enclosed, closed]
    rw [happend]
    refine reads_readSequence_group_iff.2 ⟨hgroups, body, next, bounds, groups₁, _, _,
      ihbody (absurd · (by decide)), ?_, ihnext hrest, rfl⟩
    exact reads_readQuantifier_iff.2
      ⟨hnext.atQuantifier_eq_false hrest, quantifier, rfl, hquantifier⟩

/-- **Whatever is read is a sequence.**

**Proof sketch.** By strong induction on the length of the text. What is read first is one of the
four cases of `cases_of_readHead`: the end of the text, the end of the group, a group, whose body
and rest are shorter, or an atom, whose rest is shorter. -/
theorem isSequence_of_reads (h : Reads (readSequence nested groups source) (e, groups') rest)
    (hfirst : atQuantifier source = true → first = true) :
    (nested = false → rest = []) ∧
      ∃ text, source = text ++ closed nested rest ∧ IsSequence first groups text e groups' := by
  -- Every atom and every group leaves fewer bytes to be read.
  induction hlength : source.length using Nat.strongRecOn
    generalizing first nested groups groups' source rest e with
  | ind n ih =>
    obtain ⟨p, hp, -, -⟩ := id h
    rw [readSequence] at hp
    cases hhead : readHead source with
    | error err =>
      rw [hhead] at hp
      cases hp
    | ok head =>
      have hstar : source.head? = some (ascii '*') → first = true := fun hhead => hfirst <| by
        obtain ⟨source, rfl⟩ := List.head?_eq_some_iff.1 hhead
        rfl
      obtain ⟨rfl, -⟩ | ⟨source, _, rfl, -⟩ | ⟨source, _, rfl, -⟩ |
          ⟨atom, test, afterAtom, hlt, rfl, rfl, hatom⟩ := cases_of_readHead hhead hstar
      · obtain ⟨rfl, hvalue, rfl⟩ := reads_readSequence_nil_iff.1 h
        cases hvalue
        exact ⟨fun _ => rfl, [], rfl, .empty⟩
      · obtain ⟨rfl, hvalue, rfl⟩ := reads_readSequence_closing_iff.1 h
        cases hvalue
        exact ⟨nofun, [], rfl, .empty⟩
      · obtain ⟨hgroups, body, next, bounds, groups₁, afterBody, afterBounds, hbody, hquantifier,
          hnext, rfl⟩ := reads_readSequence_group_iff.1 h
        simp only [List.length_cons] at hlength
        obtain ⟨-, inside, rfl, hinside⟩ := ih source.length (by omega) hbody (fun _ => rfl) rfl
        obtain ⟨hat, quantifier, rfl, hquantified⟩ := reads_readQuantifier_iff.1 hquantifier
        have hshorter : afterBounds.length < n := by
          simp only [closed, if_true, List.length_append, List.length_cons] at hlength
          omega
        obtain ⟨hrest, text, rfl, htext⟩ := ih _ hshorter hnext (by simp [hat]) rfl
        refine ⟨hrest, enclosed inside ++ (quantifier ++ text), by simp [enclosed, closed], ?_⟩
        exact .group hgroups hinside hquantified htext
      · obtain ⟨bounds, afterBounds, next, hquantifier, hnext, rfl⟩ :=
          (reads_readSequence_single_iff ⟨hlt, hhead⟩).1 h
        obtain ⟨hat, quantifier, rfl, hquantified⟩ := reads_readQuantifier_iff.1 hquantifier
        have hshorter : afterBounds.length < n := by
          simp only [List.length_append] at hlt hlength
          omega
        obtain ⟨hrest, text, rfl, htext⟩ := ih _ hshorter hnext (by simp [hat]) rfl
        refine ⟨hrest, atom ++ (quantifier ++ text), by simp, ?_⟩
        exact .single hatom hquantified htext

end Sequences

/-! ## Whole patterns -/

/-- A sequence on its own is read up to the end. -/
theorem reads_readSequence_iff {source : Line} {e : Expression} {groups : Nat} {rest : Line} :
    Reads (readSequence false 0 source) (e, groups) rest ↔
      rest = [] ∧ IsSequence true 0 source e groups := by
  constructor
  · intro h
    obtain ⟨hrest, text, rfl, htext⟩ := isSequence_of_reads h fun _ => rfl
    obtain rfl := hrest rfl
    rw [closed, if_neg Bool.false_ne_true, List.append_nil]
    exact ⟨rfl, htext⟩
  · rintro ⟨rfl, h⟩
    have hreads : Reads (readSequence false 0 (source ++ closed false [])) (e, groups) [] :=
      h.reads fun _ => rfl
    rwa [closed, if_neg Bool.false_ne_true, List.append_nil] at hreads

variable {startAnchor : Bool} {pattern : Line} {program : Program}

/-- What is read without an end anchor, and what is read before one.

**Proof sketch.** The sequence behind the start anchor is read exactly if the grammar derives it,
and what is read is the same. -/
theorem Program.ofUnanchored_eq_ok_steps :
    Program.ofUnanchored startAnchor pattern = .ok program ↔
      ∃ body groups, IsSequence true 0
          (if endsWithAnchor pattern then pattern.dropLast else pattern) body groups ∧
        program = ⟨body, startAnchor, endsWithAnchor pattern, groups⟩ := by
  unfold Program.ofUnanchored
  dsimp only
  cases hread : readSequence false 0
      (if endsWithAnchor pattern then pattern.dropLast else pattern) with
  | error e =>
    refine iff_of_false nofun ?_
    rintro ⟨body, groups, h, -⟩
    obtain ⟨p, hp, -⟩ := reads_readSequence_iff.2 ⟨rfl, h⟩
    rw [hread] at hp
    cases hp
  | ok p =>
    obtain ⟨⟨body, groups⟩, rest, hle⟩ := p
    constructor
    · rintro ⟨⟩
      exact ⟨body, groups, (reads_readSequence_iff.1 ⟨_, hread, rfl, rfl⟩).2, rfl⟩
    · rintro ⟨body', groups', h, rfl⟩
      obtain ⟨q, hq, hvalue, -⟩ := reads_readSequence_iff.2 ⟨rfl, h⟩
      rw [hread] at hq
      cases hq
      cases hvalue
      rfl

/-- **The last byte is an end anchor** exactly if it is a `$` that no escape takes.

**Proof sketch.** The reader takes a `$` for an anchor if there is an even number of backslashes
before it. Before an anchor there is such a number, since a sequence ends there. Before a `$` that
an escape takes there is the backslash of this escape and then the end of a sequence, so that the
number is odd; and if it is odd, this escape can be taken off the sequence that has been read. -/
theorem Program.ofUnanchored_eq_ok_iff :
    Program.ofUnanchored startAnchor pattern = .ok program ↔
      IsUnanchored startAnchor pattern program := by
  rw [Program.ofUnanchored_eq_ok_steps]
  constructor
  · rintro ⟨body, groups, h, rfl⟩
    cases hend : endsWithAnchor pattern with
    | true =>
      obtain rfl | ⟨front, b, rfl⟩ := List.eq_nil_or_concat' pattern
      · cases hend
      · obtain ⟨rfl, -⟩ := (endsWithAnchor_append_singleton front b).1 hend
        rw [hend, if_pos rfl, List.dropLast_concat] at h
        exact .dollar h
    | false =>
      rw [hend, if_neg Bool.false_ne_true] at h
      refine .plain h fun hlast => ?_
      obtain ⟨front, rfl⟩ := List.getLast?_eq_some_iff.1 hlast
      have hodd : ¬EndsEven front := fun heven => by
        rw [(endsWithAnchor_append_singleton front _).2 ⟨rfl, heven⟩] at hend
        cases hend
      obtain ⟨front, rfl, heven⟩ := EndsEven.exists_of_not hodd
      obtain ⟨body', groups', hfront⟩ := h.of_append_escape (List.append_assoc ..) heven
      exact ⟨front, body', groups', List.append_assoc .., hfront⟩
  · intro h
    cases h with
    | @dollar text body groups h =>
      have hend := (endsWithAnchor_append_singleton text (ascii '$')).2 ⟨rfl, h.endsEven⟩
      refine ⟨body, groups, ?_, by rw [hend]⟩
      rwa [hend, if_pos rfl, List.dropLast_concat]
    | @plain _ body groups h hdollar =>
      have hend : endsWithAnchor pattern = false := by
        rw [Bool.eq_false_iff]
        intro hend
        obtain rfl | ⟨front, b, rfl⟩ := List.eq_nil_or_concat' pattern
        · cases hend
        · obtain ⟨rfl, heven⟩ := (endsWithAnchor_append_singleton front b).1 hend
          obtain ⟨before, _, _, hbefore, hsequence⟩ := hdollar List.getLast?_concat
          have happend : front ++ [ascii '$'] = (before ++ [ascii '\\']) ++ [ascii '$'] := by
            simpa using hbefore
          obtain rfl := List.append_cancel_right happend
          exact hsequence.endsEven.not_backslash heven
      refine ⟨body, groups, ?_, by rw [hend]⟩
      rwa [hend, if_neg Bool.false_ne_true]

/-- Without a `^` in front there is no start anchor. -/
theorem Program.ofPattern_eq_ofUnanchored (hcaret : pattern.head? ≠ some (ascii '^')) :
    Program.ofPattern pattern = Program.ofUnanchored false pattern := by
  rcases pattern with _ | ⟨b, text⟩
  · rfl
  · exact if_neg (by simpa using hcaret)

/-- **A text can be read exactly if it is a pattern**, and then it is read as the program that the
pattern stands for.

**Proof sketch.** The start anchor is taken off if the text begins with it, and what is left is an
unanchored pattern, by `ofUnanchored_eq_ok_iff`. -/
theorem Program.ofPattern_eq_ok_iff :
    Program.ofPattern pattern = .ok program ↔ IsPattern pattern program := by
  by_cases hcaret : pattern.head? = some (ascii '^')
  · obtain ⟨text, rfl⟩ := List.head?_eq_some_iff.1 hcaret
    rw [Program.ofPattern, if_pos rfl, Program.ofUnanchored_eq_ok_iff]
    constructor
    · exact .caret
    · intro h
      cases h with
      | caret h => exact h
      | plain hne => exact absurd hcaret hne
  · have hread : Program.ofPattern pattern = Program.ofUnanchored false pattern := by
      rcases pattern with _ | ⟨b, text⟩
      · rfl
      · exact if_neg (by simpa using hcaret)
    rw [hread, Program.ofUnanchored_eq_ok_iff]
    constructor
    · exact .plain hcaret
    · intro h
      cases h with
      | caret => exact absurd rfl hcaret
      | plain _ h => exact h

end LineEditor.Regex
