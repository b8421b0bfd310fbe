import LineEditor.Proofs.Regex.Captures
import LineEditor.Proofs.Regex.Enclosing
import LineEditor.Proofs.Regex.Replacing

set_option autoImplicit false
set_option relaxedAutoImplicit false

/-!
# Replacing a match by itself

A pattern that is put between `\(` and `\)` is a single group, which captures the whole match, so
that nothing changes if each match is replaced by `\1`. What stands between the two may be read
otherwise there: a `^` or a `$` is no anchor any more, and a star behind a `^` is a quantifier. But
the `\)` at the end still closes the first group, since a pattern closes every group that it opens,
and whether it does depends on neither anchors nor quantifiers.

## Main definitions

* `LineEditor.Regex.Balanced`: texts that close every group that they open.

## Main results

* `LineEditor.Regex.IsPattern.balanced`: patterns do.
* `LineEditor.Regex.Balanced.eq_of_append_closing`: such a text is known by where it is closed.
* `LineEditor.Regex.Program.exists_body_of_enclosed`: a pattern between `\(` and `\)` is one group.
* `LineEditor.Regex.replace?_enclosed`: replacing each match by the group changes nothing.
-/

namespace LineEditor.Regex

/-! ## Balanced texts -/

/-- A text that closes every group that it opens, and no other one. Bytes between brackets open and
close nothing. -/
inductive Balanced : Line → Prop where
  /-- The empty text. -/
  | nil : Balanced []
  /-- A byte that begins neither an escape nor a bracket expression. -/
  | byte {b : UInt8} {text : Line} (hescape : b ≠ ascii '\\') (hbracket : b ≠ ascii '[')
      (h : Balanced text) : Balanced (b :: text)
  /-- An escape that neither opens nor closes a group. -/
  | escape {b : UInt8} {text : Line} (hopening : b ≠ ascii '(') (hclosing : b ≠ ascii ')')
      (h : Balanced text) : Balanced (ascii '\\' :: b :: text)
  /-- A bracket expression. -/
  | bracket {inside text : Line} {s : ByteSet} (hinside : IsBracket inside s)
      (h : Balanced text) : Balanced (ascii '[' :: (inside ++ text))
  /-- A group. -/
  | group {inside text : Line} (hinside : Balanced inside) (h : Balanced text) :
      Balanced (enclosed inside ++ text)

namespace Balanced

variable {xs ys : Line}

/-- Balanced texts can be put one after the other.

**Proof sketch.** By induction on the first one. -/
theorem append (h : Balanced xs) (h' : Balanced ys) : Balanced (xs ++ ys) := by
  induction h with
  | nil => exact h'
  | byte hescape hbracket _ ih => exact .byte hescape hbracket ih
  | escape hopening hclosing _ ih => exact .escape hopening hclosing ih
  | bracket hinside _ ih =>
    rw [List.cons_append, List.append_assoc]
    exact .bracket hinside ih
  | group hinside _ _ ih =>
    rw [List.append_assoc]
    exact .group hinside ih

/-- A text without escapes and brackets is balanced. -/
theorem of_forall_ne (h : ∀ b ∈ xs, b ≠ ascii '\\' ∧ b ≠ ascii '[') : Balanced xs := by
  induction xs with
  | nil => exact .nil
  | cons b xs ih =>
    obtain ⟨⟨hescape, hbracket⟩, hxs⟩ := List.forall_mem_cons.1 h
    exact .byte hescape hbracket (ih hxs)

/-- A byte that begins none of these is. -/
theorem singleton {b : UInt8} (hescape : b ≠ ascii '\\') (hbracket : b ≠ ascii '[') :
    Balanced [b] := .byte hescape hbracket .nil

/-- Stars are. -/
theorem replicate_star (n : Nat) : Balanced (List.replicate n (ascii '*')) :=
  of_forall_ne fun b hb => by
    rw [List.eq_of_mem_replicate hb]
    decide

end Balanced

/-- A numeral is balanced. -/
theorem IsNumeral.balanced {digits : Line} {n : Nat} (h : IsNumeral digits n) : Balanced digits :=
  .of_forall_ne fun b hb => by
    have hdigit := h.isDigit b hb
    constructor <;> rintro rfl <;> revert hdigit <;> decide

/-- An interval is. -/
theorem IsInterval.balanced {text : Line} {bounds : Bounds} (h : IsInterval text bounds) :
    Balanced text := by
  have hcomma : Balanced [ascii ','] := .singleton (by decide) (by decide)
  cases h with
  | exactly h => exact h.balanced
  | atLeast h => exact h.balanced.append hcomma
  | between h h' => exact h.balanced.append (hcomma.append h'.balanced)

/-- So is a quantifier. -/
theorem IsQuantifier.balanced {text : Line} {bounds : Bounds} (h : IsQuantifier text bounds) :
    Balanced text := by
  cases h with
  | absent => exact .nil
  | star more => exact .byte (by decide) (by decide) (.replicate_star more)
  | plus => exact .escape (by decide) (by decide) .nil
  | interval h more =>
    refine .escape (by decide) (by decide) (h.balanced.append ?_)
    exact .escape (by decide) (by decide) (.replicate_star more)

/-- So is an atom. -/
theorem IsAtom.balanced {first : Bool} {text : Line} {test : ByteTest}
    (h : IsAtom first text test) : Balanced text := by
  cases h with
  | byte hescape _ hbracket => exact .singleton hescape hbracket
  | escape h =>
    simp only [List.mem_cons, not_or] at h
    exact .escape h.1 h.2.1 .nil
  | any => exact .singleton (by decide) (by decide)
  | @bracket text s h =>
    rw [← List.append_nil text]
    exact .bracket h .nil

/-- So is a sequence, by induction on it: a group is closed where its text is. -/
theorem IsSequence.balanced {first : Bool} {groups groups' : Nat} {text : Line} {e : Expression}
    (h : IsSequence first groups text e groups') : Balanced text := by
  induction h with
  | empty => exact .nil
  | single hatom hquantifier _ ih => exact hatom.balanced.append (hquantifier.balanced.append ih)
  | group _ _ hquantifier _ ihbody ihnext =>
    exact .group ihbody (hquantifier.balanced.append ihnext)

/-- So is a pattern behind its start anchor. -/
theorem IsUnanchored.balanced {startAnchor : Bool} {text : Line} {program : Program}
    (h : IsUnanchored startAnchor text program) : Balanced text := by
  have hdollar : Balanced [ascii '$'] := .singleton (by decide) (by decide)
  cases h with
  | dollar h => exact h.balanced.append hdollar
  | plain h => exact h.balanced

/-- **A pattern closes every group that it opens**, its anchors taken as bytes. -/
theorem IsPattern.balanced {pattern : Line} {program : Program} (h : IsPattern pattern program) :
    Balanced pattern := by
  cases h with
  | caret h => exact .byte (by decide) (by decide) h.balanced
  | plain _ h => exact h.balanced

/-! ## Where a balanced text is closed -/

/-- Two bracket expressions at the front of one text are the same. -/
theorem IsBracket.unique {xs ys us vs : Line} {s s' : ByteSet} (h : IsBracket xs s)
    (h' : IsBracket ys s') (heq : xs ++ us = ys ++ vs) : xs = ys ∧ us = vs := by
  obtain ⟨p, hp, -, hus⟩ : Reads (readBracket (xs ++ us)) s us :=
    reads_readBracket_iff.2 ⟨xs, rfl, h⟩
  obtain ⟨p', hp', -, hvs⟩ : Reads (readBracket (xs ++ us)) s' vs :=
    reads_readBracket_iff.2 ⟨ys, heq, h'⟩
  obtain rfl := Except.ok.inj (hp.symm.trans hp')
  obtain rfl := hus.symm.trans hvs
  exact ⟨List.append_cancel_right heq, rfl⟩

/-- **A balanced text ends at the first `\)` that closes none of its groups.**

**Proof sketch.** Induction on the first text. The front of the second one must be of the same kind,
since the first one or two bytes tell which it is; a bracket expression is the same because it can
be read in one way only, and so is what stands in a group, by induction. -/
theorem Balanced.eq_of_append_closing {xs ys us vs : Line} (h : Balanced xs) (h' : Balanced ys)
    (heq : xs ++ ascii '\\' :: ascii ')' :: us = ys ++ ascii '\\' :: ascii ')' :: vs) :
    xs = ys ∧ us = vs := by
  -- The bytes at the front tell the rules apart.
  have hescape : ascii '\\' ≠ ascii '[' := by decide
  have hclosing : ascii ')' ≠ ascii '(' := by decide
  induction h generalizing ys us vs with
  | nil => cases h' <;> simp_all [enclosed]
  | byte _ _ _ ih =>
    cases h' with
    | byte _ _ h' =>
      obtain ⟨rfl, htext⟩ := List.cons.inj heq
      obtain ⟨rfl, rfl⟩ := ih h' htext
      exact ⟨rfl, rfl⟩
    | _ => simp_all [enclosed]
  | escape _ _ _ ih =>
    cases h' with
    | escape _ _ h' =>
      obtain ⟨rfl, htext⟩ := List.cons.inj (List.cons.inj heq).2
      obtain ⟨rfl, rfl⟩ := ih h' htext
      exact ⟨rfl, rfl⟩
    | _ => simp_all [enclosed]
  | bracket hinside _ ih =>
    cases h' with
    | bracket hinside' h' =>
      obtain ⟨rfl, htext⟩ := hinside.unique hinside' (by simpa using heq)
      obtain ⟨rfl, rfl⟩ := ih h' htext
      exact ⟨rfl, rfl⟩
    | _ => simp_all [enclosed]
  | group _ _ ihinside ih =>
    cases h' with
    | group hinside' h' =>
      obtain ⟨rfl, htext⟩ := ihinside hinside' (by simpa [enclosed] using heq)
      obtain ⟨rfl, rfl⟩ := ih h' htext
      exact ⟨rfl, rfl⟩
    | _ => simp_all [enclosed]

/-! ## A pattern in a group -/

/-- The empty sequence is the empty expression. -/
theorem IsSequence.eq_empty_of_nil {first : Bool} {groups groups' : Nat} {e : Expression}
    (h : IsSequence first groups [] e groups') : e = .empty := by
  generalize htext : ([] : Line) = text at h
  cases h with
  | empty => rfl
  | single hatom => cases hatom <;> cases htext
  | group => cases htext

/-- The empty quantifier is once. -/
theorem IsQuantifier.eq_once_of_nil {bounds : Bounds} (h : IsQuantifier [] bounds) :
    bounds = .once := by
  cases h
  rfl

/-- A sequence that consists of a balanced text between `\(` and `\)` is one group.

**Proof sketch.** By the first piece of the sequence, which begins with `\(` only if it is a group.
Its text ends where the balanced text ends, by `eq_of_append_closing`, so that neither a quantifier
nor a rest follows. -/
theorem IsSequence.exists_body_of_enclosed {inside : Line} {e : Expression} {groups : Nat}
    (h : IsSequence true 0 (enclosed inside) e groups) (hinside : Balanced inside) :
    ∃ body, e = .group ⟨0, by decide⟩ body .once .empty := by
  generalize htext : enclosed inside = text at h
  cases h with
  | empty => cases htext
  | single hatom =>
    cases hatom with
    | byte hescape => exact absurd (List.cons.inj htext).1.symm hescape
    | escape hb =>
      have hb' := (List.cons.inj (List.cons.inj htext).2).1
      exact absurd (hb' ▸ List.mem_cons_self) hb
    | any => exact absurd (List.cons.inj htext).1 (by decide)
    | bracket => exact absurd (List.cons.inj htext).1 (by decide)
  | @group _ _ _ _ inside' quantifier rest body next bounds _ hbody hquantifier hnext =>
    obtain ⟨rfl, hrest⟩ : inside = inside' ∧ [] = quantifier ++ rest :=
      hinside.eq_of_append_closing hbody.balanced (by simpa [enclosed] using htext)
    obtain ⟨rfl, rfl⟩ := List.append_eq_nil_iff.1 hrest.symm
    obtain rfl := hnext.eq_empty_of_nil
    obtain rfl := hquantifier.eq_once_of_nil
    exact ⟨body, rfl⟩

/-- **A pattern between `\(` and `\)` is one group**, which occurs once, without anchors.

**Proof sketch.** The text begins with neither anchor, and it does not end with one either, since it
ends with `\)`. What is left is a sequence of its own. -/
theorem Program.exists_body_of_enclosed {pattern : Line} {p p' : Program}
    (h : Program.ofPattern pattern = .ok p) (h' : Program.ofPattern (enclosed pattern) = .ok p') :
    ∃ body groupCount,
      p' = ⟨.group ⟨0, by decide⟩ body .once .empty, false, false, groupCount⟩ := by
  have hpattern := (Program.ofPattern_eq_ok_iff.1 h).balanced
  rw [Program.ofPattern_eq_ok_iff] at h'
  generalize htext : enclosed pattern = text at h'
  cases h' with
  | caret => exact absurd (List.cons.inj htext).1 (by decide)
  | plain _ h' =>
    cases h' with
    | dollar =>
      obtain ⟨front, hfront⟩ := suffix_enclosed pattern
      have hlast := (List.append_inj' (hfront.trans htext) rfl).2
      exact absurd (List.head_eq_of_cons_eq hlast) (by decide)
    | plain h' =>
      subst htext
      obtain ⟨body, rfl⟩ := h'.exists_body_of_enclosed hpattern
      exact ⟨body, _, rfl⟩

/-! ## What the group captures -/

variable {text : Array UInt8}

/-- The ways of a single group are those of its body, and the group has captured all of it. -/
theorem Expression.ways_group_once {p : Nat} (hp : p ≤ text.size) (index : Fin maxGroups)
    (body : Expression) (captures : Captures) :
    (Expression.group index body .once .empty).ways text p hp captures =
      (body.ways text p hp captures).map fun w =>
        (w.1, w.2.set index (some ⟨p, w.1 - p⟩) index.isLt) := by
  rw [ways, roundWays_once]
  simp only [followedBy, ways, List.flatMap_map]
  exact List.map_eq_flatMap.symm

/-- A pattern that is a single group captures the whole match with it.

**Proof sketch.** The match is the first way of the group, whose last capture is what the group has
matched; and the match is that part of the text. -/
theorem Program.get_captures_of_search {p : Program} {index : Fin maxGroups} {body : Expression}
    {start : Nat} {m : Match} (hbody : p.body = .group index body .once .empty)
    (h : p.search text start = some m) : m.captures.get index = some m.span := by
  have hm := matchAt?_of_search h
  have hle : m.start ≤ text.size := by
    have hsearch := search_eq p text start
    rw [h] at hsearch
    exact Nat.le_trans hsearch.2.1.start_le hsearch.2.1.stop_le
  rw [matchAt?_eq_find? p hle, hbody, Expression.ways_group_once, Option.map_eq_some_iff] at hm
  obtain ⟨w, hw, hm⟩ := hm
  obtain ⟨v, -, rfl⟩ := List.mem_map.1 (List.mem_of_find?_eq_some hw)
  rw [← hm]
  exact Captures.get_set_self _ index _

/-! ## Replacing matches by themselves -/

/-- The text `\1`, which stands for the first group. -/
def firstGroup : Line := [ascii '\\', ascii '1']

/-- The first group is the whole match. -/
theorem render_firstGroup {m : Match} (h : m.captures.get ⟨0, by decide⟩ = some m.span) :
    render text m firstGroup = m.span.slice text := by
  have hgroup : m.group? 1 = some m.span := by
    rw [Match.group?, if_neg (by decide), Vector.getElem?_eq_getElem (by decide)]
    exact h
  have hparts : parts firstGroup = [.group 1] := by decide
  rw [render, hparts, List.flatMap_singleton, Part.text, hgroup]

/-- If every match is replaced by its own text, then the line stays as it is, whichever matches are
chosen; there is no result if none is.

**Proof sketch.** Each match is replaced by its own text, and rewriting a text by its own texts
leaves it as it is. -/
theorem replace?_eq_self {r : Regex} {line replacement : Line} {found : List Match}
    (hfound : Repeats r line.toArray 0 found)
    (hrender : ∀ m ∈ found, render line.toArray m replacement = m.span.slice line.toArray)
    (occurrence : Occurrence) :
    r.replace? line replacement occurrence =
      if occurrence.chosen 0 (counted none found) = [] then none else some line := by
  have hsublist := (occurrence.chosen_sublist 0 _).trans (counted_sublist none found)
  have hself : rewritten line.toArray (render line.toArray · replacement) 0
      (occurrence.chosen 0 (counted none found)) = line := by
    rw [rewritten_congr fun m hm => hrender m (hsublist.subset hm),
      rewritten_slice (fun m hm => hfound.bounds m (hsublist.subset hm))
        (hfound.pairwise.sublist hsublist)]
    simp
  rw [replace?_eq_of_repeats hfound]
  dsimp only
  rw [hself]

/-- **Replacing each match by what a group around the whole pattern has captured changes nothing.**
For every pattern that can be read alone and between `\(` and `\)`, every line and every choice of
matches, replacing those of the pattern between `\(` and `\)` by `\1` gives the line itself, or no
result. There is no result for the first match or for all of them exactly if nothing matches, and
for the one of a given number exactly if there are not as many matches that count.

**Proof sketch.** The pattern is one group, which captures the whole match
(`get_captures_of_search`), so that every match is replaced by its own text. -/
theorem replace?_enclosed {pattern : Line} {r r' : Regex} (h : Regex.ofPattern pattern = .ok r)
    (h' : Regex.ofPattern (enclosed pattern) = .ok r') (line : Line) :
    let result := r'.replace? line firstGroup
    (∀ occurrence, result occurrence = none ∨ result occurrence = some line) ∧
      (∀ occurrence ∈ [Occurrence.first, .all],
        (result occurrence = none ↔ r'.find? line.toArray 0 = none)) ∧
      ∃ found, Repeats r' line.toArray 0 found ∧
        ∀ n, (result (.nth (n + 1)) = none ↔ (counted none found).length ≤ n) := by
  intro result
  obtain ⟨body, groupCount, hprogram⟩ :=
    Program.exists_body_of_enclosed (program_of_ofPattern h) (program_of_ofPattern h')
  obtain ⟨found, hfound, -⟩ := Repeats.exists_of_le r' line.toArray 0
  have hresult : ∀ occurrence, result occurrence =
      if occurrence.chosen 0 (counted none found) = [] then none else some line := by
    refine replace?_eq_self hfound fun m hm => ?_
    obtain ⟨start, hsearch⟩ := hfound.exists_find? m hm
    exact render_firstGroup (Program.get_captures_of_search (by rw [hprogram]) hsearch)
  have hnone : ∀ occurrence, result occurrence = none ↔
      occurrence.chosen 0 (counted none found) = [] := by
    intro occurrence
    rw [hresult, ite_eq_left_iff, not_imp_comm]
    simp
  have hnth : ∀ n, (Occurrence.nth (n + 1)).chosen 0 (counted none found) = [] ↔
      (counted none found).length ≤ n := by
    intro n
    rw [Occurrence.chosen_nth (Nat.succ_pos n), Option.toList_eq_nil_iff]
    exact List.getElem?_eq_none_iff
  have hempty : counted none found = [] ↔ r'.find? line.toArray 0 = none :=
    counted_none_eq_nil_iff.trans hfound.eq_nil_iff
  refine ⟨fun occurrence => ?_, ?_, found, hfound, fun n => (hnone _).trans (hnth n)⟩
  · rw [hresult]
    exact ite_eq_or_eq ..
  · simp only [List.forall_mem_cons, hnone, ← hempty]
    refine ⟨?_, ?_, nofun⟩
    · rw [Occurrence.chosen_first, hnth 0, Nat.le_zero, List.length_eq_zero_iff]
    · rw [Occurrence.chosen_all]

/-- Any number of `a`. -/
def starredLetter : Expression := .single (.literal (ascii 'a')) ⟨0, none⟩ .empty

/-- In `baab` three matches of `\(a*\)` count: the one before the first `b`, `aa`, and the empty
one at the end. The line is left as it is by each of them and by all, and there is no fourth one. -/
theorem replace?_enclosed_starredLetter :
    let pattern := Line.ofString "a*"
    let line := Line.ofString "baab"
    let r : Regex := ⟨pattern, starredLetter, false, false, 0⟩
    let r' : Regex :=
      ⟨enclosed pattern, .group (0 : Fin 9) starredLetter .once .empty, false, false, 1⟩
    Regex.ofPattern pattern = .ok r ∧ Regex.ofPattern (enclosed pattern) = .ok r' ∧
      (∀ occurrence, r'.replace? line firstGroup occurrence = none ∨
        r'.replace? line firstGroup occurrence = some line) ∧
      r'.replace? line firstGroup .all = some line ∧
      r'.replace? line firstGroup (.nth 3) = some line ∧
      r'.replace? line firstGroup (.nth 4) = none := by
  intro pattern line r r'
  have h : Regex.ofPattern pattern = .ok r := by decide +kernel
  have h' : Regex.ofPattern (enclosed pattern) = .ok r' := by decide +kernel
  exact ⟨h, h', (replace?_enclosed h h' line).1, by decide +kernel, by decide +kernel,
    by decide +kernel⟩

end LineEditor.Regex
