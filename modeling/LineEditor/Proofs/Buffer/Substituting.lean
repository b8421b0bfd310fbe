import LineEditor.Proofs.Buffer.Equations
import LineEditor.Proofs.Regex.Replacing

set_option autoImplicit false
set_option relaxedAutoImplicit false

/-!
# Substituting on the lines of a range

A substitution on a range gives each line in it the text that the line's own old text is turned
into, and fails if there is nothing to replace on any of them. Nothing else about the buffer
changes, but for the current line, and the buffer counts as changed only if a line has got another
text than before: a match that is replaced by itself is no change.

The lines may as well be dealt with one after the other, each being read and written before the
next one is read. What is written then is never read again, so that the outcome is the same.

## Main definitions

* `LineEditor.Substitution.Selects`: there is something to replace on a line.
* `LineEditor.Substitution.applied`: what a line is after a substitution.
* `LineEditor.LineBuffer.substituteInTurn`: the lines of a range are dealt with one by one.
* `LineEditor.LineBuffer.Substituted`: what a substitution makes of a buffer.

## Main results

* `LineEditor.LineBuffer.substituteInTurn_eq`: dealing with one line after the other comes to the
  same.
* `LineEditor.LineBuffer.substituteInTurn_pastEnd`: unless the range goes beyond the end.
* `LineEditor.LineBuffer.substitute_spec`: what a substitution does to a buffer.
-/

namespace LineEditor

/-! ## What is selected on a line -/

/-- Whether a substitution replaces something on a line. -/
def Substitution.replaces (s : Substitution) (line : Line) : Bool := s.apply? line |>.isSome

/-- What a line is after a substitution: it stays if nothing on it is replaced. -/
def Substitution.applied (s : Substitution) (line : Line) : Line := s.apply? line |>.getD line

/-- On a line there is a match that a substitution selects, among those that searching the line
again and again finds and that count. -/
def Substitution.Selects (s : Substitution) (line : Line) : Prop :=
  ∃ found, Regex.Repeats s.regex line.toArray 0 found ∧
    s.occurrence.Available (Regex.counted none found)

/-- Something is replaced exactly if something is selected.

**Proof sketch.** The matches of the line are found, and they are the only ones. What replaces them
is some line exactly if one of the matches that count is chosen, by `chosen_ne_nil_iff`. -/
theorem Substitution.replaces_iff (s : Substitution) (line : Line) :
    s.replaces line ↔ s.Selects line := by
  obtain ⟨found, hfound, -⟩ := Regex.Repeats.exists_of_le s.regex line.toArray 0
  have hselects : s.Selects line ↔ s.occurrence.Available (Regex.counted none found) := by
    constructor
    · rintro ⟨found', hfound', h⟩
      rwa [hfound.unique hfound'] at h
    · exact fun h => ⟨found, hfound, h⟩
  rw [hselects, ← Regex.Occurrence.chosen_ne_nil_iff, Substitution.replaces, Substitution.apply?,
    Regex.replace?_eq_of_repeats hfound]
  dsimp only
  split
  · rename_i hnil
    simp [hnil]
  · rename_i hne
    simp [hne]

namespace Substitution

variable {s : Substitution} {line text : Line}

/-- Nothing is replaced on a line that is left as it is. -/
theorem apply?_eq_none_iff : s.apply? line = none ↔ ¬s.replaces line :=
  Option.not_isSome_iff_eq_none.symm

/-- A line that gets a text has something to replace. -/
theorem replaces_of_some (h : s.apply? line = some text) : s.replaces line := by
  rw [replaces, h]
  rfl

/-- A line on which nothing is replaced stays. -/
theorem applied_of_none (h : s.apply? line = none) : s.applied line = line := by
  rw [applied, h]
  rfl

/-- Any other line is what replaces it. -/
theorem applied_of_some (h : s.apply? line = some text) : s.applied line = text := by
  rw [applied, h]
  rfl

end Substitution

namespace LineBuffer

/-! ## One line after the other -/

/-- Substitutes on `count` lines from an index on, one after the other, when something has been
replaced on `replaced` lines before. Returns on how many lines something has been replaced. -/
def substituteFrom (s : Substitution) :
    (count index replaced : Nat) → BufferAction Nat
  | 0, _, replaced => return replaced
  | count + 1, index, replaced => do
    let b ← get
    match b.line? index with
    | none => throw .invalidAddress
    | some line =>
      match s.apply? line with
      | none => substituteFrom s count (index + 1) replaced
      | some text => do
        replaceLine index text
        substituteFrom s count (index + 1) (replaced + 1)

/-- Substitutes on the lines of a range that is not empty, one after the other. -/
def substituteInTurn (range : LineRange) (s : Substitution) : BufferAction Unit := do
  let replaced ← substituteFrom s range.size range.first 0
  if replaced = 0 then throw .noMatch
  setCurrent range.last

section

variable {s : Substitution} {b b' : LineBuffer} {r : LineRange}

/-- Whether a substitution gives one of some lines another text. -/
def changesAny (s : Substitution) (old : List Line) : Bool :=
  (old.zip (old.map s.apply?)).any fun (line, text) => text.any (· != line)

/-- The buffer when a substitution has been made on some lines from an index on. -/
def withSubstituted (s : Substitution) (index : Nat) (old : List Line) (b : LineBuffer) :
    LineBuffer :=
  { b with
    lines := overwrite index (old.map s.apply?) b.lines
    dirty := b.dirty || changesAny s old }

/-- Lines change if one of them does. -/
theorem changesAny_cons (line : Line) (old : List Line) :
    changesAny s (line :: old) = (s.applied line != line || changesAny s old) := by
  cases htext : s.apply? line with
  | none => simp [changesAny, htext, Substitution.applied_of_none htext]
  | some text => simp [changesAny, htext, Substitution.applied_of_some htext]

/-- A line gets its text, and the buffer is marked as changed if that is another one.

**Proof sketch.** If the text is the old one, setting it changes nothing. -/
theorem replaceLine_of_line? {index : Nat} {line : Line} (hline : b.line? index = some line)
    (text : Line) :
    replaceLine index text b =
      .ok () { b with
        lines := b.lines.setIfInBounds index text
        dirty := b.dirty || text != line } := by
  rw [replaceLine_apply, hline]
  dsimp only
  by_cases hsame : line = text
  · obtain ⟨hlt, hget⟩ := Array.getElem?_eq_some_iff.1 hline
    have hset : b.lines.setIfInBounds index text = b.lines := by
      rw [Array.setIfInBounds_def, dif_pos hlt, ← hsame, ← hget, Array.set_getElem_self]
    rw [if_neg (not_not_intro hsame), hset, hsame, bne_self_eq_false, Bool.or_false]
  · have hne : (text != line) = true := bne_iff_ne.2 (Ne.symm hsame)
    rw [if_pos hsame, hne, Bool.or_true]

/-- Without lines, nothing is substituted. -/
theorem withSubstituted_nil (index : Nat) : b.withSubstituted s index [] = b := by
  rw [withSubstituted, changesAny, List.map_nil, List.zip_nil_left, List.any_nil, Bool.or_false]
  rfl

/-- A line on which nothing is replaced adds nothing to what is made of those behind it. -/
theorem withSubstituted_cons_of_none {index : Nat} {line : Line} {old : List Line}
    (h : s.apply? line = none) :
    b.withSubstituted s (index + 1) old = b.withSubstituted s index (line :: old) := by
  rw [withSubstituted, withSubstituted, changesAny_cons, Substitution.applied_of_none h,
    bne_self_eq_false, Bool.false_or, List.map_cons, h, overwrite]

/-- **What one step adds to.** When a line has got its text, what is made of those behind it
completes what is made of all of them. -/
theorem withSubstituted_cons_of_some {index : Nat} {line text : Line} {old : List Line}
    (h : s.apply? line = some text) :
    withSubstituted s (index + 1) old { b with
        lines := b.lines.setIfInBounds index text
        dirty := b.dirty || text != line } =
      b.withSubstituted s index (line :: old) := by
  rw [withSubstituted, withSubstituted, changesAny_cons, Substitution.applied_of_some h,
    List.map_cons, h, overwrite, Bool.or_assoc]

/-- **The lines that are still to be read are the old ones**, and so each of them becomes what its
own old text is turned into before those behind them are dealt with.

**Proof sketch.** Induction on the lines. What is written to one of them leaves those behind it as
they are. -/
theorem substituteFrom_add {index replaced : Nat} {old rest : List Line}
    (h : b.lines.toList.drop index = old ++ rest) (count : Nat) :
    substituteFrom s (old.length + count) index replaced b =
      substituteFrom s count (index + old.length) (replaced + old.countP s.replaces)
        (b.withSubstituted s index old) := by
  induction old generalizing index replaced b with
  | nil =>
    rw [withSubstituted_nil, List.length_nil, Nat.zero_add]
    rfl
  | cons line old ih =>
    have hline : b.line? index = some line := by
      have hhead := congrArg List.head? h
      rwa [List.head?_drop, Array.getElem?_toList] at hhead
    have hrest : b.lines.toList.drop (index + 1) = old ++ rest := by
      rw [← List.tail_drop, h]
      rfl
    have hindex : index + 1 + old.length = index + (old.length + 1) := by omega
    rw [List.length_cons, Nat.add_right_comm]
    simp only [substituteFrom, EState.bind_apply, EState.get_apply, hline]
    cases htext : s.apply? line with
    | none =>
      dsimp only
      rw [ih hrest, withSubstituted_cons_of_none htext, hindex,
        List.countP_cons_of_neg (Substitution.apply?_eq_none_iff.1 htext)]
    | some text =>
      have hstep : (b.lines.setIfInBounds index text).toList.drop (index + 1) = old ++ rest := by
        rw [Array.toList_setIfInBounds, List.drop_set_of_lt (Nat.lt_succ_self index), hrest]
      simp only [EState.bind_apply, replaceLine_of_line? hline]
      rw [ih hstep, withSubstituted_cons_of_some htext, hindex,
        List.countP_cons_of_pos (Substitution.replaces_of_some htext), Nat.add_assoc,
        Nat.add_comm 1]

/-- Lines that are there are dealt with one after the other, and those on which something is
replaced are counted. -/
theorem substituteFrom_apply {index replaced : Nat} {old rest : List Line}
    (h : b.lines.toList.drop index = old ++ rest) :
    substituteFrom s old.length index replaced b =
      .ok (replaced + old.countP s.replaces) (b.withSubstituted s index old) :=
  substituteFrom_add h 0

/-- Beyond the end of a buffer there is no line to deal with. -/
theorem substituteFrom_of_size_le {index : Nat} (h : b.size ≤ index) (count replaced : Nat) :
    substituteFrom s (count + 1) index replaced b = .error .invalidAddress b := by
  have hline : b.line? index = none := Array.getElem?_eq_none h
  simp only [substituteFrom, EState.bind_apply, EState.get_apply, hline]
  rfl

/-- **A range that goes beyond the end** makes a substitution fail in either way with the same
error. If the range is checked first the buffer is left as it was; if one line is dealt with after
the other, those that are there have been replaced by then.

**Proof sketch.** The lines from the first one of the range to the last one of the buffer are dealt
with first, as many as there are, and the next number is that of no line. What has been written by
then is known from `substituteFrom_add`. -/
theorem substituteInTurn_pastEnd (hr : r.first ≤ r.last) (hlast : b.size ≤ r.last) :
    substitute r s b = .error .invalidAddress b ∧
      substituteInTurn r s b = .error .invalidAddress
        (b.withSubstituted s r.first (b.lines.toList.drop r.first)) := by
  have hsize : b.lines.size = b.size := rfl
  have hlength : (b.lines.toList.drop r.first).length = b.size - r.first := by
    rw [List.length_drop, Array.length_toList, hsize]
  -- At least one number of the range is not that of a line.
  obtain ⟨more, hmore⟩ : ∃ more, r.size = b.size - r.first + (more + 1) :=
    ⟨r.size - (b.size - r.first) - 1, by rw [LineRange.size]; omega⟩
  refine ⟨by rw [substitute_apply, if_pos (.inr hlast)], ?_⟩
  have hend : (b.withSubstituted s r.first (b.lines.toList.drop r.first)).size ≤
      r.first + (b.size - r.first) := by
    show (overwrite _ _ _).size ≤ _
    rw [size_overwrite]
    omega
  rw [substituteInTurn, EState.bind_apply, hmore, ← hlength,
    substituteFrom_add (List.append_nil _).symm, hlength, substituteFrom_of_size_le hend]

/-- If there is nothing to replace, nothing is made of a buffer. -/
theorem withSubstituted_of_none {index : Nat} {old : List Line}
    (h : ∀ line ∈ old, s.apply? line = none) : b.withSubstituted s index old = b := by
  induction old generalizing index with
  | nil => exact withSubstituted_nil index
  | cons line old ih =>
    obtain ⟨hline, hold⟩ := List.forall_mem_cons.1 h
    rw [← withSubstituted_cons_of_none hline, ih hold]

/-- What is left of the lines from a range on begins with the lines of the range. -/
theorem drop_eq_slice_append (hr : r.first ≤ r.last) :
    b.lines.toList.drop r.first =
      (r.slice b.lines).toList ++ b.lines.toList.drop (r.last + 1) := by
  have hend : r.first + (r.last + 1 - r.first) = r.last + 1 := by omega
  rw [LineRange.slice, Array.toList_extract, List.extract_eq_take_drop, ← hend, ← List.drop_drop,
    hend, List.take_append_drop]

/-- What a substitution on a range of lines does, all lines taken together.

**Proof sketch.** The range is there, and the check for a match looks at all of its lines. -/
theorem substitute_apply_of_valid (hr : r.first ≤ r.last) (hlast : r.last < b.size) :
    substitute r s b =
      if ∀ line ∈ (r.slice b.lines).toList, s.apply? line = none then .error .noMatch b
      else .ok () { b.withSubstituted s r.first (r.slice b.lines).toList with
        current := some r.last } := by
  have hrange : ¬(r.last < r.first ∨ b.size ≤ r.last) := by omega
  have hnone : ((r.slice b.lines).toList.map s.apply?).all (·.isNone) = true ↔
      ∀ line ∈ (r.slice b.lines).toList, s.apply? line = none := by
    rw [List.all_map, List.all_eq_true]
    exact forall₂_congr fun line _ => Option.isNone_iff_eq_none
  rw [substitute_apply, if_neg hrange]
  dsimp only
  simp only [hnone]
  rfl

/-- **One line after the other, or all taken together**: a substitution comes to the same on every
range of lines that are there.

**Proof sketch.** What is written, line after line, is known from `substituteFrom_apply`, since a
line is read before it is written and no other one has been changed by then. Both fail if there is
nothing to replace on any of the lines, and both make the last one the current one otherwise. -/
theorem substituteInTurn_eq (hr : r.first ≤ r.last) (hlast : r.last < b.size) :
    substituteInTurn r s b = substitute r s b := by
  have hsize : (r.slice b.lines).toList.length = r.size := by
    have hlines : b.size = b.lines.size := rfl
    rw [LineRange.slice, Array.length_toList, Array.size_extract, LineRange.size]
    omega
  have hlines : substituteFrom s (r.slice b.lines).toList.length r.first 0 b = _ :=
    substituteFrom_apply (drop_eq_slice_append hr)
  rw [hsize, Nat.zero_add] at hlines
  have hzero : (r.slice b.lines).toList.countP s.replaces = 0 ↔
      ∀ line ∈ (r.slice b.lines).toList, s.apply? line = none := by
    rw [List.countP_eq_zero]
    exact forall₂_congr fun line _ => Substitution.apply?_eq_none_iff.symm
  rw [substitute_apply_of_valid hr hlast, substituteInTurn, EState.bind_apply, hlines]
  dsimp only
  by_cases hnone : ∀ line ∈ (r.slice b.lines).toList, s.apply? line = none
  · rw [if_pos (hzero.2 hnone), if_pos hnone, withSubstituted_of_none hnone]
    rfl
  · have hcurrent : r.last < (b.withSubstituted s r.first (r.slice b.lines).toList).size := by
      show r.last < (overwrite _ _ _).size
      rwa [size_overwrite]
    rw [if_neg (mt hzero.1 hnone), if_neg hnone]
    show setCurrent r.last _ = _
    rw [setCurrent_apply, if_neg (Nat.not_le.2 hcurrent)]

/-! ## What has become of each line -/

/-- Lines that are overwritten keep their places.

**Proof sketch.** By induction on the texts: the first of them is set or not at the place where the
others begin, and the place of a line among the others is one less. -/
theorem getElem?_overwrite (start : Nat) (texts : List (Option Line)) (lines : Array Line)
    (i : Nat) :
    (overwrite start texts lines)[i]? =
      lines[i]?.map fun line => if start ≤ i then (texts[i - start]?.join).getD line else line := by
  fun_induction overwrite start texts lines with
  | case1 start lines => simp
  | case2 start lines texts ih =>
    rw [ih]
    congr 1
    funext line
    rcases Nat.lt_trichotomy start i with hlt | rfl | hgt
    · have hoffset : i - start = (i - (start + 1)) + 1 := by omega
      rw [if_pos (Nat.succ_le_of_lt hlt), if_pos hlt.le, hoffset, List.getElem?_cons_succ]
    · simp
    · rw [if_neg (by omega), if_neg (by omega)]
  | case3 start lines text texts ih =>
    rw [ih]
    rcases Nat.lt_trichotomy start i with hlt | rfl | hgt
    · have hoffset : i - start = (i - (start + 1)) + 1 := by omega
      rw [Array.getElem?_setIfInBounds_ne hlt.ne]
      congr 1
      funext line
      rw [if_pos (Nat.succ_le_of_lt hlt), if_pos hlt.le, hoffset, List.getElem?_cons_succ]
    · by_cases hsize : start < lines.size
      · simp [hsize]
      · simp [hsize]
    · rw [Array.getElem?_setIfInBounds_ne hgt.ne']
      congr 1
      funext line
      rw [if_neg (by omega), if_neg (by omega)]

/-- The lines of a range, one by one. -/
theorem getElem?_slice (k : Nat) :
    (r.slice b.lines).toList[k]? =
      if r.first + k ≤ r.last then b.line? (r.first + k) else none := by
  rw [Array.getElem?_toList, LineRange.slice, Array.getElem?_extract]
  by_cases hsize : r.first + k < b.lines.size
  · have hiff : k < min (r.last + 1) b.lines.size - r.first ↔ r.first + k ≤ r.last := by omega
    simp only [hiff]
    rfl
  · have hnone : b.line? (r.first + k) = none := Array.getElem?_eq_none (Nat.not_lt.1 hsize)
    rw [if_neg (by omega), hnone, ite_self]

/-- The lines of a range are those at its indices. -/
theorem mem_slice_iff {line : Line} :
    line ∈ (r.slice b.lines).toList ↔ ∃ i, r.contains i ∧ b.line? i = some line := by
  simp only [LineRange.contains, Bool.and_eq_true, decide_eq_true_iff]
  constructor
  · intro hmem
    obtain ⟨k, hk⟩ := List.getElem?_of_mem hmem
    rw [getElem?_slice, Option.ite_none_right_eq_some] at hk
    exact ⟨r.first + k, ⟨Nat.le_add_right .., hk.1⟩, hk.2⟩
  · rintro ⟨i, ⟨hfirst, hle⟩, hline⟩
    obtain ⟨k, rfl⟩ := Nat.exists_eq_add_of_le hfirst
    apply List.mem_of_getElem? (i := k)
    rw [getElem?_slice, if_pos hle, hline]

/-- Each line in a range becomes what a substitution makes of it, and the others stay.

**Proof sketch.** A line before the range is not overwritten, and neither is one behind it; one
inside of it gets the text that stands for it among those of the range. -/
theorem line?_withSubstituted (i : Nat) :
    (b.withSubstituted s r.first (r.slice b.lines).toList).line? i =
      (b.line? i).map fun line => if r.contains i then s.applied line else line := by
  show (overwrite _ _ _)[i]? = _
  rw [getElem?_overwrite]
  cases hline : b.line? i with
  | none =>
    rw [show b.lines[i]? = none from hline]
    rfl
  | some line =>
    rw [show b.lines[i]? = some line from hline, Option.map_some, Option.map_some]
    congr 1
    by_cases hfirst : r.first ≤ i
    · obtain ⟨k, rfl⟩ := Nat.exists_eq_add_of_le hfirst
      rw [if_pos hfirst, Nat.add_sub_cancel_left, List.getElem?_map, getElem?_slice, hline]
      by_cases hlast : r.first + k ≤ r.last
      · simp [LineRange.contains, hlast, Substitution.applied]
      · simp [LineRange.contains, hlast]
    · simp [LineRange.contains, hfirst]

/-- Another text is given exactly if some line becomes another one. -/
theorem changesAny_eq_false_iff {old : List Line} :
    changesAny s old = false ↔ ∀ line ∈ old, s.applied line = line := by
  induction old with
  | nil => simp [changesAny]
  | cons line old ih =>
    rw [changesAny_cons, Bool.or_eq_false_iff, ih, List.forall_mem_cons, bne_eq_false_iff_eq]

/-- The lines are the same afterwards exactly if no line is given another text.

**Proof sketch.** The lines of the range are all that are overwritten, and each of them becomes what
the substitution makes of it. -/
theorem lines_withSubstituted_eq_iff :
    (b.withSubstituted s r.first (r.slice b.lines).toList).lines = b.lines ↔
      changesAny s (r.slice b.lines).toList = false := by
  rw [changesAny_eq_false_iff]
  constructor
  · intro hlines line hmem
    obtain ⟨i, hi, hline⟩ := mem_slice_iff.1 hmem
    have hsame := line?_withSubstituted (s := s) (b := b) (r := r) i
    rw [line?, hlines, ← line?, hline, Option.map_some, if_pos hi] at hsame
    exact (Option.some.inj hsame).symm
  · intro hsame
    apply Array.ext_getElem?
    intro i
    show line? _ i = b.line? i
    rw [line?_withSubstituted]
    cases hline : b.line? i with
    | none => rfl
    | some line =>
      rw [Option.map_some]
      by_cases hi : r.contains i
      · rw [if_pos hi, hsame line (mem_slice_iff.2 ⟨i, hi, hline⟩)]
      · rw [if_neg hi]

/-- What a substitution on a range makes of a buffer. -/
structure Substituted (r : LineRange) (s : Substitution) (b b' : LineBuffer) : Prop where
  /-- Each line of the range is what its own old text is turned into, or its old text if there is
  nothing to replace. -/
  inside : ∀ i line, r.contains i → b.line? i = some line →
    b'.line? i = some ((s.regex.replace? line s.replacement s.occurrence).getD line)
  /-- The other lines are the same. -/
  outside : ∀ i, ¬r.contains i → b'.line? i = b.line? i
  /-- There are as many lines as before. -/
  size : b'.size = b.size
  /-- The marks stay on their lines. -/
  marks : b'.marks = b.marks
  /-- The lines that a global command has yet to visit stay the same. -/
  targets : b'.targets = b.targets
  /-- The last line of the range is the current one. -/
  current : b'.current = some r.last
  /-- The buffer counts as changed if some line is another one. -/
  dirty : b'.lines ≠ b.lines → b'.dirty = true
  /-- It counts as before if all lines are the same. -/
  dirty_of_eq : b'.lines = b.lines → b'.dirty = b.dirty
  /-- The file name stays the same. -/
  filename : b'.filename = b.filename
  /-- So does what undoing brings back. -/
  saved : b'.saved = b.saved

/-- What a substitution makes of a buffer is what it says.

**Proof sketch.** Each line is known by `line?_withSubstituted`. The buffer counts as changed if a
line of it has changed, which is the case exactly if the lines are different ones. -/
theorem substituted_withSubstituted :
    Substituted r s b { b.withSubstituted s r.first (r.slice b.lines).toList with
      current := some r.last } where
  inside := by
    intro i line hi hline
    have hsame := line?_withSubstituted (s := s) (b := b) (r := r) i
    rwa [hline, Option.map_some, if_pos hi] at hsame
  outside := by
    intro i hi
    have hsame := line?_withSubstituted (s := s) (b := b) (r := r) i
    simp only [if_neg hi, Option.map_id'] at hsame
    exact hsame
  size := size_overwrite _ _ _
  marks := rfl
  targets := rfl
  current := rfl
  dirty := by
    intro hlines
    have hchanged : changesAny s (r.slice b.lines).toList = true := by
      rw [← Bool.not_eq_false]
      exact mt lines_withSubstituted_eq_iff.2 hlines
    show (b.dirty || changesAny s _) = true
    rw [hchanged, Bool.or_true]
  dirty_of_eq := by
    intro hlines
    show (b.dirty || changesAny s _) = b.dirty
    rw [lines_withSubstituted_eq_iff.1 hlines, Bool.or_false]
  filename := rfl
  saved := rfl

/-- **What a substitution does** on a range of lines that are there. If nothing is selected on any
of them, it fails and leaves the buffer as it was. Otherwise each line of the range becomes what its
own old text is turned into, whatever has become of the others, and everything else stays but for
the current line. It makes no difference that the lines are read and written one after the
other.

**Proof sketch.** `substituteInTurn_eq` is the first part. The other two are read off
`substitute_apply_of_valid`, since a line is left as it is exactly if nothing on it is selected. -/
theorem substitute_spec (hr : r.first ≤ r.last) (hlast : r.last < b.size) :
    substituteInTurn r s b = substitute r s b ∧
      ((∀ i line, r.contains i → b.line? i = some line → ¬s.Selects line) →
        substitute r s b = .error .noMatch b) ∧
      ((∃ i line, r.contains i ∧ b.line? i = some line ∧ s.Selects line) →
        ∃ b', substitute r s b = .ok () b' ∧ Substituted r s b b') := by
  have hselects (line : Line) : s.apply? line = none ↔ ¬s.Selects line := by
    rw [← s.replaces_iff, Substitution.apply?_eq_none_iff]
  refine ⟨substituteInTurn_eq hr hlast, ?_, ?_⟩
  · intro hnone
    rw [substitute_apply_of_valid hr hlast, if_pos]
    intro line hmem
    obtain ⟨i, hi, hline⟩ := mem_slice_iff.1 hmem
    exact (hselects line).2 (hnone i line hi hline)
  · rintro ⟨i, line, hi, hline, hsome⟩
    rw [substitute_apply_of_valid hr hlast, if_neg]
    · exact ⟨_, rfl, substituted_withSubstituted⟩
    · intro hnone
      exact (hselects line).1 (hnone line (mem_slice_iff.2 ⟨i, hi, hline⟩)) hsome

end

/-- The second `a` of each of the first two lines becomes an `x`. There is none on the second line,
which stays, and the third line is not in the range. -/
theorem substitute_spec_secondMatch :
    let r : LineRange := ⟨0, 1⟩
    let regex : Regex :=
      ⟨Line.ofString "a", .single (.literal (ascii 'a')) .once .empty, false, false, 0⟩
    let s : Substitution := ⟨regex, Line.ofString "x", .nth 2⟩
    let b := LineBuffer.ofLines [Line.ofString "aa", Line.ofString "ba", Line.ofString "aa"]
    r.first ≤ r.last ∧ r.last < b.size ∧ Regex.ofPattern regex.pattern = .ok regex ∧
      s.Selects (Line.ofString "aa") ∧
      ∃ b', substituteInTurn r s b = .ok () b' ∧ substitute r s b = .ok () b' ∧
        b'.line? 0 = some (Line.ofString "ax") ∧ b'.line? 1 = some (Line.ofString "ba") ∧
        b'.line? 2 = some (Line.ofString "aa") ∧ b'.current = some 1 ∧ b'.dirty = true := by
  intro r regex s b
  have hr : r.first ≤ r.last := by decide
  have hlast : r.last < b.size := by decide
  have hselects : s.Selects (Line.ofString "aa") := by
    rw [← s.replaces_iff]
    decide +kernel
  obtain ⟨hturn, -, hsome⟩ := substitute_spec (s := s) hr hlast
  obtain ⟨b', hb', h⟩ := hsome ⟨0, Line.ofString "aa", by decide, by decide, hselects⟩
  have hfirst : b'.line? 0 = some (Line.ofString "ax") := by
    rw [h.inside 0 (Line.ofString "aa") (by decide) (by decide)]
    decide +kernel
  have hsecond : b'.line? 1 = some (Line.ofString "ba") := by
    rw [h.inside 1 (Line.ofString "ba") (by decide) (by decide)]
    decide +kernel
  have hchanged : b'.lines ≠ b.lines := by
    intro hlines
    rw [line?, hlines] at hfirst
    exact absurd hfirst (by decide)
  exact ⟨hr, hlast, by decide +kernel, hselects, b', hturn.trans hb', hb', hfirst, hsecond,
    (h.outside 2 (by decide)).trans (by decide), h.current, h.dirty hchanged⟩

end LineBuffer

end LineEditor
