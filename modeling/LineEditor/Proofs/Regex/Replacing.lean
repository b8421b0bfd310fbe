import LineEditor.Proofs.Regex.Language
import LineEditor.Regex.Replacement

set_option autoImplicit false
set_option relaxedAutoImplicit false

/-!
# Which matches are replaced

The matches of a text are found by one search after the other, and those that count are the same
for every replacement and for every choice among them: the choice only says which of them are
replaced. What has been found is a list, and a scan that replaces as it searches writes what one
would write with the list at hand.

## Main definitions

* `LineEditor.Regex.Repeats`: what the searches of a text find, one after the other.
* `LineEditor.Regex.counted`: the matches among them that count.
* `LineEditor.Regex.rewritten`: a text with some of its parts written anew.

## Main results

* `LineEditor.Regex.Repeats.pairwise`: matches that are found one after the other do not overlap.
* `LineEditor.Regex.finish?_scan`: what a scan writes.
* `LineEditor.Regex.replace?_eq_rewritten`: all replacements in a text are made in one list of
  matches.
-/

namespace LineEditor.Regex

variable {r : Regex} {text : Array UInt8} {position : Nat} {ms : List Match}

/-! ## One search after the other -/

/-- What the searches of a text find from a position on, each of which starts where the match before
ended, or one byte further if that match was empty. -/
inductive Repeats (r : Regex) (text : Array UInt8) : Nat → List Match → Prop
  /-- There is nothing left to search. -/
  | beyond {position : Nat} : text.size < position → Repeats r text position []
  /-- There is no further match. -/
  | missed {position : Nat} : r.find? text position = none → Repeats r text position []
  /-- A match, and what is found after it. -/
  | found {position : Nat} {m : Match} {ms : List Match} : position ≤ text.size →
      r.find? text position = some m → Repeats r text m.next ms → Repeats r text position (m :: ms)

/-- The matches that count. An empty one does not if it starts where the last one that counted
ended. -/
def counted : (lastStop : Option Nat) → List Match → List Match
  | _, [] => []
  | lastStop, m :: ms =>
    if m.isEmpty ∧ lastStop = some m.start then counted lastStop ms
    else m :: counted (some m.stop) ms

/-- What counts is found among the matches, and in their order. -/
theorem counted_sublist (lastStop : Option Nat) (ms : List Match) :
    (counted lastStop ms).Sublist ms := by
  induction ms generalizing lastStop with
  | nil => exact List.Sublist.refl _
  | cons m ms ih =>
    unfold counted
    split
    · exact (ih lastStop).cons m
    · exact (ih (some m.stop)).cons_cons m

/-- Of matches that there are, the first one always counts. -/
theorem counted_none_eq_nil_iff {ms : List Match} : counted none ms = [] ↔ ms = [] := by
  cases ms <;> simp [counted]

/-- Behind the end of a text nothing is found. -/
theorem find?_eq_none_of_lt (h : text.size < position) : r.find? text position = none := by
  rw [find?, Program.search, if_pos h]

/-- A match starts where the search does, or later. -/
theorem le_start_of_find? {m : Match} (h : r.find? text position = some m) :
    position ≤ m.start := Program.le_start_of_search h

/-- A match ends within the text. -/
theorem stop_le_of_find? {m : Match} (h : r.find? text position = some m) :
    m.stop ≤ text.size := by
  have hsearch := Program.search_eq r.program text position
  rw [show r.program.search text position = some m from h] at hsearch
  exact hsearch.2.1.stop_le

/-- The search after a match starts where that ends, or later. -/
theorem Match.stop_le_next (m : Match) : m.stop ≤ m.next := by
  unfold next
  split <;> omega

/-- A match does not end before it starts. -/
theorem Match.start_le_stop (m : Match) : m.start ≤ m.stop := Nat.le_add_right _ _

namespace Repeats

/-- The searches of a text come to an end, whatever the pattern: the one after a match starts behind
the start of that match.

**Proof sketch.** By strong induction on how much of the text is left: a match that is found starts
behind where the search started, and the next search starts one byte further than that at least. -/
theorem exists_of_le (r : Regex) (text : Array UInt8) (position : Nat) :
    ∃ ms, Repeats r text position ms ∧ ms.length ≤ text.size + 1 - position := by
  induction hleft : text.size + 1 - position using Nat.strong_induction_on
    generalizing position with
  | _ left ih =>
    by_cases hposition : text.size < position
    · exact ⟨[], .beyond hposition, Nat.zero_le _⟩
    · cases hm : r.find? text position with
      | none => exact ⟨[], .missed hm, Nat.zero_le _⟩
      | some m =>
        have hstart := le_start_of_find? hm
        have hnext := m.start_lt_next
        obtain ⟨ms, hms, hlength⟩ := ih (text.size + 1 - m.next) (by omega) m.next rfl
        refine ⟨m :: ms, .found (by omega) hm hms, ?_⟩
        rw [List.length_cons]
        omega

/-- What the searches of a text find is determined.

**Proof sketch.** By induction on what one of the two lists finds. A position is either beyond the
text, or the search from it finds nothing, or one match, and then the next search starts from the
same position for both. -/
theorem unique {ms' : List Match} (h : Repeats r text position ms)
    (h' : Repeats r text position ms') : ms' = ms := by
  induction h generalizing ms' with
  | beyond hbeyond =>
    cases h' with
    | beyond => rfl
    | missed => rfl
    | found hle => omega
  | missed hnone =>
    cases h' with
    | beyond => rfl
    | missed => rfl
    | found _ hm => simp [hnone] at hm
  | found hle hm _ ih =>
    cases h' with
    | beyond hbeyond => omega
    | missed hnone => simp [hm] at hnone
    | found _ hm' hms' =>
      obtain rfl := Option.some.inj (hm.symm.trans hm')
      rw [ih hms']

/-- All matches are behind the position where the searches started, and within the text.

**Proof sketch.** By induction: a match is within the text by the search that found it, and what
comes after it is behind it. -/
theorem bounds (h : Repeats r text position ms) :
    ∀ m ∈ ms, position ≤ m.start ∧ m.stop ≤ text.size := by
  induction h with
  | beyond => simp
  | missed => simp
  | @found position m ms _ hm _ ih =>
    have hstart := le_start_of_find? hm
    refine List.forall_mem_cons.2 ⟨⟨hstart, stop_le_of_find? hm⟩, fun m' hm' => ?_⟩
    have hnext := m.start_lt_next
    exact ⟨by have := (ih m' hm').1; omega, (ih m' hm').2⟩

/-- **Matches that are found one after the other stand from left to right and do not overlap.** -/
theorem pairwise (h : Repeats r text position ms) :
    ms.Pairwise fun m m' => m.start < m'.start ∧ m.stop ≤ m'.start := by
  induction h with
  | beyond => exact .nil
  | missed => exact .nil
  | @found position m ms _ _ hms ih =>
    refine .cons (fun m' hm' => ?_) ih
    have hbehind := (hms.bounds m' hm').1
    exact ⟨Nat.lt_of_lt_of_le m.start_lt_next hbehind, Nat.le_trans m.stop_le_next hbehind⟩

/-- There are matches exactly if the first search finds one. -/
theorem eq_nil_iff (h : Repeats r text 0 ms) :
    ms = [] ↔ r.find? text 0 = none := by
  cases h with
  | beyond hbeyond => exact absurd hbeyond (Nat.not_lt_zero _)
  | missed hnone => simp [hnone]
  | found _ hm _ => simp [hm]

/-- Each of the matches is found by a search. -/
theorem exists_find? (h : Repeats r text position ms) :
    ∀ m ∈ ms, ∃ start, r.find? text start = some m := by
  induction h with
  | beyond => simp
  | missed => simp
  | @found position m ms _ hm _ ih => exact List.forall_mem_cons.2 ⟨⟨position, hm⟩, ih⟩

end Repeats

/-! ## Texts written anew -/

/-- A text from a position on, with the part of each match written anew. -/
def rewritten (text : Array UInt8) (write : Match → Line) : (position : Nat) → List Match → Line
  | position, [] => (text.extract position text.size).toList
  | position, m :: ms =>
    (text.extract position m.start).toList ++ write m ++ rewritten text write m.stop ms

/-- A text is rewritten from what is written for its matches alone. -/
theorem rewritten_congr {write write' : Match → Line}
    (h : ∀ m ∈ ms, write m = write' m) :
    rewritten text write position ms = rewritten text write' position ms := by
  induction ms generalizing position with
  | nil => rfl
  | cons m ms ih =>
    obtain ⟨hm, hms⟩ := List.forall_mem_cons.1 h
    rw [rewritten, rewritten, hm, ih hms]

/-- Nothing else of a text is changed: with the own text of each match it stays what it is.

**Proof sketch.** By induction on the matches. What is written of a match is its own text, so that
with the portion before it and what is written behind it, it makes up the text again. -/
theorem rewritten_slice (hfrom : ∀ m ∈ ms, position ≤ m.start ∧ m.stop ≤ text.size)
    (hms : ms.Pairwise fun m m' => m.start < m'.start ∧ m.stop ≤ m'.start) :
    rewritten text (·.span.slice text) position ms = (text.extract position text.size).toList := by
  induction ms generalizing position with
  | nil => rfl
  | cons m ms ih =>
    obtain ⟨hm, hms⟩ := List.pairwise_cons.1 hms
    obtain ⟨⟨hstart, hstop⟩, hfrom⟩ := List.forall_mem_cons.1 hfrom
    have hmatch := m.start_le_stop
    have hslice : m.span.slice text = (text.extract m.start m.stop).toList := rfl
    rw [rewritten, ih (fun m' hm' => ⟨(hm m' hm').2, (hfrom m' hm').2⟩) hms, hslice,
      ← Array.toList_append, ← Array.toList_append, Array.extract_append_extract,
      Nat.min_eq_left hstart, Nat.max_eq_right hmatch, Array.extract_append_extract,
      Nat.min_eq_left (hstart.trans hmatch), Nat.max_eq_right hstop]

/-! ## The matches that are chosen -/

namespace Occurrence

/-- Those of a list of matches that are replaced, where a number of matches stood before the
list. -/
def chosen (occurrence : Occurrence) : (seen : Nat) → List Match → List Match
  | _, [] => []
  | seen, m :: ms =>
    if occurrence.selects (seen + 1) then m :: occurrence.chosen (seen + 1) ms
    else occurrence.chosen (seen + 1) ms

/-- What is chosen is found among the matches, and in their order.

**Proof sketch.** By induction on the matches, each of which is chosen or left out. -/
theorem chosen_sublist (occurrence : Occurrence) (seen : Nat) (ms : List Match) :
    (occurrence.chosen seen ms).Sublist ms := by
  induction ms generalizing seen with
  | nil => exact List.Sublist.refl _
  | cons m ms ih =>
    unfold chosen
    split
    · exact (ih (seen + 1)).cons_cons m
    · exact (ih (seen + 1)).cons m

/-- All matches are chosen, if all are to be replaced. -/
theorem chosen_all (seen : Nat) (ms : List Match) : all.chosen seen ms = ms := by
  induction ms generalizing seen with
  | nil => rfl
  | cons m ms ih => rw [chosen, selects, if_pos rfl, ih]

/-- The first match is the one of number 1. -/
theorem chosen_first (seen : Nat) (ms : List Match) :
    first.chosen seen ms = (nth 1).chosen seen ms := by
  induction ms generalizing seen with
  | nil => rfl
  | cons m ms ih =>
    rw [chosen, chosen, ih]
    rfl

/-- After the match that was asked for, no other one is replaced.

**Proof sketch.** By induction on the matches. Only one number is selected, since not all are, and
the next one is behind it. -/
theorem chosen_eq_nil {occurrence : Occurrence} {n seen : Nat} (hall : occurrence ≠ all)
    (h : occurrence.selects n) (hseen : n ≤ seen) (ms : List Match) :
    occurrence.chosen seen ms = [] := by
  induction ms generalizing seen with
  | nil => rfl
  | cons m ms ih =>
    have hnot : ¬ occurrence.selects (seen + 1) := by
      cases occurrence with
      | first =>
        simp only [selects, beq_iff_eq] at h ⊢
        omega
      | nth k =>
        simp only [selects, beq_iff_eq] at h ⊢
        omega
      | all => exact absurd rfl hall
    rw [chosen, if_neg hnot]
    exact ih (Nat.le_succ_of_le hseen)

/-- The match that is asked for by its number is the one in that place, if there is one.

**Proof sketch.** By induction on the matches. The number of a match is that of the matches before
it and one more, so that it is the number that is asked for exactly in that place; behind it nothing
else is chosen, by `chosen_eq_nil`. -/
theorem chosen_nth {n seen : Nat} (h : seen < n) (ms : List Match) :
    (nth n).chosen seen ms = ms[n - 1 - seen]?.toList := by
  induction ms generalizing seen with
  | nil => rfl
  | cons m ms ih =>
    by_cases hn : seen + 1 = n
    · have hselects : (nth n).selects (seen + 1) := by simp [selects, hn]
      rw [chosen, if_pos hselects, chosen_eq_nil (by simp) hselects (Nat.le_refl _),
        show n - 1 - seen = 0 by omega]
      rfl
    · have hselects : ¬ (nth n).selects (seen + 1) := by simp [selects, hn]
      rw [chosen, if_neg hselects, ih (by omega),
        show n - 1 - seen = (n - 1 - (seen + 1)) + 1 by omega, List.getElem?_cons_succ]

/-- No match has the number 0. -/
theorem chosen_nth_zero (seen : Nat) (ms : List Match) : (nth 0).chosen seen ms = [] := by
  induction ms generalizing seen with
  | nil => rfl
  | cons m ms ih =>
    rw [chosen, ih]
    rfl

/-- Among some matches there is one that is replaced. -/
def Available : Occurrence → List Match → Prop
  | first, ms => ms ≠ []
  | nth n, ms => 0 < n ∧ n ≤ ms.length
  | all, ms => ms ≠ []

/-- A match is chosen exactly if one of that number is there.

**Proof sketch.** A number is there if it is at most that of the matches, by `chosen_nth`, and the
first match is the one of number 1. -/
theorem chosen_ne_nil_iff {occurrence : Occurrence} {ms : List Match} :
    occurrence.chosen 0 ms ≠ [] ↔ occurrence.Available ms := by
  have hnth (n : Nat) : (nth n).chosen 0 ms ≠ [] ↔ 0 < n ∧ n ≤ ms.length := by
    rcases Nat.eq_zero_or_pos n with rfl | hn
    · rw [chosen_nth_zero]
      simp
    · rw [chosen_nth hn]
      by_cases hle : n ≤ ms.length
      · have hlt : n - 1 < ms.length := by omega
        simp [hn, hle, hlt]
      · have hge : ms.length ≤ n - 1 := by omega
        simp [hle, hge]
  cases occurrence with
  | first =>
    rw [chosen_first, hnth]
    show 0 < 1 ∧ 1 ≤ ms.length ↔ ms ≠ []
    rw [Nat.one_le_iff_ne_zero, ne_eq, List.length_eq_zero_iff]
    exact and_iff_right Nat.one_pos
  | nth n => exact hnth n
  | all =>
    rw [chosen_all]
    rfl

end Occurrence

/-! ## Scans -/

variable {replacement : Line} {occurrence : Occurrence}

namespace Progress

variable {p : Progress} {m : Match}

/-- A match that does not count leaves a scan as it was. -/
theorem take_of_adjacent (h : m.isEmpty ∧ p.lastStop = some m.start) :
    p.take text replacement occurrence m = p := if_pos h

/-- A match that counts and is chosen is replaced. -/
theorem take_of_selects (h : ¬ (m.isEmpty ∧ p.lastStop = some m.start))
    (hselects : occurrence.selects (p.seen + 1)) :
    p.take text replacement occurrence m =
      ⟨p.written ++ text.extract p.copied m.start ++ (render text m replacement).toArray, m.stop,
        p.seen + 1, some m.stop, true⟩ := (if_neg h).trans (if_pos hselects)

/-- A match that counts and is not chosen is passed over. -/
theorem take_of_not_selects (h : ¬ (m.isEmpty ∧ p.lastStop = some m.start))
    (hselects : ¬ occurrence.selects (p.seen + 1)) :
    p.take text replacement occurrence m =
      { p with seen := p.seen + 1, lastStop := some m.stop } :=
  (if_neg h).trans (if_neg hselects)

end Progress

/-- A scan that finds no match stops. -/
theorem scan_of_none {p : Progress} (h : r.find? text position = none) :
    r.scan text replacement occurrence p position = p := by
  unfold scan
  split
  · rfl
  · rename_i m hm
    simp [h] at hm

/-- A scan takes the match it finds, and stops behind it if that is the only one to be replaced.

**Proof sketch.** Where the next search would start behind the end of the text, it finds nothing, so
that the scan stops there as well. -/
theorem scan_of_some {p : Progress} {m : Match} (h : r.find? text position = some m) :
    r.scan text replacement occurrence p position =
      if (p.take text replacement occurrence m).replaced ∧ occurrence ≠ .all then
        p.take text replacement occurrence m
      else r.scan text replacement occurrence (p.take text replacement occurrence m) m.next := by
  rw [scan]
  split
  · rename_i hnone
    simp [h] at hnone
  · rename_i m' hm'
    obtain rfl := Option.some.inj (h.symm.trans hm')
    dsimp only
    split
    · rfl
    · split
      · rename_i hbeyond
        rw [scan_of_none (find?_eq_none_of_lt hbeyond)]
      · rfl

/-- **What a scan writes**, after what has been written before: the rest of the text, with the
matches that are chosen among those that count replaced.

**Proof sketch.** Induction on the searches. A match that does not count leaves the scan as it was.
The next one that does is the first of those that count; where one match is asked for and this is
the one, the scan stops, and of the others none is chosen (`Occurrence.chosen_eq_nil`). -/
theorem finish?_scan (h : Repeats r text position ms) (p : Progress)
    (hp : p.replaced → occurrence = .all) :
    (r.scan text replacement occurrence p position).finish? text =
      let chosen := occurrence.chosen p.seen (counted p.lastStop ms)
      if p.replaced ∨ chosen ≠ [] then
        some (p.written.toList ++ rewritten text (render text · replacement) p.copied chosen)
      else none := by
  have hnothing : ∀ q : Progress, q.finish? text = if q.replaced ∨ ([] : List Match) ≠ [] then
      some (q.written.toList ++ rewritten text (render text · replacement) q.copied [])
      else none := by
    intro q
    simp [Progress.finish?, rewritten]
  induction h generalizing p with
  | beyond hbeyond =>
    rw [scan_of_none (find?_eq_none_of_lt hbeyond)]
    exact hnothing p
  | missed hnone =>
    rw [scan_of_none hnone]
    exact hnothing p
  | @found position m ms _ hm _ ih =>
    rw [scan_of_some hm]
    by_cases hadjacent : m.isEmpty ∧ p.lastStop = some m.start
    · rw [Progress.take_of_adjacent hadjacent, if_neg fun hstop => hstop.2 (hp hstop.1), ih p hp]
      simp only [counted, if_pos hadjacent]
    · by_cases hselects : occurrence.selects (p.seen + 1)
      · rw [Progress.take_of_selects hadjacent hselects]
        simp only [counted, if_neg hadjacent, Occurrence.chosen, if_pos hselects]
        by_cases hall : occurrence = .all
        · rw [if_neg fun hstop => hstop.2 hall, ih _ fun _ => hall]
          simp [rewritten]
        · rw [if_pos ⟨trivial, hall⟩, hnothing,
            Occurrence.chosen_eq_nil hall hselects (Nat.le_refl _)]
          simp [rewritten]
      · rw [Progress.take_of_not_selects hadjacent hselects,
          if_neg fun hstop => hstop.2 (hp hstop.1),
          ih { p with seen := p.seen + 1, lastStop := some m.stop } hp]
        simp only [counted, if_neg hadjacent, Occurrence.chosen, if_neg hselects]

/-- A line with the chosen ones of its matches replaced, if one match is chosen by its number or
all are.

**Proof sketch.** What a scan writes is known from `finish?_scan`. -/
theorem replace?_of_repeats {line : Line} (h : Repeats r line.toArray 0 ms)
    (hfirst : occurrence ≠ .first) :
    r.replace? line replacement occurrence =
      let chosen := occurrence.chosen 0 (counted none ms)
      if chosen ≠ [] then
        some (rewritten line.toArray (render line.toArray · replacement) 0 chosen)
      else none := by
  rw [replace?]
  dsimp only
  rw [if_neg hfirst, finish?_scan h .start (by simp [Progress.start])]
  simp [Progress.start]

/-- The first match, which is replaced without a scan, is the one of number 1.

**Proof sketch.** The match of number 1 is the first one found, and it is replaced by the portions
before and behind it and the rendered replacement, whether it is found by a scan or by itself. -/
theorem replace?_first {line : Line} (h : Repeats r line.toArray 0 ms) :
    r.replace? line replacement .first = r.replace? line replacement (.nth 1) := by
  have hnth : Occurrence.nth 1 ≠ .first := by simp
  rw [replace?_of_repeats h hnth, Occurrence.chosen_nth Nat.one_pos, replace?]
  dsimp only
  rw [if_pos rfl, replaceFirst?]
  cases h with
  | beyond hbeyond => exact absurd hbeyond (Nat.not_lt_zero _)
  | missed hnone => simp [hnone, counted]
  | found _ hm _ => simp [hm, counted, rewritten]

/-- A line with the chosen ones of its matches replaced, however they are chosen.

**Proof sketch.** A match that is chosen by its number is replaced by `replace?_of_repeats`. The
first one is the one of number 1, and choosing it chooses the same matches. -/
theorem replace?_eq_of_repeats {line : Line} (h : Repeats r line.toArray 0 ms)
    (replacement : Line) (occurrence : Occurrence) :
    r.replace? line replacement occurrence =
      let chosen := occurrence.chosen 0 (counted none ms)
      if chosen = [] then none
      else some (rewritten line.toArray (render line.toArray · replacement) 0 chosen) := by
  have hscanned : ∀ occurrence ≠ .first, r.replace? line replacement occurrence =
      let chosen := occurrence.chosen 0 (counted none ms)
      if chosen = [] then none
      else some (rewritten line.toArray (render line.toArray · replacement) 0 chosen) :=
    fun occurrence hfirst => (replace?_of_repeats h hfirst).trans (ite_not _ _ _)
  by_cases hfirst : occurrence = .first
  · rw [hfirst, replace?_first h, Occurrence.chosen_first]
    exact hscanned (.nth 1) (by simp)
  · exact hscanned occurrence hfirst

/-- **All replacements in a line are made in one list of matches.** The searches of the line find
one list of matches, each search starting where the match before ended, or one byte further if that
match was empty; there are no more of them than the line has positions. Those that count stand from
left to right in the line and do not overlap. All of them are replaced, or the one of a given
number, or the first one, if they are there; otherwise there is no result. What is written is the
line with these matches replaced, each by its own text, and with all other bytes as they are.

**Proof sketch.** Searches end since each starts behind the start of the last match
(`Repeats.exists_of_le`), and `finish?_scan` says what the scan writes. -/
theorem replace?_eq_rewritten (r : Regex) (line : Line) :
    ∃ found, Repeats r line.toArray 0 found ∧ found.length ≤ line.length + 1 ∧
      (∀ found', Repeats r line.toArray 0 found' → found' = found) ∧
      let ms := counted none found
      ms.Pairwise (fun m m' => m.start < m'.start ∧ m.stop ≤ m'.start) ∧
      (∀ m ∈ ms, m.start ≤ m.stop ∧ m.stop ≤ line.length) ∧
      rewritten line.toArray (·.span.slice line.toArray) 0 ms = line ∧
      ∀ replacement : Line,
        let replaced := rewritten line.toArray (render line.toArray · replacement) 0
        r.replace? line replacement .all = (if ms = [] then none else some (replaced ms)) ∧
        (∀ n, r.replace? line replacement (.nth (n + 1)) = ms[n]?.map fun m => replaced [m]) ∧
        r.replace? line replacement .first = r.replace? line replacement (.nth 1) := by
  obtain ⟨found, hfound, hlength⟩ := Repeats.exists_of_le r line.toArray 0
  have hsublist := counted_sublist none found
  have hbounds : ∀ m ∈ counted none found, 0 ≤ m.start ∧ m.stop ≤ line.toArray.size :=
    fun m hm => hfound.bounds m (hsublist.subset hm)
  have hpairwise := hfound.pairwise.sublist hsublist
  refine ⟨found, hfound, hlength, fun found' hfound' => hfound.unique hfound', hpairwise,
    fun m hm => ⟨m.start_le_stop, (hbounds m hm).2⟩, ?_, fun replacement => ⟨?_, fun n => ?_, ?_⟩⟩
  · rw [rewritten_slice hbounds hpairwise]
    simp
  · rw [replace?_of_repeats hfound (by simp)]
    dsimp only
    rw [Occurrence.chosen_all]
    exact ite_not _ _ _
  · rw [replace?_of_repeats hfound (by simp), Occurrence.chosen_nth (Nat.succ_pos n),
      show n + 1 - 1 - 0 = n from rfl]
    cases hn : (counted none found)[n]? with
    | none => rfl
    | some m => rfl
  · exact replace?_first hfound

end LineEditor.Regex
