import LineEditor.Proofs.Regex.Language
import LineEditor.Proofs.Regex.Reading

set_option autoImplicit false
set_option relaxedAutoImplicit false

/-!
# What groups capture

The groups of a pattern are numbered in the order in which they open, so that each has a slot of its
own. In a match a slot holds a part of the match that the body of its group matches, or nothing; and
it holds something for every group that cannot be left out.

## Main results

* `LineEditor.Regex.IsSequence.map_groups`: how groups are numbered.
* `LineEditor.Regex.Program.captures_of_search`: what the slots of a match hold.
-/

namespace LineEditor.Regex

/-! ## The numbers of groups -/

/-- **Groups are numbered in the order in which they open**, from the number of those that were
opened before.

**Proof sketch.** Induction on the grammar. A group has the next number; the groups of its body come
next, and behind them those of what follows the group. -/
theorem IsSequence.map_groups {first : Bool} {groups groups' : Nat} {text : Line} {e : Expression}
    (h : IsSequence first groups text e groups') :
    groups ≤ groups' ∧ e.groups.map (·.1.val) = List.range' groups (groups' - groups) := by
  induction h with
  | empty => simp [Expression.groups]
  | single _ _ _ ih => exact ih
  | @group _ groups groups₁ groups₂ _ _ _ _ _ _ _ _ _ _ ihbody ihnext =>
    obtain ⟨hbody, hmap⟩ := ihbody
    obtain ⟨hnext, hmap'⟩ := ihnext
    refine ⟨by omega, ?_⟩
    have happend := List.range'_append_1 (s := groups + 1) (m := groups₁ - (groups + 1))
      (n := groups₂ - groups₁)
    rw [show groups + 1 + (groups₁ - (groups + 1)) = groups₁ by omega] at happend
    rw [Expression.groups, List.map_cons, List.map_append, hmap, hmap', happend,
      show groups₂ - groups = groups₁ - (groups + 1) + (groups₂ - groups₁) + 1 by omega,
      List.range'_succ]

namespace Program

variable {p : Program} {pattern : Line} {text : Array UInt8} {start : Nat} {m : Match}

/-- The groups of a pattern are numbered from `0` on.

**Proof sketch.** A pattern with or without a start anchor is a sequence in front of which no group
has been opened. -/
theorem map_groups_of_ofPattern (h : Program.ofPattern pattern = .ok p) :
    p.body.groups.map (·.1.val) = List.range p.groupCount := by
  have hunanchored : ∃ startAnchor pattern', Program.ofUnanchored startAnchor pattern' = .ok p := by
    unfold Program.ofPattern at h
    split at h
    · exact ⟨_, _, h⟩
    · split at h
      · exact ⟨_, _, h⟩
      · exact ⟨_, _, h⟩
  obtain ⟨startAnchor, pattern', h⟩ := hunanchored
  obtain ⟨body, groups, hsequence, rfl⟩ := Program.ofUnanchored_eq_ok_steps.1 h
  rw [hsequence.map_groups.2, Nat.sub_zero, List.range_eq_range']

/-- A group of a pattern has a number below the number of groups. -/
theorem lt_groupCount_of_mem_groups (h : Program.ofPattern pattern = .ok p)
    {g : Fin maxGroups × Expression} (hg : g ∈ p.body.groups) : g.1.val < p.groupCount := by
  rw [← List.mem_range, ← map_groups_of_ofPattern h]
  exact List.mem_map_of_mem hg

/-- No two groups of a pattern have the same number. -/
theorem eq_of_mem_groups (h : Program.ofPattern pattern = .ok p) {i : Fin maxGroups}
    {body body' : Expression} (hbody : (i, body) ∈ p.body.groups)
    (hbody' : (i, body') ∈ p.body.groups) : body = body' := by
  have hnodup : (p.body.groups.map (·.1.val)).Nodup := by
    rw [map_groups_of_ofPattern h]
    exact List.nodup_range
  exact congrArg Prod.snd (List.inj_on_of_nodup_map hnodup hbody hbody' rfl)

/-! ## The slots of a match -/

/-- What a search finds is found at the position where the match starts.

**Proof sketch.** With a start anchor only the first position is tried, and otherwise the positions
from the start on in turn. In both cases the match is the one at the position where it was found. -/
theorem matchAt?_of_search (h : p.search text start = some m) :
    p.matchAt? text m.start = some m := by
  unfold search at h
  split at h
  · cases h
  · split at h
    · split at h
      · cases h
      · have hfirst := firstMatch?_eq p text 0 1 (by omega)
        rw [h] at hfirst
        exact hfirst.2.2.1
    · have hfirst := firstMatch?_eq p text start (text.size + 1 - start) (by omega)
      rw [h] at hfirst
      exact hfirst.2.2.1

/-- **What the slots of a match hold**, for every pattern that can be read. The match lies within
the text and does not start before the search. If a slot holds something, then it belongs to a
group, and it holds a part of the match that the body of this group matches. The slots that no group
has are empty. A group that must be repeated at least once, such as one without a quantifier, has
its slot filled if it is not inside another group.

**Proof sketch.** All captures of a match were made since its start, where there were none, so that
`Expression.Found` tells them. That a slot belongs to one group only is the numbering of groups. -/
theorem captures_of_search (hp : Program.ofPattern pattern = .ok p)
    (hm : p.search text start = some m) :
    start ≤ m.start ∧ m.stop ≤ text.size ∧
      (∀ (i : Fin maxGroups) (span : Span), m.captures.get i = some span →
        m.start ≤ span.start ∧ span.stop ≤ m.stop ∧ (∃ body, (i, body) ∈ p.body.groups) ∧
          ∀ body, (i, body) ∈ p.body.groups → span.slice text ∈ body.language) ∧
      (∀ i : Fin maxGroups, p.groupCount ≤ i → m.captures.get i = none) ∧
      ∀ (i : Fin maxGroups) (bounds : Bounds), (i, bounds) ∈ p.body.outerGroups →
        0 < bounds.least → m.captures.get i ≠ none := by
  have hsearch := search_eq p text start
  rw [hm] at hsearch
  obtain ⟨hstart, hmatches, -⟩ := hsearch
  have hle : m.start ≤ text.size := Nat.le_trans hmatches.start_le hmatches.stop_le
  obtain ⟨-, -, -, -, hfound⟩ := found_of_matchAt? hle (matchAt?_of_search hm)
  have hslot : ∀ (i : Fin maxGroups) (span : Span), m.captures.get i = some span →
      ∃ body, (i, body) ∈ p.body.groups ∧ m.start ≤ span.start ∧ span.stop ≤ m.stop ∧
        span.slice text ∈ body.language := by
    intro i span hspan
    rcases hfound.recaptured i with hempty | ⟨body, span', hmem, hspan', hrest⟩
    · rw [hspan] at hempty
      simp at hempty
    · rw [hspan] at hspan'
      obtain rfl := Option.some.inj hspan'
      exact ⟨body, hmem, hrest⟩
  refine ⟨hstart, hmatches.stop_le, fun i span hspan => ?_, fun i hi => ?_, fun i bounds => ?_⟩
  · obtain ⟨body, hmem, hfirst, hlast, hbody⟩ := hslot i span hspan
    refine ⟨hfirst, hlast, ⟨body, hmem⟩, fun body' hmem' => ?_⟩
    rwa [eq_of_mem_groups hp hmem' hmem]
  · rw [Option.eq_none_iff_forall_ne_some]
    intro span hspan
    obtain ⟨body, hmem, -⟩ := hslot i span hspan
    exact absurd (lt_groupCount_of_mem_groups hp hmem) (Nat.not_lt.2 hi)
  · exact hfound.participates (i, bounds)

/-- Two repeated groups, one of which has another one inside, and a group that is not repeated. -/
def nestedGroups : Program where
  body :=
    .group (0 : Fin 9) (.single (.literal (ascii 'x')) .once .empty) ⟨0, none⟩ <|
    .group (1 : Fin 9) (.single (.literal (ascii 'a')) .once <|
      .group (2 : Fin 9) (.single (.literal (ascii 'b')) .once .empty) ⟨0, none⟩ .empty)
      ⟨0, none⟩ <|
    .single (.literal (ascii 'c')) .once <|
    .group (3 : Fin 9) (.single (.literal (ascii 'd')) .once .empty) .once .empty
  startAnchor := false
  endAnchor := false
  groupCount := 4

/-- In `zababcd` the first group takes no part, the second one has captured the last of its two
iterations, and the fourth one has captured something.

**Proof sketch.** The program and the match are computed, and the general statement tells the
rest. -/
theorem captures_of_search_nestedGroups :
    let pattern := Line.ofString "\\(x\\)*\\(a\\(b\\)*\\)*c\\(d\\)"
    let text := (Line.ofString "zababcd").toArray
    ∃ m, Program.ofPattern pattern = .ok nestedGroups ∧
      nestedGroups.search text 0 = some m ∧ m.captures[0] = none ∧
      m.captures[1] = some ⟨3, 2⟩ ∧ m.start ≤ 3 ∧ 5 ≤ m.stop ∧ m.stop ≤ text.size ∧
      (∀ body, (⟨1, by decide⟩, body) ∈ nestedGroups.body.groups →
        (Span.mk 3 2).slice text ∈ body.language) ∧
      m.captures[4] = none ∧ m.captures[3] ≠ none := by
  intro pattern text
  have hp : Program.ofPattern pattern = .ok nestedGroups := by decide +kernel
  have hm : nestedGroups.search text 0 =
      some ⟨⟨1, 6⟩, #v[none, some ⟨3, 2⟩, some ⟨4, 1⟩, some ⟨6, 1⟩, none, none, none, none, none],
        4⟩ := by
    decide +kernel
  obtain ⟨-, hstop, hslot, hunused, hneeded⟩ := captures_of_search hp hm
  obtain ⟨hfirst, hlast, -, hbody⟩ := hslot ⟨1, by decide⟩ ⟨3, 2⟩ rfl
  exact ⟨_, hp, hm, rfl, rfl, hfirst, hlast, hstop, hbody, hunused ⟨4, by decide⟩ (Nat.le_refl 4),
    hneeded ⟨3, by decide⟩ .once (by decide) Nat.one_pos⟩

end Program

end LineEditor.Regex
