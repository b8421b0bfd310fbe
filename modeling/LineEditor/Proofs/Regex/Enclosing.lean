import LineEditor.Proofs.Regex.Shifting

set_option autoImplicit false
set_option relaxedAutoImplicit false

/-!
# Enclosing a part of a pattern in a group

A group without a quantifier is transparent. If some pieces of an expression in a row are enclosed
in a group that nothing else uses, then the ways to match are the same ones in the same order, so
that a search finds the same match, also where it has to come back to the enclosed part. The new
group has captured what the part has matched on the way that was found.

## Main definitions

* `LineEditor.Regex.Division`: a way to match three expressions one after the other.
* `LineEditor.Regex.divisions`: all of them, in the order in which they are tried.

## Main results

* `LineEditor.Regex.map_ends_ways_append`: the ways of three expressions are their divisions.
* `LineEditor.Regex.map_ends_ways_enclosed`: so are those with the second one in a group.
* `LineEditor.Regex.Program.search_enclosed`: a search finds the same with and without the group.
-/

namespace LineEditor.Regex

variable {text : Array UInt8} {p : Nat}

/-! ## A group without a quantifier -/

/-- A group that occurs once matches as its body does, and has then captured this.

**Proof sketch.** The first iteration is compulsory and the only one allowed. So the ways are those
of the body, each followed by what comes when there has been one iteration, which is nothing more
than capturing the span. -/
theorem roundWays_once (index : Fin maxGroups)
    (body : (p : Nat) → p ≤ text.size → Captures → List (Way text p))
    (hp : p ≤ text.size) (captures : Captures) :
    roundWays index .once body 0 p hp captures =
      (body p hp captures).map fun w => (w.1, w.2.set index (some ⟨p, w.1 - p⟩) index.isLt) := by
  have hend : ∀ (q : Ahead text p) (captures : Captures),
      roundWays index .once body 1 q q.2.2 captures =
        [((⟨q, Nat.le_refl q.1, q.2.2⟩ : Ahead text q), captures)] := by
    intro q captures
    rw [roundWays]
    rfl
  have hnone : ∀ q : Ahead text p, ¬(q.1 = p ∧ Bounds.once.least ≤ 0) :=
    fun q h => absurd h.2 (by decide)
  rw [roundWays, if_pos (show Bounds.once.allowsMore 0 = true from rfl), if_neg (by decide),
    List.append_nil]
  simp only [dif_neg (hnone _), hend, followedBy]
  exact List.map_eq_flatMap.symm

/-! ## Three expressions one after the other -/

/-- A way to match three expressions one after the other. -/
structure Division where
  /-- What the second expression matches. -/
  middle : Span
  /-- Where the third one ends. -/
  stop : Nat
  /-- What is captured then. -/
  captures : Captures

/-- The ways to match three expressions one after the other, in the order in which they are tried:
for each way of the first one those of the second one, and for each of these the ways of the third
one. -/
def divisions (text : Array UInt8) (a b c : Expression) (p : Nat) (hp : p ≤ text.size) :
    List Division :=
  (a.ways text p hp .empty).flatMap fun u =>
    (b.ways text u.1 u.1.2.2 u.2).flatMap fun v =>
      (c.ways text v.1 v.1.2.2 v.2).map fun w => ⟨⟨u.1, v.1 - u.1⟩, w.1, w.2⟩

/-- What the middle expression matches in a division is in its language, and so are the texts before
and after it in those of the two other ones.

**Proof sketch.** A way ends where the next one begins, and what lies between its ends is in the
language of its expression. -/
theorem mem_language_of_mem_divisions {a b c : Expression} {hp : p ≤ text.size} {d : Division}
    (hd : d ∈ divisions text a b c p hp) :
    between text p d.middle.start ∈ a.language ∧ d.middle.slice text ∈ b.language ∧
      between text d.middle.stop d.stop ∈ c.language := by
  simp only [divisions, List.mem_flatMap, List.mem_map] at hd
  obtain ⟨u, hu, v, hv, w, hw, rfl⟩ := hd
  have hstop : (⟨u.1, v.1 - u.1⟩ : Span).stop = v.1 := Nat.add_sub_cancel' v.1.2.1
  refine ⟨(Expression.found_of_mem_ways hu).mem_language, ?_, ?_⟩
  · rw [Span.slice, hstop]
    exact (Expression.found_of_mem_ways hv).mem_language
  · rw [hstop]
    exact (Expression.found_of_mem_ways hw).mem_language

/-- A division ends no earlier than it begins. -/
theorem le_stop_of_mem_divisions {a b c : Expression} {hp : p ≤ text.size} {d : Division}
    (hd : d ∈ divisions text a b c p hp) : p ≤ d.stop := by
  simp only [divisions, List.mem_flatMap, List.mem_map] at hd
  obtain ⟨u, -, v, -, w, -, rfl⟩ := hd
  exact Nat.le_trans u.1.2.1 (Nat.le_trans v.1.2.1 w.1.2.1)

/-- Where a way ends and what is captured then. -/
def Way.ends (w : Way text p) : Nat × Captures := (w.1, w.2)

/-- The ends of ways that are followed by others are the ends of these others. -/
theorem map_ends_followedBy (ways : List (Way text p))
    (next : (q : Ahead text p) → Captures → List (Way text q)) :
    (followedBy ways next).map Way.ends = ways.flatMap fun w => (next w.1 w.2).map Way.ends := by
  simp only [followedBy, List.map_flatMap, List.map_map]
  rfl

section

variable (a b c : Expression) (hp : p ≤ text.size)

/-- The ways of three expressions one after the other are their divisions. -/
theorem map_ends_ways_append :
    ((a ++ b ++ c).ways text p hp .empty).map Way.ends =
      (divisions text a b c p hp).map fun d => (d.stop, d.captures) := by
  rw [Expression.append_assoc, Expression.ways_append, map_ends_followedBy, divisions]
  simp only [Expression.ways_append, map_ends_followedBy, List.map_flatMap, List.map_map]
  rfl

/-- With the second expression in a group there are the same divisions in the same order, and in
each of them the group has captured what this expression matches.

**Proof sketch.** The group occurs once, so that its ways are those of the second expression with
one more capture. The third expression does not look at this capture, by what has been shown of
captures that an expression does not use. -/
theorem map_ends_ways_enclosed {i : Fin maxGroups} (hi : ∀ g ∈ c.groups, g.1 ≠ i) :
    ((a ++ .group i b .once c).ways text p hp .empty).map Way.ends =
      (divisions text a b c p hp).map fun d =>
        (d.stop, d.captures.set i (some d.middle) i.isLt) := by
  -- What follows the group runs with one more capture, which it does not look at.
  have hc : ∀ (q : Nat) (hq : q ≤ text.size) (captures : Captures) (span : Span),
      (c.ways text q hq (captures.set i (some span) i.isLt)).map Way.ends =
        (c.ways text q hq captures).map fun w => (w.1.1, w.2.set i (some span) i.isLt) := by
    intro q hq captures span
    have hmove := Expression.ways_move (.refl text)
      (fun g hg => unaffected_set (hi g hg) (some span)) q hq captures
    exact (congrArg (List.map Way.ends) hmove).trans List.map_map
  rw [Expression.ways_append, map_ends_followedBy, divisions]
  simp only [Expression.ways, roundWays_once, map_ends_followedBy, List.flatMap_map, hc,
    List.map_flatMap, List.map_map]
  rfl

end

namespace Program

/-! ## Searching with and without the group -/

/-- What a pattern finds at a position, from any list that gives the ways there.

**Proof sketch.** A search takes the first way that ends as the pattern asks. Which way this is
depends on the ends only. -/
theorem matchAt?_of_map_ends {α : Type} {p : Program} {start : Nat} (hstart : start ≤ text.size)
    {ds : List α} {stop : α → Nat} {captures : α → Captures}
    (h : (p.body.ways text start hstart .empty).map Way.ends =
      ds.map fun d => (stop d, captures d)) :
    p.matchAt? text start =
      (ds.find? (p.accepts text <| stop ·)).map fun d =>
        ⟨⟨start, stop d - start⟩, captures d, p.groupCount⟩ := by
  have hfind := congrArg (fun ends => (ends.find? (p.accepts text ·.1)).map fun e =>
    (⟨⟨start, e.1 - start⟩, e.2, p.groupCount⟩ : Match)) h
  simp only [List.find?_map, Option.map_map] at hfind
  rw [matchAt?_eq_find? p hstart]
  exact hfind

/-- The first division of a text that may end where it does, at the first of the positions tried
where there is one. -/
def firstDivision? (p : Program) (a b c : Expression) (text : Array UInt8) (start : Nat) :
    Option (Nat × Division) :=
  (p.starts text start).findSome? fun s =>
    if hs : s ≤ text.size then
      ((divisions text a b c s hs).find? (p.accepts text ·.stop)).map (s, ·)
    else none

/-- The first division of a pattern is the first one at its starting place that ends as the pattern
asks. -/
theorem find?_of_firstDivision? {p : Program} {a b c : Expression} {start s : Nat} {d : Division}
    (h : p.firstDivision? a b c text start = some (s, d)) :
    ∃ hs, (divisions text a b c s hs).find? (p.accepts text ·.stop) = some d := by
  obtain ⟨s', -, hd⟩ := List.exists_of_findSome?_eq_some h
  split at hd
  · rename_i hs
    obtain ⟨d', hd', heq⟩ := Option.map_eq_some_iff.1 hd
    obtain ⟨rfl, rfl⟩ := Prod.mk.inj heq
    exact ⟨hs, hd'⟩
  · cases hd

/-- If the ways of a pattern are given by divisions, so is what a search finds.

**Proof sketch.** At each place the search and the list of divisions have the same first success, so
that they have it at the same place. -/
theorem search_of_map_ends {p : Program} {a b c : Expression} (captures : Division → Captures)
    (h : ∀ s (hs : s ≤ text.size), (p.body.ways text s hs .empty).map Way.ends =
      (divisions text a b c s hs).map fun d => (d.stop, captures d)) (start : Nat) :
    p.search text start = (p.firstDivision? a b c text start).map fun x =>
      ⟨⟨x.1, x.2.stop - x.1⟩, captures x.2, p.groupCount⟩ := by
  rw [search_eq_findSome?, firstDivision?, List.map_findSome?]
  refine findSome?_congr fun s hs => ?_
  have hle := le_size_of_mem_starts hs
  rw [Function.comp_apply, dif_pos hle, Option.map_map]
  exact matchAt?_of_map_ends hle (h s hle)

/-- **Enclosing a part of a pattern in a group does not change what is found.** If some pieces `b`
in a row are enclosed in a group that occurs once and that the pattern does not use yet, then from
every position of every text a search finds something exactly if it did before, and the match has
the same start and end and the same captures of all other groups. The new group has captured what
`b` matches in the first way to match the pattern that may end where it does.

**Proof sketch.** At each position the ways of the two patterns are given by the same divisions
(`map_ends_ways_append`, `map_ends_ways_enclosed`), of which the end anchor takes the same one. A
search never skips a position where there is a match, although the two patterns may differ in what
they know about their first byte. -/
theorem search_enclosed {p : Program} {a b c : Expression} (hbody : p.body = a ++ b ++ c)
    {i : Fin maxGroups} (hi : ∀ g ∈ p.body.groups, g.1 ≠ i) (groupCount : Nat)
    (text : Array UInt8) (start : Nat) :
    let p' : Program := { p with body := a ++ .group i b .once c, groupCount := groupCount }
    match p.search text start with
    | none => p'.search text start = none
    | some m => ∃ (m' : Match) (hstart : m.start ≤ text.size) (d : Division),
        p'.search text start = some m' ∧ m'.start = m.start ∧ m'.stop = m.stop ∧
        (∀ j ≠ i, m'.captures.get j = m.captures.get j) ∧
        (divisions text a b c m.start hstart).find? (p.accepts text ·.stop) = some d ∧
        m.stop = d.stop ∧ m.captures = d.captures ∧
        m'.captures.get i = some d.middle ∧ d.middle.slice text ∈ b.language := by
  intro p'
  have hc : ∀ g ∈ c.groups, g.1 ≠ i := fun g hg => hi g (by
    rw [hbody, Expression.groups_append]
    exact List.mem_append_right _ hg)
  -- Both find the first division that is accepted.
  have hsearch : p.search text start = (p.firstDivision? a b c text start).map fun x =>
      ⟨⟨x.1, x.2.stop - x.1⟩, x.2.captures, p.groupCount⟩ :=
    search_of_map_ends Division.captures
      (fun s hs => hbody ▸ map_ends_ways_append a b c hs) start
  have hsearch' : p'.search text start = (p.firstDivision? a b c text start).map fun x =>
      ⟨⟨x.1, x.2.stop - x.1⟩, x.2.captures.set i (some x.2.middle), groupCount⟩ :=
    search_of_map_ends (fun d => d.captures.set i (some d.middle))
      (fun s hs => map_ends_ways_enclosed a b c hs hc) start
  cases hfirst : p.firstDivision? a b c text start with
  | none =>
    rw [hfirst] at hsearch hsearch'
    rw [hsearch]
    exact hsearch'
  | some x =>
    obtain ⟨s, d⟩ := x
    rw [hfirst] at hsearch hsearch'
    obtain ⟨hs, hd⟩ := find?_of_firstDivision? hfirst
    have hmem := List.mem_of_find?_eq_some hd
    have hstop : s + (d.stop - s) = d.stop := Nat.add_sub_cancel' (le_stop_of_mem_divisions hmem)
    rw [hsearch]
    refine ⟨_, hs, d, hsearch', rfl, rfl, fun j hj => ?_, hd, hstop, rfl, ?_, ?_⟩
    · exact Captures.get_set_of_ne d.captures hj.symm _
    · exact Captures.get_set_self d.captures i _
    · exact (mem_language_of_mem_divisions hmem).2.1

/-- With the starred group of `\(a\)*ab` enclosed in another one, the search in `xaaab` still gives
back the last `a`, and what is left to the new group is `aa`.

**Proof sketch.** The two searches are computed, and the general statement tells of the division. -/
theorem search_enclosed_starredGroup :
    let inner : Fin maxGroups := ⟨0, by decide⟩
    let outer : Fin maxGroups := ⟨1, by decide⟩
    let b : Expression :=
      .group inner (.single (.literal (ascii 'a')) .once .empty) ⟨0, none⟩ .empty
    let c : Expression :=
      .single (.literal (ascii 'a')) .once (.single (.literal (ascii 'b')) .once .empty)
    let p : Program := ⟨.empty ++ b ++ c, false, false, 1⟩
    let p' : Program := ⟨.empty ++ .group outer b .once c, false, false, 2⟩
    let text := (Line.ofString "xaaab").toArray
    Program.ofPattern (Line.ofString "\\(a\\)*ab") = .ok p ∧
      (∀ g ∈ p.body.groups, g.1 ≠ outer) ∧
      ∃ (m m' : Match) (d : Division), p.search text 0 = some m ∧ p'.search text 0 = some m' ∧
        m'.start = m.start ∧ m'.stop = m.stop ∧ m'.captures.get inner = m.captures.get inner ∧
        m'.captures.get outer = some d.middle ∧ d.middle.slice text ∈ b.language ∧
        m'.captures = (Captures.empty.set 0 (some ⟨2, 1⟩)).set 1 (some ⟨1, 2⟩) := by
  intro inner outer b c p p' text
  have hi : ∀ g ∈ p.body.groups, g.1 ≠ outer := by decide
  have hm : p.search text 0 =
      some ⟨⟨1, 4⟩, Captures.empty.set 0 (some ⟨2, 1⟩), 1⟩ := by decide +kernel
  have hm' : p'.search text 0 = some
      ⟨⟨1, 4⟩, (Captures.empty.set 0 (some ⟨2, 1⟩)).set 1 (some ⟨1, 2⟩), 2⟩ := by decide +kernel
  have h := search_enclosed (p := p) rfl hi 2 text 0
  rw [hm] at h
  obtain ⟨m', -, d, hsearch, hstart, hstop, hothers, -, -, -, hnew, hlanguage⟩ := h
  obtain rfl := Option.some.inj (hm'.symm.trans hsearch)
  exact ⟨by decide +kernel, hi, _, _, d, hm, hm', hstart, hstop, hothers inner (by decide), hnew,
    hlanguage, rfl⟩

end Program

end LineEditor.Regex
