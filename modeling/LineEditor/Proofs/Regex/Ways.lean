import LineEditor.Proofs.Regex.Language

set_option autoImplicit false
set_option relaxedAutoImplicit false

/-!
# The ways to match an expression

All ways in which an expression can match from a position on, as a list in the order in which a
backtracking matcher comes to them. The matcher goes through this list and returns the first success
of what must still match, so that what it finds is a function of the list. Expressions that follow
each other make this visible: their ways are the ways of the second one after each way of the first.

## Main definitions

* `LineEditor.Regex.Expression.ways`: the ways to match an expression.
* `LineEditor.Regex.Expression.append`: one expression after another.
* `LineEditor.Regex.Program.starts`: the positions that a search tries.

## Main results

* `LineEditor.Regex.Expression.backtrack_eq_findSome?`: the matcher returns the first success.
* `LineEditor.Regex.Program.search_eq_findSome?`: a search returns the first way that is accepted,
  at the first position where there is one.
-/

namespace LineEditor.Regex

variable {text : Array UInt8} {p : Nat}

/-! ## Ways -/

/-- A position ahead is within the text. -/
theorem Ahead.le_size (q : Ahead text p) : q.1 ≤ text.size := q.2.2

/-- A position is one from which it can be gone on. -/
theorem Ahead.bounds_self (hp : p ≤ text.size) : p ≤ p ∧ p ≤ text.size := ⟨Nat.le_refl p, hp⟩

/-- A way to match something from a position on: where it ends, and what is captured then. -/
abbrev Way (text : Array UInt8) (p : Nat) := Ahead text p × Captures

/-- A way from a later position on, as one from an earlier position. -/
def Way.later (q : Ahead text p) (w : Way text q) : Way text p :=
  (⟨w.1, Nat.le_trans q.2.1 w.1.2.1, w.1.2.2⟩, w.2)

/-- After each of some ways, the ways to go on. -/
def followedBy (ways : List (Way text p))
    (next : (q : Ahead text p) → Captures → List (Way text q)) : List (Way text p) :=
  ways.flatMap fun w => (next w.1 w.2).map (Way.later w.1)

/-- Runs of `taken` bytes and of fewer ones down to `least`. -/
def runWays (least : Nat) (captures : Captures) (p : Nat) :
    (taken : Nat) → p + taken ≤ text.size → List (Way text p)
  | 0, h => [(⟨p, Nat.le_refl p, h⟩, captures)]
  | taken + 1, h =>
    (⟨p + (taken + 1), Nat.le_add_right .., h⟩, captures) ::
      if least < taken + 1 then runWays least captures p taken (Nat.le_of_succ_le h) else []

/-- The ways to go on with a group of which `count` iterations are complete. -/
def roundWays (index : Fin maxGroups) (bounds : Bounds)
    (body : (p : Nat) → p ≤ text.size → Captures → List (Way text p))
    (count p : Nat) (hp : p ≤ text.size) (captures : Captures) : List (Way text p) :=
  (if bounds.allowsMore count then
      followedBy (body p hp captures) fun q captures =>
        if _ : q.1 = p ∧ bounds.least ≤ count then []
        else
          roundWays index bounds body (count + 1) q q.le_size
            (captures.set index (some ⟨p, q - p⟩) index.isLt)
    else []) ++
  (if bounds.least ≤ count then [(⟨p, Ahead.bounds_self hp⟩, captures)] else [])
termination_by (bounds.least - count) + (text.size - p)
decreasing_by
  have := q.2
  omega

/-- The ways to match an expression from a position on, in the order in which they are tried. -/
def Expression.ways (text : Array UInt8) :
    Expression → (p : Nat) → p ≤ text.size → Captures → List (Way text p)
  | .empty, p, hp, captures => [(⟨p, Ahead.bounds_self hp⟩, captures)]
  | .single test bounds next, p, hp, captures =>
    if bounds.cap (passing test text p) < bounds.least then []
    else
      followedBy (runWays bounds.least captures p _ (add_cap_passing_le test bounds hp))
        fun q captures => next.ways text q q.le_size captures
  | .group index body bounds next, p, hp, captures =>
    followedBy (roundWays index bounds (body.ways text) 0 p hp captures) fun q captures =>
      next.ways text q q.le_size captures

/-! ## The matcher returns the first success -/

section

variable {α β γ : Type}

/-- The first success of a list is that of its first element, or else of the others. -/
theorem findSome?_cons_or (f : α → Option β) (a : α) (as : List α) :
    (a :: as).findSome? f = (f a).or (as.findSome? f) := by
  rw [List.findSome?_cons]
  cases f a <;> rfl

/-- It is determined by what is done with the elements of the list. -/
theorem findSome?_congr {f g : α → Option β} {as : List α} (h : ∀ a ∈ as, f a = g a) :
    as.findSome? f = as.findSome? g := by
  induction as with
  | nil => rfl
  | cons a as ih =>
    obtain ⟨ha, has⟩ := List.forall_mem_cons.1 h
    rw [findSome?_cons_or, findSome?_cons_or, ha, ih has]

/-- The first success of ways that come one after the other is found among those of each. -/
theorem findSome?_flatMap (f : α → List β) (g : β → Option γ) (as : List α) :
    (as.flatMap f).findSome? g = as.findSome? fun a => (f a).findSome? g := by
  induction as with
  | nil => rfl
  | cons a as ih => rw [List.flatMap_cons, List.findSome?_append, ih, findSome?_cons_or]

end

/-- The first success of ways that are followed by others is found among those others, each from its
own position. -/
theorem findSome?_followedBy (ways : List (Way text p))
    (next : (q : Ahead text p) → Captures → List (Way text q)) (k : Continuation text p) :
    (followedBy ways next).findSome? (fun w => k w.1 w.2) =
      ways.findSome? fun w => (next w.1 w.2).findSome? fun v => k.later w.1 v.1 v.2 := by
  simp only [followedBy, findSome?_flatMap, List.findSome?_map]
  rfl

/-- Runs are tried from the longest one down.

**Proof sketch.** By induction on the length: the run is tried as it is and then without its last
byte, down to the least length. -/
theorem tryDown_eq_findSome? (least : Nat) (captures : Captures) (k : Continuation text p)
    {taken : Nat} (h : p + taken ≤ text.size) :
    (tryDown least taken fun n hn => k ⟨p + n, Nat.le_add_right .., by omega⟩ captures) =
      (runWays least captures p taken h).findSome? fun w => k w.1 w.2 := by
  induction taken with
  | zero => simp [tryDown, runWays]
  | succ taken ih =>
    have ih := ih (Nat.le_of_succ_le h)
    rw [tryDown, runWays, findSome?_cons_or]
    split
    · rw [ih]
    · rfl

/-- Repeating a body tries as many rounds as there can be, and then what follows them.

**Proof sketch.** By induction on the rounds left. Either a further round is gone, from each way of
the body that moves on, or what must still match comes after the rounds that were gone. -/
theorem rounds_eq_findSome? {index : Fin maxGroups} {bounds : Bounds} {body : Matcher text}
    {bodyWays : (p : Nat) → p ≤ text.size → Captures → List (Way text p)}
    (hbody : ∀ p hp captures k,
      body p hp captures k = (bodyWays p hp captures).findSome? fun w => k w.1 w.2)
    (count p : Nat) (hp : p ≤ text.size) (captures : Captures) (next : Continuation text p) :
    rounds text index bounds body count p hp captures next =
      (roundWays index bounds bodyWays count p hp captures).findSome? fun w => next w.1 w.2 := by
  induction count, p, hp, captures, next using rounds.induct text index bounds with
  | case1 count p hp captures next ih =>
    rw [rounds, roundWays, List.findSome?_append]
    congr 1
    · split
      · rw [hbody, findSome?_followedBy]
        congr 1
        funext w
        split
        · rfl
        · rename_i hprogress
          exact ih w.1 w.2 hprogress
      · rfl
    · split
      · simp
      · rfl

/-- **The recursive matcher goes through the ways** and returns the first success of what must still
match.

**Proof sketch.** By induction on the expression. A single test is tried with the longest run first,
as its ways are listed; a group tries as many rounds of its body as it can, and then what follows.
In both cases the continuation is what the ways are followed by. -/
theorem Expression.backtrack_eq_findSome? (e : Expression) (p : Nat) (hp : p ≤ text.size)
    (captures : Captures) (k : Continuation text p) :
    e.backtrack text p hp captures k =
      (e.ways text p hp captures).findSome? fun w => k w.1 w.2 := by
  induction e generalizing p captures with
  | empty => simp [backtrack, ways]
  | single test bounds next ih =>
    rw [backtrack, ways]
    split
    · rfl
    · rw [findSome?_followedBy]
      simp only [← ih]
      exact tryDown_eq_findSome? bounds.least captures
        (fun q captures => next.backtrack text q q.2.2 captures (k.later q)) _
  | group index body bounds next ihb ihn =>
    rw [backtrack, ways, findSome?_followedBy]
    simp only [← ihn]
    exact rounds_eq_findSome? ihb ..

/-! ## Expressions one after another -/

/-- An expression after another one. -/
def Expression.append : Expression → Expression → Expression
  | .empty, e => e
  | .single test bounds next, e => .single test bounds (next.append e)
  | .group index body bounds next, e => .group index body bounds (next.append e)

instance : Append Expression := ⟨Expression.append⟩

section Append

variable (e e' e'' : Expression)

/-- Nothing comes before an expression. -/
@[simp] theorem Expression.empty_append : Expression.empty ++ e = e := rfl

/-- A single test goes on with what comes after. -/
@[simp] theorem Expression.single_append (test : ByteTest) (bounds : Bounds) :
    Expression.single test bounds e ++ e' = .single test bounds (e ++ e') := rfl

/-- So does a group. -/
@[simp] theorem Expression.group_append (index : Fin maxGroups) (body : Expression)
    (bounds : Bounds) :
    Expression.group index body bounds e ++ e' = .group index body bounds (e ++ e') := rfl

/-- It does not matter which of two expressions comes first to a third.

**Proof sketch.** By induction on the first one. -/
theorem Expression.append_assoc : e ++ e' ++ e'' = e ++ (e' ++ e'') := by
  induction e with
  | empty => rfl
  | single test bounds next ih => simp only [single_append, ih]
  | group index body bounds next _ ih => simp only [group_append, ih]

/-- The groups of an expression come before those of the next one. -/
theorem Expression.groups_append : (e ++ e').groups = e.groups ++ e'.groups := by
  induction e with
  | empty => rfl
  | single test bounds next ih => simpa only [single_append, groups] using ih
  | group index body bounds next _ ih =>
    simp only [group_append, groups, ih, List.cons_append, List.append_assoc]

end Append

/-- Ways are followed by ways from each position, in whatever order this is done. -/
theorem followedBy_assoc (ways : List (Way text p))
    (next next' : (q : Nat) → q ≤ text.size → Captures → List (Way text q)) :
    followedBy (followedBy ways fun q captures => next q q.2.2 captures)
        (fun q captures => next' q q.2.2 captures) =
      followedBy ways fun q captures =>
        followedBy (next q q.2.2 captures) fun r captures => next' r r.2.2 captures := by
  simp only [followedBy, List.flatMap_assoc, List.flatMap_map, List.map_flatMap, List.map_map]
  rfl

/-- A single way is followed by those from its position. -/
theorem followedBy_singleton (q : Ahead text p) (captures : Captures)
    (next : (q : Ahead text p) → Captures → List (Way text q)) :
    followedBy [(q, captures)] next = (next q captures).map (Way.later q) := by
  simp [followedBy]

/-- Ways from a position onward are the ways from itself. -/
theorem Way.map_later_self (hp : p ≤ text.size) (ways : List (Way text p)) :
    ways.map (Way.later ⟨p, Nat.le_refl p, hp⟩) = ways := List.map_id _

/-- The ways of two expressions one after the other: after each way of the first one, those of the
second one.

**Proof sketch.** By induction on the first expression, whose own continuation is that of the
second. -/
theorem Expression.ways_append (e e' : Expression) (p : Nat) (hp : p ≤ text.size)
    (captures : Captures) :
    (e ++ e').ways text p hp captures =
      followedBy (e.ways text p hp captures) fun q captures => e'.ways text q q.2.2 captures := by
  induction e generalizing p captures with
  | empty => rw [ways, followedBy_singleton, Way.map_later_self hp, empty_append]
  | single test bounds next ih =>
    rw [single_append, ways, ways]
    split
    · rfl
    · rw [followedBy_assoc]
      simp only [ih]
  | group index body bounds next _ ih =>
    rw [group_append, ways, ways, followedBy_assoc]
    simp only [ih]

/-! ## Ways and languages -/

/-- The expression has been found where one of its ways ends, with what is captured then.

**Proof sketch.** The matcher returns the first success of what must still match. If nothing matches
but this way, it does find it, and then by what the matcher finds. -/
theorem Expression.found_of_mem_ways {e : Expression} {hp : p ≤ text.size} {captures : Captures}
    {w : Way text p} (hw : w ∈ e.ways text p hp captures) : e.Found text p w.1 captures w.2 := by
  -- What must still match is that nothing but this way has been taken.
  let k : Continuation text p := fun q captures' =>
    if (q, captures') = w then some (q, captures') else none
  have hsome : (e.backtrack text p hp captures k).isSome := by
    rw [backtrack_eq_findSome?, List.findSome?_isSome_iff]
    exact ⟨w, hw, by simp [k]⟩
  obtain ⟨r, hr⟩ := Option.isSome_iff_exists.1 hsome
  obtain ⟨q, captures', hfound, hk⟩ := exists_found_of_backtrack hr
  dsimp only [k] at hk
  split at hk
  · rename_i heq
    rwa [← heq]
  · cases hk

/-! ## Searching -/

namespace Program

/-- Whether a match may end at a position. -/
def accepts (p : Program) (text : Array UInt8) (stop : Nat) : Bool :=
  !p.endAnchor || stop == text.size

/-- At a position the first way is found that may end where it does.

**Proof sketch.** The matcher stops at the first way that may end where it does, which is the first
way accepted, since all the others give nothing. What it returns is that way, from the machine that
runs it. -/
theorem matchAt?_eq_find? (p : Program) {start : Nat} (hstart : start ≤ text.size) :
    p.matchAt? text start =
      ((p.body.ways text start hstart .empty).find? (p.accepts text ·.1)).map fun w =>
        ⟨⟨start, w.1 - start⟩, w.2, p.groupCount⟩ := by
  have hguard : (fun w : Way text start => accept p.endAnchor text start w.1 w.2) =
      Option.map (fun w => (w.1.1, w.2)) ∘ Option.guard (p.accepts text ·.1) := by
    funext w
    simp only [accept, accepts, Option.guard, Function.comp_apply]
    split <;> simp_all
  rw [matchAt?, Machine.run_eq_verdict _ _ (Machine.within_start _ hstart),
    Machine.verdict_start _ _ hstart, Expression.backtrack_eq_findSome?, hguard,
    ← List.map_findSome?, List.findSome?_guard, Option.map_map]
  rfl

/-- A position where there is a match is never skipped, whatever the start anchor. -/
theorem mayStartAt_of_matchAt? {p : Program} {start : Nat} {m : Match}
    (hstart : start ≤ text.size) (h : p.matchAt? text start = some m) :
    p.mayStartAt text start :=
  mayStartAt_of_matches (p := { p with startAnchor := false })
    (matches_of_matchAt? hstart nofun h)

/-- What is found first is found at the first position that finds it.

**Proof sketch.** By induction on the positions. A position that is skipped for its first byte could
not have matched there. -/
theorem firstMatch?_eq_findSome? (p : Program) {start positions : Nat}
    (h : start + positions ≤ text.size + 1) :
    p.firstMatch? text start positions =
      (List.range' start positions).findSome? (p.matchAt? text) := by
  induction positions generalizing start with
  | zero => rfl
  | succ positions ih =>
    have hskip : (if p.mayStartAt text start then p.matchAt? text start else none) =
        p.matchAt? text start := by
      cases hm : p.matchAt? text start with
      | none => exact ite_self none
      | some m => exact if_pos (mayStartAt_of_matchAt? (by omega) hm)
    rw [firstMatch?, hskip, List.range'_succ, List.findSome?_cons, ih (by omega)]
    cases p.matchAt? text start <;> rfl

/-- The positions that a search tries. -/
def starts (p : Program) (text : Array UInt8) (start : Nat) : List Nat :=
  if p.startAnchor then (if start = 0 then [0] else [])
  else List.range' start (text.size + 1 - start)

/-- The positions that a search tries are within the text. -/
theorem le_size_of_mem_starts {p : Program} {start s : Nat} (h : s ∈ p.starts text start) :
    s ≤ text.size := by
  unfold starts at h
  split at h
  · split at h
    · rw [List.mem_singleton.1 h]
      exact Nat.zero_le _
    · cases h
  · rw [List.mem_range'_1] at h
    omega

/-- **A search returns the first match** at one of the positions that it tries.

**Proof sketch.** An anchored pattern is tried only at the beginning, and only if the search starts
there; any other is tried at each position from where the search starts on. Behind the end of the
text there is none. -/
theorem search_eq_findSome? (p : Program) (text : Array UInt8) (start : Nat) :
    p.search text start = (p.starts text start).findSome? (p.matchAt? text) := by
  unfold search starts
  by_cases hsize : text.size < start
  · rw [if_pos hsize, if_neg (show ¬start = 0 by omega),
      show text.size + 1 - start = 0 by omega]
    exact (ite_self _).symm ▸ rfl
  · rw [if_neg hsize]
    split
    · by_cases hzero : start = 0
      · rw [if_neg (by omega), if_pos hzero]
        exact firstMatch?_eq_findSome? p (by omega)
      · rw [if_pos (by omega), if_neg hzero]
        rfl
    · exact firstMatch?_eq_findSome? p (by omega)

end Program

end LineEditor.Regex
