import LineEditor.Proofs.Regex.Ways

set_option autoImplicit false
set_option relaxedAutoImplicit false

/-!
# Matching does not look back

Where a text is the rest of a longer one, an expression can be matched in the longer text from a
position of the rest on in the same ways as in the rest alone, with all positions moved. The
captures may meanwhile be changed by any function that does not interfere with what the expression
captures; moving them is one such function, and writing to a slot that the expression does not use
is another. A search without a start anchor is therefore a search in the rest of the text.

## Main definitions

* `LineEditor.Regex.Match.shift`: a match in a text with something before it.
* `LineEditor.Regex.IsRest`: one text is the rest of another one.
* `LineEditor.Regex.Way.move`: a way in the rest of a text, as one in the whole text.

## Main results

* `LineEditor.Regex.Expression.ways_move`: the ways in the rest of a text are those in the whole.
* `LineEditor.Regex.find?_extract`: a search from a position on is a search in the rest of the text.
-/

namespace LineEditor.Regex

/-! ## Moving matches -/

/-- A part of a text with `k` more bytes before it. -/
def Span.shift (k : Nat) (s : Span) : Span := ⟨s.start + k, s.length⟩

/-- What has been captured in a text with `k` more bytes before it. -/
def Captures.shift (k : Nat) (captures : Captures) : Captures :=
  captures.map (Option.map (Span.shift k))

/-- A match in a text with `k` more bytes before it. -/
def Match.shift (k : Nat) (m : Match) : Match :=
  ⟨m.span.shift k, m.captures.shift k, m.groupCount⟩

/-- Nothing captured stays nothing when it is moved. -/
theorem Captures.shift_empty (k : Nat) : Captures.empty.shift k = .empty := Vector.map_replicate

/-- What a group captures is moved with the others. -/
theorem Captures.shift_set (k : Nat) (captures : Captures) (i : Fin maxGroups) (span : Span) :
    Captures.shift k (captures.set i (some span) i.isLt) =
      (captures.shift k).set i (some (span.shift k)) i.isLt := Vector.map_set

/-! ## The rest of a text -/

/-- A text is the rest of a whole text from position `k` on. -/
structure IsRest (whole rest : Array UInt8) (k : Nat) : Prop where
  /-- The position is one of the whole text. -/
  le_size : k ≤ whole.size
  /-- What stands there is the rest. -/
  toList_drop : whole.toList.drop k = rest.toList

namespace IsRest

variable {whole rest : Array UInt8} {k : Nat}

/-- A text is its own rest. -/
theorem refl (text : Array UInt8) : IsRest text text 0 := ⟨Nat.zero_le _, rfl⟩

/-- What is left from a position on is a rest. -/
theorem extract {text : Array UInt8} (hk : k ≤ text.size) :
    IsRest text (text.extract k text.size) k :=
  ⟨hk, by simp [List.take_of_length_le]⟩

/-- The rest and what stands before it make up the text. -/
theorem size_add (h : IsRest whole rest k) : rest.size + k = whole.size := by
  have hle := h.le_size
  have hlength := congrArg List.length h.toList_drop
  rw [List.length_drop, Array.length_toList, Array.length_toList] at hlength
  omega

/-- In the rest as many bytes pass a test as in the whole. -/
theorem passing_eq (h : IsRest whole rest k) (test : ByteTest) (p : Nat) :
    passing test whole (p + k) = passing test rest p := by
  rw [passing, passing, ← h.toList_drop, List.drop_drop, Nat.add_comm]

/-- A position of the rest is one of the whole text. -/
theorem add_le (h : IsRest whole rest k) {p : Nat} (hp : p ≤ rest.size) : p + k ≤ whole.size :=
  h.size_add ▸ Nat.add_le_add_right hp k

end IsRest

/-! ## Moving ways -/

section Moving

variable {whole rest : Array UInt8} {k : Nat} (h : IsRest whole rest k)
  (f : Captures → Captures)

/-- A way in the rest of a text, as one in the whole text, with the captures changed. -/
def Way.move {p : Nat} (w : Way rest p) : Way whole (p + k) :=
  (⟨w.1 + k, Nat.add_le_add_right w.1.2.1 k, h.add_le w.1.2.2⟩, f w.2)

/-- A change of the captures does not interfere with those of a group. -/
def Unaffected (k : Nat) (f : Captures → Captures) (index : Fin maxGroups) : Prop :=
  ∀ (captures : Captures) (start length : Nat),
    f (captures.set index (some ⟨start, length⟩) index.isLt) =
      (f captures).set index (some ⟨start + k, length⟩) index.isLt

variable {f} {p : Nat}

/-- Moving ways moves those that follow them. -/
theorem followedBy_move {ways : List (Way rest p)}
    {next : (q : Ahead rest p) → Captures → List (Way rest q)}
    {next' : (q : Ahead whole (p + k)) → Captures → List (Way whole q)}
    (hnext : ∀ w : Way rest p,
      next' (w.move h f).1 (w.move h f).2 = (next w.1 w.2).map (Way.move h f)) :
    followedBy (ways.map (Way.move h f)) next' = (followedBy ways next).map (Way.move h f) := by
  simp only [followedBy, List.flatMap_map, hnext, List.map_flatMap]
  congr 1
  funext w
  exact List.map_map.trans (List.map_map (f := Way.later w.1) (g := Way.move h f)).symm

/-- Runs in the rest are runs in the whole.

**Proof sketch.** By induction on how long the longest of them is. -/
theorem runWays_move (least : Nat) (captures : Captures) {taken : Nat}
    (hrest : p + taken ≤ rest.size) (hwhole : p + k + taken ≤ whole.size) :
    runWays least (f captures) (p + k) taken hwhole =
      (runWays least captures p taken hrest).map (Way.move h f) := by
  induction taken with
  | zero => rfl
  | succ taken ih =>
    rw [runWays, runWays, List.map_cons]
    congr 1
    · exact Prod.ext (Subtype.ext (Nat.add_right_comm ..)) rfl
    · split
      · exact ih _ _
      · rfl

/-- So are rounds, if the body of each round has the same ways and its capture is not interfered
with.

**Proof sketch.** By induction along the rounds: a round is gone if its body moves on, which it does
in the rest exactly if it does in the whole, and its capture is moved with the others. -/
theorem roundWays_move {index : Fin maxGroups} {bounds : Bounds}
    {body : (p : Nat) → p ≤ rest.size → Captures → List (Way rest p)}
    {body' : (p : Nat) → p ≤ whole.size → Captures → List (Way whole p)}
    (hindex : Unaffected k f index)
    (hbody : ∀ p hp captures,
      body' (p + k) (h.add_le hp) (f captures) = (body p hp captures).map (Way.move h f))
    (count p : Nat) (hp : p ≤ rest.size) (captures : Captures) :
    roundWays index bounds body' count (p + k) (h.add_le hp) (f captures) =
      (roundWays index bounds body count p hp captures).map (Way.move h f) := by
  induction count, p, hp, captures using roundWays.induct index bounds with
  | case1 count p hp captures ih =>
    rw [roundWays, roundWays, List.map_append]
    congr 1
    · split
      · rw [hbody]
        refine followedBy_move h fun w => ?_
        have hsame : (w.move h f).1.1 = p + k ↔ w.1.1 = p := Nat.add_right_cancel_iff
        simp only [hsame]
        split
        · rfl
        · rename_i hprogress
          rw [← ih w.1 w.2 hprogress, hindex]
          congr 4
          exact Nat.add_sub_add_right ..
      · rfl
    · split <;> rfl

/-- **The ways in the rest of a text are those in the whole text**, with all positions moved, and
with any change of the captures that does not interfere with the groups of the expression.

**Proof sketch.** By induction on the expression. A test is passed by the same bytes, so that its
runs are the same, and a group has the same rounds by `roundWays_move`; what follows either has the
same ways by what is known of the rest of the expression. -/
theorem Expression.ways_move {e : Expression} (hf : ∀ g ∈ e.groups, Unaffected k f g.1)
    (p : Nat) (hp : p ≤ rest.size) (captures : Captures) :
    e.ways whole (p + k) (h.add_le hp) (f captures) =
      (e.ways rest p hp captures).map (Way.move h f) := by
  induction e generalizing p captures with
  | empty => rfl
  | single test bounds next ih =>
    rw [ways, ways]
    -- The same bytes stand there, so the longest run is the same.
    simp only [h.passing_eq]
    split
    · rfl
    · rw [runWays_move h]
      exact followedBy_move h fun w => ih hf w.1 w.1.2.2 w.2
  | group index body bounds next ihb ihn =>
    simp only [groups, List.forall_mem_cons, List.forall_mem_append] at hf
    obtain ⟨hindex, hbody, hnext⟩ := hf
    rw [ways, ways, roundWays_move h hindex (ihb hbody)]
    exact followedBy_move h fun w => ihn hnext w.1 w.1.2.2 w.2

end Moving

/-- Moving all captures interferes with none. -/
theorem unaffected_shift (k : Nat) (index : Fin maxGroups) :
    Unaffected k (Captures.shift k) index :=
  fun captures start length => Captures.shift_set k captures index ⟨start, length⟩

/-- What one group has captured does not interfere with another one. -/
theorem unaffected_set {i j : Fin maxGroups} (h : j ≠ i) (span : Option Span) :
    Unaffected 0 (fun captures => captures.set i span i.isLt) j :=
  fun _ _ _ => Vector.set_comm _ _ (Fin.val_ne_of_ne h)

/-! ## Searching the rest of a text -/

section Searching

variable {whole rest : Array UInt8} {k : Nat}

/-- A match in the rest is one in the whole, and the other way round.

**Proof sketch.** The ways of the whole are those of the rest, moved, and one of them is accepted
exactly if the other is, since the end of the rest is that of the whole. So the first of them that
is accepted is the same. -/
theorem Program.matchAt?_shift (p : Program) (h : IsRest whole rest k) {start : Nat}
    (hstart : start ≤ rest.size) :
    p.matchAt? whole (start + k) = (p.matchAt? rest start).map (Match.shift k) := by
  have haccepts : (fun w : Way whole (start + k) => p.accepts whole w.1) ∘ Way.move h (.shift k) =
      fun w : Way rest start => p.accepts rest w.1 := by
    funext w
    have hend : (w.1.1 + k == whole.size) = (w.1.1 == rest.size) := by
      rw [← h.size_add, Bool.eq_iff_iff, beq_iff_eq, beq_iff_eq]
      exact Nat.add_right_cancel_iff
    exact congrArg (!p.endAnchor || ·) hend
  have hways := Expression.ways_move (e := p.body) h (fun g _ => unaffected_shift k g.1) start
    hstart .empty
  rw [Captures.shift_empty] at hways
  rw [matchAt?_eq_find? p hstart, matchAt?_eq_find? p (h.add_le hstart), hways, List.find?_map,
    haccepts, Option.map_map, Option.map_map]
  congr 1
  funext w
  have hlength : w.1.1 + k - (start + k) = w.1.1 - start := Nat.add_sub_add_right ..
  simp only [Function.comp_apply, Way.move, Match.shift, Span.shift, hlength]

/-- **Matching does not look left of where it starts**: without a start anchor, the first match in a
text from position `k` on is the first match in the rest of the text behind this position, with its
span and the spans of its groups moved by `k`.

**Proof sketch.** At every position the ways to match are the same in both (`ways_move`), and the
end of the rest is the end of the text, so that the end anchor accepts the same ones. -/
theorem find?_extract {r : Regex} (hanchor : r.program.startAnchor = false) {text : Array UInt8}
    {k : Nat} (hk : k ≤ text.size) :
    r.find? text k = (r.find? (text.extract k text.size) 0).map (Match.shift k) := by
  have h := IsRest.extract hk
  have hstarts : r.program.starts text k =
      (r.program.starts (text.extract k text.size) 0).map (k + ·) := by
    have hpositions : text.size + 1 - k = (text.extract k text.size).size + 1 := by
      have hsize := h.size_add
      omega
    simp only [Program.starts, hanchor, Bool.false_eq_true, if_false, Nat.sub_zero, hpositions,
      List.map_add_range', Nat.add_zero]
  rw [find?, find?, Program.search_eq_findSome?, Program.search_eq_findSome?, hstarts,
    List.findSome?_map, List.map_findSome?]
  refine findSome?_congr fun start hstart => ?_
  rw [Function.comp_apply, Function.comp_apply, Nat.add_comm k start]
  exact r.program.matchAt?_shift h (Program.le_size_of_mem_starts hstart)

end Searching

/-- In `baxaab`, from the third byte on, `\(a*\)b$` finds the last three bytes, as in `xaab`. -/
theorem find?_extract_starBeforeEnd :
    let body : Expression := .group (0 : Fin 9) (.single (.literal (ascii 'a')) ⟨0, none⟩ .empty)
      .once (.single (.literal (ascii 'b')) .once .empty)
    let r : Regex := ⟨Line.ofString "\\(a*\\)b$", body, false, true, 1⟩
    let text := (Line.ofString "baxaab").toArray
    Regex.ofPattern r.pattern = .ok r ∧ r.program.startAnchor = false ∧ 2 ≤ text.size ∧
      r.find? text 2 = (r.find? (text.extract 2 text.size) 0).map (Match.shift 2) ∧
      r.find? text 2 = some ⟨⟨3, 3⟩, Captures.empty.set 0 (some ⟨3, 2⟩), 1⟩ :=
  ⟨by decide +kernel, rfl, by decide, find?_extract rfl (by decide), by decide +kernel⟩

end LineEditor.Regex
