import LineEditor.Proofs.Buffer.Identity

set_option autoImplicit false
set_option relaxedAutoImplicit false

/-!
# Where lines stand after an edit

An elementary edit takes every index to where its line goes. Here this is shown from the side of
the lines: if the identities of all lines are different, then the line of an identity stands after
the edit where `LineEditor.BlockEdit.follow` takes the index at which it stood before, and it is
gone if there is no such place.

All three edits are put down to one: a block is put into a list at some place. Inserting puts a new
block in, deleting takes one out that had been put in, and moving does one after the other.

## Main results

* `LineEditor.position?_insert`, `LineEditor.position?_remove`, `LineEditor.position?_move`: where
  lines stand after an edit.
-/

namespace LineEditor

/-! ## Looking up an identity -/

/-- An identity stands in the first of two lists, or behind it in the second. -/
theorem position?_append (xs ys : List TaggedLine) (identity : Nat) :
    position? (xs ++ ys) identity =
      (position? xs identity).or ((position? ys identity).map (· + xs.length)) :=
  List.findIdx?_append

/-- Only the identities of lines tell where they stand. -/
theorem position?_congr {xs ys : List TaggedLine} (h : identities xs = identities ys) :
    position? xs = position? ys := by
  funext identity
  have hmap : ∀ zs : List TaggedLine,
      position? zs identity = (identities zs).findIdx? (· == identity) := fun zs => by
    rw [identities, List.findIdx?_map]
    rfl
  rw [hmap, hmap, h]

/-- An identity stands nowhere exactly if no line has it. -/
theorem position?_eq_none_iff {xs : List TaggedLine} {identity : Nat} :
    position? xs identity = none ↔ identity ∉ identities xs := by
  simp only [position?, identities, List.findIdx?_eq_none_iff, List.mem_map, beq_eq_false_iff_ne]
  exact ⟨fun h ⟨line, hline, heq⟩ => h line hline heq, fun h line hline heq => h ⟨line, hline, heq⟩⟩

/-- Where it stands is a place of the list. -/
theorem lt_length_of_position? {xs : List TaggedLine} {identity i : Nat}
    (h : position? xs identity = some i) : i < xs.length := by
  obtain ⟨hlt, -⟩ := List.findIdx?_eq_some_iff_getElem.1 h
  exact hlt

/-- The line that is found has the identity that was looked for. -/
theorem identity_of_position? {xs : List TaggedLine} {identity i : Nat}
    (h : position? xs identity = some i) : xs[i]?.map (·.identity) = some identity := by
  obtain ⟨hlt, hidentity, -⟩ := List.findIdx?_eq_some_iff_getElem.1 h
  rw [List.getElem?_eq_getElem hlt, Option.map_some]
  exact congrArg some (beq_iff_eq.1 hidentity)

/-- If all identities are different, a line stands where it is found. -/
theorem position?_getElem {xs : List TaggedLine} (hnodup : (identities xs).Nodup) {i : Nat}
    (hi : i < xs.length) : position? xs xs[i].identity = some i := by
  rw [position?, List.findIdx?_eq_some_iff_getElem]
  refine ⟨hi, by simp, fun j hj => ?_⟩
  have hne := List.nodup_iff_pairwise_ne.1 hnodup
  simp only [identities, List.pairwise_map] at hne
  simpa using List.pairwise_iff_getElem.1 hne j i (by omega) hi hj

/-- The identities of new lines are new. -/
theorem identities_tagFrom (fresh : Nat) (texts : List Line) :
    identities (tagFrom fresh texts) = List.range' fresh texts.length := by
  induction texts generalizing fresh with
  | nil => rfl
  | cons text texts ih =>
    simp only [identities] at ih
    simp [tagFrom, identities, ih, List.range'_succ]

/-- Lines keep their texts when they get identities. -/
theorem texts_tagFrom (fresh : Nat) (texts : List Line) :
    (tagFrom fresh texts).map (·.text) = texts := by
  induction texts generalizing fresh with
  | nil => rfl
  | cons text texts ih => simp [tagFrom, ih]

/-- There are as many of them. -/
theorem length_tagFrom (fresh : Nat) (texts : List Line) :
    (tagFrom fresh texts).length = texts.length := by
  rw [← List.length_map (f := (·.text)), texts_tagFrom]

/-! ## A block that is put into a list -/

section PutAt

variable {xs block : List TaggedLine} {identity k : Nat}

/-- A line outside the block is moved up by it if it stands behind its start.

**Proof sketch.** The identity stands in front of the block or behind it, if it stands anywhere, and
is moved only in the second case. -/
theorem position?_putAt_of_not_mem (hk : k ≤ xs.length) (hblock : identity ∉ identities block) :
    position? (putAt k block xs) identity =
      (position? xs identity).map fun i => if k ≤ i then i + block.length else i := by
  have hnone := position?_eq_none_iff.2 hblock
  have hlen : (xs.take k).length = k := List.length_take_of_le hk
  have hxs := position?_append (xs.take k) (xs.drop k) identity
  rw [List.take_append_drop, hlen] at hxs
  rw [putAt, position?_append, position?_append, hnone, hxs]
  cases hfront : position? (xs.take k) identity with
  | some i =>
    have hi := lt_length_of_position? hfront
    simp only [Option.some_or, Option.map_some]
    rw [if_neg (by omega)]
  | none =>
    cases position? (xs.drop k) identity with
    | none => rfl
    | some i =>
      simp only [Option.map_none, Option.none_or, Option.map_some, List.length_append, hlen]
      rw [if_pos (Nat.le_add_left k i)]
      congr 1
      omega

/-- A line of the block stands behind the lines before the block. -/
theorem position?_putAt_of_mem (hk : k ≤ xs.length) (hxs : identity ∉ identities xs) :
    position? (putAt k block xs) identity = (position? block identity).map (k + ·) := by
  have hfront : position? (xs.take k) identity = none :=
    position?_eq_none_iff.2 fun h => hxs ((List.take_sublist k xs).map _ |>.mem h)
  have hback : position? (xs.drop k) identity = none :=
    position?_eq_none_iff.2 fun h => hxs ((List.drop_sublist k xs).map _ |>.mem h)
  rw [putAt, position?_append, position?_append, hfront, hback, List.length_take_of_le hk]
  cases position? block identity with
  | none => rfl
  | some i => simp [Nat.add_comm]

end PutAt

/-- Putting a block in changes only the order of the lines. -/
theorem putAt_perm {α : Type} (k : Nat) (block xs : List α) :
    (putAt k block xs).Perm (block ++ xs) := by
  rw [putAt, List.append_assoc]
  refine (List.perm_append_comm_assoc ..).trans (List.Perm.append_left block ?_)
  rw [List.take_append_drop]

/-- A block that is put behind the line of an identity begins one place behind this line.

**Proof sketch.** By induction on the lines, up to the first one with the identity. -/
theorem putBehind_eq {block lines : List TaggedLine} {identity i : Nat}
    (h : position? lines identity = some i) :
    TaggedBuffer.putBehind identity block lines = putAt (i + 1) block lines := by
  induction lines generalizing i with
  | nil => simp [position?] at h
  | cons line lines ih =>
    rw [position?, List.findIdx?_cons] at h
    rw [TaggedBuffer.putBehind]
    by_cases heq : line.identity = identity
    · rw [if_pos (by simpa using heq)] at h
      obtain rfl := Option.some.inj h
      rw [if_pos heq]
      rfl
    · rw [if_neg (by simpa using heq)] at h
      obtain ⟨j, hj, rfl⟩ := Option.map_eq_some_iff.1 h
      rw [if_neg heq, ih hj]
      rfl

/-! ## Ranges -/

section Range

variable {α : Type} {r : LineRange} {xs : List α}

/-- A range has as many lines as its size says. -/
theorem length_inside (hr : r.first ≤ r.last) (hlast : r.last < xs.length) :
    (r.inside xs).length = r.size := by
  simp only [LineRange.inside, LineRange.size, List.length_take, List.length_drop]
  omega

/-- So many fewer are left outside of it. -/
theorem length_outside (hr : r.first ≤ r.last) (hlast : r.last < xs.length) :
    (r.outside xs).length + r.size = xs.length := by
  simp only [LineRange.outside, LineRange.size, List.length_append, List.length_take,
    List.length_drop]
  omega

/-- A list is what is outside a range with what is inside put in. -/
theorem putAt_outside (hr : r.first ≤ r.last) (hlast : r.last < xs.length) :
    putAt r.first (r.inside xs) (r.outside xs) = xs := by
  have hlen : (xs.take r.first).length = r.first := List.length_take_of_le (by omega)
  have hback : xs.drop (r.last + 1) = (xs.drop r.first).drop r.size := by
    rw [List.drop_drop, LineRange.size]
    congr 1
    omega
  rw [putAt, LineRange.outside, List.take_left' hlen, List.drop_left' hlen, hback,
    List.append_assoc, LineRange.inside, List.take_append_drop, List.take_append_drop]

end Range

/-! ## The elementary edits -/

section Edit

variable {lines : List TaggedLine} {identity : Nat}

/-- Inserting a block takes the lines where it takes their indices. -/
theorem position?_insert {start : Nat} {block : List TaggedLine} {texts : Array Line}
    (hstart : start ≤ lines.length) (hnew : identity ∉ identities block)
    (hsize : texts.size = block.length) :
    position? (putAt start block lines) identity =
      (position? lines identity).bind (BlockEdit.insert start texts).follow := by
  rw [position?_putAt_of_not_mem hstart hnew, ← hsize]
  cases position? lines identity <;> rfl

variable {r : LineRange}

/-- No line stands both in a range and outside of it.

**Proof sketch.** The lines of the range, put back among the others, are all lines, whose identities
are different. -/
theorem not_mem_outside_of_mem_inside (hnodup : (identities lines).Nodup) (hr : r.first ≤ r.last)
    (hlast : r.last < lines.length) (h : identity ∈ identities (r.inside lines)) :
    identity ∉ identities (r.outside lines) := by
  have hsplit := List.take_append_drop r.first (r.outside lines)
  rw [← putAt_outside hr hlast, putAt, identities, List.map_append, List.map_append,
    List.nodup_append, List.nodup_append] at hnodup
  obtain ⟨⟨-, -, hfront⟩, -, hback⟩ := hnodup
  rw [← hsplit, identities, List.map_append, List.mem_append]
  rintro (hmem | hmem)
  · exact hfront _ hmem _ h rfl
  · exact hback _ (List.mem_append_right _ h) _ hmem rfl

/-- Where a line stood before a range was taken out, if it is not in the range. -/
theorem position?_eq_of_not_mem_inside (hr : r.first ≤ r.last) (hlast : r.last < lines.length)
    (h : identity ∉ identities (r.inside lines)) :
    position? lines identity =
      (position? (r.outside lines) identity).map fun i =>
        if r.first ≤ i then i + r.size else i := by
  have hlen := length_outside hr hlast
  have hput : position? (putAt r.first (r.inside lines) (r.outside lines)) identity =
      (position? (r.outside lines) identity).map fun i =>
        if r.first ≤ i then i + (r.inside lines).length else i :=
    position?_putAt_of_not_mem (by simp only [LineRange.size] at hlen; omega) h
  rwa [putAt_outside hr hlast, length_inside hr hlast] at hput

/-- Where a line stood before a range was taken out, if it is in the range. -/
theorem position?_eq_of_mem_inside (hnodup : (identities lines).Nodup) (hr : r.first ≤ r.last)
    (hlast : r.last < lines.length) (h : identity ∈ identities (r.inside lines)) :
    position? lines identity = (position? (r.inside lines) identity).map (r.first + ·) := by
  have hlen := length_outside hr hlast
  have hput : position? (putAt r.first (r.inside lines) (r.outside lines)) identity =
      (position? (r.inside lines) identity).map (r.first + ·) :=
    position?_putAt_of_mem (by simp only [LineRange.size] at hlen; omega)
      (not_mem_outside_of_mem_inside hnodup hr hlast h)
  rwa [putAt_outside hr hlast] at hput

/-- Deleting a range takes the other lines where it takes their indices, and those of the range
nowhere.

**Proof sketch.** A line of the range stands nowhere any more, and its index is taken nowhere. Any
other is moved up by the range if it stands behind it. -/
theorem position?_outside (hnodup : (identities lines).Nodup) (hr : r.first ≤ r.last)
    (hlast : r.last < lines.length) :
    position? (r.outside lines) identity =
      (position? lines identity).bind (BlockEdit.delete r : BlockEdit Line).follow := by
  by_cases h : identity ∈ identities (r.inside lines)
  · rw [position?_eq_none_iff.2 (not_mem_outside_of_mem_inside hnodup hr hlast h),
      position?_eq_of_mem_inside hnodup hr hlast h]
    cases hi : position? (r.inside lines) identity with
    | none => rfl
    | some i =>
      have hlt := lt_length_of_position? hi
      rw [length_inside hr hlast, LineRange.size] at hlt
      simp only [Option.map_some, Option.bind_some, BlockEdit.follow]
      rw [if_neg (by omega), if_pos (by omega)]
  · rw [position?_eq_of_not_mem_inside hr hlast h]
    cases position? (r.outside lines) identity with
    | none => rfl
    | some i =>
      simp only [Option.map_some, Option.bind_some, BlockEdit.follow, LineRange.size]
      split
      · rw [if_neg (by omega), if_neg (by omega), Nat.add_sub_cancel]
      · rw [if_pos (by omega)]

/-- Moving a range takes all lines where it takes their indices.

**Proof sketch.** A line of the range stands in the block, as far from its beginning as it stood
from that of the range. Any other is first moved up by the range that is taken out, and then down by
the block that is put in, which makes four cases. -/
theorem position?_move {start : Nat} (hnodup : (identities lines).Nodup) (hr : r.first ≤ r.last)
    (hlast : r.last < lines.length) (hstart : start ≤ (r.outside lines).length) :
    position? (putAt start (r.inside lines) (r.outside lines)) identity =
      (position? lines identity).bind (BlockEdit.move r start : BlockEdit Line).follow := by
  by_cases h : identity ∈ identities (r.inside lines)
  · rw [position?_putAt_of_mem hstart (not_mem_outside_of_mem_inside hnodup hr hlast h),
      position?_eq_of_mem_inside hnodup hr hlast h]
    cases hi : position? (r.inside lines) identity with
    | none => rfl
    | some i =>
      have hlt := lt_length_of_position? hi
      rw [length_inside hr hlast, LineRange.size] at hlt
      simp only [Option.map_some, Option.bind_some, BlockEdit.follow, LineRange.contains,
        Bool.and_eq_true, decide_eq_true_eq]
      rw [if_pos (by omega)]
      congr 1
      omega
  · rw [position?_putAt_of_not_mem hstart h, position?_eq_of_not_mem_inside hr hlast h,
      length_inside hr hlast]
    cases position? (r.outside lines) identity with
    | none => rfl
    | some i =>
      simp only [Option.map_some, Option.bind_some, BlockEdit.follow, LineRange.contains,
        Bool.and_eq_true, decide_eq_true_eq]
      have hsize : r.size = r.last - r.first + 1 := rfl
      by_cases hfirst : r.first ≤ i <;> by_cases hle : start ≤ i
      · rw [if_pos hle, if_pos hfirst, if_neg (by omega), if_neg (by omega), if_neg (by omega)]
      · rw [if_neg hle, if_pos hfirst, if_neg (by omega), if_neg (by omega), if_pos (by omega),
          Nat.add_sub_cancel]
      · rw [if_pos hle, if_neg hfirst, if_neg (by omega), if_pos (by omega)]
      · rw [if_neg hle, if_neg hfirst, if_neg (by omega), if_neg (by omega), if_neg (by omega)]

end Edit

end LineEditor
