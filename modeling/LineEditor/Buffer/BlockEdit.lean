set_option autoImplicit false
set_option relaxedAutoImplicit false

/-!
# Elementary edits of an array

Every change to the lines of a buffer is made of three elementary ones: a block is inserted, a
range is deleted, or a range is moved. An edit acts on the array and on its indices: an index
follows the element that it belongs to, and is lost with it. Indices start from 0. What stands
before an edit is not copied if nothing else holds the array, and neither is what stands behind it
if it is of a single element.

## Main definitions

* `LineEditor.LineRange`: a range of indices.
* `LineEditor.BlockEdit`: the elementary edits.
* `LineEditor.BlockEdit.apply`: what an edit does to an array.
* `LineEditor.BlockEdit.follow`: where an edit takes an index.
* `LineEditor.BlockEdit.followAll`: where it takes several.

## Main statements

* `LineEditor.LineRange.remove_eq`, `LineEditor.insertBlock_eq`: arrays without a range and with a
  block, in parts.
* `LineEditor.BlockEdit.followAll_eq`: several indices go where each of them goes.
-/

namespace LineEditor

/-- The indices from `first` to `last`, both included. -/
structure LineRange where
  /-- The first index. -/
  first : Nat
  /-- The last index. -/
  last : Nat
  deriving Repr, DecidableEq

namespace LineRange

/-- The range of one index. -/
def single (index : Nat) : LineRange := ⟨index, index⟩

/-- The number of indices in a range that is not empty. -/
def size (r : LineRange) : Nat := r.last - r.first + 1

/-- Whether an index is in the range. -/
def contains (r : LineRange) (index : Nat) : Bool := r.first ≤ index && index ≤ r.last

/-- The elements of an array at the indices of the range. -/
def slice {α : Type} (r : LineRange) (xs : Array α) : Array α := xs.extract r.first (r.last + 1)

/-- The elements of an array at other indices. -/
def remove {α : Type} (r : LineRange) (xs : Array α) : Array α :=
  if r.last = r.first then xs.eraseIdxIfInBounds r.first
  else
    let after := xs.extract (r.last + 1) xs.size
    xs.shrink r.first ++ after

/-- What is left when a range is removed is what stands before it and behind it.

**Proof sketch.** One element is erased in place; a longer range is cut out. Both come to the same
lists. -/
theorem remove_eq {α : Type} (r : LineRange) (xs : Array α) :
    r.remove xs = xs.extract 0 r.first ++ xs.extract (r.last + 1) xs.size := by
  unfold remove
  split
  · rename_i h
    have hafter : (xs.toList.drop (r.first + 1)).take (xs.size - (r.first + 1)) =
        xs.toList.drop (r.first + 1) := List.take_of_length_le (by simp)
    apply Array.ext'
    simp [h, List.eraseIdx_eq_take_drop_succ, hafter]
  · simp only [Array.shrink_eq_take, Array.take_eq_extract]

/-- The indices of the range in ascending order. -/
def indices (r : LineRange) : List Nat := List.range' r.first r.size

end LineRange

/-- The elementary edits of an array. -/
inductive BlockEdit (α : Type) where
  /-- A block is inserted, so that its first element has the index `start`. -/
  | insert (start : Nat) (block : Array α)
  /-- A range is deleted. -/
  | delete (range : LineRange)
  /-- A range is taken out and put back in, so that its first element has the index `start`. -/
  | move (range : LineRange) (start : Nat)
  deriving Repr, DecidableEq

/-- An array with a block inserted at an index. -/
def insertBlock {α : Type} (start : Nat) (block xs : Array α) : Array α :=
  if h : start ≤ xs.size ∧ block.size = 1 then xs.insertIdx start block[0] h.1
  else
    let after := xs.extract start xs.size
    xs.shrink start ++ block ++ after

/-- An element that is inserted into a list stands between the parts of the list before and behind
it.

**Proof sketch.** Induction on the list, for all indices. -/
theorem insertIdx_eq {α : Type} {start : Nat} {xs : List α} (x : α) (h : start ≤ xs.length) :
    xs.insertIdx start x = xs.take start ++ x :: xs.drop start := by
  induction xs generalizing start with
  | nil => simp_all
  | cons y xs ih =>
    cases start with
    | zero => rfl
    | succ start => simp [ih (Nat.le_of_succ_le_succ h)]

/-- An array with a block inserted has the block between its parts before and behind the index.

**Proof sketch.** A block of one element is inserted in place, which is `insertIdx_eq` for the list;
a longer one is put between the two parts as they are. -/
theorem insertBlock_eq {α : Type} (start : Nat) (block xs : Array α) :
    insertBlock start block xs = xs.extract 0 start ++ block ++ xs.extract start xs.size := by
  unfold insertBlock
  split
  · rename_i h
    obtain ⟨x, rfl⟩ := Array.size_eq_one_iff.1 h.2
    have hafter : (xs.toList.drop start).take (xs.size - start) = xs.toList.drop start :=
      List.take_of_length_le (by simp)
    apply Array.ext'
    simp [insertIdx_eq x (show start ≤ xs.toList.length from h.1), hafter]
  · simp only [Array.shrink_eq_take, Array.take_eq_extract]

namespace BlockEdit

variable {α : Type}

/-- What an edit does to an array. -/
def apply (edit : BlockEdit α) (xs : Array α) : Array α :=
  match edit with
  | insert start block => insertBlock start block xs
  | delete range => range.remove xs
  | move range start => insertBlock start (range.slice xs) (range.remove xs)

/-- Where an edit takes an index; `none` if the element is deleted. -/
def follow (edit : BlockEdit α) (index : Nat) : Option Nat :=
  match edit with
  | insert start block => some (if start ≤ index then index + block.size else index)
  | delete range =>
    if index < range.first then some index
    else if index ≤ range.last then none
    else some (index - range.size)
  | move range start =>
    if range.contains index then some (start + (index - range.first))
    else if start ≤ index ∧ index < range.first then some (index + range.size)
    else if range.last < index ∧ index < start + range.size then some (index - range.size)
    else some index

/-- An index such that an edit leaves all smaller ones where they are. -/
def first (edit : BlockEdit α) : Nat :=
  match edit with
  | insert start _ => start
  | delete range => range.first
  | move range start => min (min range.first range.last) start

/-- An index before all that an edit touches stays.

**Proof sketch.** One case for each kind of edit, by its conditions on the index. -/
theorem follow_of_lt_first {edit : BlockEdit α} {index : Nat} (h : index < edit.first) :
    edit.follow index = some index := by
  cases edit with
  | insert start block =>
    simp only [first] at h
    rw [follow, if_neg (Nat.not_le.2 h)]
  | delete range =>
    simp only [first] at h
    rw [follow, if_pos h]
  | move range start =>
    simp only [first, Nat.lt_min] at h
    simp only [follow, LineRange.contains, Bool.and_eq_true, decide_eq_true_eq]
    rw [if_neg (by omega), if_neg (by omega), if_neg (by omega)]

/-- Where an edit takes indices, without those that are lost. -/
def followAll (edit : BlockEdit α) (indices : Array Nat) : Array Nat :=
  if indices.all (· < edit.first) then indices
  else
    match edit with
    | delete range => indices.filterMap (delete (α := α) range).follow
    | edit => indices.map fun index => (edit.follow index).getD index

/-- If an index always leads somewhere, following all of them forgets none. -/
theorem map_getD_eq {f : Nat → Option Nat} (hf : ∀ index, (f index).isSome) (indices : Array Nat) :
    indices.map (fun index => (f index).getD index) = indices.filterMap f := by
  have h : f = some ∘ fun index => (f index).getD index := by
    funext index
    obtain ⟨_, hindex⟩ := Option.isSome_iff_exists.1 (hf index)
    simp [hindex]
  rw [h, Array.filterMap_eq_map rfl]
  simp

/-- **Following all indices is following each of them**, without those whose elements are deleted.

**Proof sketch.** If all indices are before the edit, they stay (`follow_of_lt_first`), by induction
on them. Otherwise only a deletion can drop an index; insertions and moves lead every index
somewhere (`map_getD_eq`). -/
theorem followAll_eq (edit : BlockEdit α) (indices : Array Nat) :
    edit.followAll indices = indices.filterMap edit.follow := by
  unfold followAll
  split
  · rename_i h
    have hfollow : ∀ index ∈ indices.toList, edit.follow index = some index := fun index hindex =>
      follow_of_lt_first (by simpa using Array.all_eq_true'.1 h index (by simpa using hindex))
    apply Array.ext'
    rw [Array.toList_filterMap]
    generalize indices.toList = xs at hfollow
    induction xs with
    | nil => rfl
    | cons index xs ih =>
      rw [List.filterMap_cons_some (hfollow index (by simp)),
        ← ih fun index hindex => hfollow index (List.mem_cons_of_mem _ hindex)]
  · cases edit with
    | insert start block => exact map_getD_eq (fun _ => rfl) indices
    | delete range => rfl
    | move range start =>
      refine map_getD_eq (fun index => ?_) indices
      simp only [follow]
      split
      · rfl
      · split
        · rfl
        · split <;> rfl

end BlockEdit

end LineEditor
