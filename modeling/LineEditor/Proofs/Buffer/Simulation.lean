import Mathlib.Data.List.Basic
import LineEditor.Proofs.Buffer.Equations
import LineEditor.Proofs.Buffer.Position

set_option autoImplicit false
set_option relaxedAutoImplicit false

/-!
# Indices stay on their lines

A buffer refers to its lines by indices and moves all of them along with every edit. It stays in
step with lines that have identities: the texts are the same, and every index is the place where
the line of an identity stands.

Marks can be followed at some of the letters only, since a mark that is no index of a line has no
identity that it could stand for.

## Main definitions

* `LineEditor.Simulates`: a buffer and lines with identities agree.

## Main results

* `LineEditor.Simulates.relocate`: what every edit has to show for both to agree afterwards.
* `LineEditor.Simulates.insertLines`, `deleteLines`, `move`, `join` and so on: that it does.
-/

namespace LineEditor

/-- Lines and marks are those of lines with identities below `fresh`, the marks at some places. -/
structure Labels (fresh : Nat) (places : Set (Fin letterCount)) (lines : Array Line)
    (marks : Marks) (t : TaggedSnapshot) : Prop where
  /-- The texts are the same. -/
  texts : lines.toList = t.lines.map (·.text)
  /-- No two lines have the same identity. -/
  nodup : (identities t.lines).Nodup
  /-- The identities are not new. -/
  lt_fresh : ∀ identity ∈ identities t.lines, identity < fresh
  /-- A mark is where the marked line stands, if it still exists. -/
  marks : ∀ place ∈ places,
    getElem marks place place.isLt = (getElem t.marks place place.isLt).bind (position? t.lines)
  /-- The marked identities are not new. -/
  marks_lt : ∀ place ∈ places, ∀ identity ∈ getElem t.marks place place.isLt, identity < fresh

/-- A buffer has the lines of a buffer with identities, and its indices are where they stand. -/
structure Simulates (places : Set (Fin letterCount)) (b : LineBuffer) (n : TaggedBuffer) :
    Prop where
  /-- The lines and the marks agree. -/
  live : Labels n.fresh places b.lines b.marks n.toTaggedSnapshot
  /-- There is a snapshot in both or in none, and the two agree. -/
  saved : Option.Rel (fun s t => Labels n.fresh places s.lines s.marks t) b.saved n.saved
  /-- The pending indices are where the pending lines stand that still exist. -/
  targets : b.targets.toList = n.pending
  /-- The pending identities are not new. -/
  targets_lt : ∀ identity ∈ n.targets, identity < n.fresh

variable {places : Set (Fin letterCount)}

/-- Labels below a number are below every greater one. -/
theorem Labels.mono {fresh fresh' : Nat} {lines : Array Line} {marks : Marks} {t : TaggedSnapshot}
    (h : Labels fresh places lines marks t) (hle : fresh ≤ fresh') :
    Labels fresh' places lines marks t where
  texts := h.texts
  nodup := h.nodup
  lt_fresh identity hmem := Nat.lt_of_lt_of_le (h.lt_fresh identity hmem) hle
  marks := h.marks
  marks_lt place hplace identity hmem :=
    Nat.lt_of_lt_of_le (h.marks_lt place hplace identity hmem) hle

/-- So are those of what is saved. -/
theorem saved_mono {fresh fresh' : Nat} {s : Option Snapshot} {t : Option TaggedSnapshot}
    (h : Option.Rel (fun s t => Labels fresh places s.lines s.marks t) s t)
    (hle : fresh ≤ fresh') :
    Option.Rel (fun s t => Labels fresh' places s.lines s.marks t) s t := by
  cases h with
  | none => exact .none
  | some hsnapshot => exact .some (hsnapshot.mono hle)

/-- There are as many lines as texts. -/
theorem Labels.size {fresh : Nat} {lines : Array Line} {marks : Marks} {t : TaggedSnapshot}
    (h : Labels fresh places lines marks t) : lines.size = t.lines.length := by
  rw [← Array.length_toList, h.texts, List.length_map]

/-! ## Arrays of lines as lists -/

section Arrays

variable {α : Type}

/-- Inserting a block puts its lines at its place. -/
theorem toList_insertBlock (start : Nat) (block xs : Array α) :
    (insertBlock start block xs).toList = putAt start block.toList xs.toList := by
  rw [insertBlock_eq]
  have hback : (xs.toList.drop start).take (xs.size - start) = xs.toList.drop start :=
    List.take_of_length_le (by simp)
  simp [putAt, hback]

/-- Removing a range leaves the lines outside of it. -/
theorem toList_remove (r : LineRange) (xs : Array α) :
    (r.remove xs).toList = r.outside xs.toList := by
  rw [LineRange.remove_eq]
  have hback : (xs.toList.drop (r.last + 1)).take (xs.size - (r.last + 1)) =
      xs.toList.drop (r.last + 1) := List.take_of_length_le (by simp)
  simp [LineRange.outside, hback]

/-- The lines of a range are those inside of it. -/
theorem toList_slice {r : LineRange} (hr : r.first ≤ r.last) (xs : Array α) :
    (r.slice xs).toList = r.inside xs.toList := by
  have hsize : r.last + 1 - r.first = r.size := by
    unfold LineRange.size
    omega
  simp [LineRange.slice, LineRange.inside, hsize]

/-- A function of each line may be applied before or after a block is put in. -/
theorem map_putAt {β : Type} (f : α → β) (k : Nat) (block xs : List α) :
    (putAt k block xs).map f = putAt k (block.map f) (xs.map f) := by
  simp [putAt]

/-- It may be applied before or after a range is taken out. -/
theorem map_outside {β : Type} (f : α → β) (r : LineRange) (xs : List α) :
    (r.outside xs).map f = r.outside (xs.map f) := by
  simp [LineRange.outside]

/-- It may be applied before or after the lines of a range are looked at. -/
theorem map_inside {β : Type} (f : α → β) (r : LineRange) (xs : List α) :
    (r.inside xs).map f = r.inside (xs.map f) := by
  simp [LineRange.inside]

end Arrays

namespace TaggedBuffer

/-- The last line that is to be visited and still exists stands at the last pending place.

**Proof sketch.** The pending places are where the live identities stand, and each of these does
stand somewhere; so the last of the one list belongs to the last of the other. -/
theorem pending_of_live (n : TaggedBuffer) :
    n.pending.getLast? = n.live.getLast?.bind (position? n.lines) ∧
      n.live.dropLast.filterMap (position? n.lines) = n.pending.dropLast := by
  have hpending : n.pending = n.live.filterMap (position? n.lines) := by
    rw [pending, live, List.filterMap_filter]
    refine List.filterMap_congr fun identity _ => ?_
    cases position? n.lines identity <;> rfl
  have hlive : ∀ identity ∈ n.live, (position? n.lines identity).isSome := fun identity hmem =>
    (List.mem_filter.1 hmem).2
  rw [hpending]
  rcases List.eq_nil_or_concat n.live with hnil | ⟨front, identity, hconcat⟩
  · rw [hnil]
    exact ⟨rfl, rfl⟩
  · obtain ⟨i, hi⟩ := Option.isSome_iff_exists.1 (hlive identity (by simp [hconcat]))
    rw [hconcat]
    simp [List.filterMap_append, hi]

/-- The last pending place is where the last live identity stands. -/
theorem getLast?_pending (n : TaggedBuffer) :
    n.pending.getLast? = n.live.getLast?.bind (position? n.lines) :=
  n.pending_of_live.1

/-- Without that identity, the other places are still pending. -/
theorem pending_dropTarget (n : TaggedBuffer) : n.dropTarget.pending = n.pending.dropLast :=
  n.pending_of_live.2

/-- A line keeps its identity when it gets another text. -/
theorem identities_retext (n : TaggedBuffer) (index : Nat) (text : Line) :
    identities (n.retext index text).lines = identities n.lines := by
  apply List.ext_getElem?
  intro i
  simp only [retext, identities, List.getElem?_map, List.getElem?_modify]
  cases n.lines[i]? with
  | none => rfl
  | some line => by_cases heq : index = i <;> simp [heq]

end TaggedBuffer

/-! ## A buffer by itself -/

/-- The marks at some places are indices of lines. -/
def Marks.InRange (marks : Marks) (places : Set (Fin letterCount)) (size : Nat) : Prop :=
  ∀ place ∈ places, ∀ index ∈ getElem marks place place.isLt, index < size

/-- All indices of a buffer are those of lines, the marks at some places. -/
structure LineBuffer.InRange (b : LineBuffer) (places : Set (Fin letterCount)) : Prop where
  /-- The marks are. -/
  marks : b.marks.InRange places b.size
  /-- The marks that undoing brings back are. -/
  saved : ∀ s ∈ b.saved, s.marks.InRange places s.lines.size
  /-- The pending indices are. -/
  targets : ∀ index ∈ b.targets.toList, index < b.size

/-- Lines that get identities are counted from the first of them on. -/
theorem identity_tagFrom {fresh index : Nat} {texts : List Line} (h : index < texts.length) :
    (tagFrom fresh texts)[index]?.map (·.identity) = some (fresh + index) := by
  have hidentities := identities_tagFrom fresh texts
  rw [← List.getElem?_map]
  change (identities (tagFrom fresh texts))[index]? = _
  rw [hidentities, List.getElem?_range' h, Nat.one_mul]

/-- So each of them stands where its identity says.

**Proof sketch.** The identities of the lines are distinct, and the one at that place is known from
`identity_tagFrom`. -/
theorem position?_tagFrom {fresh index : Nat} {texts : List Line} (h : index < texts.length) :
    position? (tagFrom fresh texts) (fresh + index) = some index := by
  have hlt : index < (tagFrom fresh texts).length := by rwa [length_tagFrom]
  have hidentity : (tagFrom fresh texts)[index]?.map (·.identity) = some (fresh + index) :=
    identity_tagFrom h
  rw [List.getElem?_eq_getElem hlt] at hidentity
  rw [← Option.some.inj hidentity]
  exact position?_getElem (identities_tagFrom fresh texts ▸ List.nodup_range') hlt

/-- Lines agree with themselves when they get identities.

**Proof sketch.** The identities count from `fresh` on, so that they are distinct, below `fresh'`,
and each stands at the place of its line. A mark is therefore found where it was. -/
theorem Labels.ofLines {fresh fresh' : Nat} {lines : Array Line} {marks : Marks}
    (hmarks : marks.InRange places lines.size) (hfresh : fresh + lines.size ≤ fresh') :
    Labels fresh' places lines marks (.ofLines fresh lines marks) where
  texts := (texts_tagFrom fresh lines.toList).symm
  nodup := by
    rw [TaggedSnapshot.ofLines, identities_tagFrom]
    exact List.nodup_range'
  lt_fresh identity hmem := by
    rw [TaggedSnapshot.ofLines, identities_tagFrom, List.mem_range'_1, Array.length_toList] at hmem
    omega
  marks place hplace := by
    have hrange := hmarks place hplace
    rw [TaggedSnapshot.ofLines, Fin.getElem_fin, Fin.getElem_fin, Vector.getElem_map,
      ← Fin.getElem_fin]
    cases hmark : marks[place] with
    | none => rfl
    | some index => exact (position?_tagFrom (hrange index hmark)).symm
  marks_lt place hplace identity hmem := by
    have hrange := hmarks place hplace
    rw [TaggedSnapshot.ofLines, Fin.getElem_fin, Vector.getElem_map, ← Fin.getElem_fin] at hmem
    obtain ⟨index, hindex, rfl⟩ := Option.map_eq_some_iff.1 hmem
    have hlt := hrange index hindex
    omega

/-- A buffer agrees with itself when its lines get identities.

**Proof sketch.** The lines get the identities from 0 on, so that an index is its own place. What is
saved gets others behind these. -/
theorem Simulates.ofBuffer {b : LineBuffer} (h : b.InRange places) :
    Simulates places b (.ofBuffer b) where
  live := Labels.ofLines h.marks (by simp [TaggedBuffer.ofBuffer, LineBuffer.size])
  saved := by
    rw [TaggedBuffer.ofBuffer]
    cases hsaved : b.saved with
    | none => exact .none
    | some s => exact .some (Labels.ofLines (h.saved s hsaved) (Nat.le_refl _))
  targets := by
    refine Eq.symm ((List.filterMap_congr fun index hmem => ?_).trans List.filterMap_some)
    have hposition : position? (tagFrom 0 b.lines.toList) (0 + index) = some index :=
      position?_tagFrom (h.targets index hmem)
    rwa [Nat.zero_add] at hposition
  targets_lt index hmem := Nat.lt_of_lt_of_le (h.targets index hmem) (Nat.le_add_right ..)

/-- At first the identity of a line is its index. -/
theorem TaggedBuffer.targets_setTargets_ofBuffer {b : LineBuffer} {indices : List Nat}
    (h : ∀ index ∈ indices, index < b.size) :
    ((ofBuffer b).setTargets indices).targets = indices := by
  refine (List.filterMap_congr fun index hmem => ?_).trans List.filterMap_some
  have hidentity : (tagFrom 0 b.lines.toList)[index]?.map (·.identity) = some (0 + index) :=
    identity_tagFrom (h index hmem)
  rwa [Nat.zero_add] at hidentity

/-- No index of a new buffer is out of range. -/
theorem LineBuffer.inRange_ofLines (lines : List Line) : (ofLines lines).InRange places where
  marks place _ index hmem := by simp [ofLines, Marks.empty] at hmem
  saved _ hmem := by simp [ofLines] at hmem
  targets _ hmem := by simp [ofLines] at hmem

namespace Simulates

variable {b b' : LineBuffer} {n n' : TaggedBuffer}

/-- There are as many lines in both. -/
theorem size (h : Simulates places b n) : b.size = n.lines.length := h.live.size

/-- **Lines may be moved about** if marks and pending indices are taken where the lines go.

**Proof sketch.** Where an identity stands is a function of where it stood, the same for all of
them. Marks and pending places are taken along by that function, so that they are still where their
identities stand. -/
theorem relocate (h : Simulates places b n) (f : Nat → Option Nat)
    (hfresh : n.fresh ≤ n'.fresh)
    (htexts : b'.lines.toList = n'.lines.map (·.text))
    (hnodup : (identities n'.lines).Nodup)
    (hlt : ∀ identity ∈ identities n'.lines, identity < n'.fresh)
    (hposition : ∀ identity < n.fresh,
      position? n'.lines identity = (position? n.lines identity).bind f)
    (hmarks : b'.marks = b.marks.map (·.bind f))
    (htargets : b'.targets.toList = b.targets.toList.filterMap f)
    (hsaved : b'.saved = b.saved)
    (hn : n'.marks = n.marks ∧ n'.targets = n.targets ∧ n'.saved = n.saved) :
    Simulates places b' n' where
  live :=
    { texts := htexts
      nodup := hnodup
      lt_fresh := hlt
      marks := fun place hplace => by
        rw [hn.1, hmarks, Fin.getElem_fin, Vector.getElem_map, ← Fin.getElem_fin,
          h.live.marks place hplace]
        cases hmark : n.marks[place] with
        | none => rfl
        | some identity =>
          exact (hposition identity (h.live.marks_lt place hplace identity hmark)).symm
      marks_lt := fun place hplace identity hmem =>
        Nat.lt_of_lt_of_le (h.live.marks_lt place hplace identity (hn.1 ▸ hmem)) hfresh }
  saved := by
    rw [hsaved, hn.2.2]
    exact saved_mono h.saved hfresh
  targets := by
    rw [htargets, h.targets, TaggedBuffer.pending, TaggedBuffer.pending, hn.2.1,
      List.filterMap_filterMap]
    exact List.filterMap_congr fun identity hmem =>
      (hposition identity (h.targets_lt identity hmem)).symm
  targets_lt identity hmem := Nat.lt_of_lt_of_le (h.targets_lt identity (hn.2.1 ▸ hmem)) hfresh

/-- An elementary edit takes marks and pending indices where it takes the lines, so only the lines
have to be looked at.

**Proof sketch.** By `relocate`, with the function that takes an index along with the edit. -/
theorem edit (h : Simulates places b n) (e : BlockEdit Line) (hfresh : n.fresh ≤ n'.fresh)
    (htexts : (e.apply b.lines).toList = n'.lines.map (·.text))
    (hnodup : (identities n'.lines).Nodup)
    (hlt : ∀ identity ∈ identities n'.lines, identity < n'.fresh)
    (hposition : ∀ identity < n.fresh,
      position? n'.lines identity = (position? n.lines identity).bind e.follow)
    (hn : n'.marks = n.marks ∧ n'.targets = n.targets ∧ n'.saved = n.saved) :
    Simulates places (b.edit e) n' :=
  h.relocate e.follow hfresh htexts hnodup hlt hposition rfl
    (by rw [LineBuffer.edit, BlockEdit.followAll_eq, Array.toList_filterMap]) rfl hn

/-- Inserting lines is inserting lines with new identities.

**Proof sketch.** The identities of the new lines are fresh, so that they are in no line yet. The
lines before and behind them keep theirs, and where they stand is told by the edit. -/
theorem insertLines (h : Simulates places b n) {start : Nat} (hstart : start ≤ b.size)
    (block : Array Line) :
    Simulates places (b.insertLines start block) (n.insertFresh start block.toList) := by
  have hlen := h.size
  unfold LineBuffer.insertLines
  split
  · rename_i hempty
    obtain rfl : block = #[] := Array.isEmpty_iff.1 hempty
    simpa [TaggedBuffer.insertFresh, putAt, tagFrom] using h
  · have hperm : (identities (n.insertFresh start block.toList).lines).Perm
        (List.range' n.fresh block.toList.length ++ identities n.lines) := by
      rw [← identities_tagFrom]
      simp only [identities, ← List.map_append]
      exact (putAt_perm ..).map _
    refine h.edit _ (Nat.le_add_right ..) ?_ ?_ ?_ ?_ ⟨rfl, rfl, rfl⟩
    · rw [BlockEdit.apply, toList_insertBlock, h.live.texts, TaggedBuffer.insertFresh, map_putAt,
        texts_tagFrom]
    · rw [hperm.nodup_iff, List.nodup_append]
      refine ⟨List.nodup_range', h.live.nodup, fun i hi j hj => ?_⟩
      have hj := h.live.lt_fresh j hj
      have hi := (List.mem_range'_1.1 hi).1
      omega
    · intro identity hmem
      rw [hperm.mem_iff, List.mem_append] at hmem
      rcases hmem with hmem | hmem
      · exact (List.mem_range'_1.1 hmem).2
      · exact Nat.lt_of_lt_of_le (h.live.lt_fresh identity hmem) (Nat.le_add_right ..)
    · intro identity hlt
      refine position?_insert (by omega) ?_ (by rw [length_tagFrom, Array.length_toList])
      rw [identities_tagFrom, List.mem_range'_1]
      omega

/-- The identities outside a range are among all. -/
theorem sublist_outside (r : LineRange) (hr : r.first ≤ r.last) (lines : List TaggedLine) :
    (identities (r.outside lines)).Sublist (identities lines) := by
  refine List.Sublist.map _ ?_
  have hback : (lines.drop (r.last + 1)).Sublist (lines.drop r.first) :=
    List.drop_sublist_drop_left lines (by omega)
  have happend := (List.Sublist.refl (lines.take r.first)).append hback
  rwa [List.take_append_drop] at happend

/-- Deleting a range is removing its lines. -/
theorem delete (h : Simulates places b n) {r : LineRange} (hr : r.first ≤ r.last)
    (hlast : r.last < b.size) : Simulates places (b.edit (.delete r)) (n.remove r) := by
  have hlen := h.size
  have hsub := sublist_outside r hr n.lines
  refine h.edit _ (Nat.le_refl _) ?_ (hsub.nodup h.live.nodup)
    (fun identity hmem => h.live.lt_fresh identity (hsub.mem hmem)) ?_ ⟨rfl, rfl, rfl⟩
  · rw [BlockEdit.apply, toList_remove, h.live.texts, TaggedBuffer.remove, map_outside]
  · exact fun identity _ => position?_outside h.live.nodup hr (by omega)

/-- Deleting a range is taking its lines out. -/
theorem deleteLines (h : Simulates places b n) {r : LineRange} (hr : r.first ≤ r.last)
    (hlast : r.last < b.size) : Simulates places (b.deleteLines r) (n.remove r) :=
  have hdelete := h.delete hr hlast
  ⟨hdelete.live, hdelete.saved, hdelete.targets, hdelete.targets_lt⟩

/-- Behind the line of `dest`, wherever it has gone, is where the moved range begins.

**Proof sketch.** The line behind which the range goes is not in it. If it is behind the range, its
place is as many places less as the range has lines, and otherwise it has not moved; in both cases
`moveStart` is the place behind it. -/
theorem lines_move (h : Simulates places b n) {r : LineRange} {dest : Option Nat}
    (hr : r.first ≤ r.last) (hlast : r.last < b.size)
    (hdest : ∀ d ∈ dest, d < b.size ∧ ¬ r.contains d) :
    LineBuffer.moveStart r dest ≤ (r.outside n.lines).length ∧
      (n.move r dest).lines =
        putAt (LineBuffer.moveStart r dest) (r.inside n.lines) (r.outside n.lines) := by
  have hlen := h.size
  have hout : (r.outside n.lines).length + r.size = n.lines.length := length_outside hr (by omega)
  have hsize : r.size = r.last - r.first + 1 := rfl
  cases dest with
  | none => exact ⟨Nat.zero_le _, rfl⟩
  | some d =>
    obtain ⟨hd, hcontains⟩ := hdest d rfl
    simp only [LineRange.contains, Bool.and_eq_true, decide_eq_true_eq] at hcontains
    have hd' : d < n.lines.length := by omega
    have hposition : position? (r.outside n.lines) n.lines[d].identity =
        some (if r.last < d then d - r.size else d) := by
      rw [position?_outside h.live.nodup hr (by omega), position?_getElem h.live.nodup hd',
        Option.bind_some, BlockEdit.follow]
      split <;> rename_i hlt
      · rw [if_neg (by omega)]
      · rw [if_neg (by omega), if_pos (by omega)]
    have hstart : LineBuffer.moveStart r (some d) =
        (if r.last < d then d - r.size else d) + 1 := by
      simp only [LineBuffer.moveStart]
      split <;> omega
    refine ⟨?_, ?_⟩
    · rw [hstart]
      exact lt_length_of_position? hposition
    · simp only [TaggedBuffer.move, Option.bind_some, List.getElem?_eq_getElem hd']
      rw [putBehind_eq hposition, hstart]

/-- Moving a range is taking its lines out and putting them behind another line.

**Proof sketch.** The lines are put together in another order, so that no identity is lost and none
is new. Each stands where the edit takes its place, by `position?_move`. -/
theorem move (h : Simulates places b n) {r : LineRange} {dest : Option Nat}
    (hr : r.first ≤ r.last) (hlast : r.last < b.size)
    (hdest : ∀ d ∈ dest, d < b.size ∧ ¬ r.contains d) :
    Simulates places (b.edit (.move r (LineBuffer.moveStart r dest))) (n.move r dest) := by
  have hlen := h.size
  obtain ⟨hstart, hlines⟩ := h.lines_move hr hlast hdest
  have hperm : (identities (n.move r dest).lines).Perm (identities n.lines) := by
    have hput := (putAt_perm r.first (r.inside n.lines) (r.outside n.lines)).symm
    rw [putAt_outside hr (by omega)] at hput
    rw [hlines]
    exact ((putAt_perm ..).trans hput).map _
  refine h.edit _ (Nat.le_refl _) ?_ (hperm.nodup_iff.2 h.live.nodup)
    (fun identity hmem => h.live.lt_fresh identity (hperm.mem_iff.1 hmem)) ?_ ⟨rfl, rfl, rfl⟩
  · rw [BlockEdit.apply, toList_insertBlock, toList_slice hr, toList_remove, h.live.texts, hlines,
      map_putAt, map_inside, map_outside]
  · intro identity _
    rw [hlines]
    exact position?_move h.live.nodup hr (by omega) hstart

/-! ## Texts -/

/-- Lines may get other texts.

**Proof sketch.** Identities stand where they did, since the list of them is the same. -/
theorem withTexts (h : Simulates places b n) {lines : Array Line} {tagged : List TaggedLine}
    (hidentities : identities tagged = identities n.lines)
    (htexts : lines.toList = tagged.map (·.text)) :
    Simulates places { b with lines } { n with lines := tagged } where
  live :=
    { texts := htexts
      nodup := hidentities ▸ h.live.nodup
      lt_fresh := hidentities ▸ h.live.lt_fresh
      marks := fun place hplace => by
        rw [position?_congr hidentities]
        exact h.live.marks place hplace
      marks_lt := h.live.marks_lt }
  saved := h.saved
  targets := by
    rw [h.targets, TaggedBuffer.pending, TaggedBuffer.pending, position?_congr hidentities]
  targets_lt := h.targets_lt

/-- Giving a line another text.

**Proof sketch.** Only the text at one place is another one, in both lists at the same place, and no
identity has changed. -/
theorem retext (h : Simulates places b n) (index : Nat) (text : Line) :
    Simulates places { b with lines := b.lines.setIfInBounds index text }
      (n.retext index text) := by
  refine h.withTexts (n.identities_retext index text) ?_
  rw [Array.toList_setIfInBounds, h.live.texts]
  apply List.ext_getElem?
  intro i
  simp only [List.getElem?_set, List.getElem?_map, List.getElem?_modify, List.length_map]
  by_cases heq : index = i
  · subst heq
    by_cases hlt : index < n.lines.length
    · simp [hlt]
    · simp [hlt]
  · simp [heq]

/-- Joining the lines of a range.

**Proof sketch.** Deleting the other lines is `delete`, and putting their texts into the first one
is `retext`. The texts are the same on both sides. -/
theorem join (h : Simulates places b n) {r : LineRange} (hr : r.first < r.last)
    (hlast : r.last < b.size) (rest : LineBuffer)
    (hrest : rest = b.edit (.delete ⟨r.first + 1, r.last⟩)) :
    Simulates places
      { rest with
        lines := rest.lines.setIfInBounds r.first (r.slice b.lines).toList.flatten }
      (n.join r) := by
  subst hrest
  have hdelete := h.delete (r := ⟨r.first + 1, r.last⟩) hr hlast
  have htexts : (r.slice b.lines).toList = (r.inside n.lines).map (·.text) := by
    rw [toList_slice (Nat.le_of_lt hr), h.live.texts, map_inside]
  rw [htexts]
  exact hdelete.retext r.first _

/-- Overwriting the lines of a range with what a function makes of them.

**Proof sketch.** By induction on the lines of the range, with those before them in front: each is
left as it is or set in its place. -/
theorem toList_overwrite (f : Line → Option Line) (front middle back : List Line)
    (lines : Array Line) (hlines : lines.toList = front ++ middle ++ back) :
    (LineBuffer.overwrite front.length (middle.map f) lines).toList =
      front ++ middle.map (fun line => (f line).getD line) ++ back := by
  induction middle generalizing front lines with
  | nil => exact hlines
  | cons line middle ih =>
    have hlen : (front ++ [line]).length = front.length + 1 := by simp
    rw [List.map_cons, List.map_cons]
    cases hf : f line with
    | none =>
      have hnext := ih (front ++ [line]) lines (by simpa using hlines)
      rw [hlen] at hnext
      rw [LineBuffer.overwrite, hnext]
      simp
    | some text =>
      have hset : (lines.setIfInBounds front.length text).toList =
          front ++ [text] ++ middle ++ back := by
        rw [Array.toList_setIfInBounds, hlines]
        simp
      have hnext := ih (front ++ [text]) (lines.setIfInBounds front.length text) hset
      have hlen' : (front ++ [text]).length = front.length + 1 := by simp
      rw [hlen'] at hnext
      rw [LineBuffer.overwrite, hnext]
      simp

/-- Giving the lines of a range other texts.

**Proof sketch.** The lines are split into those before the range, in it and behind it, and only
those in it may get new texts. Their identities are the same. -/
theorem retextRange (h : Simulates places b n) {r : LineRange} (hr : r.first ≤ r.last)
    (hlast : r.last < b.size) (f : Line → Option Line) :
    Simulates places
      { b with
        lines := LineBuffer.overwrite r.first ((r.slice b.lines).toList.map f) b.lines }
      (n.retextRange r fun line => (f line).getD line) := by
  have hlen := h.size
  have hsplit : n.lines =
      n.lines.take r.first ++ r.inside n.lines ++ n.lines.drop (r.last + 1) := by
    have hput : putAt r.first (r.inside n.lines) (r.outside n.lines) = n.lines :=
      putAt_outside hr (by omega)
    have hfront : (n.lines.take r.first).length = r.first := List.length_take_of_le (by omega)
    rw [putAt, LineRange.outside, List.take_left' hfront, List.drop_left' hfront] at hput
    exact hput.symm
  refine h.withTexts ?_ ?_
  · conv_rhs => rw [hsplit]
    simp [identities]
  · have hlines : b.lines.toList = (n.lines.take r.first).map (·.text) ++
        (r.inside n.lines).map (·.text) ++ (n.lines.drop (r.last + 1)).map (·.text) := by
      rw [h.live.texts, ← List.map_append, ← List.map_append, ← hsplit]
    have hfront : ((n.lines.take r.first).map (·.text)).length = r.first := by
      rw [List.length_map, List.length_take_of_le (by omega)]
    have hover := toList_overwrite f _ _ _ b.lines hlines
    rw [hfront] at hover
    rw [toList_slice hr, h.live.texts, ← map_inside, hover]
    simp

/-! ## Marks, snapshots and pending lines -/

/-- The line at an index has an identity, and this is where it stands. -/
theorem position?_of_lt (h : Simulates places b n) {index : Nat} (hindex : index < b.size) :
    ∃ identity < n.fresh, n.lines[index]?.map (·.identity) = some identity ∧
      position? n.lines identity = some index := by
  have hlt : index < n.lines.length := h.size ▸ hindex
  refine ⟨n.lines[index].identity, h.live.lt_fresh _ ?_, ?_, position?_getElem h.live.nodup hlt⟩
  · exact List.mem_map_of_mem (List.getElem_mem hlt)
  · rw [List.getElem?_eq_getElem hlt, Option.map_some]

/-- Marking a line.

**Proof sketch.** The mark is set to the identity of the line at that index, which stands there. All
other marks are as they were. -/
theorem setMark (h : Simulates places b n) (place : Fin letterCount) {index : Nat}
    (hindex : index < b.size) :
    Simulates places { b with marks := b.marks.set place (some index) place.isLt }
      (n.setMark place index) := by
  obtain ⟨identity, hlt, hline, hposition⟩ := h.position?_of_lt hindex
  have hmark : ∀ (α : Type) (v : Vector α letterCount) (x : α) (other : Fin letterCount),
      (v.set place x place.isLt)[other] = if place = other then x else v[other] := by
    intro α v x other
    simp only [Fin.getElem_fin, Vector.getElem_set, Fin.ext_iff]
  refine ⟨⟨h.live.texts, h.live.nodup, h.live.lt_fresh, ?_, ?_⟩, h.saved, h.targets, h.targets_lt⟩
  · intro other hother
    simp only [TaggedBuffer.setMark, hmark, hline]
    split
    · rw [Option.bind_some, hposition]
    · exact h.live.marks other hother
  · intro other hother marked hmem
    simp only [TaggedBuffer.setMark, hmark, hline] at hmem
    split at hmem
    · obtain rfl := Option.some.inj hmem
      exact hlt
    · exact h.live.marks_lt other hother marked hmem

/-- Keeping a snapshot. -/
theorem storeSnapshot (h : Simulates places b n) {s : Snapshot} {t : TaggedSnapshot}
    (hsnapshot : Labels n.fresh places s.lines s.marks t) :
    Simulates places (b.storeSnapshot s) { n with saved := some t } :=
  ⟨h.live, .some hsnapshot, h.targets, h.targets_lt⟩

/-- Exchanging lines and marks with the snapshot. -/
theorem exchange (h : Simulates places b n) {s : Snapshot} {t : TaggedSnapshot}
    (hsnapshot : Labels n.fresh places s.lines s.marks t) :
    Simulates places
      { b with
        lines := s.lines, current := s.current, marks := s.marks, saved := some b.snapshot
        targets := #[], dirty := true }
      (n.exchange t) :=
  ⟨hsnapshot, .some h.live, rfl, fun _ hmem => absurd hmem List.not_mem_nil⟩

/-- Replacing all lines.

**Proof sketch.** All lines are new and get fresh identities, so that no mark and no pending
identity stands any more. -/
theorem replaceAll (h : Simulates places b n) (lines : Array Line) :
    Simulates places (b.replaceAll lines) (n.replaceAll lines.toList) := by
  have hidentities := identities_tagFrom n.fresh lines.toList
  refine ⟨⟨(texts_tagFrom ..).symm, ?_, ?_, ?_, ?_⟩, saved_mono h.saved (Nat.le_add_right ..), rfl,
    fun _ hmem => absurd hmem List.not_mem_nil⟩
  · rw [TaggedBuffer.replaceAll, hidentities]
    exact List.nodup_range'
  · intro identity hmem
    rw [TaggedBuffer.replaceAll, hidentities] at hmem
    exact (List.mem_range'_1.1 hmem).2
  · intro place _
    simp [LineBuffer.replaceAll, TaggedBuffer.replaceAll, Marks.empty]
  · intro place _ identity hmem
    simp [TaggedBuffer.replaceAll] at hmem

/-- Setting the lines to visit.

**Proof sketch.** Each index has the identity of the line that stands there, and so is where that
identity stands. -/
theorem setTargets (h : Simulates places b n) {indices : List Nat}
    (hindices : ∀ index ∈ indices, index < b.size) :
    Simulates places (b.setTargets indices) (n.setTargets indices) := by
  refine ⟨h.live, h.saved, ?_, ?_⟩
  · rw [TaggedBuffer.pending, TaggedBuffer.setTargets, List.filterMap_filterMap]
    refine Eq.symm ((List.filterMap_congr fun index hmem => ?_).trans List.filterMap_some)
    obtain ⟨identity, -, hline, hposition⟩ := h.position?_of_lt (hindices index hmem)
    rw [hline, Option.bind_some]
    exact hposition
  · intro identity hmem
    obtain ⟨index, hindex, hline⟩ := List.mem_filterMap.1 hmem
    obtain ⟨identity', hlt, hline', -⟩ := h.position?_of_lt (hindices index hindex)
    obtain rfl := Option.some.inj (hline.symm.trans hline')
    exact hlt

/-- Taking the next line to visit. -/
theorem dropTarget (h : Simulates places b n) :
    Simulates places { b with targets := b.targets.pop } n.dropTarget := by
  refine ⟨h.live, h.saved, ?_, fun identity hmem => h.targets_lt identity ?_⟩
  · rw [Array.toList_pop, h.targets]
    exact n.pending_dropTarget.symm
  · exact (List.filter_sublist.mem (List.dropLast_sublist _ |>.mem hmem))

/-- No mark and no pending index is out of range, since each is where some line stands.

**Proof sketch.** Marks and pending places are where identities stand, and those are places of
lines. -/
theorem inRange (h : Simulates places b n) : b.InRange places where
  marks place hplace index hmem := by
    rw [h.live.marks place hplace] at hmem
    obtain ⟨identity, -, hposition⟩ := Option.bind_eq_some_iff.1 hmem
    rw [h.size]
    exact lt_length_of_position? hposition
  saved s hmem place hplace index hindex := by
    have hsaved := h.saved
    rw [Option.mem_def.1 hmem] at hsaved
    generalize n.saved = t at hsaved
    cases hsaved with
    | some hsnapshot =>
      rw [hsnapshot.marks place hplace] at hindex
      obtain ⟨identity, -, hposition⟩ := Option.bind_eq_some_iff.1 hindex
      rw [hsnapshot.size]
      exact lt_length_of_position? hposition
  targets index hmem := by
    rw [h.targets] at hmem
    obtain ⟨identity, -, hposition⟩ := List.mem_filterMap.1 hmem
    rw [h.size]
    exact lt_length_of_position? hposition

/-- The next index to visit is where the line stands that is visited next. -/
theorem back?_targets (h : Simulates places b n) :
    b.targets.back? = n.live.getLast?.bind (position? n.lines) := by
  rw [← Array.getLast?_toList, h.targets, n.getLast?_pending]

end Simulates

end LineEditor
