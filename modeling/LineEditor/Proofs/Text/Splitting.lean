import LineEditor.Proofs.Session.UserErrors
import LineEditor.Proofs.Text.Files

set_option autoImplicit false
set_option relaxedAutoImplicit false

/-!
# Lines of a text and blocks of lines

The bytes of a file are split into lines all at once, and the bytes of a stream line by line as they
are read. Blocks of text are read from the lines in the same way as lines from the bytes: a newline
ends a line, and a line with a single dot a block. In each case a part is what stands before the
next element that ends it, or before the end if something is left there. This determines the parts,
so that both ways to split a text yield the same lines; and no part is lost, since the text is what
the parts are put together to.

## Main definitions

* `LineEditor.Parted`: the parts of a list, each ended by a given element or by the end.
* `LineEditor.Source.lines`: the lines that are still to come.
* `LineEditor.Source.readBlocks`: reads blocks until nothing is left.

## Main results

* `LineEditor.Parted.join`: the list that parts come from.
* `LineEditor.Parted.eq_splitOn`: parts by splitting at each ending element.
* `LineEditor.Source.exists_readUntil`: what is read up to a closing line.
* `LineEditor.Source.exists_readBlocks`: the blocks are parts of the lines.
* `LineEditor.Source.readBlocks_stream`: the lines and the blocks of a stream.
-/

namespace LineEditor

/-! ## Parts of a list -/

/-- The parts of a list. Each of them is the run of elements before the next ending one, or before
the end if anything is left there. -/
inductive Parted {α : Type} (ending : α) : List α → List (List α) → Prop where
  /-- An empty list has no parts. -/
  | nil : Parted ending [] []
  /-- A part before an ending element. -/
  | ended {part rest : List α} {parts : List (List α)} (hpart : ending ∉ part)
      (hrest : Parted ending rest parts) : Parted ending (part ++ ending :: rest) (part :: parts)
  /-- The last part, before the end. -/
  | last {part : List α} (hpart : ending ∉ part) (hne : part ≠ []) : Parted ending part [part]

namespace Parted

variable {α : Type} {ending : α} {list part rest : List α} {parts parts' : List (List α)}

/-- An empty list has no parts. -/
theorem eq_nil (h : Parted ending [] parts) : parts = [] := by
  generalize hlist : ([] : List α) = list at h
  cases h with
  | nil => rfl
  | ended => simp at hlist
  | last _ hne => exact absurd hlist.symm hne

/-- The first part is what comes before the first ending element, and the others are those of what
comes after it.

**Proof sketch.** What comes before the first ending element has none in it. If there is no ending
element, this is the whole list, and nothing comes after it. -/
theorem of_takeWhile [BEq α] [LawfulBEq α] (hne : list ≠ [])
    (h : Parted ending (list.dropWhile (· != ending)).tail parts) :
    Parted ending list (list.takeWhile (· != ending) :: parts) := by
  have happend := List.takeWhile_append_dropWhile (p := (· != ending)) (l := list)
  have hpart : ending ∉ list.takeWhile (· != ending) := fun hmem => by
    simpa using List.mem_takeWhile_imp hmem
  cases hdrop : list.dropWhile (· != ending) with
  | nil =>
    rw [hdrop] at happend h
    rw [List.append_nil] at happend
    rw [h.eq_nil, happend]
    exact .last (happend ▸ hpart) hne
  | cons b rest =>
    have hb : b = ending := by
      have hhead := List.head?_dropWhile_not (· != ending) list
      rw [hdrop] at hhead
      simpa using hhead
    rw [hdrop, hb] at happend h
    have hparted := Parted.ended hpart h
    rwa [List.tail_cons, happend] at hparted

/-- What follows an ending element has the last element, if it has any. -/
theorem getLast?_append_ending (hrest : rest ≠ []) :
    (part ++ ending :: rest).getLast? = rest.getLast? := by
  rw [List.getLast?_append_of_ne_nil part (List.cons_ne_nil ending rest),
    List.getLast?_cons_of_ne_nil hrest]

variable [DecidableEq α]

/-- **The parts of a list, an ending element after each, are the list**, and one ending element more
if something is left behind the last one in the list.

**Proof sketch.** By induction on the parts. Whether an element is missing at the end is told from
the last part alone, and what is put together of the others is the list in front of it. -/
theorem join (h : Parted ending list parts) :
    parts.flatMap (· ++ [ending]) =
      list ++ if list ≠ [] ∧ list.getLast? ≠ some ending then [ending] else [] := by
  induction h with
  | nil => rfl
  | @ended part rest parts _ _ ih =>
    rw [List.flatMap_cons, ih]
    by_cases hnil : rest = []
    · subst hnil
      simp
    · simp [getLast?_append_ending hnil, hnil]
  | @last part hpart hne =>
    have hlast : part.getLast? ≠ some ending := fun h => hpart (List.mem_of_getLast? h)
    simp [hne, hlast]

/-- A list without the ending element that it ends in, if it does. -/
def body (ending : α) (list : List α) : List α :=
  if list.getLast? = some ending then list.dropLast else list

/-- **The parts of a list are found by splitting it** at all ending elements, but for one at the
end.

**Proof sketch.** By induction on the parts: splitting a list that begins with a part and its ending
element splits off that part, and the body of the list begins with both unless they are all of
it. -/
theorem eq_splitOn (h : Parted ending list parts) :
    parts = if list = [] then [] else (body ending list).splitOn ending := by
  induction h with
  | nil => rfl
  | @ended part rest parts hpart hrest ih =>
    rw [if_neg (by simp), ih]
    by_cases hnil : rest = []
    · subst hnil
      rw [if_pos rfl, body, if_pos (by simp), List.dropLast_concat, List.splitOn_eq_singleton hpart]
    · have hbody : body ending (part ++ ending :: rest) = part ++ ending :: body ending rest := by
        unfold body
        rw [getLast?_append_ending hnil]
        split
        · rw [List.dropLast_append_of_ne_nil (List.cons_ne_nil ending rest),
            List.dropLast_cons_of_ne_nil hnil]
        · rfl
      rw [if_neg hnil, hbody, List.splitOn_append_cons_self_of_not_mem hpart]
  | @last part hpart hne =>
    have hlast : part.getLast? ≠ some ending := fun h => hpart (List.mem_of_getLast? h)
    rw [if_neg hne, body, if_neg hlast, List.splitOn_eq_singleton hpart]

/-- A list has its parts in one way only. -/
theorem unique (h : Parted ending list parts) (h' : Parted ending list parts') : parts = parts' :=
  h.eq_splitOn.trans h'.eq_splitOn.symm

end Parted

/-- The parts of a text are those that its ending bytes close.

**Proof sketch.** By induction on the text. Its first byte ends an empty part, or it becomes the
first byte of the part that comes first. -/
theorem parted_segments (ending : UInt8) (bytes : Line) :
    Parted ending bytes (segments ending bytes) := by
  induction bytes with
  | nil => exact .nil
  | cons b bytes ih =>
    rw [segments_cons]
    unfold consByte
    by_cases hb : b = ending
    · rw [if_pos hb, hb]
      exact .ended List.not_mem_nil ih
    · rw [if_neg hb]
      have hcons {part : Line} (hpart : ending ∉ part) : ending ∉ b :: part :=
        List.not_mem_cons_of_ne_of_not_mem (Ne.symm hb) hpart
      generalize segments ending bytes = parts at ih ⊢
      cases ih with
      | nil => exact .last (hcons List.not_mem_nil) (List.cons_ne_nil _ _)
      | ended hpart hrest => exact .ended (hcons hpart) hrest
      | last hpart => exact .last (hcons hpart) (List.cons_ne_nil _ _)

/-- A text that is not empty begins with the line before its first newline. -/
theorem splitLines_eq_cons {bytes : Line} (hne : bytes ≠ []) :
    splitLines bytes = bytes.takeWhile (· != newline) ::
      splitLines (bytes.dropWhile (· != newline)).tail :=
  (parted_segments newline bytes).unique (.of_takeWhile hne (parted_segments newline _))

/-! ## Reading lines -/

namespace Source

variable {source after : Source} {left : List Line}

/-- The lines that are still to come, if nothing breaks. -/
def lines : Source → List Line
  | script lines => lines
  | stream bytes _ => splitLines bytes

/-- A source from which everything has been read. -/
def spent : Source → Source
  | script _ => script []
  | stream _ broken => stream [] broken

/-- A source has been read up to a point where some lines are left, and has not broken. -/
structure Reaches (source : Source) (left : List Line) (after : Source) : Prop where
  /-- These lines are left. -/
  lines : after.lines = left
  /-- The source does not break later. -/
  unbroken : after.Unbroken
  /-- It is the same source. -/
  spent : after.spent = source.spent

/-- No lines are to come exactly if nothing is left. -/
theorem lines_eq_nil_iff : source.lines = [] ↔ source.size = 0 := by
  cases source with
  | script lines => exact List.length_eq_zero_iff.symm
  | stream bytes broken =>
    cases bytes with
    | nil => simp [lines, size, splitLines, segments]
    | cons b bytes => simp [lines, size, splitLines_eq_cons (List.cons_ne_nil b bytes)]

/-- Then the source is spent. -/
theorem eq_spent (h : source.lines = []) : source = source.spent := by
  rw [lines_eq_nil_iff] at h
  cases source with
  | script lines => exact congrArg script (List.length_eq_zero_iff.1 h)
  | stream bytes broken => exact congrArg (stream · broken) (List.length_eq_zero_iff.1 h)

/-- **The next line** is the first one that is still to come, and those behind it are left.

**Proof sketch.** A script gives its first line. A stream is cut at its first newline, and its first
line is what stands before that, or all that is left if there is none. -/
theorem exists_next (h : source.Unbroken) :
    ∃ after, next source = .ok source.lines.head? after ∧
      source.Reaches source.lines.tail after := by
  cases source with
  | script lines => cases lines <;> exact ⟨_, rfl, rfl, trivial, rfl⟩
  | stream bytes broken =>
    obtain rfl : broken = none := h
    obtain rfl | hne := eq_or_ne bytes []
    · exact ⟨_, rfl, rfl, rfl, rfl⟩
    unfold next cutLine
    dsimp only [lines]
    rw [splitLines_eq_cons hne]
    cases hdrop : bytes.dropWhile (· != newline) with
    | nil =>
      -- without a newline all bytes that are left are a line
      have happend := List.takeWhile_append_dropWhile (p := (· != newline)) (l := bytes)
      rw [hdrop, List.append_nil] at happend
      dsimp only
      rw [happend, if_neg (by simpa using hne)]
      exact ⟨_, rfl, rfl, rfl, rfl⟩
    | cons b rest => exact ⟨_, rfl, rfl, rfl, rfl⟩

/-- What is known of the next line is known of every line that has been read. -/
theorem reaches_of_next {line? : Option Line} (h : source.Unbroken)
    (hnext : next source = .ok line? after) :
    source.lines.head? = line? ∧ source.Reaches source.lines.tail after := by
  obtain ⟨_, hread, hreaches⟩ := exists_next h
  obtain ⟨hline, rfl⟩ := EStateM.Result.ok.inj (hread.symm.trans hnext)
  exact ⟨hline, hreaches⟩

/-- More lines are read after those that have been read already.

**Proof sketch.** By induction on the reading. A line that closes the text is the last one that is
read, and any other is put to those read before; the lines that are still to come are those behind
it. -/
theorem exists_readUntilAfter (closes : Line → Bool) (before : List Line) (h : source.Unbroken) :
    ∃ after, readUntilAfter closes before source =
        .ok (before.reverse ++ source.lines.takeWhile (!closes ·), source.lines.any closes) after ∧
      source.Reaches (source.lines.dropWhile (!closes ·)).tail after := by
  -- the induction is on the reading: every next line is the head of those still to come
  fun_induction readUntilAfter closes before source with
  | case1 before source e after hnext =>
    obtain ⟨_, hread, -⟩ := exists_next h
    cases hnext.symm.trans hread
  | case2 before source after hnext =>
    obtain ⟨hnone, hreaches⟩ := reaches_of_next h hnext
    rw [List.head?_eq_none_iff.1 hnone] at hreaches ⊢
    exact ⟨after, by simp, hreaches⟩
  | case3 before source line after hnext hcloses =>
    obtain ⟨hsome, hreaches⟩ := reaches_of_next h hnext
    obtain ⟨left, hleft⟩ := List.head?_eq_some_iff.1 hsome
    rw [hleft] at hreaches ⊢
    exact ⟨after, by simp [hcloses], by simpa [hcloses] using hreaches⟩
  | case4 before source line after hnext hcloses ih =>
    obtain ⟨hsome, hreaches⟩ := reaches_of_next h hnext
    obtain ⟨left, hleft⟩ := List.head?_eq_some_iff.1 hsome
    obtain ⟨last, huntil, hlast⟩ := ih hreaches.unbroken
    rw [hreaches.lines, hleft, List.tail_cons] at huntil hlast
    rw [huntil, hleft]
    refine ⟨last, by simp [hcloses], ?_, hlast.unbroken, hlast.spent.trans hreaches.spent⟩
    simpa [hcloses] using hlast.lines

/-- **Lines are read up to the next one that closes them**, or up to the end if there is none. The
lines behind the closing one are left. -/
theorem exists_readUntil (closes : Line → Bool) (h : source.Unbroken) :
    ∃ after, readUntil closes source =
        .ok (source.lines.takeWhile (!closes ·), source.lines.any closes) after ∧
      source.Reaches (source.lines.dropWhile (!closes ·)).tail after :=
  exists_readUntilAfter closes [] h

/-- **All lines that are still to come are read** until nothing is left. -/
theorem readAll_eq (h : source.Unbroken) : readAll source = .ok source.lines source.spent := by
  obtain ⟨after, hread, hreaches⟩ := exists_readUntil (fun _ => false) h
  have hdrop : source.lines.dropWhile (fun _ => !false) = [] :=
    List.dropWhile_eq_nil_iff.2 fun _ _ => rfl
  have htake : source.lines.takeWhile (fun _ => !false) = source.lines :=
    List.takeWhile_eq_self_iff.2 fun _ _ => rfl
  rw [hdrop] at hreaches
  unfold readAll
  rw [EState.bind_apply, hread, htake, ← hreaches.spent, ← eq_spent hreaches.lines]
  rfl

/-! ## Reading blocks -/

/-- **A block is the run of lines before the next single dot**, or before the end if there is none.
The lines behind the dot are left. -/
theorem exists_readBlock (h : source.Unbroken) :
    ∃ after, readBlock source = .ok (source.lines.takeWhile (· != [ascii '.'])) after ∧
      source.Reaches (source.lines.dropWhile (· != [ascii '.'])).tail after := by
  obtain ⟨after, hread, hreaches⟩ := exists_readUntil (· == [ascii '.']) h
  refine ⟨after, ?_, hreaches⟩
  unfold readBlock
  rw [EState.bind_apply, hread]
  rfl

/-- When there is no next line, nothing is left. -/
theorem size_of_next_none (h : source.next = .ok none after) : after.size = 0 := by
  unfold next at h
  split at h
  · cases h
    rfl
  · cases h
  · split at h
    · cases h
    · split at h
      · cases h
      · obtain ⟨-, rfl⟩ := EStateM.Result.ok.inj h
        rfl

/-- Reading makes a source smaller, if there is anything to read.

**Proof sketch.** By induction on the reading: every line that is read makes the source smaller, and
without one nothing is left at all. -/
theorem size_readUntilAfter_le {closes : Line → Bool} {before : List Line}
    {result : List Line × Bool} (h : readUntilAfter closes before source = .ok result after) :
    after.size ≤ source.size - 1 := by
  fun_induction readUntilAfter closes before source with
  | case1 => cases h
  | case2 before source last hnext =>
    cases h
    rw [size_of_next_none hnext]
    exact Nat.zero_le _
  | case3 before source line last hnext =>
    cases h
    exact Nat.le_sub_one_of_lt (size_next_lt hnext)
  | case4 before source line last hnext _ ih =>
    have hlt := size_next_lt hnext
    have hle := ih h
    omega

/-- Reading a block makes a source smaller, if there is anything to read. -/
theorem size_readBlock_lt {block : List Line} (h : readBlock source = .ok block after)
    (hsize : source.size ≠ 0) : after.size < source.size := by
  obtain ⟨result, last, hread, hblock⟩ := EState.exists_of_bind_ok h
  cases hblock
  have hle := size_readUntilAfter_le hread
  omega

/-- Reads blocks of text until nothing is left. -/
def readBlocks (source : Source) : EStateM.Result EditError Source (List (List Line)) :=
  if _hsize : source.size = 0 then .ok [] source
  else
    match _h : readBlock source with
    | .error e after => .error e after
    | .ok block after =>
      match readBlocks after with
      | .error e after => .error e after
      | .ok blocks after => .ok (block :: blocks) after
termination_by source.size
decreasing_by exact size_readBlock_lt _h _hsize

/-- **The blocks are the parts of the lines that are still to come** that single dots end.

**Proof sketch.** By induction on the reading. A block is what comes before the next single dot, and
the other blocks are those of what comes after it, by `of_takeWhile`. -/
theorem exists_readBlocks (h : source.Unbroken) :
    ∃ blocks, readBlocks source = .ok blocks source.spent ∧
      Parted [ascii '.'] source.lines blocks := by
  fun_induction readBlocks source with
  | case1 source hsize =>
    have hlines := lines_eq_nil_iff.2 hsize
    exact ⟨[], by rw [← eq_spent hlines], hlines ▸ .nil⟩
  | case2 source hsize e after hblock =>
    obtain ⟨_, hread, -⟩ := exists_readBlock h
    cases hblock.symm.trans hread
  | case3 source hsize block after hblock e last hblocks ih =>
    obtain ⟨_, hread, hreaches⟩ := exists_readBlock h
    obtain ⟨-, rfl⟩ := EStateM.Result.ok.inj (hblock.symm.trans hread)
    obtain ⟨_, hok, -⟩ := ih hreaches.unbroken
    cases hblocks.symm.trans hok
  | case4 source hsize block after hblock blocks last hblocks ih =>
    obtain ⟨_, hread, hreaches⟩ := exists_readBlock h
    obtain ⟨rfl, rfl⟩ := EStateM.Result.ok.inj (hblock.symm.trans hread)
    obtain ⟨_, hok, hparted⟩ := ih hreaches.unbroken
    obtain ⟨rfl, rfl⟩ := EStateM.Result.ok.inj (hblocks.symm.trans hok)
    rw [hreaches.lines] at hparted
    refine ⟨_, congrArg _ hreaches.spent, .of_takeWhile ?_ hparted⟩
    exact fun hlines => hsize (lines_eq_nil_iff.1 hlines)

/-- **The lines and the blocks of a stream.** The lines that are read one by one are those of the
bytes all at once, which are found by splitting the bytes, but for a newline at the end, at the
newlines. The lines, a newline after each, are the bytes, and one newline more if something is left
behind the last one of the bytes. The blocks that are read until nothing is left are the parts of
the lines that single dots end. -/
theorem readBlocks_stream (bytes : Line) :
    readAll (stream bytes none) = .ok (splitLines bytes) (stream [] none) ∧
    splitLines bytes =
      (if bytes = [] then []
      else (if bytes.getLast? = some newline then bytes.dropLast else bytes).splitOn newline) ∧
    joinLines (splitLines bytes) =
      bytes ++ (if bytes ≠ [] ∧ bytes.getLast? ≠ some newline then [newline] else []) ∧
    ∃ blocks, readBlocks (stream bytes none) = .ok blocks (stream [] none) ∧
      Parted [ascii '.'] (splitLines bytes) blocks :=
  ⟨readAll_eq rfl, (parted_segments newline bytes).eq_splitOn, (parted_segments newline bytes).join,
    exists_readBlocks rfl⟩

end Source

end LineEditor
