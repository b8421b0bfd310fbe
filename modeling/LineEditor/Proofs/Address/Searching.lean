import LineEditor.Proofs.Command.Patterns

set_option autoImplicit false
set_option relaxedAutoImplicit false

/-!
# The order of a search

A search goes through the buffer in the direction it is given, from the line after its base line to
the base line itself, and goes on at the other end of the buffer on its way. It takes the first line
that has a match. So every line is looked at once at most, the base line last, and a search fails
only if no line of the buffer has a match.

The base line is the current line, or one that a semicolon made current. It is line 0 in an empty
buffer or before the first line; then the search goes through the whole buffer from one end to the
other.

## Main definitions

* `LineEditor.Direction.order`: the lines of a buffer in the order of a search.
* `LineEditor.Direction.walk`: the lines that the steps of a search lead to.
* `LineEditor.AddressContext.lookedAt`: the lines that a search has looked at when it ends.

## Main results

* `LineEditor.Direction.walk_eq_order`: the steps of a search lead through the buffer in order.
* `LineEditor.AddressContext.search_eq_find?`: a search finds the first line in its order.
* `LineEditor.Address.value_search`: the line of an address that searches.
-/

namespace LineEditor

/-! ## The order -/

namespace Direction

/-- The byte that stands on both sides of the pattern of a search. -/
def delimiter : Direction → UInt8
  | forward => ascii '/'
  | backward => ascii '?'

/-- The lines of a buffer of `last` lines in the order in which a search from the line `base` takes
them: forward `base + 1, …, last, 1, …, base`, backward `base - 1, …, 1, last, …, base`. From line 0
a search goes backward through `last, …, 1`. -/
def order (last base : Nat) : Direction → List Nat
  | forward => List.range' (base + 1) (last - base) ++ List.range' 1 base
  | backward =>
    (List.range' 1 (base - 1)).reverse ++
      (List.range' (max base 1) (last + 1 - max base 1)).reverse

variable {last base : Nat}

/-- The order has every line of the buffer once.

**Proof sketch.** The lines behind the base line and the lines up to it are together the lines from
1 to the last one. Backward they are cut in front of the base line, and each part is reversed. -/
theorem order_perm (direction : Direction) (h : base ≤ last) :
    (direction.order last base).Perm (List.range' 1 last) := by
  cases direction with
  | forward =>
    have hsplit : List.range' 1 base ++ List.range' (base + 1) (last - base) =
        List.range' 1 last := by
      rw [Nat.add_comm base 1, List.range'_append_1, Nat.add_sub_cancel' h]
    rw [order, ← hsplit]
    exact List.perm_append_comm
  | backward =>
    have hsplit : List.range' 1 (base - 1) ++
        List.range' (max base 1) (last + 1 - max base 1) = List.range' 1 last := by
      rw [show max base 1 = 1 + (base - 1) by omega, List.range'_append_1]
      congr 1
      omega
    rw [order, ← hsplit]
    exact (List.reverse_perm _).append (List.reverse_perm _)

/-- No line stands twice in the order. -/
theorem nodup_order (direction : Direction) (h : base ≤ last) :
    (direction.order last base).Nodup :=
  (direction.order_perm h).nodup_iff.2 List.nodup_range'

/-- The lines in the order are those of the buffer. -/
theorem mem_order (direction : Direction) (h : base ≤ last) {line : Nat} :
    line ∈ direction.order last base ↔ 1 ≤ line ∧ line ≤ last := by
  rw [(direction.order_perm h).mem_iff, List.mem_range'_1]
  omega

/-- The base line comes last.

**Proof sketch.** Forward the second part of the order is a range that ends with the base line.
Backward it is the reversal of a range that begins with it. -/
theorem getLast?_order (direction : Direction) (h : base ≤ last) (hbase : 0 < base) :
    (direction.order last base).getLast? = some base := by
  cases direction with
  | forward =>
    have hlast : List.range' 1 base = List.range' 1 (base - 1) ++ [base] := by
      obtain ⟨n, rfl⟩ := Nat.exists_eq_add_of_lt hbase
      rw [Nat.zero_add, Nat.add_sub_cancel, List.range'_1_concat, Nat.add_comm 1 n]
    rw [order, hlast, ← List.append_assoc, List.getLast?_append]
    rfl
  | backward =>
    have hfirst : List.range' (max base 1) (last + 1 - max base 1) =
        base :: List.range' (base + 1) (last - base) := by
      rw [Nat.max_eq_left hbase, Nat.succ_sub h, List.range'_succ]
    rw [order, hfirst, List.reverse_cons, ← List.append_assoc, List.getLast?_append]
    rfl

/-! ## The steps of a search -/

/-- The lines that the given number of steps lead to, one after the other. -/
def walk (direction : Direction) (last : Nat) : (steps line : Nat) → List Nat
  | 0, _ => []
  | steps + 1, line =>
    direction.nextLine last line :: direction.walk last steps (direction.nextLine last line)

/-- Steps forward that do not leave the buffer, and what follows them.

**Proof sketch.** Induction on the number of steps. None of them is at the end of the buffer, so
each goes one line on. -/
theorem walk_forward_add (last k steps line : Nat) (h : line + k ≤ last) :
    forward.walk last (k + steps) line =
      List.range' (line + 1) k ++ forward.walk last steps (line + k) := by
  induction k generalizing line with
  | zero => rw [Nat.zero_add, List.range'_zero, List.nil_append, Nat.add_zero]
  | succ k ih =>
    have hnext : forward.nextLine last line = line + 1 := if_neg (by omega)
    rw [Nat.succ_add, walk, hnext, ih (line + 1) (by omega), List.range'_succ, List.cons_append,
      Nat.add_right_comm line 1 k]
    rfl

/-- Steps backward that do not leave the buffer, and what follows them.

**Proof sketch.** Induction on the number of steps. None of them is at the beginning of the buffer,
so each goes one line back, and the range is extended at its lower end. -/
theorem walk_backward_add (last k steps line : Nat) (h : k < line) :
    backward.walk last (k + steps) line =
      (List.range' (line - k) k).reverse ++ backward.walk last steps (line - k) := by
  induction k generalizing line with
  | zero => rw [Nat.zero_add, List.range'_zero, List.reverse_nil, List.nil_append, Nat.sub_zero]
  | succ k ih =>
    have hnext : backward.nextLine last line = line - 1 := if_neg (by omega)
    have hrange : List.range' (line - (k + 1)) (k + 1) =
        List.range' (line - (k + 1)) k ++ [line - 1] := by
      rw [List.range'_1_concat]
      congr 2
      omega
    rw [Nat.succ_add, walk, hnext, ih (line - 1) (by omega), hrange, List.reverse_append,
      Nat.sub_sub, Nat.add_comm 1 k]
    rfl

/-- From the last line a search goes forward to the first one. -/
theorem walk_forward_last (h : base ≤ last) :
    forward.walk last base last = List.range' 1 base := by
  cases base with
  | zero => rfl
  | succ k =>
    have hnext : forward.nextLine last last = 1 := if_pos (Nat.le_refl last)
    have hrest := walk_forward_add last k 0 1 (by omega)
    rw [walk, List.append_nil] at hrest
    rw [walk, hnext, List.range'_succ]
    exact congrArg _ hrest

/-- From the first line, or from the place before it, a search goes backward to the last one.

**Proof sketch.** The first step goes to the last line. From there no step leaves the buffer. -/
theorem walk_backward_first (last k line : Nat) (hk : k < last) (hline : line ≤ 1) :
    backward.walk last (k + 1) line = (List.range' (last - k) (k + 1)).reverse := by
  have hnext : backward.nextLine last line = last := if_pos hline
  have hrest := walk_backward_add last k 0 last hk
  rw [walk, List.append_nil] at hrest
  have hrange : List.range' (last - k) (k + 1) = List.range' (last - k) k ++ [last] := by
    rw [List.range'_1_concat, Nat.sub_add_cancel (Nat.le_of_lt hk)]
  rw [walk, hnext, hrange, List.reverse_append]
  exact congrArg _ hrest

/-- The steps of a search lead through the buffer in order.

**Proof sketch.** The walk is cut where it leaves the buffer. Up to there it goes through the lines
on one side of the base line, and from the other end of the buffer it goes on to the base line. Line
0 has no lines in front of it, and an empty buffer has no lines at all. -/
theorem walk_eq_order (direction : Direction) (h : base ≤ last) :
    direction.walk last last base = direction.order last base := by
  cases direction with
  | forward =>
    have hwalk := walk_forward_add last (last - base) base base (by omega)
    rw [Nat.sub_add_cancel h, Nat.add_sub_cancel' h, walk_forward_last h] at hwalk
    exact hwalk
  | backward =>
    cases base with
    | zero =>
      cases last with
      | zero => rfl
      | succ k =>
        rw [walk_backward_first (k + 1) k 0 (Nat.lt_succ_self k) (Nat.zero_le 1),
          show k + 1 - k = 1 by omega]
        rfl
    | succ k =>
      have hwalk := walk_backward_add last k (last - (k + 1) + 1) (k + 1) (Nat.lt_succ_self k)
      have hback := walk_backward_first last (last - (k + 1)) 1 (by omega) (Nat.le_refl 1)
      rw [show k + (last - (k + 1) + 1) = last by omega, show k + 1 - k = 1 by omega,
        hback] at hwalk
      rw [hwalk, order, Nat.add_sub_cancel, Nat.max_eq_left (Nat.le_add_left 1 k)]
      congr 3
      · omega
      · omega

end Direction

/-! ## The search -/

namespace AddressContext

variable (ctx : AddressContext) (direction : Direction) (r : Regex)

/-- Whether the line of a number has a match. -/
def hasMatch (line : Nat) : Bool := r.matchesLine ((ctx.lines[line - 1]?).getD [])

/-- A search that keeps the numbers of the lines that it has looked at, first one first. -/
def lookedAt : (steps line : Nat) → List Nat × Option Nat
  | 0, _ => ([], none)
  | steps + 1, line =>
    let line := direction.nextLine ctx.last line
    if ctx.hasMatch r line then ([line], some line)
    else
      let (lines, found) := lookedAt steps line
      (line :: lines, found)

/-- What a search that keeps a list of the lines it looks at finds is what the search finds. -/
theorem lookedAt_snd (steps line : Nat) :
    (ctx.lookedAt direction r steps line).2 = ctx.searchFrom direction r steps line := by
  induction steps generalizing line with
  | zero => rfl
  | succ steps ih =>
    unfold lookedAt searchFrom hasMatch
    dsimp only
    split
    · rfl
    · exact ih _

/-- A search looks at the lines that its steps lead to, up to the first one that has a match.

**Proof sketch.** Induction on the steps. A step that finds a match ends the search and the initial
part of the walk without one. -/
theorem lookedAt_fst (steps line : Nat) :
    (ctx.lookedAt direction r steps line).1 =
      (direction.walk ctx.last steps line).takeWhile (fun line => !ctx.hasMatch r line) ++
        (ctx.lookedAt direction r steps line).2.toList := by
  induction steps generalizing line with
  | zero => rfl
  | succ steps ih =>
    unfold lookedAt Direction.walk
    dsimp only
    rw [List.takeWhile_cons]
    split
    · rename_i h
      rw [h]
      rfl
    · rename_i h
      rw [Bool.eq_false_iff.2 h]
      exact congrArg _ (ih _)

/-- The lines that a search looks at are the first ones that its steps lead to.

**Proof sketch.** Induction on the steps. A search that stops leaves out the rest of the walk. -/
theorem lookedAt_fst_prefix (steps line : Nat) :
    (ctx.lookedAt direction r steps line).1 <+: direction.walk ctx.last steps line := by
  induction steps generalizing line with
  | zero => exact List.prefix_refl []
  | succ steps ih =>
    unfold lookedAt Direction.walk
    dsimp only
    split
    · exact List.prefix_append [_] _
    · exact (List.prefix_cons_inj _).2 (ih _)

/-- A search finds the first line with a match among those that its steps lead to.

**Proof sketch.** Induction on the steps. -/
theorem searchFrom_eq_find? (steps line : Nat) :
    ctx.searchFrom direction r steps line =
      (direction.walk ctx.last steps line).find? (ctx.hasMatch r) := by
  induction steps generalizing line with
  | zero => rfl
  | succ steps ih =>
    unfold searchFrom Direction.walk
    dsimp only
    rw [List.find?_cons, ← ih]
    unfold hasMatch
    split
    · rename_i h
      rw [h]
    · rename_i h
      rw [Bool.eq_false_iff.2 h]

/-- A search finds the first line in its order that has a match. -/
theorem search_eq_find? (h : ctx.current ≤ ctx.last) :
    ctx.search direction r =
      (direction.order ctx.last ctx.current).find? (ctx.hasMatch r) := by
  rw [search, searchFrom_eq_find?, direction.walk_eq_order h]

/-- A search finds nothing only if no line of the buffer has a match.

**Proof sketch.** The order has exactly the numbers of the lines, and the search looks at the line
with the number. -/
theorem find?_order_eq_none_iff {base : Nat} (h : base ≤ ctx.last) :
    (direction.order ctx.last base).find? (ctx.hasMatch r) = none ↔
      ∀ line ∈ ctx.lines, r.matchesLine line = false := by
  rw [List.find?_eq_none]
  constructor
  · intro hnone line hline
    obtain ⟨index, hindex, rfl⟩ := Array.mem_iff_getElem.1 hline
    have hmatch := hnone (index + 1) ((direction.mem_order h).2 ⟨Nat.le_add_left 1 index, hindex⟩)
    rw [hasMatch, Nat.add_sub_cancel, Array.getElem?_eq_getElem hindex] at hmatch
    exact Bool.eq_false_iff.2 hmatch
  · intro hnone line hline
    obtain ⟨hfirst, hlast⟩ := (direction.mem_order h).1 hline
    have hindex : line - 1 < ctx.lines.size := by
      have : line ≤ ctx.lines.size := hlast
      omega
    rw [hasMatch, Array.getElem?_eq_getElem hindex]
    exact Bool.eq_false_iff.1 (hnone _ (Array.getElem_mem hindex))

end AddressContext

/-! ## Addresses that search -/

namespace Address

/-- An anchor that begins with a delimiter is a search. -/
theorem readAnchor_delimiter (direction : Direction) {text pattern rest : Line}
    (h : readDelimited direction.delimiter true text = (pattern, some rest)) :
    readAnchor (direction.delimiter :: text) = some (.search direction pattern, rest) := by
  cases direction
  all_goals
    unfold readAnchor
    dsimp only [Direction.delimiter] at h ⊢
    rw [h]
    rfl

/-- An address that begins with a delimiter is a search, and what follows the second delimiter are
its offsets. -/
theorem readAddress_delimiter (direction : Direction) {text pattern rest : Line}
    (h : readDelimited direction.delimiter true text = (pattern, some rest)) :
    readAddress (direction.delimiter :: text) =
      (some ⟨.search direction pattern, (readOffsets rest).1⟩, (readOffsets rest).2) := by
  have hblanks : skipBlanks (direction.delimiter :: text) = direction.delimiter :: text := by
    cases direction <;> rfl
  unfold readAddress
  rw [hblanks, readAnchor_delimiter direction h]

/-- The value of an address that searches is the line that the search finds.

**Proof sketch.** The pattern is recalled and the search finds the first line with a match in its
order. This line is one of the buffer, and there are no offsets to add, so that it is the value. -/
theorem value_of_search {ctx : AddressContext} (hcurrent : ctx.current ≤ ctx.last)
    (direction : Direction) {pattern : Line} {memory memory' : Option Regex} {r : Regex}
    (hrecall : recallPattern pattern memory = .ok r memory') :
    Address.value ctx ⟨.search direction pattern, []⟩ memory =
      match (direction.order ctx.last ctx.current).find? (ctx.hasMatch r) with
      | some line => .ok line memory'
      | none => .error .noMatch memory' := by
  unfold Address.value Anchor.value
  simp only [EState.bind_apply, hrecall, ctx.search_eq_find? direction r hcurrent]
  cases hfind : (direction.order ctx.last ctx.current).find? (ctx.hasMatch r) with
  | none => rfl
  | some line =>
    have hline : line ≤ ctx.last :=
      ((direction.mem_order hcurrent).1 (List.mem_of_find?_eq_some hfind)).2
    simp only [addOffsets, EState.pure_apply]
    rw [EState.ite_apply, if_neg (by omega)]
    simp

/-- **The line of an address that searches**, from any base line of the buffer or from line 0: the
first line with a match in the order of the search. Every line of the buffer stands once in this
order, the base line last; the search looks at the lines in this order, up to the one it finds; and
it fails only if no line of the buffer has a match.

**Proof sketch.** The address that is read is a search without offsets, and its value is the line
that the search finds. The steps of the search lead through the buffer in its order. What is said of
the order holds of any permutation of the lines, and what is said of the lines looked at holds of
any walk. -/
theorem value_search {ctx : AddressContext} {base : Nat} (hbase : base ≤ ctx.last)
    (direction : Direction) {text pattern rest : Line}
    (hread : readDelimited direction.delimiter true text = (pattern, some rest))
    (hrest : (readOffsets rest).1 = []) {memory memory' : Option Regex} {r : Regex}
    (hrecall : recallPattern pattern memory = .ok r memory') :
    let order := direction.order ctx.last base
    let looked := { ctx with current := base }.lookedAt direction r ctx.last base
    ∃ a, readAddress (direction.delimiter :: text) = (some a, (readOffsets rest).2) ∧
      a.value { ctx with current := base } memory =
        (match order.find? (ctx.hasMatch r) with
        | some line => .ok line memory'
        | none => .error .noMatch memory') ∧
      (a.value { ctx with current := base } memory = .error .noMatch memory' ↔
        ∀ line ∈ ctx.lines, r.matchesLine line = false) ∧
      looked.2 = { ctx with current := base }.search direction r ∧
      looked.1 = order.takeWhile (fun line => !ctx.hasMatch r line) ++ looked.2.toList ∧
      looked.1 <+: order ∧ order.Nodup ∧ (∀ line, line ∈ order ↔ 1 ≤ line ∧ line ≤ ctx.last) ∧
      (0 < base → order.getLast? = some base) := by
  intro order looked
  have haddress := readAddress_delimiter direction hread
  rw [hrest] at haddress
  have hvalue : Address.value { ctx with current := base } ⟨.search direction pattern, []⟩ memory =
      match order.find? (ctx.hasMatch r) with
      | some line => .ok line memory'
      | none => .error .noMatch memory' :=
    @value_of_search { ctx with current := base } hbase direction pattern memory memory' r hrecall
  have hwalk : direction.walk (AddressContext.last { ctx with current := base }) ctx.last base =
      order := direction.walk_eq_order hbase
  refine ⟨_, haddress, hvalue, ?_, ?_, ?_, ?_, direction.nodup_order hbase,
    fun _ => direction.mem_order hbase, direction.getLast?_order hbase⟩
  · rw [hvalue, ← ctx.find?_order_eq_none_iff direction r hbase]
    cases order.find? (ctx.hasMatch r) with
    | none => simp
    | some line => simp
  · exact AddressContext.lookedAt_snd ..
  · rw [← hwalk]
    exact AddressContext.lookedAt_fst ..
  · rw [← hwalk]
    exact AddressContext.lookedAt_fst_prefix ..

/-- Three lines, of which the first one has the letter `a`, and the second one is the base line. The
search of `/a/p` goes on from the last line at the first one.

**Proof sketch.** The general statement is applied to the base line 2. The pattern that is read, the
program it compiles to and the line that is found are computed. -/
theorem value_search_wrapped :
    let ctx : AddressContext := ⟨3, #[[ascii 'a'], [ascii 'b'], [ascii 'c']], fun _ => none⟩
    let text := Line.ofString "a/p"
    let r : Regex :=
      ⟨Line.ofString "a", .single (.literal (ascii 'a')) .once .empty, false, false, 0⟩
    2 ≤ ctx.last ∧
      readDelimited (Direction.delimiter .forward) true text =
        (Line.ofString "a", some (Line.ofString "p")) ∧
      (readOffsets (Line.ofString "p")).1 = [] ∧
      recallPattern (Line.ofString "a") none = .ok r (some r) ∧
      ∃ a, (readAddress (ascii '/' :: text)).1 = some a ∧
        a.value { ctx with current := 2 } none = .ok 1 (some r) ∧
        ({ ctx with current := 2 }.lookedAt .forward r ctx.last 2).1 = [3, 1] := by
  intro ctx text r
  have hbase : 2 ≤ ctx.last := by decide
  have hread : readDelimited (Direction.delimiter .forward) true text =
      (Line.ofString "a", some (Line.ofString "p")) := by decide +kernel
  have hrest : (readOffsets (Line.ofString "p")).1 = [] := by decide +kernel
  have hrecall : recallPattern (Line.ofString "a") none = .ok r (some r) :=
    recallPattern_of_ne_nil (by decide) (by decide +kernel) none
  have hfind : (Direction.forward.order ctx.last 2).find? (ctx.hasMatch r) = some 1 := by
    decide +kernel
  obtain ⟨a, haddress, hvalue, -⟩ := value_search hbase .forward hread hrest hrecall
  rw [hfind] at hvalue
  exact ⟨hbase, hread, hrest, hrecall, a, congrArg Prod.fst haddress, hvalue, by decide +kernel⟩

end Address

end LineEditor
