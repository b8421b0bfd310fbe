import Mathlib.Algebra.Order.Ring.Int
import LineEditor.Proofs.Address.Spelling

set_option autoImplicit false
set_option relaxedAutoImplicit false

/-!
# The exact value of an address

The value of an address is the sum of its anchor and its offsets as integers, with the numbers that
are written, however many digits or offsets these are. The editor computes it in words of 64 bits.
If a number or a sum on the way does not fit into a word, this is an error; if all of them fit, the
sums on the way may lie outside the buffer. So no value is ever a wrapped one.

## Main definitions

* `LineEditor.Anchor.base`: the line that an anchor means, with a number of any size.
* `LineEditor.Address.Fits`: the numbers and the sums of an address fit into words.
* `LineEditor.Addresses.Within`: the lines of a command lie in the buffer, and there are as many as
  are counted.

## Main results

* `LineEditor.Address.value_clamped_of_inside`, `LineEditor.Address.value_clamped_of_outside`: the
  value of an address whose exact sum lies in the buffer or outside.
* `LineEditor.Address.exists_base_of_value_clamped`: a value is the exact sum.
* `LineEditor.AddressList.values_exact`: the values of all addresses of a command.
-/

namespace LineEditor

variable {ctx : AddressContext} {memory memory' : Option Regex}

/-! ## Sums of offsets -/

/-- A signed word of 64 bits holds a number. -/
def IsWord (v : Int) : Prop := minWord ≤ v ∧ v ≤ maxWord

instance : DecidablePred IsWord := fun v => inferInstanceAs (Decidable (minWord ≤ v ∧ v ≤ maxWord))

/-- A word is a number that can be kept. -/
theorem checkWord_of_isWord {v : Int} (h : IsWord v) : checkWord v = pure v := if_pos h

/-- Any other number is out of range. -/
theorem checkWord_of_not_isWord {v : Int} (h : ¬IsWord v) :
    checkWord v = throw .numberOutOfRange := if_neg h

/-- Cutting a number off does not hide that it is too large. -/
theorem isWord_natAbs_clampOffset (offset : Int) :
    IsWord (clampOffset offset).natAbs ↔ (offset.natAbs : Int) ≤ maxWord := by
  unfold IsWord clampOffset minWord maxWord wordSize
  omega

/-- An offset that fits is not clamped. -/
theorem clampOffset_of_le {offset : Int} (h : (offset.natAbs : Int) ≤ maxWord) :
    clampOffset offset = offset := by
  unfold maxWord at h
  unfold clampOffset wordSize
  omega

/-- The sizes of offsets fit into words, and so do the sums of a line and the first ones of them. -/
structure OffsetsFit (base : Int) (offsets : List Int) : Prop where
  /-- The number of each offset fits. -/
  numbers : ∀ offset ∈ offsets, (offset.natAbs : Int) ≤ maxWord
  /-- Each sum on the way fits. -/
  sums : ∀ k ≤ offsets.length, 0 < k → IsWord (base + (offsets.take k).sum)

/-- Offsets fit if the first of them does, the sum with it does, and the others fit behind that sum.

**Proof sketch.** The sums of all offsets are the first one and the sums of the others, all starting
from the sum with the first. -/
theorem offsetsFit_cons {base offset : Int} {offsets : List Int} :
    OffsetsFit base (offset :: offsets) ↔
      (offset.natAbs : Int) ≤ maxWord ∧ IsWord (base + offset) ∧
        OffsetsFit (base + offset) offsets := by
  constructor
  · rintro ⟨hnumbers, hsums⟩
    obtain ⟨hoffset, hoffsets⟩ := List.forall_mem_cons.1 hnumbers
    refine ⟨hoffset, by simpa using hsums 1 (by simp) one_pos, hoffsets, fun k hk _ => ?_⟩
    have hsum := hsums (k + 1) (by simpa using hk) k.succ_pos
    rwa [List.take_succ_cons, List.sum_cons, ← Int.add_assoc] at hsum
  · rintro ⟨hoffset, hfirst, hnumbers, hsums⟩
    refine ⟨List.forall_mem_cons.2 ⟨hoffset, hnumbers⟩, fun k hk hpos => ?_⟩
    obtain ⟨k, rfl⟩ := Nat.exists_eq_succ_of_ne_zero hpos.ne'
    rw [List.take_succ_cons, List.sum_cons, ← Int.add_assoc]
    rcases Nat.eq_zero_or_pos k with rfl | hk'
    · simpa using hfirst
    · exact hsums k (by simpa using hk) hk'

/-- Offsets that fit are added exactly. -/
theorem addOffsets_of_fit {base : Int} {offsets : List Int} (h : OffsetsFit base offsets) :
    addOffsets base (offsets.map clampOffset) = pure (base + offsets.sum) := by
  induction offsets generalizing base with
  | nil => simp [addOffsets]
  | cons offset offsets ih =>
    obtain ⟨hoffset, hsum, hrest⟩ := offsetsFit_cons.1 h
    rw [List.map_cons, addOffsets,
      checkWord_of_isWord ((isWord_natAbs_clampOffset offset).2 hoffset), pure_bind,
      clampOffset_of_le hoffset, checkWord_of_isWord hsum, pure_bind, ih hrest, List.sum_cons,
      Int.add_assoc]

/-- Offsets that do not fit are not added.

**Proof sketch.** By induction on the offsets: one that is too great is out of range by itself, and
one that makes the sum too great when that sum is checked. Otherwise the offsets behind it do not
fit. -/
theorem addOffsets_of_not_fit {base : Int} {offsets : List Int} (h : ¬OffsetsFit base offsets) :
    addOffsets base (offsets.map clampOffset) = throw .numberOutOfRange := by
  induction offsets generalizing base with
  | nil =>
    refine absurd ⟨by simp, fun k hk hpos => ?_⟩ h
    simp at hk
    omega
  | cons offset offsets ih =>
    rw [List.map_cons, addOffsets]
    by_cases hoffset : (offset.natAbs : Int) ≤ maxWord
    · rw [checkWord_of_isWord ((isWord_natAbs_clampOffset offset).2 hoffset), pure_bind,
        clampOffset_of_le hoffset]
      by_cases hsum : IsWord (base + offset)
      · have hrest : ¬OffsetsFit (base + offset) offsets := fun hrest =>
          h (offsetsFit_cons.2 ⟨hoffset, hsum, hrest⟩)
        rw [checkWord_of_isWord hsum, pure_bind, ih hrest]
      · rw [checkWord_of_not_isWord hsum]
        rfl
    · rw [checkWord_of_not_isWord (mt (isWord_natAbs_clampOffset offset).1 hoffset)]
      rfl

/-! ## The value of an address -/

/-- The line that an anchor means. A number is not limited to words. -/
def Anchor.base (ctx : AddressContext) : Anchor → Recall Int
  | number n => pure n
  | anchor => anchor.value ctx

/-- A number as it is read has the value of the number that is written.

**Proof sketch.** A number that is too great is clamped to one that still is. -/
theorem Anchor.value_clamped_number (n : Nat) :
    (Anchor.number n).clamped.value ctx = checkWord n := by
  change checkWord ((min wordSize n : Nat) : Int) = checkWord n
  by_cases hn : IsWord n
  · have hmin : min wordSize n = n := by
      unfold IsWord maxWord at hn
      unfold wordSize
      omega
    rw [hmin]
  · have hmin : ¬IsWord (min wordSize n : Nat) := by
      unfold IsWord minWord maxWord at hn ⊢
      unfold wordSize
      omega
    rw [checkWord_of_not_isWord hn, checkWord_of_not_isWord hmin]

/-- An anchor as it is read means the line of the one that is written, if its number fits. -/
theorem Anchor.value_clamped_of_isWord {anchor : Anchor}
    (h : ∀ n, anchor = .number n → IsWord n) : anchor.clamped.value ctx = anchor.base ctx := by
  cases anchor with
  | number n => rw [Anchor.value_clamped_number, checkWord_of_isWord (h n rfl), Anchor.base]
  | _ => rfl

namespace Address

variable {a : Address} {base : Int}

/-- The exact sum of an address, if its anchor means the line `base`. -/
def sum (a : Address) (base : Int) : Int := base + a.offsets.sum

/-- The numbers in an address fit into signed words of 64 bits, and so do the sums on the way. -/
structure Fits (a : Address) (base : Int) : Prop where
  /-- The number of the anchor fits, if it is one. -/
  anchor : ∀ n, a.anchor = .number n → IsWord n
  /-- The numbers of the offsets and the sums fit. -/
  offsets : OffsetsFit base a.offsets

/-- The value of an address as it is read, if all fits: the exact sum, but an error if this is not a
line of the buffer.

**Proof sketch.** The anchor and the offsets are added up as they are written, and what is left is
the check for a line of the buffer. -/
theorem value_clamped_of_fits (hbase : a.anchor.base ctx memory = .ok base memory')
    (hfits : a.Fits base) :
    a.clamped.value ctx memory =
      if a.sum base < 0 ∨ ctx.last < a.sum base then .error .invalidAddress memory'
      else .ok (a.sum base).toNat memory' := by
  unfold Address.value clamped
  rw [EState.bind_apply, Anchor.value_clamped_of_isWord hfits.anchor, hbase]
  dsimp only
  rw [EState.bind_apply, addOffsets_of_fit hfits.offsets, EState.pure_apply]
  dsimp only
  rw [EState.ite_apply]
  rfl

/-- An address is an error if not all fits.

**Proof sketch.** Either the offsets do not fit, or the number of the anchor does not, which is
found out first. -/
theorem value_clamped_of_not_fits (hbase : a.anchor.base ctx memory = .ok base memory')
    (hfits : ¬a.Fits base) : a.clamped.value ctx memory = .error .numberOutOfRange memory' := by
  unfold Address.value clamped
  rw [EState.bind_apply]
  by_cases hanchor : ∀ n, a.anchor = .number n → IsWord n
  · have hoffsets : ¬OffsetsFit base a.offsets := fun hoffsets => hfits ⟨hanchor, hoffsets⟩
    rw [Anchor.value_clamped_of_isWord hanchor, hbase]
    dsimp only
    rw [EState.bind_apply, addOffsets_of_not_fit hoffsets]
    rfl
  · push Not at hanchor
    obtain ⟨n, hnumber, hn⟩ := hanchor
    rw [hnumber] at hbase ⊢
    cases hbase
    rw [Anchor.value_clamped_number, checkWord_of_not_isWord hn]
    rfl

/-- **An address whose exact sum is a line of the buffer has this line as its value**, if its
numbers and the sums on the way fit into words. These sums may lie outside the buffer. -/
theorem value_clamped_of_inside (hbase : a.anchor.base ctx memory = .ok base memory')
    (hfits : a.Fits base) (hzero : 0 ≤ a.sum base) (hlast : a.sum base ≤ ctx.last) :
    a.clamped.value ctx memory = .ok (a.sum base).toNat memory' := by
  rw [value_clamped_of_fits hbase hfits, if_neg (by omega)]

/-- **An address whose exact sum is no line of the buffer is an error.** -/
theorem value_clamped_of_outside (hbase : a.anchor.base ctx memory = .ok base memory')
    (houtside : a.sum base < 0 ∨ ctx.last < a.sum base) :
    ∃ e ∈ [EditError.invalidAddress, .numberOutOfRange],
      a.clamped.value ctx memory = .error e memory' := by
  by_cases hfits : a.Fits base
  · refine ⟨.invalidAddress, by simp, ?_⟩
    rw [value_clamped_of_fits hbase hfits, if_pos houtside]
  · exact ⟨.numberOutOfRange, by simp, value_clamped_of_not_fits hbase hfits⟩

/-- **The value of an address is its exact sum.**

**Proof sketch.** What is read succeeds only if all fits, and then its value is the sum that is
checked. -/
theorem exists_base_of_value_clamped {v : Nat} (h : a.clamped.value ctx memory = .ok v memory') :
    ∃ base, a.anchor.base ctx memory = .ok base memory' ∧ (v : Int) = a.sum base ∧
      v ≤ ctx.last := by
  cases hbase : a.anchor.base ctx memory with
  | ok base m =>
    by_cases hfits : a.Fits base
    · rw [value_clamped_of_fits hbase hfits] at h
      split at h
      · cases h
      · cases h
        exact ⟨base, rfl, by omega, by omega⟩
    · rw [value_clamped_of_not_fits hbase hfits] at h
      cases h
  | error e m =>
    have hanchor (n : Nat) (hnumber : a.anchor = .number n) : IsWord n := by
      rw [hnumber] at hbase
      cases hbase
    unfold Address.value clamped at h
    rw [EState.bind_apply, Anchor.value_clamped_of_isWord hanchor, hbase] at h
    cases h

end Address

/-- The value of an address lies in the buffer, or is the place before it. -/
theorem Address.le_last_of_value {a : Address} {v : Nat} (h : a.value ctx memory = .ok v memory') :
    v ≤ ctx.last := by
  unfold Address.value at h
  obtain ⟨base, _, -, h⟩ := EState.exists_of_bind_ok h
  obtain ⟨sum, _, -, h⟩ := EState.exists_of_bind_ok h
  dsimp only at h
  rw [EState.ite_apply] at h
  split at h
  · cases h
  · cases h
    omega

/-- An address within which the line ends has no value. -/
theorem Address.CutOff.value_ne_ok {a : Address} (h : a.CutOff) (v : Nat) :
    a.value ctx memory ≠ .ok v memory' := by
  obtain rfl | rfl := h
  · exact fun hv => nomatch hv
  · exact fun hv => nomatch hv

/-! ## All addresses of a command -/

/-- The lines that a command is given lie in a buffer of `last` lines or before it, and there are
some exactly if some are counted. -/
structure Addresses.Within (a : Addresses) (last : Nat) : Prop where
  /-- There is a first line exactly if some are counted. -/
  first_isSome : a.first.isSome ↔ 0 < a.count
  /-- There is a second line exactly if some are counted. -/
  second_isSome : a.second.isSome ↔ 0 < a.count
  /-- The first line lies in the buffer. -/
  first_le : ∀ line ∈ a.first, line ≤ last
  /-- The second line lies in the buffer. -/
  second_le : ∀ line ∈ a.second, line ≤ last

/-- No addresses lie anywhere. -/
theorem Addresses.within_none (last : Nat) : Addresses.none.Within last :=
  ⟨by decide, by decide, by simp [Addresses.none], by simp [Addresses.none]⟩

/-- Another address that lies in the buffer may be added. -/
theorem Addresses.Within.push {a : Addresses} {last line : Nat} (h : a.Within last)
    (hline : line ≤ last) : (a.push line).Within last := by
  refine ⟨by simp [Addresses.push], by simp [Addresses.push], ?_, by simpa [Addresses.push]⟩
  unfold Addresses.push
  cases hsecond : a.second with
  | none => simpa
  | some second => simpa using h.second_le second hsecond

namespace AddressProgress

/-- The addresses resolved so far lie in the buffer, and so does the line that stands for a missing
one. -/
structure Within (p : AddressProgress) (last : Nat) : Prop where
  /-- The addresses lie in the buffer. -/
  addresses : p.addresses.Within last
  /-- The line for a missing address lies in the buffer. -/
  pending : ∀ line ∈ p.pending, line ≤ last

variable {p p' : AddressProgress}

/-- Each address that is resolved lies in the buffer.

**Proof sketch.** Such an address is checked. A missing one stands for the first line or for the
current one, neither of which is behind the last. -/
theorem within_link (hp : p.Within ctx.last) {entry : Option Address} {separator : Separator}
    (h : p.link ctx entry separator memory = .ok p' memory') : p'.Within ctx.last := by
  unfold link at h
  cases entry with
  | some a =>
    obtain ⟨v, _, hv, h⟩ := EState.exists_of_bind_ok h
    have hlast : v ≤ AddressContext.last { ctx with current := p.current } :=
      Address.le_last_of_value hv
    cases h
    have hpush := hp.addresses.push hlast
    exact ⟨⟨hpush.first_isSome, hpush.second_isSome, hpush.first_le, hpush.second_le⟩, by simpa⟩
  | none =>
    cases h
    have hpush := hp.addresses.push
      (min_le_right (if separator = .semicolon then p.current else 1) ctx.last)
    exact ⟨⟨hpush.first_isSome, hpush.second_isSome, hpush.first_le, hpush.second_le⟩, by simp⟩

/-- All addresses that are resolved lie in the buffer. -/
theorem within_links {list : List (Option Address × Separator)} (hp : p.Within ctx.last)
    (h : p.links ctx list memory = .ok p' memory') : p'.Within ctx.last := by
  induction list generalizing p memory with
  | nil =>
    cases h
    exact hp
  | cons link rest ih =>
    obtain ⟨q, m, hlink, h⟩ := EState.exists_of_bind_ok h
    exact ih (within_link hp hlink) h

/-- Links can be gone through one part after the other.

**Proof sketch.** By induction on the first part. -/
theorem links_append (p : AddressProgress) (front rest : List (Option Address × Separator)) :
    p.links ctx (front ++ rest) = p.links ctx front >>= fun p => p.links ctx rest := by
  induction front generalizing p with
  | nil => rfl
  | cons link front ih =>
    rw [List.cons_append, links, links, bind_assoc]
    exact bind_congr fun q => ih q

end AddressProgress

namespace AddressList

/-- The lines that a list of addresses resolves to lie in the buffer.

**Proof sketch.** The links before the last address are resolved to lines of the buffer, and so is
the last one, or the line that is pending if it is missing. -/
theorem within_values {list : AddressList} {addresses : Addresses}
    (h : list.values ctx memory = .ok addresses memory') : addresses.Within ctx.last := by
  unfold values at h
  obtain ⟨p, m, hlinks, h⟩ := EState.exists_of_bind_ok h
  have hp : p.Within ctx.last :=
    AddressProgress.within_links ⟨Addresses.within_none _, by simp⟩ hlinks
  cases hfinal : list.final with
  | some a =>
    rw [hfinal] at h
    obtain ⟨v, _, hv, h⟩ := EState.exists_of_bind_ok h
    have hlast : v ≤ AddressContext.last { ctx with current := p.current } :=
      Address.le_last_of_value hv
    cases h
    exact hp.addresses.push hlast
  | none =>
    rw [hfinal] at h
    cases hpending : p.pending with
    | some line =>
      simp only [hpending] at h
      cases h
      exact hp.addresses.push (hp.pending line hpending)
    | none =>
      simp only [hpending] at h
      cases h
      exact hp.addresses

/-- The places for addresses, in order. -/
def entries (list : AddressList) : List (Option Address) := list.links.map Prod.fst ++ [list.final]

/-- The addresses before a place are resolved before the one in it.

**Proof sketch.** The address is one of a link or the last one. In the first case the links are
split in front of it, and those before it have been resolved when it is. -/
theorem exists_progress {list : AddressList} {addresses : Addresses} {i : Nat} {a : Address}
    (hentry : list.entries[i]? = some (some a))
    (h : list.values ctx memory = .ok addresses memory') :
    ∃ p m₁ v m₂,
      AddressProgress.links ctx ⟨.none, none, ctx.current⟩ (list.links.take i) memory = .ok p m₁ ∧
        a.value { ctx with current := p.current } m₁ = .ok v m₂ := by
  unfold values at h
  obtain ⟨p, m, hlinks, h⟩ := EState.exists_of_bind_ok h
  unfold entries at hentry
  rcases Nat.lt_or_ge i list.links.length with hi | hi
  · rw [List.getElem?_append_left (by simpa using hi), List.getElem?_map,
      List.getElem?_eq_getElem hi] at hentry
    have hlink : list.links[i] = (some a, list.links[i].2) :=
      Prod.ext (Option.some.inj hentry) rfl
    have hsplit : list.links =
        list.links.take i ++ (some a, list.links[i].2) :: list.links.drop (i + 1) := by
      rw [← hlink, ← List.drop_eq_getElem_cons hi, List.take_append_drop]
    rw [hsplit, AddressProgress.links_append] at hlinks
    obtain ⟨q, m₁, hbefore, hlinks⟩ := EState.exists_of_bind_ok hlinks
    obtain ⟨_, _, hlink, -⟩ := EState.exists_of_bind_ok hlinks
    obtain ⟨v, m₂, hv, -⟩ := EState.exists_of_bind_ok hlink
    exact ⟨q, m₁, v, m₂, hbefore, hv⟩
  · rw [List.getElem?_append_right (by simpa using hi), List.length_map] at hentry
    have hfinal : list.final = some a := by
      rw [List.getElem?_singleton] at hentry
      split at hentry
      · exact Option.some.inj hentry
      · cases hentry
    rw [hfinal] at h
    obtain ⟨v, m₂, hv, -⟩ := EState.exists_of_bind_ok h
    rw [List.take_of_length_le hi]
    exact ⟨p, m, v, m₂, hlinks, hv⟩

/-- An address in a list has its exact value: the addresses before it are resolved, its anchor means
a line then, and the list up to it resolves to lines of which the exact sum is the last one. -/
def ExactAt (ctx : AddressContext) (memory : Option Regex) (list : AddressList) (i : Nat)
    (a : Address) : Prop :=
  ∃ p m₁ base m₂,
    AddressProgress.links ctx ⟨.none, none, ctx.current⟩ (list.clamped.links.take i) memory =
      .ok p m₁ ∧
    a.anchor.base { ctx with current := p.current } m₁ = .ok base m₂ ∧
    0 ≤ a.sum base ∧ a.sum base ≤ ctx.last ∧
    AddressList.values ctx ⟨list.clamped.links.take i, some a.clamped⟩ memory =
      .ok (p.addresses.push (a.sum base).toNat) m₂

/-- Clamping a list clamps its addresses. -/
theorem entries_clamped (list : AddressList) :
    list.clamped.entries = list.entries.map (Option.map Address.clamped) := by
  unfold entries clamped
  rw [List.map_append, List.map_map, List.map_map]
  rfl

/-- All addresses of a list that is resolved have their exact values.

**Proof sketch.** By `exists_progress` and `exists_base_of_value_clamped`: what has been resolved
before an address tells which line is the current one for it, and its value is the sum over that. -/
theorem exactAt_of_values {list : AddressList} {addresses : Addresses}
    (h : list.clamped.values ctx memory = .ok addresses memory') {i : Nat} {a : Address}
    (hentry : list.entries[i]? = some (some a)) : list.ExactAt ctx memory i a := by
  have hclamped : list.clamped.entries[i]? = some (some a.clamped) := by
    rw [entries_clamped, List.getElem?_map, hentry]
    rfl
  obtain ⟨p, m₁, v, m₂, hbefore, hv⟩ := exists_progress hclamped h
  obtain ⟨base, hbase, hsum, hlast⟩ := Address.exists_base_of_value_clamped hv
  have hlast' : a.sum base ≤ ctx.last := by
    rw [← hsum]
    exact Int.ofNat_le.2 hlast
  refine ⟨p, m₁, base, m₂, hbefore, hbase, by omega, hlast', ?_⟩
  unfold values
  rw [EState.bind_apply, hbefore]
  dsimp only
  rw [EState.bind_apply, hv, ← hsum]
  rfl

/-- **The values of the addresses of a command are exact**, whatever numbers and however many
offsets are written. What the reader has read spells the addresses; if they are resolved, there are
lines exactly if some are counted, all lie in the buffer, and each address has its exact sum as its
value. An address whose numbers and sums fit into words and whose exact sum lies in the buffer does
not fail, even if the sums on the way lie outside; one whose exact sum lies outside is an error.

**Proof sketch.** The first part takes the list apart that the reader has read, by
`exactAt_of_values`; an address at which the line ends cannot have been resolved. The second part is
about a single address that is read, whose value is known inside and outside of the buffer. -/
theorem values_exact (ctx : AddressContext) (memory : Option Regex) :
    (∀ (line : Line) (addresses : Addresses) (memory' : Option Regex),
      (readAddresses line).1.values ctx memory = .ok addresses memory' →
      (readAddresses line).2.length ≤ line.length ∧ addresses.Within ctx.last ∧
      ∃ text list, text ++ (readAddresses line).2 = line ∧ SpellsList text list ∧
        (readAddresses line).1 = list.clamped ∧
        ∀ i a, list.entries[i]? = some (some a) → list.ExactAt ctx memory i a) ∧
    ∀ (text rest : Line) (a : Address), SpellsAddress text a → Stops inOffsets rest →
      ∃ read, readAddress (text ++ rest) = (some read, rest) ∧
        ∀ base memory', a.anchor.base ctx memory = .ok base memory' →
          (a.Fits base → 0 ≤ a.sum base → a.sum base ≤ ctx.last →
            read.value ctx memory = .ok (a.sum base).toNat memory') ∧
          (a.sum base < 0 ∨ ctx.last < a.sum base →
            ∃ e ∈ [EditError.invalidAddress, .numberOutOfRange],
              read.value ctx memory = .error e memory') := by
  refine ⟨fun line addresses memory' h => ?_, fun text rest a hspells hrest => ?_⟩
  · obtain ⟨text, list, happend, hspells, hlist⟩ | ⟨-, a, hfinal, hcut⟩ :=
      spells_readAddresses line
    · refine ⟨?_, within_values h, text, list, happend, hspells, hlist, fun i a hentry => ?_⟩
      · have hlength := congrArg List.length happend
        rw [List.length_append] at hlength
        omega
      · rw [hlist] at h
        exact exactAt_of_values h hentry
    · obtain ⟨_, _, -, hvalue⟩ := EState.exists_of_bind_ok h
      rw [hfinal] at hvalue
      obtain ⟨v, _, hv, -⟩ := EState.exists_of_bind_ok hvalue
      exact absurd hv (hcut.value_ne_ok v)
  · refine ⟨a.clamped, hspells.readAddress_eq hrest, fun base memory' hbase => ⟨?_, ?_⟩⟩
    · exact Address.value_clamped_of_inside hbase
    · exact Address.value_clamped_of_outside hbase

/-- In a buffer of two lines `1-3+2` is the place before the first line, though the sum after `-3`
lies before this. -/
theorem values_exact_beforeFirst :
    let ctx : AddressContext := ⟨2, #[[ascii 'a'], [ascii 'b']], fun _ => none⟩
    let line := Line.ofString "1-3+2,$p"
    let a : Address := ⟨.number 1, [-3, 2]⟩
    ∃ list read memory, SpellsList (Line.ofString "1-3+2,$") list ∧
      (readAddresses line).1 = list.clamped ∧
      list.clamped.values ctx none = .ok ⟨some 0, some 2, 2, true⟩ memory ∧
      (⟨some 0, some 2, 2, true⟩ : Addresses).Within ctx.last ∧
      SpellsAddress (Line.ofString "1-3+2") a ∧ Stops inOffsets (Line.ofString ",$p") ∧
      a.anchor.base ctx none = .ok 1 none ∧ a.Fits 1 ∧
      readAddress line = (some read, Line.ofString ",$p") ∧ read.value ctx none = .ok 0 none := by
  intro ctx line a
  have hvalues : (readAddresses line).1.values ctx none = .ok ⟨some 0, some 2, 2, true⟩ _ :=
    EState.eq_ok_of_value? (by decide +kernel)
  have hspells : SpellsAddress (Line.ofString "1-3+2") a := by
    have hnone : ∀ b ∈ [], isBlank b = true := List.forall_mem_nil _
    have hanchor : SpellsAnchor [ascii '1'] (.number 1) := .number (List.forall_mem_singleton.2 rfl)
    have hplus : SpellsOffsets [ascii '+', ascii '2'] [2] :=
      @SpellsOffsets.signed [] [ascii '2'] [] (ascii '+') [] hnone rfl
        (List.forall_mem_singleton.2 rfl) Stops.nil (.none hnone)
    have hminus : SpellsOffsets [ascii '-', ascii '3', ascii '+', ascii '2'] [-3, 2] :=
      @SpellsOffsets.signed [] [ascii '3'] [ascii '+', ascii '2'] (ascii '-') [2] hnone rfl
        (List.forall_mem_singleton.2 rfl) (stops_cons.2 rfl) hplus
    exact @SpellsAddress.anchored [] _ _ _ _ hnone hanchor (fun _ _ => stops_cons.2 rfl) hminus
  have hstops : Stops inOffsets (Line.ofString ",$p") :=
    @stops_cons _ _ (ascii ',') |>.2 (by decide)
  have hfits : a.Fits 1 := by
    refine ⟨fun n hn => ?_, by decide, by decide⟩
    obtain rfl := Anchor.number.inj hn
    decide
  obtain ⟨hline, haddress⟩ := values_exact ctx none
  obtain ⟨-, hwithin, text, list, happend, hlist, hclamped, -⟩ := hline line _ _ hvalues
  have hrest : (readAddresses line).2 = [ascii 'p'] := by decide +kernel
  obtain rfl : text = Line.ofString "1-3+2,$" := by
    rw [hrest] at happend
    exact List.append_cancel_right (happend.trans (by decide))
  obtain ⟨read, hread, hvalue⟩ := haddress _ _ a hspells hstops
  have hvalue := (hvalue 1 none rfl).1 hfits (by decide) (by decide)
  exact ⟨list, read, _, hlist, hclamped, hclamped ▸ hvalues, hwithin, hspells, hstops, rfl, hfits,
    hread, hvalue⟩

end AddressList

end LineEditor
