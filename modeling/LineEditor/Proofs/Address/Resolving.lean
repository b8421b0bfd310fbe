import LineEditor.Proofs.Address.Sums
import LineEditor.Proofs.Session.Recording

set_option autoImplicit false
set_option relaxedAutoImplicit false

/-!
# Resolving the addresses in front of a command

The addresses of a command line are resolved before its command is looked at. Where they end and
which lines they mean is settled by their own bytes, though the readers of patterns look far ahead:
in front of anything that does not go on with an address they have the same lines, and leave the
same pattern to be remembered.

Two addresses with a separator between them are resolved one after the other. The second one finds
the pattern that the first one has left, and behind a semicolon the line of the first one is current
for it. The current line of the buffer stays where it is.

## Main definitions

* `LineEditor.AddressContext.resolve`: the lines of the addresses in front of a command.

## Main results

* `LineEditor.AddressContext.resolve_append`: what follows the addresses does not matter.
* `LineEditor.LineBuffer.resolve_pair`: the lines of two addresses.
-/

namespace LineEditor

open EState

variable {memory memory' : Option Regex}

/-- Resolves the addresses at the front of a command line. Returns their lines and what follows. -/
def AddressContext.resolve (ctx : AddressContext) (line : Line) : Recall (Addresses × Line) := do
  let addresses ← (readAddresses line).1.values ctx
  return (addresses, (readAddresses line).2)

variable {ctx : AddressContext} {line front rest : Line} {addresses : Addresses}

/-! ## What follows the addresses -/

namespace AddressContext

/-- The values of the addresses of a line are what they are resolved to. -/
theorem resolve_of_values
    (hvalues : (readAddresses line).1.values ctx memory = .ok addresses memory')
    (hrest : (readAddresses line).2 = rest) :
    ctx.resolve line memory = .ok (addresses, rest) memory' := by
  unfold resolve
  rw [bind_apply, hvalues, ← hrest]
  rfl

/-- What addresses are resolved to are their values. -/
theorem values_of_resolve (h : ctx.resolve line memory = .ok (addresses, rest) memory') :
    (readAddresses line).1.values ctx memory = .ok addresses memory' ∧
      (readAddresses line).2 = rest := by
  obtain ⟨_, _, hvalues, h⟩ := exists_of_bind_ok h
  cases h
  exact ⟨hvalues, rfl⟩

/-- Addresses that are resolved are spelled by what stands before the rest.

**Proof sketch.** What is read as a list of addresses is spelled so, unless the last address is a
search without an end, which has no value. -/
theorem exists_spellsList_of_resolve
    (h : ctx.resolve line memory = .ok (addresses, rest) memory') :
    ∃ text list, text ++ rest = line ∧ SpellsList text list ∧
      list.clamped.values ctx memory = .ok addresses memory' := by
  obtain ⟨hvalues, rfl⟩ := values_of_resolve h
  obtain ⟨text, list, happend, hspells, hlist⟩ | ⟨-, a, hfinal, hcut⟩ := spells_readAddresses line
  · exact ⟨text, list, happend, hspells, hlist ▸ hvalues⟩
  · obtain ⟨_, _, -, hvalue⟩ := exists_of_bind_ok hvalues
    rw [hfinal] at hvalue
    obtain ⟨v, _, hv, -⟩ := exists_of_bind_ok hvalue
    exact absurd hv (hcut.value_ne_ok v)

/-- Addresses that a text spells are resolved in front of anything that is no more of them. -/
theorem resolve_of_spellsList {text : Line} {list : AddressList} (hspells : SpellsList text list)
    (hrest : Stops inAddresses rest)
    (hvalues : list.clamped.values ctx memory = .ok addresses memory') :
    ctx.resolve (text ++ rest) memory = .ok (addresses, rest) memory' := by
  have hread := hspells.readAddresses_eq hrest
  exact resolve_of_values (hread ▸ hvalues) (congrArg Prod.snd hread)

end AddressContext

/-- A command line that is read has the addresses at its front.

**Proof sketch.** The addresses are read and resolved before anything else of the line, and no later
part changes them. -/
theorem CommandLine.exists_resolve_of_read {command : CommandLine}
    (h : CommandLine.read ctx line memory = .ok command memory') :
    ∃ memory₁, ctx.resolve line memory =
      .ok (command.addresses, (readAddresses line).2) memory₁ := by
  obtain ⟨addresses, memory₁, hvalues, h⟩ := exists_of_bind_ok h
  suffices haddresses : command.addresses = addresses by
    rw [haddresses]
    exact ⟨memory₁, AddressContext.resolve_of_values hvalues rfl⟩
  cases hrest : (readAddresses line).2 with
  | nil =>
    rw [hrest] at h
    cases h
    rfl
  | cons letter rest =>
    simp only [hrest] at h
    obtain ⟨⟨_, _, _⟩, _, -, h⟩ := exists_of_bind_ok h
    dsimp only at h
    rw [EState.ite_apply] at h
    split at h
    · cases h
    · obtain ⟨_, _, -, h⟩ := exists_of_bind_ok h
      cases h
      rfl

/-- A byte that is neither a comma nor a percent sign nor a semicolon is no separator. -/
theorem Separator.ofByte?_eq_none_iff {b : UInt8} :
    Separator.ofByte? b = none ↔ b ≠ ascii ',' ∧ b ≠ ascii '%' ∧ b ≠ ascii ';' := by
  unfold Separator.ofByte?
  split
  · rename_i hcomma
    simp only [reduceCtorEq, false_iff]
    tauto
  · split
    · simp_all
    · simp_all

/-- The bytes that an address begins with or goes on with, digits and blanks apart. -/
def addressBytes : Line := Line.ofString "+-^,;%.$'/?"

/-- A byte that is no digit, no blank and none of these does not go on with the addresses.

**Proof sketch.** A byte goes on with the addresses if it may stand in an offset, begin an address
or separate two of them. The bytes that do so are listed. -/
theorem inAddresses_eq_false_iff {b : UInt8} :
    inAddresses b = false ↔ isDigit b = false ∧ isBlank b = false ∧ b ∉ addressBytes := by
  have hbytes : addressBytes = [ascii '+', ascii '-', ascii '^', ascii ',', ascii ';', ascii '%',
      ascii '.', ascii '$', ascii '\'', ascii '/', ascii '?'] := rfl
  rw [inAddresses, Bool.or_eq_false_iff, Option.isSome_eq_false_iff, Option.isNone_iff_eq_none,
    Separator.ofByte?_eq_none_iff, hbytes]
  simp only [inOffsets, startsAddress, isSign, Bool.or_eq_false_iff, beq_eq_false_iff_ne,
    List.contains_eq_mem, decide_eq_false_iff_not, List.mem_cons, List.not_mem_nil, or_false,
    not_or]
  tauto

namespace AddressContext

/-- **What follows the addresses of a command does not matter.** They take up a part of the line
that is settled by them alone: in front of anything that does not go on with an address, they have
the same lines, take up the same part and leave the same pattern. So whatever command follows them,
it has these addresses.

**Proof sketch.** What stands before the rest spells the addresses. In front of anything that does
not go on with them this spelling is read as the same addresses, which have the same values in the
same context. -/
theorem resolve_append (h : ctx.resolve line memory = .ok (addresses, rest) memory') :
    ∃ front, front ++ rest = line ∧ ∀ more : Line,
      (∀ b ∈ more.head?, isDigit b = false ∧ isBlank b = false ∧ b ∉ addressBytes) →
      ctx.resolve (front ++ more) memory = .ok (addresses, more) memory' ∧
      ∀ command memory₁, CommandLine.read ctx (front ++ more) memory = .ok command memory₁ →
        command.addresses = addresses := by
  obtain ⟨front, list, happend, hspells, hvalues⟩ := exists_spellsList_of_resolve h
  refine ⟨front, happend, fun more hmore => ?_⟩
  have hstops : Stops inAddresses more := fun b hb => inAddresses_eq_false_iff.2 (hmore b hb)
  have hresolve := resolve_of_spellsList hspells hstops hvalues
  refine ⟨hresolve, fun command memory₁ hread => ?_⟩
  obtain ⟨_, hcommand⟩ := CommandLine.exists_resolve_of_read hread
  have heq := hresolve.symm.trans hcommand
  exact (congrArg Prod.fst (EStateM.Result.ok.inj heq).1).symm

/-- The pattern has a class and a delimiter between brackets. Another end of a class follows in
the command, which is looked at no more if there is another command.

**Proof sketch.** The first command line is resolved by computation. The front that the general
statement gives is the one in question, since both stand before the same rest. -/
theorem resolve_append_class :
    let ctx : AddressContext :=
      ⟨3, #[Line.ofString "7x", Line.ofString "b", Line.ofString "c"], fun _ => none⟩
    let front := Line.ofString "/[[:digit:]/]x/+1,$"
    ∃ memory, ctx.resolve (front ++ Line.ofString "s/:]//") none =
        .ok (⟨some 2, some 3, 2, true⟩, Line.ofString "s/:]//") memory ∧
      (∀ b ∈ (Line.ofString "d:]/").head?,
        isDigit b = false ∧ isBlank b = false ∧ b ∉ addressBytes) ∧
      ctx.resolve (front ++ Line.ofString "d:]/") none =
        .ok (⟨some 2, some 3, 2, true⟩, Line.ofString "d:]/") memory := by
  intro ctx front
  have hresolve : ctx.resolve (front ++ Line.ofString "s/:]//") none =
      .ok (⟨some 2, some 3, 2, true⟩, Line.ofString "s/:]//") _ :=
    eq_ok_of_value? (by decide +kernel)
  have hmore : ∀ b ∈ (Line.ofString "d:]/").head?,
      isDigit b = false ∧ isBlank b = false ∧ b ∉ addressBytes := by decide +kernel
  obtain ⟨front', happend, hfront⟩ := resolve_append hresolve
  obtain rfl : front' = front := List.append_cancel_right happend
  exact ⟨_, hresolve, hmore, (hfront _ hmore).1⟩

end AddressContext

/-! ## Two addresses -/

namespace Addresses

/-- The lines of one address without a separator. -/
def single (line : Nat) : Addresses := ⟨some line, some line, 1, false⟩

/-- The lines of two addresses with a separator between them. -/
def pair (first second : Nat) : Addresses := ⟨some first, some second, 2, true⟩

end Addresses

/-- A separator that has been written is remembered.

**Proof sketch.** Induction on the list: the step for any of its entries notes the separator. -/
theorem AddressProgress.separator_links {p q : AddressProgress}
    {list : List (Option Address × Separator)}
    (h : p.links ctx list memory = .ok q memory') :
    q.addresses.separator = (p.addresses.separator || !list.isEmpty) := by
  induction list generalizing p memory with
  | nil =>
    cases h
    simp
  | cons link list ih =>
    obtain ⟨p', _, hlink, h⟩ := exists_of_bind_ok h
    have hseparator : p'.addresses.separator = true := by
      obtain ⟨entry, separator⟩ := link
      cases entry with
      | none =>
        cases hlink
        rfl
      | some a =>
        obtain ⟨_, _, -, hlink⟩ := exists_of_bind_ok hlink
        cases hlink
        rfl
    rw [ih h, hseparator]
    simp

/-- A separator is remembered exactly if one has been written.

**Proof sketch.** The separators are noted when the entries before them are resolved, and the last
address does not matter. -/
theorem AddressList.separator_values {list : AddressList}
    (h : list.values ctx memory = .ok addresses memory') :
    addresses.separator = !list.links.isEmpty := by
  obtain ⟨p, _, hlinks, h⟩ := exists_of_bind_ok h
  have hp : p.addresses.separator = !list.links.isEmpty := AddressProgress.separator_links hlinks
  rw [← hp]
  cases hfinal : list.final with
  | some a =>
    rw [hfinal] at h
    obtain ⟨_, _, -, h⟩ := exists_of_bind_ok h
    cases h
    rfl
  | none =>
    rw [hfinal] at h
    cases hpending : p.pending with
    | some line =>
      simp only [hpending] at h
      cases h
      rfl
    | none =>
      simp only [hpending] at h
      cases h
      rfl

namespace AddressContext

variable {back : Line} {v w : Nat} {memory₁ memory₂ : Option Regex}

/-- What is resolved as one address, without a separator, spells an address of this value.

**Proof sketch.** What is resolved is spelled as a list. No separator has been noted, so that the
list has no entry but the last one, and since there is a value the last one is an address. -/
theorem exists_spellsAddress_of_resolve
    (h : ctx.resolve line memory = .ok (.single v, []) memory') :
    ∃ a, SpellsAddress line a ∧ a.clamped.value ctx memory = .ok v memory' := by
  obtain ⟨text, list, happend, hspells, hvalues⟩ := exists_spellsList_of_resolve h
  obtain rfl : text = line := (List.append_nil text).symm.trans happend
  have hlinks := AddressList.separator_values hvalues
  cases hspells with
  | cons => cases hlinks
  | single hentry =>
    cases hentry with
    | missing => cases hvalues
    | @address a hspells =>
      obtain ⟨_, _, hlinks, hvalues⟩ := exists_of_bind_ok hvalues
      cases hlinks
      obtain ⟨value, _, hvalue, hpush⟩ := exists_of_bind_ok hvalues
      cases hpush
      exact ⟨a, hspells, hvalue⟩

/-- Two addresses are resolved one after the other, the second one with the pattern that the first
one has left, and behind a semicolon with its line as the current one.

**Proof sketch.** The two spellings with the separator between them spell the list of two. Its value
is computed by resolving its first entry, which moves the current line behind a semicolon, and then
the second one. -/
theorem resolve_append_separator {b : UInt8} {separator : Separator}
    (hseparator : Separator.ofByte? b = some separator)
    (hfront : ctx.resolve front memory = .ok (.single v, []) memory₁)
    (hback : resolve { ctx with current := if separator = .semicolon then v else ctx.current } back
      memory₁ = .ok (.single w, []) memory₂) :
    ctx.resolve (front ++ b :: back) memory = .ok (.pair v w, []) memory₂ := by
  obtain ⟨a, hspells, hv⟩ := exists_spellsAddress_of_resolve hfront
  obtain ⟨a', hspells', hw⟩ := exists_spellsAddress_of_resolve hback
  have hlist : SpellsList (front ++ b :: back) ⟨[(some a, separator)], some a'⟩ :=
    .cons (.address hspells) hseparator (.single (.address hspells'))
  have hlink : AddressProgress.links ctx ⟨.none, none, ctx.current⟩
      [(some a.clamped, separator)] memory =
        .ok ⟨{ Addresses.single v with separator := true }, some v,
          if separator = .semicolon then v else ctx.current⟩ memory₁ := by
    unfold AddressProgress.links AddressProgress.link
    simp only [bind_apply, hv]
    rfl
  have hvalues : AddressList.values ctx ⟨[(some a.clamped, separator)], some a'.clamped⟩ memory =
      .ok (.pair v w) memory₂ := by
    unfold AddressList.values
    simp only [bind_apply, hlink, hw]
    rfl
  have hresolve := resolve_of_spellsList hlist Stops.nil hvalues
  rwa [List.append_nil] at hresolve

end AddressContext

namespace LineBuffer

/-- What an address sees of a buffer in which the line of another number is the current one. -/
theorem addressContext_current (b : LineBuffer) (number : Nat) :
    { b with current := Action.indexOf? number : LineBuffer }.addressContext =
      { b.addressContext with current := number } := by
  have hnumber : (Action.indexOf? number).elim 0 (· + 1) = number := by
    cases number with
    | zero => rfl
    | succ n => rfl
  unfold addressContext currentNumber
  rw [hnumber]
  rfl

/-- **The lines of two addresses.** The first one is resolved as it is alone. Behind a semicolon
the second one has the line that it has in the same buffer with the first line as its current one,
behind a comma the line that it has in the buffer itself; in both cases it is resolved with the
pattern that the first one has left. The buffer, with its current line, is not changed by reading a
command line.

**Proof sketch.** The general statement on two addresses is applied to each of the separators. The
address context of the buffer with another current line is the one in which the second address is
resolved. -/
theorem resolve_pair (b : LineBuffer) {front : Line} (back : Line) {v : Nat}
    {memory₁ : Option Regex}
    (hfront : b.addressContext.resolve front memory = .ok (.single v, []) memory₁) :
    (∀ w memory₂,
      { b with current := Action.indexOf? v : LineBuffer }.addressContext.resolve back memory₁ =
        .ok (.single w, []) memory₂ →
      b.addressContext.resolve (front ++ ascii ';' :: back) memory =
        .ok (.pair v w, []) memory₂) ∧
    (∀ w memory₂, b.addressContext.resolve back memory₁ = .ok (.single w, []) memory₂ →
      b.addressContext.resolve (front ++ ascii ',' :: back) memory =
        .ok (.pair v w, []) memory₂) ∧
    ∀ (s : Session) (line : Line), s.buffer = b → (after (Action.parse line) s).buffer = b := by
  have hsemicolon : Separator.ofByte? (ascii ';') = some .semicolon := rfl
  have hcomma : Separator.ofByte? (ascii ',') = some .comma := rfl
  refine ⟨fun w memory₂ hback => ?_, fun w memory₂ hback => ?_, fun s line hs => ?_⟩
  · rw [addressContext_current] at hback
    exact AddressContext.resolve_append_separator hsemicolon hfront hback
  · exact AddressContext.resolve_append_separator hcomma hfront hback
  · rw [Action.buffer_after_parse, hs]

/-- Two searches for the same letter and an offset: the second one uses the pattern of the first one
again. Behind a semicolon it begins at line 2, where the first one has ended, behind a comma at the
current line.

**Proof sketch.** The three addresses alone are resolved by computation, and the pairs follow. -/
theorem resolve_pair_searches :
    let b : LineBuffer := { LineBuffer.ofLines [[ascii 'a'], [ascii 'b'], [ascii 'c'], [ascii 'b'],
      [ascii 'd']] with current := some 0 }
    let s : Session := ⟨{ Editor.ofLines [] with buffer := b }, .script [], .direct none "",
      .withHome []⟩
    ∃ memory memory' memory₂, b.addressContext.resolve (Line.ofString "/b/") none =
        .ok (.single 2, []) memory ∧
      { b with current := Action.indexOf? 2 : LineBuffer }.addressContext.resolve
        (Line.ofString "//+1") memory = .ok (.single 5, []) memory' ∧
      b.addressContext.resolve (Line.ofString "/b/;//+1") none = .ok (.pair 2 5, []) memory' ∧
      b.addressContext.resolve (Line.ofString "//+1") memory = .ok (.single 3, []) memory₂ ∧
      b.addressContext.resolve (Line.ofString "/b/,//+1") none = .ok (.pair 2 3, []) memory₂ ∧
      (after (Action.parse (Line.ofString "/b/;//+1p")) s).buffer = b := by
  intro b s
  have hfront : b.addressContext.resolve (Line.ofString "/b/") none = .ok (.single 2, []) _ :=
    eq_ok_of_value? (by decide +kernel)
  let memory := after (b.addressContext.resolve (Line.ofString "/b/")) none
  have hmoved : { b with current := Action.indexOf? 2 : LineBuffer }.addressContext.resolve
      (Line.ofString "//+1") memory = .ok (.single 5, []) _ := eq_ok_of_value? (by decide +kernel)
  have hback : b.addressContext.resolve (Line.ofString "//+1") memory = .ok (.single 3, []) _ :=
    eq_ok_of_value? (by decide +kernel)
  obtain ⟨hsemicolon, hcomma, hbuffer⟩ := resolve_pair b (Line.ofString "//+1") hfront
  exact ⟨_, _, _, hfront, hmoved, hsemicolon _ _ hmoved, hback, hcomma _ _ hback, hbuffer s _ rfl⟩

end LineBuffer

end LineEditor
