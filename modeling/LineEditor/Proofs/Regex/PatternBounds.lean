import LineEditor.Proofs.Regex.Bounds

set_option autoImplicit false
set_option relaxedAutoImplicit false

/-!
# Accesses of the pattern reader

A pattern is read from left to right. Most of its bytes are looked at only if they are there; what
is taken without a look is the rest of the pattern behind the opening of a class, the name of that
class, the words of the table that a bracket expression is kept in, and the values of the digits of
an interval. The end of the pattern is taken off if it is an anchor.

Each reader has a trail: its accesses, and the position that it reaches by the steps it makes. The
bytes that the reader leaves stand at that position.

## Main definitions

* `LineEditor.Regex.Follows`: the trail of a reader that may fail.
* `LineEditor.Regex.sequenceTrail`: the trail of the reader of a sequence.
* `LineEditor.Regex.patternAccesses`: what is accessed to read a pattern.

## Main results

* `LineEditor.Regex.follows_sequenceTrail`: the reader of a sequence stays within the pattern.
* `LineEditor.Regex.valid_patternAccesses`: reading a pattern accesses nothing out of bounds.
-/

namespace LineEditor.Regex

variable {source : Line} {size pos : Nat}

/-- The trail of a reader has accesses to what is there only, and if the reader succeeds it leaves
the bytes that stand where the trail ends. -/
structure Follows {α : Type} (t : Trail) (size : Nat)
    (read : Except PatternError (Parsed α source)) : Prop where
  /-- All accesses are within bounds. -/
  valid : ∀ a ∈ t.accesses, a.Valid
  /-- The reader has stepped over what it has read. -/
  leaves : ∀ p, read = .ok p → t.stop + p.rest.length = size

namespace Follows

variable {α : Type} {t : Trail} {read : Except PatternError (Parsed α source)}

/-- A reader that fails has accessed what is there. -/
theorem of_error {e : PatternError} (h : ∀ a ∈ t.accesses, a.Valid) :
    Follows t size (.error e : Except PatternError (Parsed α source)) := ⟨h, nofun⟩

/-- A reader that succeeds. -/
theorem of_ok {p : Parsed α source} (h : ∀ a ∈ t.accesses, a.Valid)
    (hstop : t.stop + p.rest.length = size) : Follows t size (.ok p) := by
  refine ⟨h, fun q hq => ?_⟩
  cases hq
  exact hstop

/-- A reader that goes on after other accesses. -/
theorem after (h : Follows t size read) {accesses : List Access}
    (ha : ∀ a ∈ accesses, a.Valid) : Follows (t.after accesses) size read :=
  ⟨List.forall_mem_append.2 ⟨ha, h.valid⟩, h.leaves⟩

end Follows

/-! ## Bracket expressions -/

/-- The bytes that an item puts into the table of its bracket expression. -/
def BracketItem.inserted : BracketItem → List UInt8
  | byte b => [b]
  | range low high => ByteTable.bytesFrom low high
  | named c => (ByteTable.bytesFrom 0 255).filter c.contains

/-- The words of the table that an item puts its bytes into. -/
def BracketItem.accesses (item : BracketItem) : List Access := item.inserted.map wordAccess

/-- An item puts its bytes into words that the table has. -/
theorem BracketItem.valid_accesses (item : BracketItem) : ∀ a ∈ item.accesses, a.Valid :=
  List.forall_mem_map.2 fun b _ => valid_wordAccess b

/-- The way through a class of which the opening `[:` stands at a position: the rest of the pattern
is looked through for the closing `:]`, and the name is taken from it. -/
def classTrail (size pos : Nat) (source : Line) : Trail :=
  Trail.after
    (match splitClassName? source with
      | none => .reach pos
      | some (name, _) =>
        (Trail.reach (pos + 2 + name.length + 2)).after <|
          .slice 0 name.length (size - (pos + 2)) ::
            match CharClass.ofName? name with
            | none => []
            | some c => (BracketItem.named c).accesses)
    [.slice (pos + 2) size size]

/-- The way through an item that starts with the byte `b`, which stands at a position. -/
def itemTrail (size pos : Nat) (b : UInt8) (source : Line) : Trail :=
  match source with
  | [] => (Trail.reach (pos + 1)).after (BracketItem.byte b).accesses
  | c :: rest =>
    if b = ascii '[' ∧ c = ascii ':' then classTrail size pos rest
    else
      match rest with
      | [] => (Trail.reach (pos + 1)).after (BracketItem.byte b).accesses
      | high :: _ =>
        if c = ascii '-' ∧ high ≠ ascii ']' then
          if high < b then .reach pos
          else (Trail.reach (pos + 3)).after (BracketItem.range b high).accesses
        else (Trail.reach (pos + 1)).after (BracketItem.byte b).accesses

/-- The way through the items of a bracket expression and its closing `]`. -/
def itemsTrail (size : Nat) (first : Bool) (pos : Nat) (source : Line) : Trail :=
  match source with
  | [] => .reach pos
  | b :: rest =>
    if b = ascii ']' ∧ first = false then .reach (pos + 1)
    else
      match readItem b rest with
      | .error _ => itemTrail size pos b rest
      | .ok ⟨_, afterItem, _h⟩ =>
        (itemsTrail size false (itemTrail size pos b rest).stop afterItem).after
          (itemTrail size pos b rest).accesses
termination_by source.length
decreasing_by simp only [List.length_cons]; omega

/-- The way through a bracket expression whose opening stands before a position. -/
def bracketTrail (size pos : Nat) (source : Line) : Trail :=
  match source with
  | [] => .reach pos
  | b :: rest =>
    if b = ascii '^' then itemsTrail size true (pos + 1) rest
    else itemsTrail size true pos (b :: rest)

/-- A class that is read has a closing `:]`, and what stands behind this is left. -/
theorem splitClassName?_of_readClass {p : Parsed BracketItem source}
    (h : readClass source = .ok p) : ∃ name, splitClassName? source = some (name, p.rest) := by
  unfold readClass at h
  split at h
  · cases h
  · rename_i name after hsplit
    split at h
    · cases h
    · obtain rfl := Except.ok.inj h
      exact ⟨name, hsplit⟩

/-- The way through a class ends behind its closing `:]`.

**Proof sketch.** The name of the class, its closing and what is left make up the bytes behind the
opening. So the name is cut out of them, and the end of the class is behind the closing. -/
theorem follows_classTrail (h : pos + 2 + source.length = size) :
    Follows (classTrail size pos source) size (readClass source) := by
  have hrest : ∀ a ∈ [Access.slice (pos + 2) size size], a.Valid :=
    List.forall_mem_singleton.2 ⟨by omega, Nat.le_refl _⟩
  refine Follows.after ⟨?_, fun p hread => ?_⟩ hrest
  · cases hsplit : splitClassName? source with
    | none => exact List.forall_mem_nil _
    | some split =>
      obtain ⟨name, after⟩ := split
      have hlength := congrArg List.length (append_of_splitClassName? hsplit)
      rw [List.length_append] at hlength
      have hname : (Access.slice 0 name.length (size - (pos + 2))).Valid :=
        ⟨Nat.zero_le _, by omega⟩
      refine List.forall_mem_append.2 ⟨List.forall_mem_cons.2 ⟨hname, ?_⟩, List.forall_mem_nil _⟩
      cases CharClass.ofName? name with
      | none => exact List.forall_mem_nil _
      | some c => exact BracketItem.valid_accesses _
  · obtain ⟨name, hsplit⟩ := splitClassName?_of_readClass hread
    -- The name, the closing and what is left make up the bytes behind the opening.
    have hlength := congrArg List.length (append_of_splitClassName? hsplit)
    rw [List.length_append, List.length_cons, List.length_cons] at hlength
    rw [hsplit]
    show pos + 2 + name.length + 2 + p.rest.length = size
    omega

/-- The way through an item ends behind it: behind its byte, behind both ends of a range, or behind
a class.

**Proof sketch.** The cases are those of the reader: a byte at the end of the pattern, a class, a
byte before the last one, a range, and any other byte. In each of them the bytes that are read and
those that are left make up the pattern. -/
theorem follows_itemTrail {b : UInt8} (h : pos + 1 + source.length = size) :
    Follows (itemTrail size pos b source) size (readItem b source) := by
  have hbyte {p : Parsed BracketItem source} (hp : p.rest = source) :
      Follows ((Trail.reach (pos + 1)).after (BracketItem.byte b).accesses) size (.ok p) := by
    refine .of_ok (List.forall_mem_append.2
      ⟨BracketItem.valid_accesses _, List.forall_mem_nil _⟩) ?_
    rw [hp]
    exact h
  unfold itemTrail readItem
  match source with
  | [] => exact hbyte rfl
  | c :: rest =>
    dsimp only
    split
    · have hclass : Follows (classTrail size pos rest) size (readClass rest) :=
        follows_classTrail (by rw [List.length_cons] at h; omega)
      cases hread : readClass rest with
      | error e => exact .of_error hclass.valid
      | ok item => exact .of_ok hclass.valid (hclass.leaves item hread)
    · match rest with
      | [] => exact hbyte rfl
      | high :: after =>
        dsimp only
        split
        · split
          · exact .of_error (List.forall_mem_nil _)
          · refine .of_ok (List.forall_mem_append.2
              ⟨BracketItem.valid_accesses _, List.forall_mem_nil _⟩) ?_
            show pos + 3 + after.length = size
            rw [List.length_cons, List.length_cons] at h
            omega
        · exact hbyte rfl

/-- The way through the items of a bracket expression ends behind its closing `]`.

**Proof sketch.** Induction on the number of bytes that are left. Each item takes some of them, and
the next one starts where it ends. -/
theorem follows_itemsTrail {first : Bool} (h : pos + source.length = size) :
    Follows (itemsTrail size first pos source) size (readItems first source) := by
  induction hlength : source.length using Nat.strong_induction_on generalizing source first pos with
  | _ n ih =>
    subst hlength
    rw [itemsTrail.eq_def, readItems.eq_def]
    match source with
    | [] => exact .of_error (List.forall_mem_nil _)
    | b :: rest =>
      rw [List.length_cons] at h
      dsimp only
      split
      · refine .of_ok (List.forall_mem_nil _) ?_
        show pos + 1 + rest.length = size
        omega
      · have hitem : Follows (itemTrail size pos b rest) size (readItem b rest) :=
          follows_itemTrail (by omega)
        cases hread : readItem b rest with
        | error e => exact .of_error hitem.valid
        | ok item =>
          obtain ⟨item, afterItem, hle⟩ := item
          have hshorter : afterItem.length < (b :: rest).length := Nat.lt_succ_of_le hle
          have hitems : Follows (itemsTrail size false (itemTrail size pos b rest).stop afterItem)
              size (readItems false afterItem) :=
            ih afterItem.length hshorter (hitem.leaves _ hread) rfl
          refine .after ?_ hitem.valid
          dsimp only
          cases hread' : readItems false afterItem with
          | error e => exact .of_error hitems.valid
          | ok items => exact .of_ok hitems.valid (hitems.leaves items hread')

/-- The way through a bracket expression ends behind its closing `]`.

**Proof sketch.** A caret in first place is stepped over. The items start behind it, or at once. -/
theorem follows_bracketTrail (h : pos + source.length = size) :
    Follows (bracketTrail size pos source) size (readBracket source) := by
  unfold bracketTrail readBracket
  match source with
  | [] => exact .of_error (List.forall_mem_nil _)
  | b :: rest =>
    dsimp only
    split
    · have hitems : Follows (itemsTrail size true (pos + 1) rest) size (readItems true rest) :=
        follows_itemsTrail (by rw [List.length_cons] at h; omega)
      cases hread : readItems true rest with
      | error e => exact .of_error hitems.valid
      | ok items => exact .of_ok hitems.valid (hitems.leaves items hread)
    · have hitems : Follows (itemsTrail size true pos (b :: rest)) size
          (readItems true (b :: rest)) := follows_itemsTrail h
      cases hread : readItems true (b :: rest) with
      | error e => exact .of_error hitems.valid
      | ok items => exact .of_ok hitems.valid (hitems.leaves items hread)

/-! ## Quantifiers -/

/-- The way through a bound of an interval. -/
def boundTrail (pos : Nat) (source : Line) : Trail :=
  (Trail.reach (pos + (source.takeWhile isDigit).length)).after
    (digitAccesses (source.takeWhile isDigit))

/-- The way through the upper bound of an interval, if a comma stands before it. -/
def mostTrail (pos : Nat) (source : Line) : Trail :=
  match source with
  | [] => .reach pos
  | b :: rest => if b = ascii ',' then boundTrail (pos + 1) rest else .reach pos

/-- The way through an interval whose opening stands before a position, and behind its closing. -/
def intervalTrail (pos : Nat) (source : Line) : Trail :=
  match readBound source with
  | .error _ => boundTrail pos source
  | .ok ⟨none, _, _⟩ => boundTrail pos source
  | .ok ⟨some _, afterLeast, _⟩ =>
    let most := mostTrail (boundTrail pos source).stop afterLeast
    (Trail.reach (most.stop + 2)).after ((boundTrail pos source).accesses ++ most.accesses)

/-- The position behind the further stars of a quantifier. -/
def finishStop (bounds : Bounds) (pos : Nat) (source : Line) : Nat :=
  if bounds.most = none ∧ bounds.least = 0 then
    pos + (source.takeWhile (· == ascii '*')).length
  else pos

/-- The way through the quantifier after a piece. -/
def quantifierTrail (pos : Nat) (source : Line) : Trail :=
  match source with
  | [] => .reach pos
  | [b] => if b = ascii '*' then .reach (pos + 1) else .reach pos
  | b :: c :: rest =>
    if b = ascii '*' then .reach (finishStop ⟨0, none⟩ (pos + 1) (c :: rest))
    else if b = ascii '\\' ∧ c = ascii '+' then .reach (finishStop ⟨1, none⟩ (pos + 2) rest)
    else if b = ascii '\\' ∧ c = ascii '\x7b' then
      let interval := intervalTrail (pos + 2) rest
      match readInterval rest with
      | .error _ => interval
      | .ok ⟨bounds, afterInterval, _⟩ =>
        (Trail.reach (finishStop bounds interval.stop afterInterval)).after interval.accesses
    else .reach pos

/-- What is stepped over and what is left make up a text. -/
theorem length_takeWhile_add_length_dropWhile (test : UInt8 → Bool) (bytes : Line) :
    (bytes.takeWhile test).length + (bytes.dropWhile test).length = bytes.length := by
  rw [← List.length_append, List.takeWhile_append_dropWhile]

/-- The way through a bound ends behind its digits.

**Proof sketch.** The digits and what is left behind them make up the bytes. Of each of the digits
the byte `0` is taken away, which is no larger. -/
theorem follows_boundTrail (h : pos + source.length = size) :
    Follows (boundTrail pos source) size (readBound source) := by
  have hvalid : ∀ a ∈ (boundTrail pos source).accesses, a.Valid := List.forall_mem_append.2
    ⟨valid_digitAccesses_takeWhile source, List.forall_mem_nil _⟩
  unfold readBound
  dsimp only
  split
  · exact .of_error hvalid
  · refine .of_ok hvalid ?_
    have hlength := length_takeWhile_add_length_dropWhile isDigit source
    show pos + (source.takeWhile isDigit).length + (source.dropWhile isDigit).length = size
    omega

/-- The way through an upper bound ends behind its digits. -/
theorem follows_mostTrail {least : Nat} (h : pos + source.length = size) :
    Follows (mostTrail pos source) size (readMost least source) := by
  unfold mostTrail readMost
  match source with
  | [] => exact .of_ok (List.forall_mem_nil _) h
  | b :: rest =>
    dsimp only
    split
    · have hbound : Follows (boundTrail (pos + 1) rest) size (readBound rest) :=
        follows_boundTrail (by rw [List.length_cons] at h; omega)
      cases hread : readBound rest with
      | error e => exact .of_error hbound.valid
      | ok most => exact .of_ok hbound.valid (hbound.leaves most hread)
    · exact .of_ok (List.forall_mem_nil _) h

/-- What is left behind a closed interval starts two bytes after its bounds. -/
theorem length_of_closeInterval {bounds : Bounds} {p : Parsed Bounds source}
    (h : closeInterval bounds source = .ok p) : 2 + p.rest.length = source.length := by
  unfold closeInterval at h
  match source, p, h with
  | b :: c :: rest, p, h =>
    dsimp only at h
    split at h
    · obtain rfl := Except.ok.inj h
      exact Nat.add_comm ..
    · cases h

/-- The way through an interval ends behind its closing.

**Proof sketch.** The least number of times, the most and the closing are read one behind the other,
each from where the one before has ended. -/
theorem follows_intervalTrail (h : pos + source.length = size) :
    Follows (intervalTrail pos source) size (readInterval source) := by
  have hbound := follows_boundTrail h
  unfold intervalTrail readInterval
  cases hread : readBound source with
  | error e => exact .of_error hbound.valid
  | ok least =>
    obtain ⟨least, afterLeast, hle⟩ := least
    cases least with
    | none => exact .of_error hbound.valid
    | some least =>
      have hmost : Follows (mostTrail (boundTrail pos source).stop afterLeast) size
          (readMost least afterLeast) := follows_mostTrail (hbound.leaves _ hread)
      have hvalid := List.forall_mem_append.2 ⟨List.forall_mem_append.2
        ⟨hbound.valid, hmost.valid⟩, List.forall_mem_nil _⟩
      dsimp only
      cases hread' : readMost least afterLeast with
      | error e => exact .of_error hvalid
      | ok most =>
        obtain ⟨most, afterMost, hle'⟩ := most
        dsimp only
        cases hclose : closeInterval ⟨least, most⟩ afterMost with
        | error e => exact .of_error hvalid
        | ok closed =>
          refine .of_ok hvalid ?_
          have hstop := hmost.leaves _ hread'
          have hlength := length_of_closeInterval hclose
          dsimp only at hstop
          show _ + 2 + closed.rest.length = size
          omega

/-- The further stars of a quantifier are stepped over.

**Proof sketch.** Further stars are passed over, and these stars and what is left make up the bytes.
Without a star nothing is passed over. -/
theorem finishStop_add_length {bounds : Bounds} {p : Parsed Bounds source}
    (h : finishQuantifier bounds source = .ok p) (hsize : pos + source.length = size) :
    finishStop bounds pos source + p.rest.length = size := by
  have hlength := length_takeWhile_add_length_dropWhile (· == ascii '*') source
  unfold finishQuantifier at h
  dsimp only at h
  unfold finishStop
  split at h
  · rename_i hstars
    split at h
    · cases h
    · obtain rfl := Except.ok.inj h
      rw [if_pos hstars]
      dsimp only
      omega
  · rename_i hstars
    split at h
    · cases h
    · obtain rfl := Except.ok.inj h
      rw [if_neg hstars]
      exact hsize

/-- The way through a quantifier ends behind it.

**Proof sketch.** A star, an escaped plus and an interval are each followed by further stars, and
anything else is no quantifier and stays where it is. -/
theorem follows_quantifierTrail (h : pos + source.length = size) :
    Follows (quantifierTrail pos source) size (readQuantifier source) := by
  unfold quantifierTrail readQuantifier
  match source with
  | [] => exact .of_ok (List.forall_mem_nil _) h
  | [b] =>
    dsimp only
    split
    · exact .of_ok (List.forall_mem_nil _) h
    · exact .of_ok (List.forall_mem_nil _) h
  | b :: c :: rest =>
    rw [List.length_cons, List.length_cons] at h
    dsimp only
    split
    · cases hfinish : finishQuantifier ⟨0, none⟩ (c :: rest) with
      | error e => exact .of_error (List.forall_mem_nil _)
      | ok q =>
        have hstop : pos + 1 + (c :: rest).length = size := by
          rw [List.length_cons]
          omega
        exact .of_ok (List.forall_mem_nil _) (finishStop_add_length hfinish hstop)
    · split
      · cases hfinish : finishQuantifier ⟨1, none⟩ rest with
        | error e => exact .of_error (List.forall_mem_nil _)
        | ok q =>
          have hstop : pos + 2 + rest.length = size := by omega
          exact .of_ok (List.forall_mem_nil _) (finishStop_add_length hfinish hstop)
      · split
        · have hinterval : Follows (intervalTrail (pos + 2) rest) size (readInterval rest) :=
            follows_intervalTrail (by omega)
          cases hread : readInterval rest with
          | error e => exact .of_error hinterval.valid
          | ok interval =>
            obtain ⟨bounds, afterInterval, hle⟩ := interval
            have hvalid := List.forall_mem_append.2 ⟨hinterval.valid, List.forall_mem_nil _⟩
            dsimp only
            cases hfinish : finishQuantifier bounds afterInterval with
            | error e => exact .of_error hvalid
            | ok q =>
              exact .of_ok hvalid (finishStop_add_length hfinish (hinterval.leaves _ hread))
        · refine .of_ok (List.forall_mem_nil _) ?_
          show pos + (rest.length + 1 + 1) = size
          exact h

/-! ## Sequences -/

/-- The way through what stands where a piece is expected: an escape, a bracket expression, or a
single byte. -/
def headTrail (size pos : Nat) (source : Line) : Trail :=
  match source with
  | [] => .reach pos
  | b :: rest =>
    if b = ascii '\\' then .reach (pos + 2)
    else if b = ascii '.' then .reach (pos + 1)
    else if b = ascii '[' then bracketTrail size (pos + 1) rest
    else .reach (pos + 1)

/-- The way through a sequence of pieces and the end of the group that it is the body of. -/
def sequenceTrail (size : Nat) (nested : Bool) (groups pos : Nat) (source : Line) : Trail :=
  let head := headTrail size pos source
  match readHead source with
  | .error _ => head
  | .ok .finished => head
  | .ok (.closing _ _) => head
  | .ok (.test _ afterTest _h₁) =>
    let quantifier := (quantifierTrail head.stop afterTest).after head.accesses
    match readQuantifier afterTest with
    | .error _ => quantifier
    | .ok ⟨_, afterBounds, _h₂⟩ =>
      (sequenceTrail size nested groups quantifier.stop afterBounds).after quantifier.accesses
  | .ok (.opening afterOpening _h₁) =>
    if groups < maxGroups then
      let body := (sequenceTrail size true (groups + 1) head.stop afterOpening).after head.accesses
      match readSequence true (groups + 1) afterOpening with
      | .error _ => body
      | .ok ⟨(_, groups₁), afterBody, _h₂⟩ =>
        let quantifier := (quantifierTrail body.stop afterBody).after body.accesses
        match readQuantifier afterBody with
        | .error _ => quantifier
        | .ok ⟨_, afterBounds, _h₃⟩ =>
          (sequenceTrail size nested groups₁ quantifier.stop afterBounds).after quantifier.accesses
    else head
termination_by source.length
decreasing_by all_goals omega

/-- What is left after what stands where a piece is expected. -/
def Head.rest : Head source → Line
  | .finished => []
  | .test _ rest _ => rest
  | .opening rest _ => rest
  | .closing rest _ => rest

/-- After an escape the byte behind the backslash has been stepped over.

**Proof sketch.** Each kind of escape that is accepted is one byte. -/
theorem length_rest_of_readEscape {head : Head source} (h : readEscape source = .ok head) :
    1 + head.rest.length = source.length := by
  unfold readEscape at h
  match source, head, h with
  | b :: rest, head, h =>
    have hrest {head' : Head (b :: rest)} (hhead : head'.rest = rest)
        (heq : (Except.ok head' : Except PatternError _) = .ok head) :
        1 + head.rest.length = (b :: rest).length := by
      rw [← Except.ok.inj heq, hhead, List.length_cons, Nat.add_comm]
    dsimp only at h
    split at h
    · exact hrest rfl h
    · split at h
      · exact hrest rfl h
      · split at h
        · cases h
        · split at h
          · cases h
          · exact hrest rfl h

/-- The way through what stands where a piece is expected ends behind it.

**Proof sketch.** At the end of the pattern nothing is read. A backslash and the byte behind it are
two bytes, and a bracket expression ends behind its closing bracket. Everything else is one byte. -/
theorem headTrail_spec (h : pos + source.length = size) :
    (∀ a ∈ (headTrail size pos source).accesses, a.Valid) ∧
      ∀ head, readHead source = .ok head →
        (headTrail size pos source).stop + head.rest.length = size := by
  unfold headTrail readHead
  match source with
  | [] =>
    refine ⟨List.forall_mem_nil _, fun head hread => ?_⟩
    cases hread
    exact h
  | b :: rest =>
    rw [List.length_cons] at h
    have hone {head head' : Head (b :: rest)} (hhead : head.rest = rest)
        (hread : (Except.ok head : Except PatternError _) = .ok head') :
        (Trail.reach (pos + 1)).stop + head'.rest.length = size := by
      cases hread
      rw [hhead]
      show pos + 1 + rest.length = size
      omega
    dsimp only
    split
    · refine ⟨List.forall_mem_nil _, fun head hread => ?_⟩
      show pos + 2 + head.rest.length = size
      have hescape {head' : Head rest} (hread' : readEscape rest = .ok head') :
          pos + 2 + head'.rest.length = size := by
        have := length_rest_of_readEscape hread'
        omega
      cases hread' : readEscape rest with
      | error e =>
        rw [hread'] at hread
        cases hread
      | ok head' =>
        rw [hread'] at hread
        cases head' <;> cases hread <;> exact hescape hread'
    · split
      · exact ⟨List.forall_mem_nil _, fun head => hone rfl⟩
      · split
        · have hbracket : Follows (bracketTrail size (pos + 1) rest) size (readBracket rest) :=
            follows_bracketTrail (by omega)
          refine ⟨hbracket.valid, fun head hread => ?_⟩
          cases hread' : readBracket rest with
          | error e =>
            rw [hread'] at hread
            cases hread
          | ok set =>
            rw [hread'] at hread
            cases hread
            exact hbracket.leaves set hread'
        · exact ⟨List.forall_mem_nil _, fun head => hone rfl⟩

/-- **The reader of a sequence accesses nothing out of bounds**, and leaves the bytes that stand
where its way ends.

**Proof sketch.** Induction on the number of bytes that are left, with one case for what stands
where a piece is expected. What belongs to a piece is read one after the other: a test or a group,
its quantifier, and the pieces behind it. Each reader starts where the one before has stopped. -/
theorem follows_sequenceTrail {nested : Bool} {groups : Nat} (h : pos + source.length = size) :
    Follows (sequenceTrail size nested groups pos source) size
      (readSequence nested groups source) := by
  induction hlength : source.length using Nat.strong_induction_on
    generalizing source nested groups pos with
  | _ n ih =>
    subst hlength
    obtain ⟨hhead, hstop⟩ := headTrail_spec h
    -- The quantifier after a piece, and the rest of the sequence behind that.
    have hbehind {t : Trail} {after : Line} (groups : Nat) (hvalid : ∀ a ∈ t.accesses, a.Valid)
        (hafter : t.stop + after.length = size) (hshorter : after.length < source.length) :
        (∀ a ∈ ((quantifierTrail t.stop after).after t.accesses).accesses, a.Valid) ∧
          ∀ p, readQuantifier after = .ok p → Follows
            ((sequenceTrail size nested groups (quantifierTrail t.stop after).stop p.rest).after
              ((quantifierTrail t.stop after).after t.accesses).accesses)
            size (readSequence nested groups p.rest) := by
      have hquantifier := follows_quantifierTrail hafter
      have hvalid' := (hquantifier.after hvalid).valid
      refine ⟨hvalid', fun p hread => .after ?_ hvalid'⟩
      have hle := p.length_le
      exact ih p.rest.length (by omega) (hquantifier.leaves p hread) rfl
    rw [sequenceTrail.eq_def, readSequence.eq_def]
    dsimp only
    cases hread : readHead source with
    | error e => exact .of_error hhead
    | ok head =>
      have hleft := hstop head hread
      cases head with
      | finished =>
        dsimp only
        split
        · exact .of_error hhead
        · exact .of_ok hhead hleft
      | closing rest hlt =>
        dsimp only
        split
        · exact .of_ok hhead hleft
        · exact .of_error hhead
      | test t afterTest hlt =>
        obtain ⟨hvalid, hnext⟩ := hbehind groups hhead hleft hlt
        dsimp only
        cases hbounds : readQuantifier afterTest with
        | error e => exact .of_error hvalid
        | ok bounds =>
          obtain ⟨bounds, afterBounds, hle⟩ := bounds
          have hnext := hnext _ hbounds
          dsimp only at hnext ⊢
          cases hrest : readSequence nested groups afterBounds with
          | error e => exact .of_error hnext.valid
          | ok next => exact .of_ok hnext.valid (hnext.leaves next hrest)
      | opening afterOpening hlt =>
        have hleft : (headTrail size pos source).stop + afterOpening.length = size := hleft
        dsimp only
        split
        · have hinside : Follows _ size (readSequence true (groups + 1) afterOpening) :=
            (ih afterOpening.length hlt hleft rfl).after hhead
          cases hbody : readSequence true (groups + 1) afterOpening with
          | error e => exact .of_error hinside.valid
          | ok body =>
            obtain ⟨⟨body, groups₁⟩, afterBody, hle⟩ := body
            obtain ⟨hvalid, hnext⟩ := hbehind groups₁ hinside.valid (hinside.leaves _ hbody)
              (Nat.lt_of_le_of_lt hle hlt)
            dsimp only
            cases hbounds : readQuantifier afterBody with
            | error e => exact .of_error hvalid
            | ok bounds =>
              obtain ⟨bounds, afterBounds, hle'⟩ := bounds
              have hnext := hnext _ hbounds
              dsimp only at hnext ⊢
              cases hrest : readSequence nested groups₁ afterBounds with
              | error e => exact .of_error hnext.valid
              | ok next => exact .of_ok hnext.valid (hnext.leaves next hrest)
        · exact .of_error hhead

/-! ## Whole patterns -/

/-- What is accessed to read a pattern whose bytes from a position on are left when a start anchor
has been taken off: an end anchor is taken off, and the rest is read as a sequence. -/
def unanchoredAccesses (start : Nat) (pattern : Line) : List Access :=
  let size := start + pattern.length
  if endsWithAnchor pattern then
    .difference size 1 :: .slice 0 (size - 1) size ::
      (sequenceTrail (size - 1) false 0 start pattern.dropLast).accesses
  else .slice 0 size size :: (sequenceTrail size false 0 start pattern).accesses

/-- What is accessed to read a pattern. -/
def patternAccesses (pattern : Line) : List Access :=
  match pattern with
  | [] => unanchoredAccesses 0 []
  | b :: rest =>
    if b = ascii '^' then unanchoredAccesses 1 rest else unanchoredAccesses 0 (b :: rest)

/-- An end anchor is a byte of the pattern, and the others are read as a sequence.

**Proof sketch.** A pattern with an end anchor is not empty, so that its last byte is there, and the
sequence in front of it is one byte shorter. -/
theorem valid_unanchoredAccesses (start : Nat) (pattern : Line) :
    ∀ a ∈ unanchoredAccesses start pattern, a.Valid := by
  unfold unanchoredAccesses
  dsimp only
  split
  · rename_i hend
    have hpos : 0 < pattern.length := by
      cases pattern with
      | nil => cases hend
      | cons b rest => exact Nat.succ_pos _
    have hanchor : (Access.difference (start + pattern.length) 1).Valid := by
      show 1 ≤ start + pattern.length
      omega
    have hslice : (Access.slice 0 (start + pattern.length - 1) (start + pattern.length)).Valid :=
      ⟨Nat.zero_le _, Nat.sub_le _ _⟩
    have hrest : start + pattern.dropLast.length = start + pattern.length - 1 := by
      rw [List.length_dropLast]
      omega
    exact List.forall_mem_cons.2
      ⟨hanchor, List.forall_mem_cons.2 ⟨hslice, (follows_sequenceTrail hrest).valid⟩⟩
  · exact List.forall_mem_cons.2
      ⟨⟨Nat.zero_le _, Nat.le_refl _⟩, (follows_sequenceTrail rfl).valid⟩

/-- **Reading a pattern accesses nothing out of bounds**, whether it is one or not. -/
theorem valid_patternAccesses (pattern : Line) : ∀ a ∈ patternAccesses pattern, a.Valid := by
  unfold patternAccesses
  split
  · exact valid_unanchoredAccesses 0 []
  · split
    · exact valid_unanchoredAccesses 1 _
    · exact valid_unanchoredAccesses 0 _

end LineEditor.Regex
