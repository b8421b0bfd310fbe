import Mathlib.Computability.Language
import LineEditor.Proofs.Regex.Backtracking
import LineEditor.Regex.Search

set_option autoImplicit false
set_option relaxedAutoImplicit false

/-!
# The language of an expression

An expression stands for a set of byte strings: a piece is repeated any number of times that its
bounds allow, and the pieces follow each other. The recursive matcher finds a match from a position
on exactly if some part of the text that starts there is in this set, and then what it has matched
is in it. What its groups have captured meanwhile are parts of what was matched, each in the set of
its group's body.

Two shortcuts are taken on the way, and neither loses a match. An iteration of a group that consumes
nothing is refused once there have been enough of them: leaving out empty iterations, as long as the
rest are enough, leaves the text they match and so leads to a way that is not refused. And a
position is skipped if its byte is not the one that every match has to start with.

## Main definitions

* `LineEditor.Regex.Expression.language`: what an expression stands for.
* `LineEditor.Regex.Expression.Found`: what it means that an expression has been found.
* `LineEditor.Regex.Program.Matches`: the parts of a text that a pattern with its anchors matches.

## Main results

* `LineEditor.Regex.Expression.exists_found_of_backtrack`: what is found is in the language.
* `LineEditor.Regex.Expression.isSome_backtrack`: what is in the language is found.
* `LineEditor.Regex.Program.isSome_search_iff`: a search finds a match exactly if there is one, and
  it is one that starts first.
-/

namespace LineEditor.Regex

/-! ## Languages -/

/-- The one-byte texts that pass a test. -/
def ByteTest.language : ByteTest → Language UInt8
  | .literal c => {[c]}
  | .any => {w | ∃ b, b ≠ 0 ∧ w = [b]}
  | .set s => {w | ∃ b, s.contains b ∧ w = [b]}

/-- The numbers of repetitions that the bounds allow. -/
structure Bounds.Allows (bounds : Bounds) (k : Nat) : Prop where
  least_le : bounds.least ≤ k
  le_most : ∀ most ∈ bounds.most, k ≤ most

/-- The texts of a language, one after the other, as often as the bounds allow. -/
def Bounds.repeated (bounds : Bounds) (L : Language UInt8) : Language UInt8 :=
  {w | ∃ k, bounds.Allows k ∧ w ∈ L ^ k}

/-- The texts that an expression matches. -/
def Expression.language : Expression → Language UInt8
  | .empty => 1
  | .single test bounds next => bounds.repeated test.language * next.language
  | .group _ body bounds next => bounds.repeated body.language * next.language

/-- A test accepts a byte exactly if the byte alone is in the language of the test. -/
theorem ByteTest.mem_language {test : ByteTest} {w : List UInt8} :
    w ∈ test.language ↔ ∃ b, test.accepts b ∧ w = [b] := by
  cases test with
  | literal c =>
    show w = [c] ↔ _
    simp [ByteTest.accepts]
  | any =>
    show (∃ b : UInt8, b ≠ 0 ∧ w = [b]) ↔ _
    simp [ByteTest.accepts]
  | set s => rfl

/-- Where further rounds are allowed, one more is. -/
theorem Bounds.allowsMore_of_allows {bounds : Bounds} {count n : Nat}
    (h : bounds.Allows (count + (n + 1))) : bounds.allowsMore count := by
  unfold Bounds.allowsMore
  split
  · rfl
  · rename_i most hmost
    have := h.le_most most hmost
    simp only [decide_eq_true_eq]
    omega

/-- A count is at most the cap exactly if there is room for it and it is allowed. -/
theorem Bounds.le_cap_iff (bounds : Bounds) {n room : Nat} :
    n ≤ bounds.cap room ↔ n ≤ room ∧ ∀ most ∈ bounds.most, n ≤ most := by
  unfold Bounds.cap
  split
  · rename_i hmost
    simp [hmost]
  · rename_i most hmost
    simp only [hmost, Option.mem_def, Option.some.injEq, forall_eq', Nat.le_min]
    exact And.comm

/-- Bytes that pass a test one by one are a repetition of the test.

**Proof sketch.** By induction on how often the test is repeated: the first byte passes the test,
and the others are a repetition that is shorter by one. -/
theorem ByteTest.mem_language_pow {test : ByteTest} {w : List UInt8} {k : Nat} :
    w ∈ test.language ^ k ↔ w.length = k ∧ ∀ b ∈ w, test.accepts b := by
  induction k generalizing w with
  | zero =>
    rw [pow_zero, Language.mem_one, List.length_eq_zero_iff]
    constructor
    · rintro rfl
      exact ⟨rfl, by simp⟩
    · exact And.left
  | succ k ih =>
    rw [pow_succ', Language.mem_mul]
    constructor
    · rintro ⟨u, hu, v, hv, rfl⟩
      obtain ⟨b, hb, rfl⟩ := ByteTest.mem_language.1 hu
      obtain ⟨hlen, hall⟩ := ih.1 hv
      exact ⟨by simp [hlen], by simpa [hb] using hall⟩
    · rintro ⟨hlen, hall⟩
      obtain ⟨b, v, rfl⟩ := List.exists_cons_of_length_eq_add_one hlen
      refine ⟨[b], ByteTest.mem_language.2 ⟨b, hall b (by simp), rfl⟩, v, ih.2 ⟨?_, ?_⟩, rfl⟩
      · simpa using hlen
      · exact fun c hc => hall c (by simp [hc])

/-- Empty parts can be left out of a sequence as long as `least` parts remain, so that only the
first `least` of them may be empty.

**Proof sketch.** Induction on the sequence. While parts are still owed, the first one stays. After
that it is dropped if it is empty. -/
theorem exists_nonempty_parts (L : Language UInt8) (least : Nat) (parts : List (List UInt8))
    (hL : ∀ y ∈ parts, y ∈ L) (hleast : least ≤ parts.length) :
    ∃ parts' : List (List UInt8), parts'.flatten = parts.flatten ∧ (∀ y ∈ parts', y ∈ L) ∧
      least ≤ parts'.length ∧ parts'.length ≤ parts.length ∧
      ∀ y ∈ parts'.drop least, y ≠ [] := by
  induction parts generalizing least with
  | nil => exact ⟨[], rfl, by simp, hleast, Nat.le_refl _, by simp⟩
  | cons x parts ih =>
    have hparts : ∀ y ∈ parts, y ∈ L := fun y hy => hL y (List.mem_cons_of_mem _ hy)
    have hx : x ∈ L := hL x List.mem_cons_self
    cases least with
    | succ least =>
      obtain ⟨ys, hflat, hys, hmin, hmax, hne⟩ := ih least hparts (Nat.le_of_succ_le_succ hleast)
      refine ⟨x :: ys, by simp [hflat], ?_, Nat.succ_le_succ hmin, Nat.succ_le_succ hmax, ?_⟩
      · exact List.forall_mem_cons.2 ⟨hx, hys⟩
      · simpa using hne
    | zero =>
      obtain ⟨ys, hflat, hys, -, hmax, hne⟩ := ih 0 hparts (Nat.zero_le _)
      rcases eq_or_ne x [] with rfl | hxne
      · exact ⟨ys, by simpa using hflat, hys, Nat.zero_le _, Nat.le_succ_of_le hmax, hne⟩
      · refine ⟨x :: ys, by simp [hflat], ?_, Nat.zero_le _, Nat.succ_le_succ hmax, ?_⟩
        · exact List.forall_mem_cons.2 ⟨hx, hys⟩
        · simpa [hxne] using hne

/-! ## Parts of a text -/

/-- The bytes of a text from one position to another. -/
def between (text : Array UInt8) (p q : Nat) : List UInt8 := (text.extract p q).toList

section Between

variable {text : Array UInt8} {p q r : Nat}

/-- Nothing lies between a position and itself. -/
theorem between_self : between text p p = [] := by simp [between]

/-- As many bytes as there are positions lie between two of them. -/
theorem length_between (h : q ≤ text.size) : (between text p q).length = q - p := by
  simp only [between, Array.length_toList, Array.size_extract, Nat.min_eq_left h]

/-- What lies between two positions can be cut at one between them. -/
theorem between_append (hpq : p ≤ q) (hqr : q ≤ r) :
    between text p q ++ between text q r = between text p r := by
  simp only [between, ← Array.toList_append, Array.extract_append_extract, Nat.min_eq_left hpq,
    Nat.max_eq_right hqr]

/-- If nothing lies between two positions, they are the same. -/
theorem eq_start_of_between (hp : p ≤ text.size) (q : Ahead text p)
    (h : between text p q = []) : q = ⟨p, Nat.le_refl p, hp⟩ := by
  have hlen : ([] : List UInt8).length = q - p := by rw [← h, length_between q.2.2]
  have hle := q.2.1
  rw [List.length_nil] at hlen
  exact Subtype.ext (show q.1 = p by omega)

/-- A part that falls into two is cut at a position of the text.

**Proof sketch.** The length of the first part tells at which position the text is cut, and both
parts have the lengths of what lies on its two sides. -/
theorem between_eq_append {u v : List UInt8} (hq : q ≤ text.size)
    (h : between text p q = u ++ v) (hpq : p ≤ q) :
    p + u.length ≤ q ∧ between text p (p + u.length) = u ∧
      between text (p + u.length) q = v := by
  have hlen : u.length + v.length = q - p := by
    rw [← List.length_append, ← h, length_between hq]
  have hle : p + u.length ≤ q := by omega
  have hcut : between text p (p + u.length) ++ between text (p + u.length) q = u ++ v := by
    rw [between_append (Nat.le_add_right ..) hle, h]
  have hfirst : (between text p (p + u.length)).length = u.length := by
    rw [length_between (Nat.le_trans hle hq)]
    omega
  exact ⟨hle, List.append_inj hcut hfirst⟩

/-- As many bytes as pass a test in a row do pass it.

**Proof sketch.** The bytes that pass in a row are what `passing` counts, and the part is a
beginning of them. -/
theorem accepts_of_mem_between {test : ByteTest} {n : Nat} (hn : n ≤ passing test text p) :
    ∀ b ∈ between text p (p + n), test.accepts b := by
  intro b hb
  have hfront := List.prefix_iff_eq_take.1
    (List.takeWhile_prefix test.accepts (l := text.toList.drop p))
  have htake : between text p (p + n) =
      ((text.toList.drop p).takeWhile test.accepts).take n := by
    unfold passing at hn
    rw [hfront, List.take_take, Nat.min_eq_left hn]
    simp [between]
  rw [htake] at hb
  exact List.all_eq_true.1 List.all_takeWhile b (List.mem_of_mem_take hb)

/-- If all bytes of a part pass a test, that many pass it in a row. -/
theorem length_le_passing {test : ByteTest} {n : Nat} (hn : p + n ≤ text.size)
    (h : ∀ b ∈ between text p (p + n), test.accepts b) : n ≤ passing test text p := by
  have htake : (text.toList.drop p).take n = between text p (p + n) := by simp [between]
  have hlen : ((text.toList.drop p).take n).length = n := by
    rw [htake, length_between hn, Nat.add_sub_cancel_left]
  rw [passing, ← List.take_append_drop n (text.toList.drop p), List.takeWhile_append_of_pos]
  · simp only [List.length_append, hlen]
    omega
  · rw [htake]
    exact h

end Between

/-! ## Groups and what they capture -/

/-- The groups of an expression, at all depths and in the order in which they open, each with its
body. -/
def Expression.groups : Expression → List (Fin maxGroups × Expression)
  | .empty => []
  | .single _ _ next => next.groups
  | .group index body _ next => (index, body) :: (body.groups ++ next.groups)

/-- The groups of an expression that are not inside another one, each with its bounds. -/
def Expression.outerGroups : Expression → List (Fin maxGroups × Bounds)
  | .empty => []
  | .single _ _ next => next.outerGroups
  | .group index _ bounds next => (index, bounds) :: next.outerGroups

/-- Nothing is captured at first. -/
@[simp] theorem Captures.get_empty (i : Fin maxGroups) : Captures.empty.get i = none :=
  Vector.getElem_replicate i.isLt

/-- What is captured by a group is what was captured by it last. -/
@[simp] theorem Captures.get_set_self (captures : Captures) (i : Fin maxGroups)
    (span : Option Span) : (captures.set i span i.isLt).get i = span :=
  Vector.getElem_set_self i.isLt

/-- What another group has captured does not change. -/
theorem Captures.get_set_of_ne (captures : Captures) {i j : Fin maxGroups} (h : i ≠ j)
    (span : Option Span) : (captures.set i span i.isLt).get j = captures.get j :=
  Vector.getElem_set_ne i.isLt j.isLt (Fin.val_ne_of_ne h)

/-- What is captured before and after the text from one position to another has been matched: each
group that has captured something else since then is one of the given ones, and it has captured a
part of this text that its body matches. -/
def Recaptured (text : Array UInt8) (groups : List (Fin maxGroups × Expression)) (p q : Nat)
    (old new : Captures) : Prop :=
  ∀ i : Fin maxGroups, new.get i = old.get i ∨
    ∃ body span, (i, body) ∈ groups ∧ new.get i = some span ∧ p ≤ span.start ∧ span.stop ≤ q ∧
      span.slice text ∈ body.language

namespace Recaptured

variable {text : Array UInt8} {groups groups' : List (Fin maxGroups × Expression)} {p q r : Nat}
  {old mid new : Captures}

/-- Nothing is captured anew between a position and itself. -/
theorem refl (p q : Nat) (old : Captures) : Recaptured text groups p q old old := fun _ => .inl rfl

/-- What has been captured anew before and behind a position has been captured anew between both
ends.

**Proof sketch.** The later capture of a group decides. If there is none there, the earlier one
does. -/
theorem trans (h : Recaptured text groups p q old mid) (h' : Recaptured text groups q r mid new)
    (hpq : p ≤ q) (hqr : q ≤ r) : Recaptured text groups p r old new := by
  intro i
  rcases h' i with hsame | ⟨body, span, hmem, hspan, hstart, hstop, hbody⟩
  · rw [hsame]
    rcases h i with hsame | ⟨body, span, hmem, hspan, hstart, hstop, hbody⟩
    · exact .inl hsame
    · exact .inr ⟨body, span, hmem, hspan, hstart, Nat.le_trans hstop hqr, hbody⟩
  · exact .inr ⟨body, span, hmem, hspan, Nat.le_trans hpq hstart, hstop, hbody⟩

/-- Captures of some groups are captures of more groups. -/
theorem mono (h : Recaptured text groups p q old new) (hgroups : ∀ g ∈ groups, g ∈ groups') :
    Recaptured text groups' p q old new := by
  intro i
  rcases h i with hsame | ⟨body, span, hmem, hrest⟩
  · exact .inl hsame
  · exact .inr ⟨body, span, hgroups _ hmem, hrest⟩

/-- A group captures what its body has matched.

**Proof sketch.** The group itself gets a span over what lies between both positions, which is in
the language of its body; every other group is as before. -/
theorem set (h : Recaptured text groups p q old new) {index : Fin maxGroups} {body : Expression}
    (hmem : (index, body) ∈ groups) (hpq : p ≤ q) (hbody : between text p q ∈ body.language) :
    Recaptured text groups p q old (new.set index (some ⟨p, q - p⟩)) := by
  intro i
  by_cases hi : index = i
  · subst hi
    have hstop : p + (q - p) = q := Nat.add_sub_cancel' hpq
    refine .inr ⟨body, ⟨p, q - p⟩, hmem, by simp, Nat.le_refl p, Nat.le_of_eq hstop, ?_⟩
    rwa [Span.slice, Span.stop, hstop]
  · rw [Captures.get_set_of_ne new hi]
    exact h i

/-- What has captured something does not lose it. -/
theorem ne_none (h : Recaptured text groups p q old new) {i : Fin maxGroups}
    (hi : old.get i ≠ none) : new.get i ≠ none := by
  rcases h i with hsame | ⟨body, span, -, hspan, -⟩
  · rwa [hsame]
  · rw [hspan]
    exact Option.some_ne_none span

end Recaptured

/-- An expression has been found between two positions of a text, and this is what is captured
before and after. -/
structure Expression.Found (e : Expression) (text : Array UInt8) (p q : Nat) (old new : Captures) :
    Prop where
  /-- The text in between is in the language of the expression. -/
  mem_language : between text p q ∈ e.language
  /-- What has been captured meanwhile are parts of it. -/
  recaptured : Recaptured text e.groups p q old new
  /-- A group that must be repeated at least once has captured something, if it is not inside
  another group. -/
  participates : ∀ g ∈ e.outerGroups, 0 < g.2.least → new.get g.1 ≠ none

/-! ## What is found is in the language -/

section Soundness

variable {text : Array UInt8} {captures : Captures} {r : Nat × Captures}

/-- If fewer and fewer rounds are tried, some number of them that is allowed succeeds.

**Proof sketch.** By induction on the number that is tried first. -/
theorem exists_of_tryDown {least taken : Nat} {k : (n : Nat) → n ≤ taken → Verdict}
    (hleast : least ≤ taken) (h : tryDown least taken k = some r) :
    ∃ n, ∃ hn : n ≤ taken, least ≤ n ∧ k n hn = some r := by
  induction taken with
  | zero => exact ⟨0, Nat.le_refl 0, hleast, h⟩
  | succ taken ih =>
    rw [tryDown, Option.or_eq_some_iff] at h
    rcases h with h | ⟨-, h⟩
    · exact ⟨taken + 1, Nat.le_refl _, hleast, h⟩
    · split at h
      · obtain ⟨n, hn, hmin, hk⟩ := ih (by omega) h
        exact ⟨n, Nat.le_succ_of_le hn, hmin, hk⟩
      · simp at h

/-- If one iteration of a group finds its body, then several match a power of the body's language,
and the group has captured what the last of them matched.

**Proof sketch.** Induction along the iterations. Either one more was made, which found the body up
to some position, and the induction hypothesis holds from there; or the group was left. -/
theorem exists_found_of_rounds {index : Fin maxGroups} {bounds : Bounds} {e : Expression}
    (hbody : ∀ p hp captures k, e.backtrack text p hp captures k = some r →
      ∃ (q : Ahead text p) (captures' : Captures), e.Found text p q captures captures' ∧
        k q captures' = some r)
    {count p : Nat} {hp : p ≤ text.size} {next : Continuation text p}
    (hcount : ∀ most ∈ bounds.most, count ≤ most)
    (h : rounds text index bounds (e.backtrack text) count p hp captures next = some r) :
    ∃ (n : Nat) (q : Ahead text p) (captures' : Captures), bounds.Allows (count + n) ∧
      between text p q ∈ e.language ^ n ∧
      Recaptured text ((index, e) :: e.groups) p q captures captures' ∧
      (0 < n → captures'.get index ≠ none) ∧ next q captures' = some r := by
  induction count, p, hp, captures, next using rounds.induct text index bounds with
  | case1 count p hp captures next ih =>
    rw [rounds, Option.or_eq_some_iff] at h
    rcases h with h | ⟨-, h⟩
    · split at h
      · rename_i hmore
        obtain ⟨q, captures₁, hfound, hq⟩ := hbody _ _ _ _ h
        split at hq
        · simp at hq
        · rename_i hprogress
          have hcount' : ∀ most ∈ bounds.most, count + 1 ≤ most := by
            intro most hmost
            rw [Bounds.allowsMore, Option.mem_def.1 hmost] at hmore
            exact Nat.succ_le_of_lt (by simpa using hmore)
          obtain ⟨n, q', captures', hallows, hpow, hcaptures, -, hk⟩ :=
            ih q captures₁ hprogress hcount' hq
          have hset : Recaptured text ((index, e) :: e.groups) p q captures
              (captures₁.set index (some ⟨p, q - p⟩)) :=
            (hfound.recaptured.mono fun g hg => List.mem_cons_of_mem _ hg).set
              List.mem_cons_self q.2.1 hfound.mem_language
          refine ⟨n + 1, ⟨q', Nat.le_trans q.2.1 q'.2.1, q'.2.2⟩, captures', ?_, ?_,
            hset.trans hcaptures q.2.1 q'.2.1, fun _ => hcaptures.ne_none (by simp), hk⟩
          · rwa [Nat.add_assoc, Nat.add_comm 1 n] at hallows
          · rw [pow_succ', ← between_append q.2.1 q'.2.1]
            exact Language.append_mem_mul hfound.mem_language hpow
      · simp at h
    · split at h
      · rename_i hleast
        refine ⟨0, ⟨p, Nat.le_refl p, hp⟩, captures, ⟨hleast, hcount⟩, ?_, .refl _ _ _,
          fun hn => absurd hn (Nat.lt_irrefl 0), h⟩
        rw [between_self, pow_zero]
        exact Language.nil_mem_one
      · simp at h

/-- **Soundness of the recursive matcher**: if it succeeds, then what must still match does so from
a position up to which the expression has been found.

**Proof sketch.** By induction on the expression. A single test is tried with fewer and fewer bytes,
and each of these passes it. A group is repeated for some number of rounds, by
`exists_found_of_rounds`, and what follows it is found behind them. Captures are followed along all
of this. -/
theorem Expression.exists_found_of_backtrack {e : Expression} {p : Nat} {hp : p ≤ text.size}
    {k : Continuation text p} (h : e.backtrack text p hp captures k = some r) :
    ∃ (q : Ahead text p) (captures' : Captures), e.Found text p q captures captures' ∧
      k q captures' = some r := by
  induction e generalizing p captures with
  | empty =>
    refine ⟨⟨p, Nat.le_refl p, hp⟩, captures, ⟨?_, .refl _ _ _, by simp [outerGroups]⟩, h⟩
    rw [between_self]
    exact Language.nil_mem_one
  | single test bounds next ih =>
    rw [Expression.backtrack] at h
    split at h
    · simp at h
    · rename_i hmin
      obtain ⟨n, hn, hleast, hk⟩ := exists_of_tryDown (by omega) h
      obtain ⟨q, captures', hfound, hq⟩ := ih hk
      have hcap : n ≤ passing test text p ∧ ∀ most ∈ bounds.most, n ≤ most :=
        bounds.le_cap_iff.1 hn
      have hsingle : between text p (p + n) ∈ test.language ^ n := by
        refine ByteTest.mem_language_pow.2 ⟨?_, accepts_of_mem_between hcap.1⟩
        rw [length_between (Nat.le_trans q.2.1 q.2.2), Nat.add_sub_cancel_left]
      have hpn : p ≤ p + n := Nat.le_add_right p n
      refine ⟨⟨q, Nat.le_trans hpn q.2.1, q.2.2⟩, captures', ⟨?_, ?_, hfound.participates⟩, hq⟩
      · rw [Expression.language, ← between_append hpn q.2.1]
        exact Language.append_mem_mul ⟨n, ⟨hleast, hcap.2⟩, hsingle⟩ hfound.mem_language
      · exact (Recaptured.refl p (p + n) captures).trans hfound.recaptured hpn q.2.1
  | group index body bounds next ihb ihn =>
    rw [Expression.backtrack] at h
    obtain ⟨n, q, captures₁, hallows, hpow, hgroup, hcaptured, hk⟩ := exists_found_of_rounds
      (fun p hp captures k h => ihb h) (fun _ _ => Nat.zero_le _) h
    obtain ⟨q', captures', hfound, hq⟩ := ihn hk
    rw [Nat.zero_add] at hallows
    refine ⟨⟨q', Nat.le_trans q.2.1 q'.2.1, q'.2.2⟩, captures', ⟨?_, ?_, ?_⟩, hq⟩
    · rw [Expression.language, ← between_append q.2.1 q'.2.1]
      exact Language.append_mem_mul ⟨n, hallows, hpow⟩ hfound.mem_language
    · exact (hgroup.mono fun g hg => by simp [groups] at hg ⊢; tauto).trans
        (hfound.recaptured.mono fun g hg => by simp [groups, hg]) q.2.1 q'.2.1
    · rw [outerGroups, List.forall_mem_cons]
      refine ⟨fun hleast => ?_, hfound.participates⟩
      exact hfound.recaptured.ne_none (hcaptured (Nat.lt_of_lt_of_le hleast hallows.least_le))

end Soundness

/-! ## What is in the language is found -/

section Completeness

variable {text : Array UInt8}

/-- If some number of rounds that is allowed succeeds, the trial from a greater number on does.

**Proof sketch.** By induction on the number that is tried first, which is that number or is
followed by the trial of fewer. -/
theorem isSome_tryDown {least taken n : Nat} {k : (n : Nat) → n ≤ taken → Verdict}
    (hleast : least ≤ n) (hn : n ≤ taken) (h : (k n hn).isSome) :
    (tryDown least taken k).isSome := by
  induction taken with
  | zero =>
    obtain rfl : n = 0 := Nat.le_zero.1 hn
    exact h
  | succ taken ih =>
    rw [tryDown, Option.isSome_or, Bool.or_eq_true]
    rcases Nat.eq_or_lt_of_le hn with rfl | hlt
    · exact Or.inl h
    · right
      rw [if_pos (by omega)]
      exact ih (Nat.le_of_lt_succ hlt) h

/-- Iterations that match `parts` one after the other are found, if only those that are owed may be
empty.

**Proof sketch.** Induction on the parts. With none left the group may be left. Otherwise one more
iteration is allowed and its body can match the first part; it is not refused, because this part is
not empty if no iteration is owed. -/
theorem isSome_rounds {index : Fin maxGroups} {bounds : Bounds} {body : Matcher text}
    {L : Language UInt8}
    (hbody : ∀ p hp captures (k : Continuation text p) (q : Ahead text p), between text p q ∈ L →
      (∀ captures', (k q captures').isSome) → (body p hp captures k).isSome)
    {parts : List (List UInt8)} (hL : ∀ y ∈ parts, y ∈ L) {count p : Nat} {hp : p ≤ text.size}
    {captures : Captures} {next : Continuation text p}
    (hne : ∀ y ∈ parts.drop (bounds.least - count), y ≠ [])
    (hallows : bounds.Allows (count + parts.length)) (q : Ahead text p)
    (hq : between text p q = parts.flatten) (hnext : ∀ captures', (next q captures').isSome) :
    (rounds text index bounds body count p hp captures next).isSome := by
  induction parts generalizing count p captures with
  | nil =>
    have hqp := eq_start_of_between hp q hq
    rw [rounds, Option.isSome_or, Bool.or_eq_true]
    right
    rw [if_pos (by simpa using hallows.least_le), ← hqp]
    exact hnext captures
  | cons y parts ih =>
    obtain ⟨hle, hfirst, hrest⟩ := between_eq_append q.2.2 (by simpa using hq) q.2.1
    have hend : p + y.length ≤ text.size := Nat.le_trans hle q.2.2
    rw [rounds, Option.isSome_or, Bool.or_eq_true]
    left
    rw [if_pos (Bounds.allowsMore_of_allows hallows)]
    refine hbody p hp captures _ ⟨p + y.length, Nat.le_add_right .., hend⟩ ?_ fun captures' => ?_
    · rw [hfirst]
      exact hL y List.mem_cons_self
    · rw [dif_neg]
      · refine ih (fun z hz => hL z (List.mem_cons_of_mem _ hz)) (fun z hz => ?_) ?_
          ⟨q, hle, q.2.2⟩ hrest hnext
        · refine hne z ?_
          rcases Nat.lt_or_ge count bounds.least with hlt | hge
          · rw [show bounds.least - count = (bounds.least - (count + 1)) + 1 by omega]
            exact hz
          · rw [Nat.sub_eq_zero_of_le hge]
            exact List.mem_cons_of_mem _ (List.mem_of_mem_drop hz)
        · rwa [List.length_cons, Nat.add_comm parts.length, ← Nat.add_assoc] at hallows
      · rintro ⟨heq, hleast⟩
        have heq : p + y.length = p := heq
        have hy : y ≠ [] := hne y (by rw [Nat.sub_eq_zero_of_le hleast]; exact List.mem_cons_self)
        have hpos : 0 < y.length := List.length_pos_iff.2 hy
        omega

/-- **Completeness of the recursive matcher**: if the text up to some position is in the language of
the expression, and what must still match does so from there, whatever has been captured, then the
matcher succeeds.

**Proof sketch.** By induction on the expression. The part that the test or the group repeats is cut
off the text, and it is as long as one of the numbers that are tried. Of the rounds of a group those
that match nothing can be left out down to the least number, by `exists_nonempty_parts`, so that the
matcher does not refuse one of them. What follows matches from there on. -/
theorem Expression.isSome_backtrack {e : Expression} {p : Nat} {hp : p ≤ text.size}
    {captures : Captures} {k : Continuation text p} (q : Ahead text p)
    (hmem : between text p q ∈ e.language) (hk : ∀ captures', (k q captures').isSome) :
    (e.backtrack text p hp captures k).isSome := by
  induction e generalizing p captures with
  | empty =>
    have hqp := eq_start_of_between hp q ((Language.mem_one _).1 hmem)
    rw [Expression.backtrack, ← hqp]
    exact hk captures
  | single test bounds next ih =>
    obtain ⟨u, ⟨n, hallows, hu⟩, v, hv, huv⟩ := Language.mem_mul.1 hmem
    obtain ⟨hlen, haccepts⟩ := ByteTest.mem_language_pow.1 hu
    obtain ⟨hle, hfirst, hrest⟩ := between_eq_append q.2.2 huv.symm q.2.1
    rw [hlen] at hle hfirst hrest
    have hend : p + n ≤ text.size := Nat.le_trans hle q.2.2
    have hcap : n ≤ bounds.cap (passing test text p) :=
      bounds.le_cap_iff.2 ⟨length_le_passing hend (hfirst ▸ haccepts), hallows.le_most⟩
    rw [Expression.backtrack, if_neg (Nat.not_lt.2 (Nat.le_trans hallows.least_le hcap))]
    refine isSome_tryDown hallows.least_le hcap (ih ⟨q, hle, q.2.2⟩ ?_ hk)
    rw [hrest]
    exact hv
  | group index body bounds next ihb ihn =>
    obtain ⟨u, ⟨n, hallows, hu⟩, v, hv, huv⟩ := Language.mem_mul.1 hmem
    obtain ⟨hle, hfirst, hrest⟩ := between_eq_append q.2.2 huv.symm q.2.1
    obtain ⟨parts, rfl, rfl, hparts⟩ := Language.mem_pow.1 hu
    obtain ⟨parts', hflat, hL, hmin, hmax, hne⟩ :=
      exists_nonempty_parts body.language bounds.least parts hparts hallows.least_le
    have hallows' : bounds.Allows (0 + parts'.length) := by
      rw [Nat.zero_add]
      exact ⟨hmin, fun most hmost => Nat.le_trans hmax (hallows.le_most most hmost)⟩
    rw [Expression.backtrack]
    refine isSome_rounds (fun p hp captures k q => ihb q) hL (by simpa using hne) hallows'
      ⟨p + parts.flatten.length, Nat.le_add_right .., Nat.le_trans hle q.2.2⟩ ?_ fun captures' => ?_
    · rw [hfirst, hflat]
    · refine ihn ⟨q, hle, q.2.2⟩ ?_ hk
      rw [hrest]
      exact hv

end Completeness

/-! ## Searching -/

/-- Every text of an expression starts with the byte that its first piece fixes.

**Proof sketch.** By the first piece, which has to fix a byte and to be there at least once. -/
theorem Expression.head?_of_firstByte? {e : Expression} {b : UInt8}
    {w : List UInt8} (hb : e.firstByte? = some b) (hw : w ∈ e.language) : w.head? = some b := by
  unfold Expression.firstByte? at hb
  split at hb
  · rename_i c bounds next
    split at hb
    · rename_i hleast
      obtain rfl := Option.some.inj hb
      obtain ⟨u, ⟨n, hallows, hu⟩, v, hv, rfl⟩ := Language.mem_mul.1 hw
      obtain ⟨hlen, haccepts⟩ := ByteTest.mem_language_pow.1 hu
      have hmin := hallows.least_le
      obtain ⟨d, u, rfl⟩ := List.exists_cons_of_length_pos (show 0 < u.length by omega)
      have hd := haccepts d List.mem_cons_self
      simp only [ByteTest.accepts, beq_iff_eq] at hd
      rw [hd]
      rfl
    · simp at hb
  · simp at hb

/-- A pattern matches the part of a text from `start` to `stop`. With a start anchor the part must
begin with the text, and with an end anchor it must end with it. -/
structure Program.Matches (p : Program) (text : Array UInt8) (start stop : Nat) : Prop where
  start_le : start ≤ stop
  stop_le : stop ≤ text.size
  at_start : p.startAnchor → start = 0
  at_end : p.endAnchor → stop = text.size
  mem_language : between text start stop ∈ p.body.language

namespace Program

variable {p : Program} {text : Array UInt8}

/-- The end anchor is all that the recursive matcher asks of a match's end. -/
theorem isSome_accept_iff {endAnchor : Bool} {start : Nat} (q : Ahead text start)
    (captures : Captures) :
    (accept endAnchor text start q captures).isSome ↔ (endAnchor → q.1 = text.size) := by
  unfold accept
  split
  · rename_i h
    simp [h]
  · rename_i h
    simpa using h

/-- A match that is found at a position is one of the pattern, but for the start anchor. When the
search at this position began, nothing had been captured.

**Proof sketch.** The match is what the matcher returns at that position, in which the recursive
matcher agrees. What it has found ends where the pattern may end. -/
theorem found_of_matchAt? {start : Nat} {m : Match} (hstart : start ≤ text.size)
    (h : p.matchAt? text start = some m) :
    m.start = start ∧ start ≤ m.stop ∧ m.stop ≤ text.size ∧ (p.endAnchor → m.stop = text.size) ∧
      p.body.Found text start m.stop .empty m.captures := by
  obtain ⟨⟨stop, captures⟩, hrun, rfl⟩ := Option.map_eq_some_iff.1 h
  rw [Machine.run_eq_verdict _ _ (Machine.within_start _ hstart),
    Machine.verdict_start _ _ hstart] at hrun
  obtain ⟨q, captures', hfound, haccept⟩ := Expression.exists_found_of_backtrack hrun
  have hend := (isSome_accept_iff q captures').1 (by rw [haccept]; rfl)
  unfold accept at haccept
  split at haccept
  · simp at haccept
  · obtain ⟨rfl, rfl⟩ := Prod.mk.inj (Option.some.inj haccept)
    have hstop : (⟨⟨start, q - start⟩, captures', p.groupCount⟩ : Match).stop = q := by
      have hle := q.2.1
      simp only [Match.stop, Span.stop]
      omega
    rw [hstop]
    exact ⟨rfl, q.2.1, q.2.2, hend, hfound⟩

/-- Where the pattern matches some part of the text, a match is found. -/
theorem isSome_matchAt? {start stop : Nat} (h : p.Matches text start stop) :
    (p.matchAt? text start).isSome := by
  have hstart := Nat.le_trans h.start_le h.stop_le
  unfold matchAt?
  rw [Option.isSome_map, Machine.run_eq_verdict _ _ (Machine.within_start _ hstart),
    Machine.verdict_start _ _ hstart]
  exact Expression.isSome_backtrack ⟨stop, h.start_le, h.stop_le⟩ h.mem_language
    fun captures => (isSome_accept_iff _ captures).2 h.at_end

/-- A position where the pattern matches is never skipped.

**Proof sketch.** A pattern that fixes its first byte matches only where that byte stands, and the
bytes of the match are those of the text. -/
theorem mayStartAt_of_matches {start stop : Nat} (h : p.Matches text start stop) :
    p.mayStartAt text start := by
  unfold mayStartAt
  split
  · rfl
  · rename_i b hb
    have hhead := Expression.head?_of_firstByte? hb h.mem_language
    have hpos : start < stop := by
      rcases Nat.eq_or_lt_of_le h.start_le with rfl | hlt
      · rw [between_self] at hhead
        simp at hhead
      · exact hlt
    have hfirst : (text.extract start stop)[0]? = text[start]? := by
      have hle := h.stop_le
      rw [Array.getElem?_extract, if_pos (by omega), Nat.add_zero]
    rw [beq_iff_eq, ← hfirst, ← hhead, between, List.head?_eq_getElem?, Array.getElem?_toList]

/-- A search over some positions finds a match at the first of them where there is one.

**Proof sketch.** By induction on the positions. A position is passed over if its first byte cannot
begin a match, or if nothing matches there; otherwise the first match is the one there. -/
theorem firstMatch?_eq (p : Program) (text : Array UInt8) (start positions : Nat)
    (hend : start + positions ≤ text.size + 1) :
    match p.firstMatch? text start positions with
    | none => ∀ s, start ≤ s → s < start + positions → ∀ stop, ¬ p.Matches text s stop
    | some m => start ≤ m.start ∧ m.start < start + positions ∧
        p.matchAt? text m.start = some m ∧
        ∀ s, start ≤ s → s < m.start → ∀ stop, ¬ p.Matches text s stop := by
  induction positions generalizing start with
  | zero =>
    intro s hs hlt
    omega
  | succ positions ih =>
    have hmiss : (if p.mayStartAt text start then p.matchAt? text start else none) = none →
        ∀ stop, ¬ p.Matches text start stop := by
      intro hnone stop hmatches
      rw [if_pos (mayStartAt_of_matches hmatches)] at hnone
      have hsome := isSome_matchAt? hmatches
      rw [hnone] at hsome
      simp at hsome
    rw [firstMatch?]
    cases hm : if p.mayStartAt text start then p.matchAt? text start else none with
    | some m =>
      dsimp only
      split at hm
      · obtain ⟨rfl, -⟩ := found_of_matchAt? (by omega) hm
        exact ⟨Nat.le_refl _, by omega, hm, fun s hs hlt => absurd hlt (Nat.not_lt.2 hs)⟩
      · simp at hm
    | none =>
      have hrest := ih (start + 1) (by omega)
      dsimp only
      cases hnext : p.firstMatch? text (start + 1) positions with
      | none =>
        rw [hnext] at hrest
        intro s hs hlt
        rcases Nat.eq_or_lt_of_le hs with rfl | hs
        · exact hmiss hm
        · exact hrest s hs (by omega)
      | some m =>
        rw [hnext] at hrest
        obtain ⟨hle, hlt, hmatch, hbefore⟩ := hrest
        refine ⟨by omega, by omega, hmatch, fun s hs hlt => ?_⟩
        rcases Nat.eq_or_lt_of_le hs with rfl | hs
        · exact hmiss hm
        · exact hbefore s hs hlt

/-- A match at a position that the start anchor allows is one of the pattern. -/
theorem matches_of_matchAt? {start : Nat} {m : Match} (hstart : start ≤ text.size)
    (hanchor : p.startAnchor → start = 0) (h : p.matchAt? text start = some m) :
    p.Matches text start m.stop := by
  obtain ⟨-, hle, hstop, hend, hfound⟩ := found_of_matchAt? hstart h
  exact ⟨hle, hstop, hanchor, hend, hfound.mem_language⟩

/-- What a search finds, and what it means that it finds nothing.

**Proof sketch.** With a start anchor only the position `0` is tried, and without it all positions
from `start` to the end of the text. In both cases the others are no starts of matches, so
`firstMatch?_eq` tells all. -/
theorem search_eq (p : Program) (text : Array UInt8) (start : Nat) :
    match p.search text start with
    | none => ∀ s stop, start ≤ s → ¬ p.Matches text s stop
    | some m => start ≤ m.start ∧ p.Matches text m.start m.stop ∧
        ∀ s stop, start ≤ s → p.Matches text s stop → m.start ≤ s := by
  unfold search
  by_cases hsize : text.size < start
  · rw [if_pos hsize]
    intro s stop hs hmatches
    have hle := hmatches.start_le
    have hstop := hmatches.stop_le
    omega
  rw [if_neg hsize]
  by_cases hanchor : p.startAnchor
  · rw [if_pos hanchor]
    by_cases hpos : 0 < start
    · rw [if_pos hpos]
      intro s stop hs hmatches
      have hzero := hmatches.at_start hanchor
      omega
    · rw [if_neg hpos]
      have hfirst := firstMatch?_eq p text 0 1 (by omega)
      cases hm : p.firstMatch? text 0 1 with
      | none =>
        rw [hm] at hfirst
        intro s stop hs hmatches
        have hzero := hmatches.at_start hanchor
        exact hfirst s (Nat.zero_le s) (by omega) stop hmatches
      | some m =>
        rw [hm] at hfirst
        obtain ⟨-, hlt, hmatch, -⟩ := hfirst
        have hzero : m.start = 0 := by omega
        exact ⟨by omega, matches_of_matchAt? (by omega) (fun _ => hzero) hmatch,
          fun s stop hs hmatches => by omega⟩
  · rw [if_neg hanchor]
    have hfirst := firstMatch?_eq p text start (text.size + 1 - start) (by omega)
    cases hm : p.firstMatch? text start (text.size + 1 - start) with
    | none =>
      rw [hm] at hfirst
      intro s stop hs hmatches
      have hle := hmatches.start_le
      have hstop := hmatches.stop_le
      exact hfirst s hs (by omega) stop hmatches
    | some m =>
      rw [hm] at hfirst
      obtain ⟨hle, hlt, hmatch, hbefore⟩ := hfirst
      refine ⟨hle, matches_of_matchAt? (by omega) (fun h => absurd h hanchor) hmatch,
        fun s stop hs hmatches => ?_⟩
      exact Nat.le_of_not_lt fun hlt => hbefore s hs hlt stop hmatches

/-- **Searching is complete and sound**: a match is found exactly if the pattern matches some part
of the text that starts at or after the position where the search begins. What is found then is a
part that the pattern matches, and no other one starts before it.

**Proof sketch.** By `search_eq`, for a search that finds something and for one that does not. -/
theorem isSome_search_iff (p : Program) (text : Array UInt8) (start : Nat) :
    ((p.search text start).isSome ↔ ∃ s stop, start ≤ s ∧ p.Matches text s stop) ∧
      ∀ m ∈ p.search text start, start ≤ m.start ∧ p.Matches text m.start m.stop ∧
        ∀ s stop, start ≤ s → p.Matches text s stop → m.start ≤ s := by
  have hsearch := search_eq p text start
  cases hm : p.search text start with
  | none =>
    rw [hm] at hsearch
    refine ⟨⟨fun h => by simp at h, fun ⟨s, stop, hs, hmatches⟩ => ?_⟩, fun m h => by simp at h⟩
    exact absurd hmatches (hsearch s stop hs)
  | some m =>
    rw [hm] at hsearch
    obtain ⟨hle, hmatches, hfirst⟩ := hsearch
    refine ⟨⟨fun _ => ⟨m.start, m.stop, hle, hmatches⟩, fun _ => rfl⟩, fun m' hm' => ?_⟩
    obtain rfl := Option.some.inj hm'
    exact ⟨hle, hmatches, hfirst⟩

/-- In `xaab` the match of a repeated group that can match nothing starts at the second byte, and no
other one starts before it. -/
theorem isSome_search_iff_nestedStar :
    let p : Program := ⟨nestedStar, false, true, 1⟩
    let text := (Line.ofString "xaab").toArray
    ∃ m ∈ p.search text 0, p.Matches text m.start 4 ∧
      ∀ s stop, 0 ≤ s → p.Matches text s stop → 1 ≤ s := by
  have hm : (⟨nestedStar, false, true, 1⟩ : Program).search (Line.ofString "xaab").toArray 0 =
      some ⟨⟨1, 3⟩, Captures.empty.set 0 (some ⟨1, 2⟩), 1⟩ := by decide +kernel
  obtain ⟨-, hmatches, hfirst⟩ := (isSome_search_iff _ _ _).2 _ hm
  exact ⟨_, hm, hmatches, hfirst⟩

end Program

end LineEditor.Regex
