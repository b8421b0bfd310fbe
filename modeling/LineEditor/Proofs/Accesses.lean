import LineEditor.Byte
import LineEditor.Proofs.Computations
import Mathlib.Data.List.TakeWhile

set_option autoImplicit false
set_option relaxedAutoImplicit false

/-!
# Checked accesses

The definitions of the editor give a value also to what has none, such as an element or a part of an
array behind its end, or a difference that is below zero. To see that they never rely on such a
value, whatever they access is listed: which element or which part is taken of a sequence of which
size, and which numbers are subtracted. A computation can then be carried out once more with these
accesses checked before they are made.

The readers of command lines and patterns take what is left of a text. Where they stand in it is
counted beside, in the way they move on: one position for each byte that they step over, whether it
is there or not.

## Main definitions

* `LineEditor.Access`: what may be out of bounds.
* `LineEditor.Trail`: the accesses of a reader, and the position that it reaches.
* `LineEditor.Checked`: computations in which accesses are checked.
* `LineEditor.Checked.Agrees`: a computation does the same without its checks.

## Main results

* `LineEditor.Checked.Agrees.bind`, `LineEditor.Checked.Agrees.access_bind`: the rules by which a
  computation is compared with the one that makes no checks.
-/

namespace LineEditor

/-! ## Accesses -/

/-- What a computation takes from a sequence or computes, and what may not be there. -/
inductive Access where
  /-- An element of a sequence of the given size. -/
  | element (index size : Nat)
  /-- The elements from an index on up to before another one. -/
  | slice (start stop size : Nat)
  /-- What is left of a number. -/
  | difference (number less : Nat)
  deriving Repr, DecidableEq

namespace Access

/-- What is accessed is there. -/
def Valid : Access → Prop
  | element index size => index < size
  | slice start stop size => start ≤ stop ∧ stop ≤ size
  | difference number less => less ≤ number

instance : DecidablePred Valid
  | element index size => inferInstanceAs (Decidable (index < size))
  | slice start stop size => inferInstanceAs (Decidable (start ≤ stop ∧ stop ≤ size))
  | difference number less => inferInstanceAs (Decidable (less ≤ number))

end Access

/-- What is computed for the values of digits: how far each of them is from the digit zero. -/
def digitAccesses (digits : Line) : List Access :=
  digits.map fun d => .difference d.toNat (ascii '0').toNat

/-- No byte before the digit zero is a digit. -/
theorem valid_digitAccesses {digits : Line} (h : ∀ d ∈ digits, isDigit d) :
    ∀ a ∈ digitAccesses digits, a.Valid := by
  refine List.forall_mem_map.2 fun d hd => ?_
  have hdigit := h d hd
  rw [isDigit, Bool.and_eq_true, decide_eq_true_eq, UInt8.le_iff_toNat_le] at hdigit
  exact hdigit.1

/-- The digits at the front of a text are digits. -/
theorem valid_digitAccesses_takeWhile (bytes : Line) :
    ∀ a ∈ digitAccesses (bytes.takeWhile isDigit), a.Valid :=
  valid_digitAccesses fun _ => List.mem_takeWhile_imp

/-! ## Readers -/

/-- What a reader accesses on its way through a text, and the position that it reaches. -/
structure Trail where
  /-- What is accessed. -/
  accesses : List Access
  /-- The position behind what has been read. -/
  stop : Nat
  deriving Repr, DecidableEq

namespace Trail

/-- A reader that moves on without an access. -/
def reach (stop : Nat) : Trail := ⟨[], stop⟩

/-- The way of a reader after other accesses. -/
def after (t : Trail) (accesses : List Access) : Trail := ⟨accesses ++ t.accesses, t.stop⟩

/-- A reader has accessed what is there, and the bytes that are left of a text of the given size
stand at the position that it has reached. -/
structure Leaves (t : Trail) (size : Nat) (rest : Line) : Prop where
  /-- All accesses are within bounds. -/
  valid : ∀ a ∈ t.accesses, a.Valid
  /-- The position and the number of the bytes that are left make up the size of the text. -/
  stop_add : t.stop + rest.length = size

variable {t : Trail} {size : Nat} {rest : Line}

/-- A reader that makes no access leaves what stands at the position that it moves to. -/
theorem leaves_reach {stop : Nat} (h : stop + rest.length = size) : (reach stop).Leaves size rest :=
  ⟨List.forall_mem_nil _, h⟩

/-- The accesses of one reader are followed by those of the next. -/
theorem Leaves.after (h : t.Leaves size rest) {accesses : List Access}
    (ha : ∀ a ∈ accesses, a.Valid) : (t.after accesses).Leaves size rest :=
  ⟨List.forall_mem_append.2 ⟨ha, h.valid⟩, h.stop_add⟩

/-- A reader does not go beyond the end of the text. -/
theorem Leaves.stop_le (h : t.Leaves size rest) : t.stop ≤ size := by
  have := h.stop_add
  omega

end Trail

/-! ## Checked computations -/

/-- How a computation fails in which accesses are checked. -/
inductive Fault where
  /-- Something is accessed that is not there. -/
  | outOfBounds
  /-- The computation itself fails. -/
  | refused (e : EditError)
  deriving DecidableEq

/-- Computations in which accesses are checked. -/
abbrev Checked (σ : Type) := EStateM Fault σ

namespace Checked

variable {σ α β : Type}

/-- The result of a computation that is not checked. -/
def lift : EStateM.Result EditError σ α → EStateM.Result Fault σ α
  | .ok a s => .ok a s
  | .error e s => .error (.refused e) s

/-- A computation without accesses that have to be checked. -/
def of (x : EStateM EditError σ α) : Checked σ α := fun s => lift (x s)

/-- Checks accesses. -/
def access (accesses : List Access) : Checked σ Unit :=
  if ∀ a ∈ accesses, a.Valid then pure () else throw .outOfBounds

/-- A success stays a success with checks. -/
@[simp] theorem lift_ok (a : α) (s : σ) : lift (.ok a s) = .ok a s := rfl

/-- An error of the computation itself is not one of a check. -/
@[simp] theorem lift_error (e : EditError) (s : σ) :
    lift (.error e s : EStateM.Result EditError σ α) = .error (.refused e) s := rfl

/-- An unchecked computation runs as it is, and only its errors are told from those of checks. -/
@[simp] theorem of_apply (x : EStateM EditError σ α) (s : σ) : of x s = lift (x s) := rfl

/-- Returning a value needs no check. -/
@[simp] theorem of_pure (a : α) : (of (pure a) : Checked σ α) = pure a := rfl

/-- Two unchecked computations that follow each other. -/
theorem of_bind (x : EStateM EditError σ α) (f : α → EStateM EditError σ β) :
    of (x >>= f) = of x >>= fun a => of (f a) := by
  funext s
  simp only [of_apply, EState.bind_apply]
  cases x s <;> rfl

/-- What is made of the result of an unchecked computation. -/
theorem of_map (f : α → β) (x : EStateM EditError σ α) : of (f <$> x) = f <$> of x := by
  funext s
  simp only [of_apply, EState.map_apply]
  cases x s <;> rfl

/-- The check of accesses that are within bounds does nothing. -/
theorem access_apply {accesses : List Access} (h : ∀ a ∈ accesses, a.Valid) (s : σ) :
    access accesses s = .ok () s := by
  rw [access, if_pos h]
  rfl

/-- The check of one access that is within bounds does nothing. -/
theorem access_singleton_apply {a : Access} (h : a.Valid) (s : σ) : access [a] s = .ok () s :=
  access_apply (List.forall_mem_singleton.2 h) s

/-- A computation does the same without its checks. -/
def Agrees (y : Checked σ α) (x : EStateM EditError σ α) : Prop := y = of x

namespace Agrees

variable {y : Checked σ α} {x : EStateM EditError σ α}

/-- What is not checked does the same without checks. -/
theorem of (x : EStateM EditError σ α) : Agrees (of x) x := rfl

/-- A result is returned without a check. -/
theorem pure (a : α) : Agrees (Pure.pure a : Checked σ α) (Pure.pure a) := rfl

/-- Errors of the computation itself are not those of a check. -/
theorem throw (e : EditError) :
    Agrees (MonadExcept.throw (Fault.refused e) : Checked σ α) (MonadExcept.throw e) := rfl

/-- Computations that follow each other are compared one by one. -/
theorem bind {g : α → Checked σ β} {f : α → EStateM EditError σ β} (h : Agrees y x)
    (hf : ∀ a, Agrees (g a) (f a)) : Agrees (y >>= g) (x >>= f) := by
  have hg : g = fun a => Checked.of (f a) := funext hf
  unfold Agrees at h ⊢
  rw [of_bind, h, hg]

/-- A computation that looks at the state. -/
theorem get_bind {g : σ → Checked σ β} {f : σ → EStateM EditError σ β}
    (hf : ∀ s, Agrees (g s) (f s)) : Agrees (get >>= g) (get >>= f) := bind rfl hf

/-- A result that does not depend on the state, and what follows it if it is no error. -/
theorem ofResult_bind {result : Except EditError α} {g : α → Checked σ β}
    {f : α → EStateM EditError σ β} (hf : ∀ a, result = .ok a → Agrees (g a) (f a)) :
    Agrees (Checked.of (ofResult result) >>= g) (ofResult result >>= f) := by
  cases result with
  | error e => rfl
  | ok a => exact hf a rfl

/-- What is made of a result needs no check. -/
theorem map {f : α → β} (h : Agrees y x) : Agrees (f <$> y) (f <$> x) := by
  unfold Agrees at h ⊢
  rw [of_map, h]

/-- A computation that chooses between two others is compared in both cases. -/
theorem ite {c : Prop} [Decidable c] {y' : Checked σ α} {x' : EStateM EditError σ α}
    (h : c → Agrees y x) (h' : ¬c → Agrees y' x') :
    Agrees (if c then y else y') (if c then x else x') := by
  split
  · exact h ‹_›
  · exact h' ‹_›

/-- Accesses that are not out of bounds change nothing. -/
theorem access_bind {accesses : List Access} (ha : ∀ a ∈ accesses, a.Valid) (h : Agrees y x) :
    Agrees (access accesses >>= fun _ => y) x := by
  unfold access
  rw [if_pos ha]
  exact h

end Agrees

end Checked

end LineEditor
