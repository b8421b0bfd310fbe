import LineEditor.Error

set_option autoImplicit false
set_option relaxedAutoImplicit false

/-!
# Computations with a state

The program is made of computations that change a state and may fail; the state that was reached
is left also by a failure. This file has what holds of all of them: equations for the steps they
are put together from, and rules by which a property of the state is maintained.

## Main definitions

* `LineEditor.EState.after`: the state that a computation leaves.
* `LineEditor.EState.Maintains`: computations that maintain a property of the state.
* `LineEditor.EState.FailsWith`: computations that fail only with errors of a kind.

## Main results

* `LineEditor.EState.Maintains.bind`: two computations that follow each other maintain what both
  maintain.
-/

namespace LineEditor

/-! ## Equations -/

namespace EState

variable {ε σ α β : Type}

/-- A computation followed by another one, state by state: the second one starts where the first one
ends, unless that fails. -/
@[simp] theorem bind_apply (x : EStateM ε σ α) (f : α → EStateM ε σ β) (s : σ) :
    (x >>= f) s = match x s with
      | .ok a t => f a t
      | .error e t => .error e t := rfl

/-- Returning a value leaves the state as it is. -/
@[simp] theorem pure_apply (a : α) (s : σ) : (pure a : EStateM ε σ α) s = .ok a s := rfl

/-- Asking for the state leaves it as it is. -/
@[simp] theorem get_apply (s : σ) : (get : EStateM ε σ σ) s = .ok s s := rfl

/-- Setting the state forgets the one before. -/
@[simp] theorem set_apply (t s : σ) : (set t : EStateM ε σ PUnit) s = .ok ⟨⟩ t := rfl

/-- Changing the state returns nothing. -/
@[simp] theorem modify_apply (f : σ → σ) (s : σ) :
    (modify f : EStateM ε σ PUnit) s = .ok ⟨⟩ (f s) := rfl

/-- A failure leaves the state as it is. -/
@[simp] theorem throw_apply (e : ε) (s : σ) : (throw e : EStateM ε σ α) s = .error e s := rfl

/-- What is made of the result of a computation changes neither its state nor its failures. -/
@[simp] theorem map_apply (f : α → β) (x : EStateM ε σ α) (s : σ) :
    (f <$> x) s = match x s with
      | .ok a t => .ok (f a) t
      | .error e t => .error e t := rfl

/-- A choice between computations is made before the state is looked at. -/
@[simp] theorem ite_apply (c : Prop) [Decidable c] (x y : EStateM ε σ α) (s : σ) :
    (if c then x else y) s = if c then x s else y s := by
  split <;> rfl

end EState

/-- The state that is left by a result, also by an error. -/
def EState.final {ε σ α : Type} : EStateM.Result ε σ α → σ
  | .ok _ s => s
  | .error _ s => s

/-- The state that a computation leaves, also when it fails. -/
def EState.after {ε σ α : Type} (x : EStateM ε σ α) (s : σ) : σ := EState.final (x s)

/-- A result with another state. -/
def EState.mapState {ε σ τ α : Type} (f : σ → τ) : EStateM.Result ε σ α → EStateM.Result ε τ α
  | .ok a s => .ok a (f s)
  | .error e s => .error e (f s)

/-- A computation, and what follows it if it succeeds or if it fails. -/
def EState.resume {ε σ α β : Type} (x : EStateM ε σ α) (f : α → EStateM ε σ β)
    (g : ε → EStateM ε σ β) : EStateM ε σ β := fun s =>
  match x s with
  | .ok a t => f a t
  | .error e t => g e t

/-- The error with which a computation fails. -/
def EState.error? {ε σ α : Type} (x : EStateM ε σ α) (s : σ) : Option ε :=
  match x s with
  | .ok .. => none
  | .error e _ => some e

/-- The value of a computation that succeeds. -/
def EState.value? {ε σ α : Type} (x : EStateM ε σ α) (s : σ) : Option α :=
  match x s with
  | .ok a _ => some a
  | .error .. => none

namespace EState

variable {ε σ α β : Type} {x : EStateM ε σ α} {s t : σ}

/-- The state after a success is the one that it ends in. -/
theorem after_of_ok {a : α} (h : x s = .ok a t) : after x s = t := congrArg final h

/-- The state after a failure is the one that it ends in. -/
theorem after_of_error {e : ε} (h : x s = .error e t) : after x s = t := congrArg final h

/-- A computation whose error has been evaluated fails with this error.

**Proof sketch.** An evaluation shows only the error and not the state, since errors can be compared
and states need not; the state is the one after the computation. -/
theorem eq_error_of_error? {e : ε} (h : error? x s = some e) : x s = .error e (after x s) := by
  unfold error? at h
  unfold after
  cases hx : x s with
  | ok a u =>
    rw [hx] at h
    cases h
  | error e' u =>
    rw [hx] at h
    cases h
    rfl

/-- A computation whose value has been evaluated returns this value.

**Proof sketch.** As for errors: the value is compared, and the state is the one after the
computation. -/
theorem eq_ok_of_value? {a : α} (h : value? x s = some a) : x s = .ok a (after x s) := by
  unfold value? at h
  unfold after
  cases hx : x s with
  | ok a' u =>
    rw [hx] at h
    cases h
    rfl
  | error e u =>
    rw [hx] at h
    cases h

/-- If the first of two computations succeeds, the state afterwards is that of the second one. -/
theorem after_bind_of_ok {a : α} (h : x s = .ok a t) (f : α → EStateM ε σ β) :
    after (x >>= f) s = after (f a) t := by
  unfold after
  rw [bind_apply, h]

/-- If the first of two computations fails, its state is the one afterwards. -/
theorem after_bind_of_error {e : ε} (h : x s = .error e t) (f : α → EStateM ε σ β) :
    after (x >>= f) s = t := by
  refine after_of_error (e := e) ?_
  rw [bind_apply, h]

/-- A computation that succeeds succeeds in both its parts.

**Proof sketch.** By the outcome of the first part: if this fails, so does the whole. -/
theorem exists_of_bind_ok {f : α → EStateM ε σ β} {b : β} (h : (x >>= f) s = .ok b t) :
    ∃ a u, x s = .ok a u ∧ f a u = .ok b t := by
  rw [bind_apply] at h
  cases hx : x s with
  | ok a u =>
    rw [hx] at h
    exact ⟨a, u, rfl, h⟩
  | error e u =>
    rw [hx] at h
    cases h

/-- To go on with the same error after a failure is what follows a computation anyway. -/
theorem resume_throw (x : EStateM ε σ α) (f : α → EStateM ε σ β) : resume x f throw = x >>= f := by
  funext s
  unfold resume
  rw [bind_apply]
  cases x s <;> rfl

/-- A change of the state of a result changes its final state. -/
theorem final_mapState (f : σ → σ) (r : EStateM.Result ε σ α) :
    final (mapState f r) = f (final r) := by
  cases r <;> rfl

/-- What is made of a result does not change the state afterwards. -/
theorem after_map (f : α → β) (x : EStateM ε σ α) (s : σ) : after (f <$> x) s = after x s := by
  unfold after
  rw [map_apply]
  cases x s <;> rfl

end EState

/-! ## Properties of the state -/

namespace EState

variable {ε σ α β : Type}

/-- A result leaves a state with a property, and has a value with another one if it has any. -/
def Leaves (I : σ → Prop) (P : α → Prop) : EStateM.Result ε σ α → Prop
  | .ok a s => I s ∧ P a
  | .error _ s => I s

/-- A computation maintains a property of the state, also when it fails. If it succeeds its value
has a property as well. -/
def Maintains (I : σ → Prop) (P : α → Prop) (x : EStateM ε σ α) : Prop :=
  ∀ s, I s → Leaves I P (x s)

namespace Maintains

variable {I : σ → Prop} {P : α → Prop} {Q : β → Prop} {x y : EStateM ε σ α} {s t : σ}

/-- After a success the invariant holds, and the value has its property. -/
theorem of_ok (h : Maintains I P x) (hs : I s) {a : α} (hx : x s = .ok a t) : I t ∧ P a := by
  have hleaves := h s hs
  rw [hx] at hleaves
  exact hleaves

/-- After a failure the invariant still holds. -/
theorem of_error (h : Maintains I P x) (hs : I s) {e : ε} (hx : x s = .error e t) : I t := by
  have hleaves := h s hs
  rw [hx] at hleaves
  exact hleaves

/-- The invariant holds afterwards in either case.

**Proof sketch.** By the outcome, with the two lemmas before. -/
theorem after (h : Maintains I P x) (hs : I s) : I (after x s) := by
  cases hx : x s with
  | ok a t =>
    rw [after_of_ok hx]
    exact (h.of_ok hs hx).1
  | error e t =>
    rw [after_of_error hx]
    exact h.of_error hs hx

/-- Returning a value with the property maintains every invariant. -/
theorem pure {a : α} (h : P a) : Maintains I P (Pure.pure a : EStateM ε σ α) := fun _ hs => ⟨hs, h⟩

/-- So does failing, with every property of values. -/
theorem throw (e : ε) : Maintains I P (MonadExcept.throw e : EStateM ε σ α) := fun _ hs => hs

/-- **Invariants are composed.** What follows may rely on the property of the value that it gets.

**Proof sketch.** By the outcome of the first computation. After a success its state meets the
invariant and its value has the property, so that what follows can be applied; a failure ends
there. -/
theorem bind {f : α → EStateM ε σ β} (hx : Maintains I P x) (hf : ∀ a, P a → Maintains I Q (f a)) :
    Maintains I Q (x >>= f) := by
  intro s hs
  rw [bind_apply]
  cases hxs : x s with
  | ok a t =>
    obtain ⟨ht, ha⟩ := hx.of_ok hs hxs
    exact hf a ha t ht
  | error e t => exact hx.of_error hs hxs

/-- The same if nothing is known of the first value. -/
theorem seq {f : α → EStateM ε σ β} (hx : Maintains I (fun _ => True) x)
    (hf : ∀ a, Maintains I Q (f a)) : Maintains I Q (x >>= f) := hx.bind fun a _ => hf a

/-- The state that is asked for has the property. -/
theorem get_bind {f : σ → EStateM ε σ β} (hf : ∀ s, I s → Maintains I Q (f s)) :
    Maintains I Q (get >>= f) := fun s hs => hf s hs s hs

/-- A value that is made of another one has the property that follows from its own.

**Proof sketch.** By the outcome; only the value of a success is touched. -/
theorem map {f : α → β} (hx : Maintains I P x) (hf : ∀ a, P a → Q (f a)) :
    Maintains I Q (f <$> x) := by
  intro s hs
  rw [map_apply]
  cases hxs : x s with
  | ok a t => exact ⟨(hx.of_ok hs hxs).1, hf a (hx.of_ok hs hxs).2⟩
  | error e t => exact hx.of_error hs hxs

/-- A choice maintains an invariant if both sides do, each on its own condition. -/
theorem ite {c : Prop} [Decidable c] (hx : c → Maintains I P x) (hy : ¬c → Maintains I P y) :
    Maintains I P (if c then x else y) := by
  split
  · exact hx ‹_›
  · exact hy ‹_›

/-- A result that does not depend on the state is known to be the one that is returned. -/
theorem ofResult {I : σ → Prop} (r : Except EditError α) :
    Maintains I (fun a => r = .ok a) (LineEditor.ofResult r : EStateM EditError σ α) := by
  cases r with
  | ok a => exact pure rfl
  | error e => exact throw e

end Maintains

/-! ## Errors -/

/-- A computation fails only with errors of a kind, in whatever state it starts. -/
def FailsWith (E : ε → Prop) (x : EStateM ε σ α) : Prop := ∀ s e t, x s = .error e t → E e

namespace FailsWith

variable {E : ε → Prop} {x y : EStateM ε σ α}

/-- Returning a value fails with no error at all. -/
theorem pure (a : α) : FailsWith E (Pure.pure a : EStateM ε σ α) := fun _ _ _ h => by cases h

/-- A failure has its own error. -/
theorem throw {e : ε} (h : E e) : FailsWith E (MonadExcept.throw e : EStateM ε σ α) := by
  rintro s e' t ⟨⟩
  exact h

/-- Setting the state cannot fail. -/
theorem set (t : σ) : FailsWith E (MonadStateOf.set t : EStateM ε σ PUnit) :=
  fun _ _ _ h => by cases h

/-- Changing the state cannot fail. -/
theorem modify (f : σ → σ) :
    FailsWith E (MonadState.modifyGet fun s => (PUnit.unit, f s) : EStateM ε σ PUnit) :=
  fun _ _ _ h => by cases h

/-- Computations that follow each other fail with the errors of both.

**Proof sketch.** By the outcome of the first one: its own error is the error of the whole, and
after a success only what follows can fail. -/
theorem bind {f : α → EStateM ε σ β} (hx : FailsWith E x) (hf : ∀ a, FailsWith E (f a)) :
    FailsWith E (x >>= f) := by
  intro s e t h
  rw [bind_apply] at h
  cases hxs : x s with
  | ok a u =>
    rw [hxs] at h
    exact hf a u e t h
  | error e' u =>
    rw [hxs] at h
    cases h
    exact hx s _ _ hxs

/-- Asking for the state cannot fail, so only what follows counts. -/
theorem get_bind {f : σ → EStateM ε σ β} (hf : ∀ s, FailsWith E (f s)) :
    FailsWith E (get >>= f) := fun s e t h => hf s s e t h

/-- A choice fails with the errors of both sides. -/
theorem ite {c : Prop} [Decidable c] (hx : FailsWith E x) (hy : FailsWith E y) :
    FailsWith E (if c then x else y) := by
  split
  · exact hx
  · exact hy

/-- A result that does not depend on the state fails with its own error. -/
theorem ofResult {E : EditError → Prop} {r : Except EditError α} (h : ∀ e, r = .error e → E e) :
    FailsWith E (LineEditor.ofResult r : EStateM EditError σ α) := by
  cases r with
  | ok a => exact pure a
  | error e => exact throw (h e rfl)

end FailsWith

end EState

end LineEditor
