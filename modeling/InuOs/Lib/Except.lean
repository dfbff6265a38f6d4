import Mathlib.Logic.Basic

/-!
# Postconditions of fallible functions

`Meets x E Q` says of a computation in `Except` that it either returns a value with `Q` or fails
with an error in `E`. The rules follow the way programs are built: `Meets.bind` for sequencing,
`Meets.pure` and `Meets.throw` for the ends, `Meets.mono` to weaken. A function gets one lemma
`Meets (f x) E Q`, and its callers use that lemma with `bind`.

`Agree R x y` compares two computations that may fail in different ways: they return values related
by `R`, or both fail.
-/

namespace InuOs

universe u v

variable {ε : Type u} {α β : Type v} {E : ε → Prop} {P : α → Prop} {Q : β → Prop}

/-- The computation returns a value with `Q`, or fails with an error in `E`. It is irreducible so
that unification never runs the computation. -/
@[irreducible] def Meets (x : Except ε α) (E : ε → Prop) (P : α → Prop) : Prop :=
  match x with
  | .ok a => P a
  | .error e => E e

variable {x : Except ε α} {f : α → Except ε β} {e : ε} {a : α} {P' : α → Prop} {E' : ε → Prop}

/-- Inversion for a sequence that returns. -/
theorem exists_of_bind_eq_ok {b : β} (h : x >>= f = .ok b) : ∃ a, x = .ok a ∧ f a = .ok b := by
  cases x with
  | ok a => exact ⟨a, rfl, h⟩
  | error e => exact nomatch h

/-- An error shows without the type of the values, which may have no decidable equality. -/
theorem eq_error_of_map (h : x.map (fun _ => ()) = .error e) : x = .error e := by
  cases x with
  | ok a => exact nomatch h
  | error e' => exact congrArg _ (Except.error.inj h)

namespace Meets

theorem pure (h : P a) : Meets (Pure.pure a : Except ε α) E P := by
  unfold Meets
  exact h

theorem throw (h : E e) : Meets (throw e : Except ε α) E P := by
  unfold Meets
  exact h

theorem bind (hx : Meets x E P) (hf : ∀ a, P a → Meets (f a) E Q) : Meets (x >>= f) E Q := by
  unfold Meets at hx
  cases x with
  | ok a => exact hf a hx
  | error e => exact Meets.throw hx

theorem mono (hx : Meets x E P) (h : ∀ a, P a → P' a) : Meets x E P' := by
  unfold Meets at hx
  cases x with
  | ok a => exact Meets.pure (h a hx)
  | error e => exact Meets.throw hx

theorem mono_error (hx : Meets x E P) (h : ∀ e, E e → E' e) : Meets x E' P := by
  unfold Meets at hx
  cases x with
  | ok a => exact Meets.pure hx
  | error e => exact Meets.throw (h e hx)

theorem map (g : α → β) (hx : Meets x E fun a => Q (g a)) : Meets (x.map g) E Q := by
  unfold Meets at *
  cases x <;> exact hx

/-- A computation that is known not to fail. -/
theorem total (hx : Meets x E P) (h : ∀ e, x ≠ .error e) : Meets x (fun _ => False) P := by
  cases x with
  | ok a => exact Meets.pure (by unfold Meets at hx; exact hx)
  | error e => exact absurd rfl (h e)

/-- Forget which errors there are. -/
theorem any_error (hx : Meets x E P) : Meets x (fun _ => True) P :=
  hx.mono_error fun _ _ => True.intro

/-- Of a computation whose result does not matter. -/
protected theorem trivial (x : Except ε α) : Meets x (fun _ => True) fun _ => True := by
  unfold Meets
  cases x <;> exact True.intro

/-- A computation without errors returns. -/
theorem exists_ok (hx : Meets x E P) (h : ∀ e, ¬ E e) : ∃ a, x = .ok a ∧ P a := by
  unfold Meets at hx
  cases x with
  | ok a => exact ⟨a, rfl, hx⟩
  | error e => exact absurd hx (h e)

theorem of_ok (hx : Meets x E P) (h : x = .ok a) : P a := by
  rw [h] at hx
  unfold Meets at hx
  exact hx

theorem of_error (hx : Meets x E P) (h : x = .error e) : E e := by
  rw [h] at hx
  unfold Meets at hx
  exact hx

end Meets

/-! ## Two computations -/

/-- The computations return values that are related by `R`, or both fail. -/
inductive Agree {ε ε' : Type u} {α β : Type v} (R : α → β → Prop) :
    Except ε α → Except ε' β → Prop where
  | ok {a : α} {b : β} (h : R a b) : Agree R (.ok a) (.ok b)
  | error (e : ε) (e' : ε') : Agree R (.error e) (.error e')

namespace Agree

variable {ε' : Type u} {γ δ : Type v} {R R' : α → β → Prop} {S : γ → δ → Prop} {x : Except ε α}
  {y : Except ε' β}

theorem mono (h : Agree R x y) (hR : ∀ a b, R a b → R' a b) : Agree R' x y := by
  cases h with
  | ok h => exact .ok (hR _ _ h)
  | error e e' => exact .error e e'

theorem bind {f : α → Except ε γ} {g : β → Except ε' δ} (h : Agree R x y)
    (hf : ∀ a b, x = .ok a → R a b → Agree S (f a) (g b)) : Agree S (x >>= f) (y >>= g) := by
  cases h with
  | ok h => exact hf _ _ rfl h
  | error e e' => exact .error e e'

theorem exists_ok {a : α} (h : Agree R x y) (hx : x = .ok a) : ∃ b, y = .ok b ∧ R a b := by
  subst hx
  obtain ⟨h⟩ := h
  exact ⟨_, rfl, h⟩

theorem ok_exists {b : β} (h : Agree R x y) (hy : y = .ok b) : ∃ a, x = .ok a ∧ R a b := by
  subst hy
  obtain ⟨h⟩ := h
  exact ⟨_, rfl, h⟩

end Agree

end InuOs
