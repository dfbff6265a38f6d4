import Mathlib.Data.List.Basic

/-!
# Computations and the addresses they read

`Reading A` is the monad of computations that read a memory with addresses `A`. Its state is the
list of the addresses read so far, so that a bound on all accesses can be stated and proved next to
the result: `Within P m Q`, with one rule for each way to build a computation.
-/

namespace InuOs

/-- Computations that note the addresses they read, the last one first. -/
abbrev Reading (A : Type) : Type → Type := StateM (List A)

namespace Reading

variable {A B α β : Type}

/-- What is at address `a` of `mem`. -/
def read (mem : A → B) (a : A) : Reading A B := fun log => (mem a, a :: log)

/-- The computation reads only at addresses with `P`, and its result has `Q`. -/
def Within (P : A → Prop) (m : Reading A α) (Q : α → Prop) : Prop :=
  ∀ log, (∀ a ∈ log, P a) → Q (m.run log).1 ∧ ∀ a ∈ (m.run log).2, P a

namespace Within

variable {P : A → Prop} {Q Q' : α → Prop} {R : β → Prop}

theorem pure {a : α} (h : Q a) : Within P (Pure.pure a) Q := fun _ hlog => ⟨h, hlog⟩

/-- A read in front. -/
theorem read_bind {mem : A → α} {a : A} {f : α → Reading A β} (ha : P a)
    (hf : Within P (f (mem a)) R) : Within P (read mem a >>= f) R :=
  fun log hlog => hf (a :: log) (List.forall_mem_cons.mpr ⟨ha, hlog⟩)

theorem bind {m : Reading A α} {f : α → Reading A β} (hm : Within P m Q)
    (hf : ∀ a, Q a → Within P (f a) R) : Within P (m >>= f) R := by
  intro log hlog
  obtain ⟨hq, hlog'⟩ := hm log hlog
  exact hf _ hq _ hlog'

theorem mono {m : Reading A α} (hm : Within P m Q) (h : ∀ a, Q a → Q' a) : Within P m Q' := by
  intro log hlog
  obtain ⟨hq, hlog'⟩ := hm log hlog
  exact ⟨h _ hq, hlog'⟩

end Within

end Reading

end InuOs
