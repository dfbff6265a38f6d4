import Mathlib.Algebra.BigOperators.Group.Finset.Piecewise

/-!
# Tallies

A tally adds up what the entries of a table contribute, in any commutative monoid: a number of
places, or the multiset of what they hold. Changing one entry changes one contribution.
-/

namespace InuOs

universe u v w

variable {ι : Type u} {α : Type v} {M : Type w} [DecidableEq ι] [AddCommMonoid M]

/-- The tally of a table with one entry changed. -/
theorem sum_update {s : Finset ι} (g : α → M) (f : ι → α) {i : ι} (hi : i ∈ s) (x : α) :
    ∑ k ∈ s, g (Function.update f i x k) + g (f i) = ∑ k ∈ s, g (f k) + g x := by
  have hrest : ∑ k ∈ s.erase i, g (Function.update f i x k) = ∑ k ∈ s.erase i, g (f k) :=
    Finset.sum_congr rfl fun k hk => by rw [Function.update_of_ne (Finset.ne_of_mem_erase hk)]
  rw [← Finset.add_sum_erase s _ hi, ← Finset.add_sum_erase s (fun k => g (f k)) hi, hrest,
    Function.update_self]
  ac_rfl

/-- Entries outside of the tally do not count. -/
theorem sum_update_of_notMem {s : Finset ι} (g : α → M) (f : ι → α) {i : ι} (hi : i ∉ s) (x : α) :
    ∑ k ∈ s, g (Function.update f i x k) = ∑ k ∈ s, g (f k) := by
  refine Finset.sum_congr rfl fun k hk => ?_
  have hne : k ≠ i := by
    rintro rfl
    exact hi hk
  rw [Function.update_of_ne hne]

end InuOs
