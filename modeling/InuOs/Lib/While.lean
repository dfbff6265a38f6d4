import Mathlib.Data.Nat.Init
import Mathlib.Order.Basic

/-!
# While loops

`loop cond body` is the loop `while(cond) body` with a bound on its turns, and `Ends s t` says that
from `s` it comes to an end in `t`. There is one rule for each question about such a loop:

* it ends if a measure goes down (`exists_ends_of_measure`);
* it does not end where an invariant keeps the condition true (`not_ends_of_invariant`);
* a state that it passes through ends where the first one does (`Reached.ends`).
-/

namespace InuOs.While

universe u

variable {σ : Type u} (cond : σ → Prop) [DecidablePred cond] (body : σ → σ)

/-- The loop, in at most so many turns. -/
def loop : ℕ → σ → Option σ
  | 0, _ => none
  | fuel + 1, s => if cond s then loop fuel (body s) else some s

/-- From `s` the loop ends in `t`. -/
def Ends (s t : σ) : Prop := ∃ fuel, loop cond body fuel s = some t

/-- The states at the head of the loop. -/
inductive Reached (s : σ) : σ → Prop where
  | start : Reached s s
  | turn {t : σ} : Reached s t → cond t → Reached s (body t)

variable {cond body} {s t r : σ}

theorem Ends.done (h : ¬cond s) : Ends cond body s s := ⟨1, if_neg h⟩

theorem ends_body_iff (h : cond s) : Ends cond body (body s) t ↔ Ends cond body s t := by
  constructor
  · rintro ⟨fuel, hfuel⟩
    exact ⟨fuel + 1, by rw [loop, if_pos h, hfuel]⟩
  · rintro ⟨fuel, hfuel⟩
    cases fuel with
    | zero => cases hfuel
    | succ fuel =>
      rw [loop, if_pos h] at hfuel
      exact ⟨fuel, hfuel⟩

/-- The state in which the loop ends does not depend on the number of turns it is given. -/
theorem Ends.unique {t' : σ} (h : Ends cond body s t) (h' : Ends cond body s t') : t = t' := by
  obtain ⟨fuel, hfuel⟩ := h
  induction fuel generalizing s with
  | zero => cases hfuel
  | succ fuel ih =>
    rw [loop] at hfuel
    split_ifs at hfuel with hcond
    · exact ih ((ends_body_iff hcond).mpr h') hfuel
    · obtain ⟨_ | fuel', hfuel'⟩ := h'
      · cases hfuel'
      · rw [loop, if_neg hcond] at hfuel'
        exact Option.some.inj (hfuel.symm.trans hfuel')

theorem Reached.ends (h : Reached cond body s r) (ht : Ends cond body s t) :
    Ends cond body r t := by
  induction h with
  | start => exact ht
  | turn _ hcond ih => exact (ends_body_iff hcond).mpr ih

/-- **Termination.** -/
theorem exists_ends_of_measure {I : σ → Prop} (μ : σ → ℕ)
    (hbody : ∀ s, I s → cond s → I (body s) ∧ μ (body s) < μ s) (hs : I s) :
    ∃ t, Ends cond body s t := by
  induction hm : μ s using Nat.strong_induction_on generalizing s with
  | _ m ih =>
    by_cases hcond : cond s
    · obtain ⟨hnext, hlt⟩ := hbody s hs hcond
      obtain ⟨t, ht⟩ := ih _ (hm ▸ hlt) hnext rfl
      exact ⟨t, (ends_body_iff hcond).mp ht⟩
    · exact ⟨s, .done hcond⟩

/-- **Divergence.** -/
theorem not_ends_of_invariant {I : σ → Prop} (hbody : ∀ s, I s → cond s ∧ I (body s)) (hs : I s) :
    ¬Ends cond body s t := by
  rintro ⟨fuel, hfuel⟩
  induction fuel generalizing s with
  | zero => cases hfuel
  | succ fuel ih =>
    obtain ⟨hcond, hnext⟩ := hbody s hs
    rw [loop, if_pos hcond] at hfuel
    exact ih hnext hfuel

end InuOs.While
