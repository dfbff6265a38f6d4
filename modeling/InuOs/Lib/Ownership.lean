import Mathlib.Logic.Function.Basic

/-!
# Exclusive ownership

A pool of resources `R` (disk blocks, pages) is handed out to places `P` that each hold at most one
of them; an allocator keeps a mark for every resource in use. `Exact` says that the marks and the
places agree: every resource of the domain that a place holds is held once and marked, and nothing
else is marked. The two rules are the allocator's two moves: `Exact.alloc` and `Exact.release`.
-/

namespace InuOs

universe u v

variable {P : Type u} {R : Type v}

/-- The resources in `dom` that are marked `used` are held by exactly one place each. -/
structure Exact (dom : R → Prop) (own : P → Option R) (used : R → Bool) : Prop where
  /-- places hold resources of the domain only -/
  mem : ∀ {p r}, own p = some r → dom r
  /-- no resource is held twice -/
  inj : ∀ {p q r}, own p = some r → own q = some r → p = q
  /-- a resource is marked exactly if it is held -/
  used_iff : ∀ {r}, dom r → (used r = true ↔ ∃ p, own p = some r)

namespace Exact

variable {dom : R → Prop} {own own' : P → Option R} {used used' : R → Bool}

/-- A resource that is held is marked. -/
theorem used_of_own (h : Exact dom own used) {p : P} {r : R} (hp : own p = some r) :
    used r = true :=
  (h.used_iff (h.mem hp)).mpr ⟨p, hp⟩

/-- A resource that is not marked is not held. -/
theorem own_ne_of_not_used (h : Exact dom own used) {r : R} (hr : used r = false) (p : P) :
    own p ≠ some r := by
  intro hp
  rw [h.used_of_own hp] at hr
  cases hr

/-- Only the marks of the domain matter. -/
theorem congr (h : Exact dom own used) (hown : ∀ p, own' p = own p)
    (hused : ∀ r, dom r → used' r = used r) : Exact dom own' used' := by
  obtain rfl : own' = own := funext hown
  exact ⟨h.mem, h.inj, fun hr => by rw [hused _ hr]; exact h.used_iff hr⟩

variable [DecidableEq P] [DecidableEq R]

/-- **Allocation.** An unmarked resource goes to a place that holds none. -/
theorem alloc (h : Exact dom own used) {p : P} {r : R} (hr : dom r) (hfree : used r = false)
    (hp : own p = none) :
    Exact dom (Function.update own p (some r)) (Function.update used r true) := by
  have hnew : ∀ {q r'}, Function.update own p (some r) q = some r' →
      q = p ∧ r' = r ∨ q ≠ p ∧ own q = some r' := by
    intro q r' hq
    rcases eq_or_ne q p with rfl | hne
    · rw [Function.update_self] at hq
      exact .inl ⟨rfl, (Option.some.inj hq).symm⟩
    · rw [Function.update_of_ne hne] at hq
      exact .inr ⟨hne, hq⟩
  refine ⟨?_, ?_, ?_⟩
  · intro q r' hq
    obtain ⟨-, rfl⟩ | ⟨-, hq⟩ := hnew hq
    · exact hr
    · exact h.mem hq
  · intro q q' r' hq hq'
    obtain ⟨hqp, hr'⟩ | ⟨-, hold⟩ := hnew hq
    · obtain ⟨hqp', -⟩ | ⟨-, hold'⟩ := hnew hq'
      · rw [hqp, hqp']
      · rw [hr'] at hold'
        exact absurd hold' (h.own_ne_of_not_used hfree q')
    · obtain ⟨-, hr'⟩ | ⟨-, hold'⟩ := hnew hq'
      · rw [hr'] at hold
        exact absurd hold (h.own_ne_of_not_used hfree q)
      · exact h.inj hold hold'
  · intro r' hr'
    rcases eq_or_ne r' r with rfl | hne
    · rw [Function.update_self]
      exact ⟨fun _ => ⟨p, Function.update_self ..⟩, fun _ => rfl⟩
    · rw [Function.update_of_ne hne, h.used_iff hr']
      constructor
      · rintro ⟨q, hq⟩
        have hqp : q ≠ p := by
          rintro rfl
          rw [hp] at hq
          cases hq
        exact ⟨q, by rwa [Function.update_of_ne hqp]⟩
      · rintro ⟨q, hq⟩
        obtain ⟨-, rfl⟩ | ⟨-, hq⟩ := hnew hq
        · exact absurd rfl hne
        · exact ⟨q, hq⟩

/-- **Release.** A place gives its resource back. -/
theorem release (h : Exact dom own used) {p : P} {r : R} (hp : own p = some r) :
    Exact dom (Function.update own p none) (Function.update used r false) := by
  have hnew : ∀ {q r'}, Function.update own p none q = some r' ↔ q ≠ p ∧ own q = some r' := by
    intro q r'
    rcases eq_or_ne q p with rfl | hne
    · simp
    · simp [hne]
  refine ⟨?_, ?_, ?_⟩
  · intro q r' hq
    exact h.mem (hnew.mp hq).2
  · intro q q' r' hq hq'
    exact h.inj (hnew.mp hq).2 (hnew.mp hq').2
  · intro r' hr'
    rcases eq_or_ne r' r with rfl | hne
    · rw [Function.update_self]
      refine ⟨fun hfalse => absurd hfalse Bool.false_ne_true, ?_⟩
      rintro ⟨q, hq⟩
      exact absurd (h.inj (hnew.mp hq).2 hp) (hnew.mp hq).1
    · rw [Function.update_of_ne hne, h.used_iff hr']
      constructor
      · rintro ⟨q, hq⟩
        refine ⟨q, hnew.mpr ⟨?_, hq⟩⟩
        rintro rfl
        exact hne (Option.some.inj (hq.symm.trans hp))
      · rintro ⟨q, hq⟩
        exact ⟨q, (hnew.mp hq).2⟩

end Exact

end InuOs
