import Mathlib.Logic.Function.Basic

/-!
# Locks and program counters

Threads `T` are at program counters `pc : T → P`. For each lock, `holds` says at which points of the
program a thread has it, and `owner` is what the lock itself says. The two agree as long as every
step treats the lock in one of the ways of `Turn`, or passes it on to another thread
(`Guards.pass`). A thread at such a point is then the only one (`Guards.unique`).
-/

namespace InuOs.Lock

universe u v

variable {T : Type u} {P : Type v} [DecidableEq T] {holds : P → Prop} {pc pc' : T → P}
  {owner owner' : Option T} {t u : T} {b : P}

/-- Whoever is at a point that needs the lock has it. -/
def Guards (holds : P → Prop) (pc : T → P) (owner : Option T) : Prop :=
  ∀ t, holds (pc t) → owner = some t

/-- What a step of thread `t` may do with a lock; `before` and `after` say whether it is to have the
lock. -/
inductive Turn (t : T) (before after : Prop) : Option T → Option T → Prop where
  | keep (owner : Option T) (h : after → before) : Turn t before after owner owner
  | acquire : Turn t before after none (some t)
  | release (owner : Option T) (h : before) (h' : ¬ after) : Turn t before after owner none

namespace Guards

omit [DecidableEq T] in
theorem unique (h : Guards holds pc owner) (ht : holds (pc t)) (hu : holds (pc u)) : t = u :=
  Option.some.inj ((h t ht).symm.trans (h u hu))

omit [DecidableEq T] in
/-- Nobody needs a lock that is free. -/
theorem not_holds (h : Guards holds pc none) (t : T) : ¬ holds (pc t) := fun ht => nomatch h t ht

theorem turn (h : Guards holds pc owner) (hpc : pc' = Function.update pc t b)
    (hturn : Turn t (holds (pc t)) (holds b) owner owner') : Guards holds pc' owner' := by
  subst hpc
  intro u hu
  rcases eq_or_ne u t with rfl | hne
  · rw [Function.update_self] at hu
    cases hturn with
    | keep _ hkeep => exact h u (hkeep hu)
    | acquire => rfl
    | release _ _ hout => exact absurd hu hout
  · rw [Function.update_of_ne hne] at hu
    cases hturn with
    | keep _ _ => exact h u hu
    | acquire => exact absurd hu (h.not_holds u)
    | release _ hin _ => exact absurd (h.unique hu hin) hne

/-- Thread `t` passes the lock on to thread `u`. -/
theorem pass (h : Guards holds pc owner) {a : P} (ht : holds (pc t)) (ha : ¬ holds a)
    (hpc : pc' = Function.update (Function.update pc t a) u b) : Guards holds pc' (some u) := by
  have hfree := h.turn rfl (.release owner ht ha)
  exact hfree.turn hpc .acquire

/-- Two threads change that neither have the lock nor get it. -/
theorem skip (h : Guards holds pc owner) {a : P} (ha : ¬ holds a) (hb : ¬ holds b)
    (hpc : pc' = Function.update (Function.update pc t a) u b) : Guards holds pc' owner := by
  have hfirst := h.turn (t := t) rfl (.keep owner fun hat => absurd hat ha)
  exact hfirst.turn hpc (.keep owner fun hbu => absurd hbu hb)

end Guards

end InuOs.Lock
