import Mathlib.Data.List.Basic

/-!
# Crash points and restartable recovery

A store is a map from addresses to blocks, and the only way to change it is an atomic write of one
block. A program is seen through the list of writes it issues, so a **crash point** is a prefix of
that list: the writes before it have reached the store and nothing else has.

* `play ws d` — the store after the writes `ws`, oldest first.
* `Throughout C ws d` — `C` holds at every crash point of `ws` started on `d`, including before the
  first write and after the last. It composes along `++` (`throughout_append`).
* `Restarts rec d d'` — recovery started on `d` eventually finishes with `d'`, having been cut
  short and restarted any number of times.

The one rule recovery proofs need is `Restarts.ends`: a condition that survives every crash point
of one recovery attempt, and from which an uninterrupted attempt establishes `Q`, gives `Q`
whatever the number of attempts.
-/

namespace InuOs.Crash

universe u v

variable {A : Type u} {B : Type v} [DecidableEq A]

/-! ## Playing a list of writes -/

/-- The store after a list of writes, oldest first. -/
def play : List (A × B) → (A → B) → (A → B)
  | [], d => d
  | w :: ws, d => play ws (Function.update d w.1 w.2)

@[simp] theorem play_nil (d : A → B) : play [] d = d := rfl

@[simp] theorem play_cons (w : A × B) (ws : List (A × B)) (d : A → B) :
    play (w :: ws) d = play ws (Function.update d w.1 w.2) := rfl

theorem play_append (ws vs : List (A × B)) (d : A → B) :
    play (ws ++ vs) d = play vs (play ws d) := by
  induction ws generalizing d with
  | nil => rfl
  | cons w ws ih => exact ih _

/-- The last write issued is the last one played. -/
theorem play_concat (ws : List (A × B)) (w : A × B) (d : A → B) :
    play (ws ++ [w]) d = Function.update (play ws d) w.1 w.2 := by
  rw [play_append]
  rfl

/-- Playing writes acts on each address by itself. -/
theorem play_congr_at {ws : List (A × B)} {d e : A → B} {a : A} (h : d a = e a) :
    play ws d a = play ws e a := by
  induction ws generalizing d e with
  | nil => exact h
  | cons w ws ih =>
    apply ih
    by_cases ha : a = w.1
    · rw [ha, Function.update_self, Function.update_self]
    · rw [Function.update_of_ne ha, Function.update_of_ne ha, h]

/-- A block that is not written keeps its content. -/
theorem play_of_not_mem {ws : List (A × B)} {d : A → B} {a : A} (h : ∀ w ∈ ws, w.1 ≠ a) :
    play ws d a = d a := by
  induction ws generalizing d with
  | nil => rfl
  | cons w ws ih =>
    rw [play_cons, ih fun v hv => h v (List.mem_cons_of_mem _ hv),
      Function.update_of_ne (Ne.symm (h w (List.mem_cons_self ..)))]

/-- Stores that differ only where `ws` writes are equal after it. -/
theorem play_eq_of_covers {ws : List (A × B)} {d e : A → B}
    (h : ∀ a, (∀ w ∈ ws, w.1 ≠ a) → d a = e a) : play ws d = play ws e := by
  induction ws generalizing d e with
  | nil => exact funext fun a => h a fun w hw => absurd hw List.not_mem_nil
  | cons w ws ih =>
    apply ih
    intro a hnot
    by_cases ha : a = w.1
    · rw [ha, Function.update_self, Function.update_self]
    · rw [Function.update_of_ne ha, Function.update_of_ne ha]
      apply h
      intro v hv
      rcases List.mem_cons.mp hv with rfl | hv
      · exact Ne.symm ha
      · exact hnot v hv

/-! ## Conditions at every crash point -/

/-- `C` holds of the store before the first write, between any two writes, and after the last. -/
def Throughout (C : (A → B) → Prop) : List (A × B) → (A → B) → Prop
  | [], d => C d
  | w :: ws, d => C d ∧ Throughout C ws (Function.update d w.1 w.2)

variable {C C' : (A → B) → Prop} {ws vs : List (A × B)} {d d' : A → B}

@[simp] theorem throughout_cons {w : A × B} :
    Throughout C (w :: ws) d ↔ C d ∧ Throughout C ws (Function.update d w.1 w.2) := Iff.rfl

theorem Throughout.start (h : Throughout C ws d) : C d := by
  cases ws with
  | nil => exact h
  | cons w ws => exact h.1

theorem throughout_append :
    Throughout C (ws ++ vs) d ↔ Throughout C ws d ∧ Throughout C vs (play ws d) := by
  induction ws generalizing d with
  | nil =>
    constructor
    · intro h
      exact ⟨h.start, h⟩
    · exact fun h => h.2
  | cons w ws ih =>
    simp only [List.cons_append, throughout_cons, play_cons, ih, and_assoc]

theorem Throughout.finish (h : Throughout C ws d) : C (play ws d) := by
  rw [← List.append_nil ws, throughout_append] at h
  exact h.2

theorem Throughout.mono (h : Throughout C ws d) (hC : ∀ e, C e → C' e) :
    Throughout C' ws d := by
  induction ws generalizing d with
  | nil => exact hC d h
  | cons w ws ih => exact ⟨hC d h.1, ih h.2⟩

/-- A crash point of `ws` is a prefix of it. -/
theorem Throughout.crash (h : Throughout C ws d) (hp : vs <+: ws) : C (play vs d) := by
  obtain ⟨rest, rfl⟩ := hp
  exact (throughout_append.mp h).1.finish

omit [DecidableEq A] in
/-- A crash point of `ws ++ vs` is one of `ws`, or all of `ws` and one of `vs`. -/
theorem crash_append {us : List (A × B)} (h : us <+: ws ++ vs) :
    us <+: ws ∨ ∃ us', us = ws ++ us' ∧ us' <+: vs := by
  rcases List.prefix_or_prefix_of_prefix h (List.prefix_append ws vs) with hus | ⟨us', rfl⟩
  · exact .inl hus
  · exact .inr ⟨us', rfl, (List.prefix_append_right_inj ws).mp h⟩

/-! ## Restartable recovery -/

/-- Recovery, whose writes on a store `d` are `recover d`, started on `d` ends with `d'` after any
number of attempts that crashed part of the way and were restarted. -/
inductive Restarts (recover : (A → B) → List (A × B)) : (A → B) → (A → B) → Prop
  /-- this attempt ran to its end -/
  | finish (d : A → B) : Restarts recover d (play (recover d) d)
  /-- this attempt crashed after the writes `ws`, and recovery was restarted -/
  | crash {d d' : A → B} {ws : List (A × B)} :
      ws <+: recover d → Restarts recover (play ws d) d' → Restarts recover d d'

/-- **The recovery rule**: what survives every crash point of an attempt is still there when the
last attempt starts. -/
theorem Restarts.ends {recover : (A → B) → List (A × B)} {Q : (A → B) → Prop}
    (hC : ∀ e, C e → Throughout C (recover e) e) (hQ : ∀ e, C e → Q (play (recover e) e))
    (h : Restarts recover d d') (hd : C d) : Q d' := by
  induction h with
  | finish e => exact hQ e hd
  | crash hp _ ih => exact ih ((hC _ hd).crash hp)

end InuOs.Crash
