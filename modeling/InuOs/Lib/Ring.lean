import Mathlib.Data.Nat.ModEq

/-!
# Ring buffers with free-running counters

A queue of at most `c` elements lives in an array of `c` cells. Two counters, modulo `M`, say how
many elements were taken out and put in; they are not reduced to the size of the array, so that the
full and the empty buffer can be told apart. This works for every `M` that is a multiple of `c` and
greater than it: then a counter that wraps still points to the next cell.
-/

namespace InuOs.Ring

universe u

variable {α : Type u} {c M r w : ℕ} [NeZero c] {data : Fin c → α} {q : List α} {a : α}

/-- The array holds the queue `q`, with `r` elements taken out and `w` put in. -/
structure Holds (data : Fin c → α) (M r w : ℕ) (q : List α) : Prop where
  length_le : q.length ≤ c
  counter : w = (r + q.length) % M
  cell : ∀ k (h : k < q.length), data (Fin.ofNat c (r + k)) = q[k]

/-- Counters that wrap point to the same cells. -/
theorem ofNat_mod (hdvd : c ∣ M) (x y : ℕ) :
    Fin.ofNat c (x % M + y) = Fin.ofNat c (x + y) := by
  apply Fin.ext
  have hmod : x % M % c = x % c := Nat.mod_mod_of_dvd x hdvd
  rw [Fin.val_ofNat, Fin.val_ofNat, Nat.add_mod, hmod, ← Nat.add_mod]

/-- Less than a whole turn does not come back to the same counter. -/
theorem mod_inj {x k l : ℕ} (hk : k < M) (hl : l < M) (h : (x + k) % M = (x + l) % M) : k = l :=
  (Nat.ModEq.add_left_cancel' x h).eq_of_lt_of_lt hk hl

namespace Holds

theorem nil (hr : r < M) : Holds data M r r [] :=
  ⟨Nat.zero_le c, (Nat.mod_eq_of_lt hr).symm, nofun⟩

theorem counter_eq_iff (h : Holds data M r w q) (hlt : c < M) (hr : r < M) : r = w ↔ q = [] := by
  constructor
  · intro heq
    have hlen : q.length = 0 := by
      refine mod_inj (lt_of_le_of_lt h.length_le hlt) (by omega) (x := r) ?_
      rw [← h.counter, ← heq, Nat.add_zero, Nat.mod_eq_of_lt hr]
    exact List.length_eq_zero_iff.mp hlen
  · rintro rfl
    rw [h.counter, List.length_nil, Nat.add_zero, Nat.mod_eq_of_lt hr]

theorem full_iff (h : Holds data M r w q) (hlt : c < M) : w = (r + c) % M ↔ q.length = c := by
  rw [h.counter]
  constructor
  · exact mod_inj (lt_of_le_of_lt h.length_le hlt) hlt
  · intro hlen
    rw [hlen]

/-- Put an element in. -/
theorem push (h : Holds data M r w q) (hdvd : c ∣ M) (hlen : q.length < c) (a : α) :
    Holds (Function.update data (Fin.ofNat c w) a) M r ((w + 1) % M) (q ++ [a]) := by
  have hcell : Fin.ofNat c w = Fin.ofNat c (r + q.length) := by
    rw [h.counter]
    exact ofNat_mod hdvd (r + q.length) 0
  refine ⟨?_, ?_, fun k hk => ?_⟩
  · rw [List.length_append, List.length_singleton]
    exact hlen
  · rw [h.counter, Nat.mod_add_mod, List.length_append, List.length_singleton, Nat.add_assoc]
  · rw [List.length_append, List.length_singleton] at hk
    rcases Nat.lt_succ_iff_lt_or_eq.mp hk with hlt | rfl
    · have hne : Fin.ofNat c (r + k) ≠ Fin.ofNat c (r + q.length) := by
        intro heq
        have hmod := congrArg Fin.val heq
        have := mod_inj (by omega) hlen hmod
        omega
      rw [hcell, Function.update_of_ne hne, h.cell k hlt, List.getElem_append_left hlt]
    · rw [hcell, Function.update_self, List.getElem_concat_length rfl]

/-- Take an element out. -/
theorem pop (h : Holds data M r w (a :: q)) (hdvd : c ∣ M) :
    data (Fin.ofNat c r) = a ∧ Holds data M ((r + 1) % M) w q := by
  refine ⟨h.cell 0 (Nat.succ_pos _), ?_, ?_, fun k hk => ?_⟩
  · exact Nat.le_of_succ_le h.length_le
  · rw [h.counter, Nat.mod_add_mod, List.length_cons, Nat.add_assoc, Nat.add_comm 1]
  · rw [ofNat_mod hdvd, Nat.add_assoc, Nat.add_comm 1]
    exact h.cell (k + 1) (Nat.succ_lt_succ hk)

/-- The array holds the first part of its queue, up to a counter in between. -/
theorem left {l : List α} (h : Holds data M r w (q ++ l)) {m : ℕ} (hm : m = (r + q.length) % M) :
    Holds data M r m q := by
  refine ⟨?_, hm, fun k hk => ?_⟩
  · have hlen := h.length_le
    rw [List.length_append] at hlen
    omega
  · have hcell := h.cell k (by rw [List.length_append]; omega)
    rwa [List.getElem_append_left hk] at hcell

/-- Take back the element that was put in last. -/
theorem unpush (h : Holds data M r w (q ++ [a])) (hdvd : c ∣ M) (hlt : c < M) :
    data (Fin.ofNat c ((w + (M - 1)) % M)) = a ∧ Holds data M r ((w + (M - 1)) % M) q := by
  have hcounter : (w + (M - 1)) % M = (r + q.length) % M := by
    have hsum : r + (q ++ [a]).length + (M - 1) = r + q.length + M := by
      rw [List.length_append, List.length_singleton]
      omega
    rw [h.counter, Nat.mod_add_mod, hsum, Nat.add_mod_right]
  refine ⟨?_, h.left hcounter⟩
  have hlast := h.cell q.length (by simp)
  rw [List.getElem_concat_length rfl] at hlast
  rw [hcounter, ← hlast]
  exact congrArg data (ofNat_mod hdvd (r + q.length) 0)

/-- The counters are as far apart as the queue is long. -/
theorem sub_mod (h : Holds data M r w q) (hlt : c < M) (hr : r < M) :
    (M - r + w) % M = q.length := by
  have hsum : M - r + (r + q.length) = M + q.length := by omega
  rw [h.counter, Nat.add_mod_mod, hsum, Nat.add_mod_left,
    Nat.mod_eq_of_lt (lt_of_le_of_lt h.length_le hlt)]

end Holds

end InuOs.Ring
