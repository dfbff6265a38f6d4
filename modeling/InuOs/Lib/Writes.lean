import Mathlib.Algebra.Order.Ring.Nat
import Mathlib.Data.List.Basic
import Mathlib.Data.List.GetD

/-!
# Writes to memory and packed structures

A program that prepares memory for another one is taken for the list of its writes, in order, and
what the other one finds is the memory after them (`applyAll`). A read sees the last write that
covers it: `applyAll_get` says so, given that the writes after it are elsewhere.

* `leBytes` and `leRead` are numbers in memory, least significant byte first.
* `offset` and `size` are those of a packed structure, given by its fields and their sizes in order.
-/

namespace InuOs

/-! ## Writes -/

/-- Bytes written to an address. -/
structure Write : Type where
  addr : ℕ
  bytes : List UInt8
  deriving DecidableEq

namespace Write

/-- The memory after a write. -/
def apply (w : Write) (m : ℕ → UInt8) : ℕ → UInt8 :=
  fun x => if w.addr ≤ x ∧ x < w.addr + w.bytes.length then w.bytes.getD (x - w.addr) 0 else m x

/-- The write does not touch the `n` bytes at `a`. -/
def Apart (w : Write) (a n : ℕ) : Prop := a + n ≤ w.addr ∨ w.addr + w.bytes.length ≤ a

/-- The write stays within the `n` bytes at `a`. -/
def Within (w : Write) (a n : ℕ) : Prop :=
  ∀ i < w.bytes.length, a ≤ w.addr + i ∧ w.addr + i < a + n

instance (w : Write) (a n : ℕ) : Decidable (w.Apart a n) := inferInstanceAs (Decidable (_ ∨ _))

instance (w : Write) (a n : ℕ) : Decidable (w.Within a n) :=
  inferInstanceAs (Decidable (∀ i < _, _))

theorem within_iff (w : Write) (a n : ℕ) :
    w.Within a n ↔ w.bytes = [] ∨ a ≤ w.addr ∧ w.addr + w.bytes.length ≤ a + n := by
  rw [Within, ← List.length_eq_zero_iff]
  constructor
  · intro h
    by_cases hlen : w.bytes.length = 0
    · exact .inl hlen
    · have hfirst := h 0 (by omega)
      have hlast := h (w.bytes.length - 1) (by omega)
      exact .inr (by omega)
  · rintro (hlen | h) i hi
    · omega
    · omega

end Write

/-- The memory after some writes. -/
def applyAll (ws : List Write) (m : ℕ → UInt8) : ℕ → UInt8 := ws.foldl (fun m w => w.apply m) m

variable {a n i : ℕ} {m : ℕ → UInt8}

theorem applyAll_of_apart {ws : List Write} {x : ℕ} (hws : ∀ w ∈ ws, w.Apart a n) (hx : a ≤ x)
    (hx' : x < a + n) (m : ℕ → UInt8) : applyAll ws m x = m x := by
  induction ws generalizing m with
  | nil => rfl
  | cons w ws ih =>
    obtain ⟨hw, hws⟩ := List.forall_mem_cons.mp hws
    have hskip : ¬(w.addr ≤ x ∧ x < w.addr + w.bytes.length) := by
      rcases hw with h | h <;> omega
    rw [applyAll, List.foldl_cons, ← applyAll, ih hws, Write.apply, if_neg hskip]

/-- **A read sees the last write that covers it.** -/
theorem applyAll_get (before : List Write) (w : Write) {after : List Write}
    (hi : i < w.bytes.length)
    (hafter : ∀ w' ∈ after, w'.Apart w.addr w.bytes.length) :
    applyAll (before ++ w :: after) m (w.addr + i) = w.bytes.getD i 0 := by
  rw [applyAll, List.foldl_append, List.foldl_cons, ← applyAll,
    applyAll_of_apart hafter (by omega) (by omega), Write.apply, if_pos (by omega),
    Nat.add_sub_cancel_left]

/-! ## Numbers in memory -/

/-- The `n` bytes of a number, least significant first. -/
def leBytes : ℕ → ℕ → List UInt8
  | 0, _ => []
  | n + 1, v => UInt8.ofNat v :: leBytes n (v / 256)

/-- The number in the `n` bytes at `a`, least significant byte first. -/
def leRead (m : ℕ → UInt8) : ℕ → ℕ → ℕ
  | _, 0 => 0
  | a, n + 1 => (m a).toNat + 256 * leRead m (a + 1) n

@[simp] theorem length_leBytes (n v : ℕ) : (leBytes n v).length = n := by
  induction n generalizing v with
  | zero => rfl
  | succ n ih => rw [leBytes, List.length_cons, ih]

/-- A shorter read of a number gives its low bytes. -/
theorem leRead_eq {k v : ℕ} (hk : k ≤ n) (h : ∀ i < k, m (a + i) = (leBytes n v).getD i 0) :
    leRead m a k = v % 256 ^ k := by
  induction k generalizing a n v with
  | zero => rw [leRead, Nat.pow_zero, Nat.mod_one]
  | succ k ih =>
    obtain ⟨n, rfl⟩ : ∃ n', n = n' + 1 := ⟨n - 1, by omega⟩
    have hfirst := h 0 (by omega)
    have hrest : ∀ i < k, m (a + 1 + i) = (leBytes n (v / 256)).getD i 0 := by
      intro i hi
      have hsucc := h (i + 1) (by omega)
      rwa [Nat.add_comm i 1, ← Nat.add_assoc, Nat.add_comm 1 i] at hsucc
    rw [Nat.add_zero] at hfirst
    have hpow : 256 ^ (k + 1) = 256 * 256 ^ k := Nat.pow_succ'
    rw [leRead, ih (by omega) hrest, hfirst, leBytes, List.getD_cons_zero, UInt8.toNat_ofNat',
      hpow, Nat.mod_mul]

/-! ## Packed structures -/

section Layout

variable {F : Type*} [DecidableEq F]

/-- The size of a packed structure, from its fields and their sizes. -/
def layoutSize (layout : List (F × ℕ)) : ℕ := (layout.map Prod.snd).sum

/-- Where a field starts. -/
def layoutOffset : List (F × ℕ) → F → ℕ
  | [], _ => 0
  | (g, n) :: layout, f => if g = f then 0 else n + layoutOffset layout f

/-- The memory image of a packed structure of numbers. -/
def packed (layout : List (F × ℕ)) (value : F → ℕ) : List UInt8 :=
  layout.flatMap fun (f, n) => leBytes n (value f)

omit [DecidableEq F] in
theorem length_packed (layout : List (F × ℕ)) (value : F → ℕ) :
    (packed layout value).length = layoutSize layout := by
  induction layout with
  | nil => rfl
  | cons p layout ih =>
    rw [packed, List.flatMap_cons, List.length_append, ← packed, ih, length_leBytes, layoutSize,
      layoutSize, List.map_cons, List.sum_cons]

theorem layoutOffset_add_le {layout : List (F × ℕ)} {f : F} (hf : (f, n) ∈ layout)
    (hnodup : (layout.map Prod.fst).Nodup) : layoutOffset layout f + n ≤ layoutSize layout := by
  induction layout with
  | nil => exact absurd hf List.not_mem_nil
  | cons p layout ih =>
    obtain ⟨hnotin, hnodup⟩ := List.nodup_cons.mp hnodup
    rw [layoutOffset, layoutSize, List.map_cons, List.sum_cons, ← layoutSize]
    rcases List.mem_cons.mp hf with rfl | hf
    · rw [if_pos rfl]
      omega
    · have hne : p.1 ≠ f := fun heq => hnotin (heq ▸ List.mem_map_of_mem hf)
      have hrest := ih hf hnodup
      rw [if_neg hne]
      omega

/-- A field of a packed structure is where its offset says. -/
theorem packed_getD {layout : List (F × ℕ)} {f : F} (hf : (f, n) ∈ layout)
    (hnodup : (layout.map Prod.fst).Nodup) (hi : i < n) (value : F → ℕ) :
    (packed layout value).getD (layoutOffset layout f + i) 0 = (leBytes n (value f)).getD i 0 := by
  induction layout with
  | nil => exact absurd hf List.not_mem_nil
  | cons p layout ih =>
    obtain ⟨hnotin, hnodup⟩ := List.nodup_cons.mp hnodup
    rw [packed, List.flatMap_cons, layoutOffset, ← packed]
    rcases List.mem_cons.mp hf with rfl | hf
    · rw [if_pos rfl, Nat.zero_add, List.getD_append _ _ _ _ (by rwa [length_leBytes])]
    · have hne : p.1 ≠ f := fun heq => hnotin (heq ▸ List.mem_map_of_mem hf)
      rw [if_neg hne, List.getD_append_right _ _ _ _ (by rw [length_leBytes]; omega),
        length_leBytes, Nat.add_assoc, Nat.add_sub_cancel_left]
      exact ih hf hnodup

end Layout

end InuOs
