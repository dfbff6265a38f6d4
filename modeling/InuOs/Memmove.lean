import InuOs.Lib.Memory
import Mathlib.Logic.Function.Basic

/-!
# `memmove` in the kernel and in the user library (`string.c`, `ulib.c`)

Both read the memory that they overwrite. A copy is right if no byte is read after it was
overwritten (`foldl_copyByte`), which depends on the order: the kernel turns it around if the
destination begins inside the source, the user library never does.
-/

namespace InuOs.Memory

section Copies

variable (m : Memory) (dst src : UInt32)

/-- Copy byte `i` of the range. -/
def copyByte (m : Memory) (i : ℕ) : Memory :=
  Function.update m (dst + UInt32.ofNat i) (m (src + UInt32.ofNat i))

/-- `memmove` of `string.c`. -/
def memmove (n : UInt32) : Memory :=
  if src < dst ∧ src + n > dst then (List.range n.toNat).reverse.foldl (copyByte dst src) m
  else (List.range n.toNat).foldl (copyByte dst src) m

/-- `memmove` of `ulib.c`. -/
def ulibMemmove (n : Int32) : Memory := (List.range n.toNatClampNeg).foldl (copyByte dst src) m

/-- **Copies in an order that reads no byte after it was written.** -/
theorem foldl_copyByte {l : List ℕ}
    (hl : l.Pairwise fun i j => dst + UInt32.ofNat i ≠ src + UInt32.ofNat j ∧
      dst + UInt32.ofNat i ≠ dst + UInt32.ofNat j) :
    (∀ i ∈ l, l.foldl (copyByte dst src) m (dst + UInt32.ofNat i) = m (src + UInt32.ofNat i)) ∧
      ∀ a, (∀ i ∈ l, a ≠ dst + UInt32.ofNat i) → l.foldl (copyByte dst src) m a = m a := by
  induction l generalizing m with
  | nil => exact ⟨nofun, fun a _ => rfl⟩
  | cons i l ih =>
    obtain ⟨hi, hl⟩ := List.pairwise_cons.mp hl
    obtain ⟨hcopied, hkept⟩ := ih (copyByte dst src m i) hl
    refine ⟨List.forall_mem_cons.mpr ⟨?_, fun j hj => ?_⟩, fun a ha => ?_⟩
    · rw [List.foldl_cons, hkept _ fun j hj => (hi j hj).2]
      exact Function.update_self ..
    · rw [List.foldl_cons, hcopied j hj]
      exact Function.update_of_ne (hi j hj).1.symm ..
    · rw [List.foldl_cons, hkept a fun j hj => ha j (List.mem_cons_of_mem i hj)]
      exact Function.update_of_ne (ha i List.mem_cons_self) ..

theorem offset_ne {a b : UInt32} {i j : ℕ} (ha : a.toNat + i < 2 ^ 32) (hb : b.toNat + j < 2 ^ 32)
    (h : a.toNat + i ≠ b.toNat + j) : a + UInt32.ofNat i ≠ b + UInt32.ofNat j := by
  rw [Ne, ← UInt32.toNat_inj, UInt32.toNat_add, UInt32.toNat_add, UInt32.toNat_ofNat',
    UInt32.toNat_ofNat']
  omega

end Copies

/-- **The kernel's `memmove`** leaves the old bytes of the source at the destination and every other
byte as it was, however the ranges overlap. -/
theorem memmove_moves (m : Memory) (dst src n : UInt32) (hsrc : src.toNat + n.toNat ≤ 2 ^ 32)
    (hdst : dst.toNat + n.toNat ≤ 2 ^ 32) :
    (∀ i < n.toNat, m.memmove dst src n (dst + UInt32.ofNat i) = m (src + UInt32.ofNat i)) ∧
      ∀ a, (∀ i < n.toNat, a ≠ dst + UInt32.ofNat i) → m.memmove dst src n a = m a := by
  unfold memmove
  split
  · next h =>
    have hlt := UInt32.lt_iff_toNat_lt.mp h.1
    have hmoved := foldl_copyByte m dst src <| List.pairwise_reverse.mpr <|
      (List.pairwise_lt_range (n := n.toNat)).imp_of_mem fun hi hj hij => by
        rw [List.mem_range] at hi hj
        exact ⟨offset_ne (by omega) (by omega) (by omega),
          offset_ne (by omega) (by omega) (by omega)⟩
    simpa only [List.mem_reverse, List.mem_range] using hmoved
  · next h =>
    have hmoved := foldl_copyByte m dst src <|
      (List.pairwise_lt_range (n := n.toNat)).imp_of_mem fun hi hj hij => by
        rw [List.mem_range] at hi hj
        -- if `src + n` wraps around to 0, the destination is not above the source
        rw [gt_iff_lt, UInt32.lt_iff_toNat_lt, UInt32.lt_iff_toNat_lt, UInt32.toNat_add] at h
        exact ⟨offset_ne (by omega) (by omega) (by omega),
          offset_ne (by omega) (by omega) (by omega)⟩
    simpa only [List.mem_range] using hmoved

/-- A move up by two bytes, of a range that ends at the last address. -/
theorem memmove_moves_last :
    (memmove (fun a => a.toUInt8) 0xFFFFFFFC 0xFFFFFFFA 4 (0xFFFFFFFC + UInt32.ofNat 3)) = 0xFD :=
  (memmove_moves _ 0xFFFFFFFC 0xFFFFFFFA 4 (by decide) (by decide)).1 3 (by decide)

/-- Copied upwards, a run of zeros in front of the destination spreads over the whole of it: each
byte that is read has been overwritten with 0 before. -/
theorem foldl_copyByte_zero {m : Memory} {dst src : UInt32} (hlt : src < dst)
    (hm : ∀ a, src ≤ a → a < dst → m a = 0) {n : ℕ} (hn : dst.toNat + n ≤ 2 ^ 32) {a : UInt32}
    (hsrc : src ≤ a) (ha : a.toNat < dst.toNat + n) :
    (List.range n).foldl (copyByte dst src) m a = 0 := by
  induction n generalizing a with
  | zero => exact hm a hsrc (UInt32.lt_iff_toNat_lt.mpr ha)
  | succ n ih =>
    rw [UInt32.lt_iff_toNat_lt] at hlt
    rw [List.range_succ, List.foldl_append, List.foldl_cons, List.foldl_nil, copyByte]
    rcases eq_or_ne a (dst + UInt32.ofNat n) with rfl | hne
    · have hread : (src + UInt32.ofNat n).toNat = src.toNat + n := by
        rw [UInt32.toNat_add, UInt32.toNat_ofNat']
        omega
      rw [Function.update_self]
      exact ih (by omega) (UInt32.le_iff_toNat_le.mpr (by omega)) (by omega)
    · rw [Function.update_of_ne hne]
      rw [Ne, ← UInt32.toNat_inj, UInt32.toNat_add, UInt32.toNat_ofNat'] at hne
      exact ih (by omega) hsrc (by omega)

/-- **The user library's `memmove` agrees** with the kernel's on every memory exactly if the
destination does not begin inside the source. -/
theorem ulibMemmove_eq_iff (dst src : UInt32) (n : Int32) (hn : 0 ≤ n)
    (hsrc : src.toNat + n.toNatClampNeg ≤ 2 ^ 32) (hdst : dst.toNat + n.toNatClampNeg ≤ 2 ^ 32) :
    (∀ m : Memory, m.ulibMemmove dst src n = m.memmove dst src n.toUInt32) ↔
      dst ≤ src ∨ src.toNat + n.toNatClampNeg ≤ dst.toNat := by
  have hlen := Int32.toNat_toUInt32_of_le hn
  rw [UInt32.le_iff_toNat_le]
  constructor
  · intro h
    by_contra hinside
    -- zeros in front of the destination and ones from there on: the byte at `dst` is copied by the
    -- kernel only
    let m : Memory := fun a => if a < dst then 0 else 1
    let d : ℕ := dst.toNat - src.toNat
    have hread : src + UInt32.ofNat d = dst := by
      rw [← UInt32.toNat_inj, UInt32.toNat_add, UInt32.toNat_ofNat']
      omega
    have hwrite : (dst + UInt32.ofNat d).toNat = dst.toNat + d := by
      rw [UInt32.toNat_add, UInt32.toNat_ofNat']
      omega
    have hkernel : m.memmove dst src n.toUInt32 (dst + UInt32.ofNat d) = 1 := by
      rw [(memmove_moves m dst src n.toUInt32 (by omega) (by omega)).1 d (by omega), hread]
      exact if_neg (UInt32.lt_irrefl dst)
    have hulib : m.ulibMemmove dst src n (dst + UInt32.ofNat d) = 0 :=
      foldl_copyByte_zero (UInt32.lt_iff_toNat_lt.mpr (by omega)) (fun a _ ha => if_pos ha) hdst
        (UInt32.le_iff_toNat_le.mpr (by omega)) (by omega)
    rw [h m, hkernel] at hulib
    exact absurd hulib (by decide)
  · intro hapart m
    have hforward : ¬ (src < dst ∧ src + n.toUInt32 > dst) := by
      rw [gt_iff_lt, UInt32.lt_iff_toNat_lt, UInt32.lt_iff_toNat_lt, UInt32.toNat_add, hlen]
      omega
    rw [memmove, if_neg hforward, hlen]
    rfl

/-- Moving down by one byte, the ranges overlap and both are right. -/
theorem ulibMemmove_eq_down :
    ulibMemmove (fun a => a.toUInt8) 0 1 2 = memmove (fun a => a.toUInt8) 0 1 2 :=
  (ulibMemmove_eq_iff 0 1 2 (by decide) (by decide) (by decide)).mpr (by decide) _

/-- Moving two bytes up by one: the user library reads the second one after it overwrote it. -/
theorem ulibMemmove_ne :
    ulibMemmove (fun a => a.toUInt8) 1 0 2 2 = 0 ∧ memmove (fun a => a.toUInt8) 1 0 2 2 = 1 := by
  decide

end InuOs.Memory
