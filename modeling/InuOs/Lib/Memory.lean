import Mathlib.Data.List.GetD
import Mathlib.Data.UInt

/-!
# Byte-addressed memory

A 32-bit address space of bytes. `store` is the effect of copying a list of bytes to an address
(`memmove`, whatever the overlap with its source), `fetch` reads a number of bytes back; addresses
wrap around. What a store does to an unrelated read is said by `fetch_store_iff`: the read is
unchanged exactly when the bytes it shares with the store are.
-/

namespace InuOs

/-- The content of every address. -/
abbrev Memory : Type := UInt32 → UInt8

variable {a : UInt32} {j n : ℕ} {m : Memory} {bs : List UInt8}

namespace Memory

/-- Copy the bytes `bs` to address `a`. -/
def store (m : Memory) (a : UInt32) (bs : List UInt8) : Memory :=
  fun x => (bs[(x - a).toNat]?).getD (m x)

/-- The `n` bytes at address `a`. -/
def fetch (m : Memory) (a : UInt32) (n : ℕ) : List UInt8 :=
  (List.range n).map fun i => m (a + UInt32.ofNat i)

/-- Where the `n` bytes at `c` meet the store of `bs` at `a`, they already hold what is stored. -/
def Agrees (m : Memory) (a : UInt32) (bs : List UInt8) (c : UInt32) (n : ℕ) : Prop :=
  ∀ i < n, ∀ j b, bs[j]? = some b → c + UInt32.ofNat i = a + UInt32.ofNat j →
    m (c + UInt32.ofNat i) = b

@[simp] theorem length_fetch (m : Memory) (a : UInt32) (n : ℕ) : (m.fetch a n).length = n := by
  simp [fetch]

/-- The offset of an address from its base. -/
theorem toNat_add_sub_self (h : j < 2 ^ 32) : (a + UInt32.ofNat j - a).toNat = j := by
  rw [UInt32.add_comm, UInt32.add_sub_cancel, UInt32.toNat_ofNat']
  exact Nat.mod_eq_of_lt h

theorem store_add (h : j < 2 ^ 32) :
    m.store a bs (a + UInt32.ofNat j) = (bs[j]?).getD (m (a + UInt32.ofNat j)) := by
  rw [store, toNat_add_sub_self h]

/-- A store goes byte by byte. -/
theorem store_cons {b : UInt8} (h : bs.length < 2 ^ 32) :
    m.store a (b :: bs) = store (Function.update m a b) (a + 1) bs := by
  funext x
  have hx := x.toNat_lt
  have ha := a.toNat_lt
  have hone : (1 : UInt32).toNat = 1 := rfl
  have hadd := UInt32.toNat_add a 1
  have hsub := UInt32.toNat_sub x a
  have hsub' := UInt32.toNat_sub x (a + 1)
  by_cases hxa : x = a
  · -- the rest ends before it would come around to the first byte
    have hfirst : (x - a).toNat = 0 := by
      rw [hxa]
      simp
    have hlast : (x - (a + 1)).toNat = 2 ^ 32 - 1 := by
      omega
    have hend : bs[2 ^ 32 - 1]? = none := List.getElem?_eq_none (by omega)
    rw [store, store, hfirst, hlast, hend, hxa, Function.update_self]
    rfl
  · have hne : x.toNat ≠ a.toNat := fun h => hxa (UInt32.toNat_inj.mp h)
    have hnext : (x - a).toNat = (x - (a + 1)).toNat + 1 := by omega
    rw [store, store, hnext, Function.update_of_ne hxa]
    rfl

/-- Reading a part of what was just stored. -/
theorem fetch_store_self (hn : n ≤ bs.length) (hbs : bs.length ≤ 2 ^ 32) :
    (m.store a bs).fetch a n = bs.take n := by
  apply List.ext_getElem
  · simp [hn]
  · intro i hi _
    rw [length_fetch] at hi
    simp only [fetch, List.getElem_map, List.getElem_range, List.getElem_take]
    rw [store_add (by omega), List.getElem?_eq_getElem (by omega), Option.getD_some]

/-- A store leaves a read alone exactly when it agrees with the bytes read. -/
theorem fetch_store_iff {c : UInt32} (hbs : bs.length ≤ 2 ^ 32) :
    (m.store a bs).fetch c n = m.fetch c n ↔ m.Agrees a bs c n := by
  have hpoint : (m.store a bs).fetch c n = m.fetch c n ↔
      ∀ i < n, m.store a bs (c + UInt32.ofNat i) = m (c + UInt32.ofNat i) := by
    simp [fetch, List.map_inj_left]
  rw [hpoint]
  refine forall₂_congr fun i _ => ⟨fun h j b hj haddr => ?_, fun h => ?_⟩
  · have hlt : j < bs.length := (List.getElem?_eq_some_iff.mp hj).1
    rw [← h, haddr, store_add (by omega), hj, Option.getD_some]
  · -- the address is `a` plus its offset, whether or not the store reaches it
    have hoff : a + UInt32.ofNat (c + UInt32.ofNat i - a).toNat = c + UInt32.ofNat i := by
      rw [UInt32.ofNat_toNat, UInt32.add_comm, UInt32.sub_add_cancel]
    rw [store]
    rcases hget : bs[(c + UInt32.ofNat i - a).toNat]? with _ | b
    · rfl
    · exact (h _ b hget hoff.symm).symm

end Memory

end InuOs
