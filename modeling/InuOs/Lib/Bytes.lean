import Mathlib.Data.Fin.Basic
import Mathlib.Data.Nat.Bitwise
import Mathlib.Tactic.Linarith

/-!
# Byte arrays with little-endian words

The memory of an `x86` structure: an array of bytes through which 32-bit words are read and
written, least significant byte first. `getWord`/`setWord` address the array as an array of words;
the two laws that proofs use are `getWord_setWord_self` and `getWord_setWord_ne`.
-/

namespace InuOs

/-- An array of `n` bytes. -/
abbrev Bytes (n : ℕ) : Type := Fin n → UInt8

/-! ## A word as four bytes -/

/-- Byte `k` of a word, counted from the least significant one. -/
def wordByte (w : UInt32) (k : ℕ) : UInt8 := UInt8.ofNat (w.toNat / 256 ^ k)

/-- The word whose bytes are `b₀ b₁ b₂ b₃`, least significant first. -/
def wordOf (b₀ b₁ b₂ b₃ : UInt8) : UInt32 :=
  UInt32.ofNat (b₀.toNat + 256 * b₁.toNat + 65536 * b₂.toNat + 16777216 * b₃.toNat)

theorem wordOf_toNat (b₀ b₁ b₂ b₃ : UInt8) :
    (wordOf b₀ b₁ b₂ b₃).toNat =
      b₀.toNat + 256 * b₁.toNat + 65536 * b₂.toNat + 16777216 * b₃.toNat := by
  have h₀ := b₀.toNat_lt
  have h₁ := b₁.toNat_lt
  have h₂ := b₂.toNat_lt
  have h₃ := b₃.toNat_lt
  exact Nat.mod_eq_of_lt (by omega)

@[simp] theorem wordOf_wordByte (w : UInt32) :
    wordOf (wordByte w 0) (wordByte w 1) (wordByte w 2) (wordByte w 3) = w := by
  have hw := w.toNat_lt
  apply UInt32.toNat_inj.mp
  rw [wordOf_toNat]
  simp only [wordByte, UInt8.toNat_ofNat']
  omega

/-! ## Masks -/

/-- Masking out `w` bits. -/
theorem land_shiftLeft_mask (v w k : ℕ) :
    v &&& ((2 ^ w - 1) <<< k) = v / 2 ^ k % 2 ^ w * 2 ^ k := by
  rw [← Nat.and_two_pow_sub_one_eq_mod, ← Nat.shiftRight_eq_div_pow, ← Nat.shiftLeft_eq]
  apply Nat.eq_of_testBit_eq
  intro i
  simp only [Nat.testBit_and, Nat.testBit_shiftLeft, Nat.testBit_shiftRight]
  by_cases hi : k ≤ i
  · simp [hi, Nat.add_sub_cancel' hi]
  · simp [hi]

/-! ## Bits of a byte -/

variable {k j i : ℕ} {w : UInt32}

/-- `1 << k` in a byte. -/
theorem toNat_one_shiftLeft (hk : k < 8) : ((1 : UInt8) <<< UInt8.ofNat k).toNat = 2 ^ k := by
  have hpow : 2 ^ k < 2 ^ 8 := Nat.pow_lt_pow_right (by decide) hk
  rw [UInt8.toNat_shiftLeft, UInt8.toNat_ofNat', UInt8.toNat_one, Nat.one_shiftLeft,
    Nat.mod_eq_of_lt (show k < 2 ^ 8 by omega), Nat.mod_eq_of_lt hk]
  exact Nat.mod_eq_of_lt hpow

theorem land_one_shiftLeft_ne_zero (x : UInt8) (hk : k < 8) :
    x &&& (1 <<< UInt8.ofNat k) ≠ 0 ↔ x.toNat.testBit k = true := by
  rw [Ne, ← UInt8.toNat_inj, UInt8.toNat_and, toNat_one_shiftLeft hk, UInt8.toNat_zero,
    Nat.and_two_pow]
  rcases x.toNat.testBit k <;> simp

theorem testBit_lor_one_shiftLeft (x : UInt8) (hk : k < 8) (j : ℕ) :
    (x ||| (1 <<< UInt8.ofNat k)).toNat.testBit j = (x.toNat.testBit j || decide (k = j)) := by
  rw [UInt8.toNat_or, toNat_one_shiftLeft hk, Nat.testBit_or, Nat.testBit_two_pow]

theorem testBit_land_not_one_shiftLeft (x : UInt8) (hk : k < 8) (hj : j < 8) :
    (x &&& ~~~(1 <<< UInt8.ofNat k)).toNat.testBit j = (x.toNat.testBit j && !decide (k = j)) := by
  have hnot : (~~~((1 : UInt8) <<< UInt8.ofNat k)).toNat.testBit j = !decide (k = j) := by
    rw [UInt8.toNat_not, toNat_one_shiftLeft hk]
    have hsub : UInt8.size - 1 - 2 ^ k = 2 ^ 8 - (2 ^ k + 1) := by
      rw [Nat.add_comm, ← Nat.sub_sub]
      rfl
    rw [hsub, Nat.testBit_two_pow_sub_succ (Nat.pow_lt_pow_right (by decide) hk),
      Nat.testBit_two_pow, decide_eq_true hj, Bool.true_and]
  rw [UInt8.toNat_and, Nat.testBit_and, hnot]

/-! ## Words of an array -/

namespace Bytes

variable {n : ℕ}

/-- Byte `i` of the array; the default lies outside every access of a modelled program. -/
def byte (b : Bytes n) (i : ℕ) : UInt8 := if h : i < n then b ⟨i, h⟩ else 0

/-- Word `i` of the array. -/
def getWord (b : Bytes n) (i : ℕ) : UInt32 :=
  wordOf (b.byte (4 * i)) (b.byte (4 * i + 1)) (b.byte (4 * i + 2)) (b.byte (4 * i + 3))

/-- Store the word `w` as word `i` of the array. -/
def setWord (b : Bytes n) (i : ℕ) (w : UInt32) : Bytes n :=
  fun j => if j.1 / 4 = i then wordByte w (j.1 % 4) else b j

theorem byte_setWord {b : Bytes n} (hj : j < n) :
    (b.setWord i w).byte j = if j / 4 = i then wordByte w (j % 4) else b.byte j := by
  simp only [byte, setWord, dif_pos hj]

theorem getWord_setWord_self {b : Bytes n} (hi : 4 * i + 4 ≤ n) :
    (b.setWord i w).getWord i = w := by
  have hbyte : ∀ k < 4, (b.setWord i w).byte (4 * i + k) = wordByte w k := by
    intro k hk
    rw [byte_setWord (by omega), if_pos (by omega)]
    congr 1
    omega
  rw [getWord, ← Nat.add_zero (4 * i), hbyte 0 (by omega), Nat.add_zero, hbyte 1 (by omega),
    hbyte 2 (by omega), hbyte 3 (by omega), wordOf_wordByte]

theorem getWord_setWord_ne {b : Bytes n} (hij : j ≠ i) :
    (b.setWord i w).getWord j = b.getWord j := by
  have hbyte : ∀ k < 4, (b.setWord i w).byte (4 * j + k) = b.byte (4 * j + k) := by
    intro k hk
    by_cases hlt : 4 * j + k < n
    · rw [byte_setWord hlt, if_neg (by omega)]
    · simp only [byte, dif_neg hlt]
  rw [getWord, ← Nat.add_zero (4 * j), hbyte 0 (by omega), Nat.add_zero, hbyte 1 (by omega),
    hbyte 2 (by omega), hbyte 3 (by omega), getWord]

/-! ## Bits of an array -/

/-- Bit `i` of the array, counted from the least significant bit of byte 0. -/
def testBit (b : Bytes n) (i : ℕ) : Bool := b.byte (i / 8) &&& (1 <<< UInt8.ofNat (i % 8)) != 0

/-- Set bit `i`. -/
def setBit (b : Bytes n) (i : ℕ) : Bytes n :=
  fun j => if j.1 = i / 8 then b j ||| (1 <<< UInt8.ofNat (i % 8)) else b j

/-- Clear bit `i`. -/
def clearBit (b : Bytes n) (i : ℕ) : Bytes n :=
  fun j => if j.1 = i / 8 then b j &&& ~~~(1 <<< UInt8.ofNat (i % 8)) else b j

theorem testBit_eq (b : Bytes n) (i : ℕ) :
    b.testBit i = (b.byte (i / 8)).toNat.testBit (i % 8) := by
  have hmod : i % 8 < 8 := Nat.mod_lt i (by decide)
  rw [testBit, Bool.eq_iff_iff, bne_iff_ne, land_one_shiftLeft_ne_zero _ hmod]

theorem testBit_setBit {b : Bytes n} (hj : j < 8 * n) :
    (b.setBit i).testBit j = (b.testBit j || decide (i = j)) := by
  have hj' : j / 8 < n := by omega
  have hmod : i % 8 < 8 := Nat.mod_lt i (by decide)
  rw [testBit_eq, testBit_eq]
  simp only [byte, setBit, dif_pos hj']
  by_cases hdiv : j / 8 = i / 8
  · rw [if_pos hdiv, testBit_lor_one_shiftLeft _ hmod]
    congr 2
    rw [eq_iff_iff]
    omega
  · rw [if_neg hdiv]
    have hne : i ≠ j := fun h => hdiv (by rw [h])
    simp [hne]

theorem testBit_clearBit {b : Bytes n} (hj : j < 8 * n) :
    (b.clearBit i).testBit j = (b.testBit j && !decide (i = j)) := by
  have hj' : j / 8 < n := by omega
  have hmod : ∀ k, k % 8 < 8 := fun k => Nat.mod_lt k (by decide)
  rw [testBit_eq, testBit_eq]
  simp only [byte, clearBit, dif_pos hj']
  by_cases hdiv : j / 8 = i / 8
  · rw [if_pos hdiv, testBit_land_not_one_shiftLeft _ (hmod i) (hmod j)]
    congr 3
    rw [eq_iff_iff]
    omega
  · rw [if_neg hdiv]
    have hne : i ≠ j := fun h => hdiv (by rw [h])
    simp [hne]

end Bytes

end InuOs
