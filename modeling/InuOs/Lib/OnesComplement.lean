import Mathlib.Data.Nat.ModEq
import Mathlib.Data.List.Basic

/-!
# Ones'-complement sums of bytes

The sum that Internet checksums are made of: a byte string is read as 16-bit big-endian words, the
last byte padded with a zero if it stands alone, and the words are added with end-around carry.

* `wordSum` adds the words as natural numbers;
* `onesSum` adds them with end-around carry;
* `onesSum_eq_iff` connects the two: the carry makes the sum one modulo `2 ^ 16 - 1` in which zero
  is written `0xFFFF` once anything has been added.
-/

namespace InuOs

/-! ## Sums of words -/

/-- The sum of the 16-bit big-endian words of a byte string, zero-padded. -/
def wordSum : List UInt8 → ℕ
  | [] => 0
  | [a] => 256 * a.toNat
  | a :: b :: l => 256 * a.toNat + b.toNat + wordSum l

@[simp] theorem wordSum_nil : wordSum [] = 0 := rfl

@[simp] theorem wordSum_cons_cons (a b : UInt8) (l : List UInt8) :
    wordSum (a :: b :: l) = 256 * a.toNat + b.toNat + wordSum l := rfl

/-- Words do not straddle an even boundary. -/
theorem wordSum_append {l : List UInt8} (k : List UInt8) (h : l.length % 2 = 0) :
    wordSum (l ++ k) = wordSum l + wordSum k := by
  induction l using wordSum.induct with
  | case1 => simp
  | case2 a => simp at h
  | case3 a b l ih =>
    rw [List.length_cons, List.length_cons] at h
    rw [List.cons_append, List.cons_append, wordSum_cons_cons, wordSum_cons_cons, ih (by omega)]
    omega

theorem wordSum_le (l : List UInt8) : wordSum l ≤ 65535 * ((l.length + 1) / 2) := by
  induction l using wordSum.induct with
  | case1 => simp
  | case2 a =>
    have ha := a.toNat_lt
    simp only [wordSum, List.length_singleton]
    omega
  | case3 a b l ih =>
    have ha := a.toNat_lt
    have hb := b.toNat_lt
    rw [wordSum_cons_cons, List.length_cons, List.length_cons]
    omega

/-! ## End-around carry -/

/-- Addition of two 16-bit words with end-around carry. -/
def onesAdd (x y : ℕ) : ℕ := (x + y) % 65536 + (x + y) / 65536

theorem onesAdd_le {x y : ℕ} (hx : x ≤ 65535) (hy : y ≤ 65535) : onesAdd x y ≤ 65535 := by
  unfold onesAdd
  omega

theorem onesAdd_modEq (x y : ℕ) : onesAdd x y ≡ x + y [MOD 65535] := by
  unfold onesAdd Nat.ModEq
  omega

theorem onesAdd_eq_zero_iff (x y : ℕ) : onesAdd x y = 0 ↔ x + y = 0 := by
  unfold onesAdd
  omega

/-- The ones'-complement sum of the words of a byte string, added to `s`. -/
def onesSum : ℕ → List UInt8 → ℕ
  | s, [] => s
  | s, [a] => onesAdd s (256 * a.toNat)
  | s, a :: b :: l => onesSum (onesAdd s (256 * a.toNat + b.toNat)) l

/-- What end-around carry keeps of a sum: its range, its residue, and whether it is zero. -/
theorem onesSum_spec (l : List UInt8) (s : ℕ) (hs : s ≤ 65535) :
    onesSum s l ≤ 65535 ∧ onesSum s l ≡ s + wordSum l [MOD 65535] ∧
      (onesSum s l = 0 ↔ s + wordSum l = 0) := by
  induction l using wordSum.induct generalizing s with
  | case1 => exact ⟨hs, Nat.ModEq.rfl, Iff.rfl⟩
  | case2 a =>
    have ha := a.toNat_lt
    exact ⟨onesAdd_le hs (by omega), onesAdd_modEq _ _, onesAdd_eq_zero_iff _ _⟩
  | case3 a b l ih =>
    have ha := a.toNat_lt
    have hb := b.toNat_lt
    obtain ⟨hle, hmod, hzero⟩ :=
      ih (onesAdd s (256 * a.toNat + b.toNat)) (onesAdd_le hs (by omega))
    have hsum : s + wordSum (a :: b :: l) = s + (256 * a.toNat + b.toNat) + wordSum l := by
      rw [wordSum_cons_cons]
      omega
    rw [hsum]
    refine ⟨hle, hmod.trans ((onesAdd_modEq _ _).add_right _), hzero.trans ?_⟩
    have hfirst := onesAdd_eq_zero_iff s (256 * a.toNat + b.toNat)
    omega

/-- **All ones.** A nonzero byte string sums to `0xFFFF` exactly when its word sum vanishes modulo
`2 ^ 16 - 1`. -/
theorem onesSum_eq_iff (l : List UInt8) :
    onesSum 0 l = 0xFFFF ↔ wordSum l % 65535 = 0 ∧ wordSum l ≠ 0 := by
  obtain ⟨hle, hmod, hzero⟩ := onesSum_spec l 0 (by omega)
  unfold Nat.ModEq at hmod
  omega

/-- **The checksum rule.** Adding the complement of its sum makes a byte string sum to all ones. -/
theorem onesSum_of_complement {l k : List UInt8}
    (h : wordSum k = wordSum l + (0xFFFF - onesSum 0 l)) : onesSum 0 k = 0xFFFF := by
  obtain ⟨hle, hmod, hzero⟩ := onesSum_spec l 0 (by omega)
  unfold Nat.ModEq at hmod
  rw [onesSum_eq_iff, h]
  omega

end InuOs
