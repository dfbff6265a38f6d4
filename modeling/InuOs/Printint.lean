import InuOs.ConsoleOutput
import Mathlib.Data.Nat.Digits.Defs

/-!
# Numbers in decimal and hexadecimal (`printint` of `console.c` and of `printf.c`)

Both versions store the digits in a buffer of 16 bytes, the least significant one first, and print
it from its end. They differ in the letters of their tables.
-/

namespace InuOs.Console

/-- The loop of `printint`: the digits that it looks up; a number has at most as many as bits. -/
def digitLoop (base : UInt32) : ℕ → UInt32 → List ℕ
  | 0, _ => []
  | n + 1, x => (x % base).toNat :: if x / base ≠ 0 then digitLoop base n (x / base) else []

/-- `digits` in `printint` of `printf.c`. -/
def upperDigits : List UInt8 := [48, 49, 50, 51, 52, 53, 54, 55, 56, 57, 65, 66, 67, 68, 69, 70]

/-- What `printint` of `printf.c` stores in `buf`. -/
def printfBuf (xx base : UInt32) (sgn : Bool) : List UInt8 :=
  let neg := sgn && 0x80000000 ≤ xx
  (digitLoop base 32 (if neg then -xx else xx)).map (upperDigits.getD · 0) ++
  if neg then [45] else []

/-- `printint` of `printf.c` -/
def printfInt (xx base : UInt32) (sgn : Bool) : List UInt8 := (printfBuf xx base sgn).reverse

theorem printDigits_eq (base : UInt32) (n : ℕ) (x : UInt32) :
    printDigits base n x = (digitLoop base n x).reverse.map (digits.getD · 0) := by
  induction n generalizing x with
  | zero => rfl
  | succ n ih =>
    rw [printDigits, digitLoop, List.reverse_cons, List.map_append]
    split_ifs
    · rw [ih]
      rfl
    · rfl

/-- The digits of a number, least significant first: as many as needed, none above the first that
counts. -/
structure Digits (base v k : ℕ) (ds : List ℕ) : Prop where
  value : Nat.ofDigits base ds = v
  digit : ∀ d ∈ ds, d < base
  length : ds.length ≤ k
  canonical : ds ≠ [] ∧ (ds.getLast? = some 0 → ds = [0])

/-- **The loop** finds the digits, if it is not cut short. -/
theorem digitLoop_digits {base : UInt32} (hbase : 1 < base.toNat)
    {n k : ℕ} (hn : k ≤ n) (hk : k ≠ 0)
    {x : UInt32} (hx : x.toNat < base.toNat ^ k) :
    Digits base.toNat x.toNat k (digitLoop base n x) := by
  induction n generalizing k x with
  | zero => exact absurd (Nat.le_zero.mp hn) hk
  | succ n ih =>
    obtain ⟨k, rfl⟩ := Nat.exists_eq_succ_of_ne_zero hk
    have hdiv : (x / base).toNat = x.toNat / base.toNat := UInt32.toNat_div x base
    have hmod : (x % base).toNat < base.toNat := UInt32.toNat_mod x base ▸ Nat.mod_lt _ (by omega)
    have hsplit : (x % base).toNat + base.toNat * (x / base).toNat = x.toNat := by
      rw [hdiv, UInt32.toNat_mod, Nat.mod_add_div]
    rw [digitLoop]
    split_ifs with hzero
    · have hne : (x / base).toNat ≠ 0 := mt (UInt32.toNat_inj (b := 0)).mp hzero
      have hlt : (x / base).toNat < base.toNat ^ k :=
        hdiv ▸ Nat.div_lt_of_lt_mul (Nat.pow_succ' ▸ hx)
      have hk : k ≠ 0 := by
        rintro rfl
        exact hne (Nat.lt_one_iff.mp hlt)
      obtain ⟨hvalue, hdigit, hlen, hnil, hlast⟩ := ih (Nat.le_of_succ_le_succ hn) hk hlt
      refine ⟨?_, List.forall_mem_cons.mpr ⟨hmod, hdigit⟩, Nat.succ_le_succ hlen, nofun,
        fun h => ?_⟩
      · rw [Nat.ofDigits_cons, hvalue]
        exact hsplit
      · rw [List.getLast?_cons_of_ne_nil hnil] at h
        rw [hlast h] at hvalue
        exact absurd hvalue.symm (by simpa using hne)
    · rw [not_not] at hzero
      rw [hzero] at hsplit
      exact ⟨by simpa using hsplit, by simpa using hmod, by simp, nofun, by simp⟩

/-- A letter in upper case. -/
def upper (b : UInt8) : UInt8 := if 97 ≤ b ∧ b ≤ 122 then b - 32 else b

/-- **Both versions print the number**: its digits from the first that counts on, behind a sign if
it is negative and printed as signed. -/
theorem printint_exact (xx : Int32) (base : UInt32) (sign : Bool) (hbase : base = 10 ∨ base = 16) :
    ∃ ds : List ℕ, ds ≠ [] ∧ (∀ d ∈ ds, d < base.toNat) ∧ (ds.head? = some 0 → ds = [0]) ∧
      ((Nat.ofDigits base.toNat ds.reverse : ℕ) : ℤ) =
        (if sign ∧ xx < 0 then -xx.toInt else (xx.toUInt32.toNat : ℤ)) ∧
      printint xx.toUInt32 base sign =
        (if sign ∧ xx < 0 then [45] else []) ++ ds.map (digits.getD · 0) ∧
      printfInt xx.toUInt32 base sign = (printint xx.toUInt32 base sign).map upper ∧
      (printint xx.toUInt32 base sign).length ≤ 16 ∧
      (printfBuf xx.toUInt32 base sign).length ≤ 16 := by
  have hlt := xx.toUInt32.toNat_lt
  have hint : xx.toInt = if 2 * xx.toUInt32.toNat < 2 ^ 32 then (xx.toUInt32.toNat : ℤ)
      else (xx.toUInt32.toNat : ℤ) - 2 ^ 32 := BitVec.toInt_eq_toNat_cond _
  have hneg : 0x80000000 ≤ xx.toUInt32 ↔ xx < 0 := by
    rw [Int32.lt_iff_toInt_lt, hint, UInt32.le_iff_toNat_le]
    simp only [Int32.toInt_zero, UInt32.reduceToNat]
    split_ifs <;> omega
  have hvalue : (((if sign ∧ xx < 0 then -xx.toUInt32 else xx.toUInt32).toNat : ℕ) : ℤ) =
      if sign ∧ xx < 0 then -xx.toInt else (xx.toUInt32.toNat : ℤ) := by
    split_ifs with h
    · have hge : 0x80000000 ≤ xx.toUInt32.toNat := UInt32.le_iff_toNat_le.mp (hneg.mpr h.2)
      rw [hint, if_neg (by omega), UInt32.toNat_neg, UInt32.size]
      omega
    · rfl
  have htable : ∀ d < 16, upperDigits.getD d 0 = upper (digits.getD d 0) := by decide
  obtain ⟨hone, hten, hsixteen⟩ : 1 < base.toNat ∧ 2 ^ 32 ≤ base.toNat ^ 10 ∧ base.toNat ≤ 16 := by
    rcases hbase with rfl | rfl <;> decide
  simp only [printfInt, printfBuf, printint, Bool.and_eq_true, decide_eq_true_eq, hneg,
    printDigits_eq,
    ← hvalue]
  generalize (if sign ∧ xx < 0 then -xx.toUInt32 else xx.toUInt32) = x
  obtain ⟨hvalue, hdigit, hlen, hnil, hlast⟩ :=
    digitLoop_digits hone (n := 32) (k := 10) (by decide)
    (by decide) (x.toNat_lt.trans_le hten)
  have hsign : (if sign ∧ xx < 0 then [45] else [] : List UInt8).length ≤ 1 := by
    split_ifs <;> decide
  refine ⟨(digitLoop base 32 x).reverse, by simpa using hnil, by simpa using hdigit, ?_, ?_, rfl,
    ?_, ?_⟩
  · simpa using hlast
  · rw [List.reverse_reverse, hvalue]
  · rw [List.reverse_append, List.map_append, List.map_map, ← List.map_reverse]
    congr 1
    · split_ifs <;> rfl
    · exact List.map_congr_left fun d hd =>
        htable d ((hdigit d (List.mem_reverse.mp hd)).trans_le hsixteen)
  · simp only [List.length_append, List.length_map, List.length_reverse]
    omega

/-- The most negative number, in both versions. -/
theorem printint_exact_min : ∃ ds : List ℕ,
    printint 0x80000000 10 true = 45 :: ds.map (digits.getD · 0) ∧
      ((Nat.ofDigits 10 ds.reverse : ℕ) : ℤ) = 2147483648 := by
  obtain ⟨ds, -, -, -, hvalue, hprint, -⟩ := printint_exact Int32.minValue 10 true (.inl rfl)
  exact ⟨ds, hprint, hvalue⟩

end InuOs.Console
