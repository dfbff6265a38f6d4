import Mathlib.Data.List.TakeWhile
import Mathlib.Tactic.Common

/-!
# Scanning a buffer

Scanners in C move an index over a buffer while the character there is of some kind, and hand out
strings as two indices into the buffer.

* `scan p l i` is the loop `while(i < l.length && p(l[i])) i++`;
* `slice l i j` is the text between two indices;
* `cstr l i` is the string from an index up to the next terminator, and `cstr_eq_slice` says when it
  is the text between two indices;
* `terminate ends l` puts terminators at the given indices. Behind maximal runs of one kind they cut
  no run: `cstr_terminate`.
-/

namespace InuOs

variable {α : Type*}

variable {l : List α} {i j k : ℕ} {ends : List ℕ}

section Scan

variable (p : α → Bool)

/-- The loop over the rest of the buffer, with the index of that rest. -/
def scanFrom : List α → ℕ → ℕ
  | [], i => i
  | a :: l, i => if p a then scanFrom l (i + 1) else i

/-- The first index from `i` on whose element is not of the kind. -/
def scan (l : List α) (i : ℕ) : ℕ := scanFrom p (l.drop i) i

theorem scanFrom_eq (l : List α) (i : ℕ) : scanFrom p l i = i + (l.takeWhile p).length := by
  induction l generalizing i with
  | nil => rfl
  | cons a l ih =>
    rw [scanFrom, List.takeWhile_cons]
    split
    · rw [ih, List.length_cons]
      omega
    · rfl

theorem scan_eq (l : List α) (i : ℕ) : scan p l i = i + ((l.drop i).takeWhile p).length :=
  scanFrom_eq p _ i

theorem drop_scan (l : List α) (i : ℕ) : l.drop (scan p l i) = (l.drop i).dropWhile p := by
  have hsplit : (l.drop i).takeWhile p ++ (l.drop i).dropWhile p = l.drop i :=
    List.takeWhile_append_dropWhile
  rw [scan_eq, ← List.drop_drop]
  nth_rewrite 2 [← hsplit]
  exact List.drop_left

theorem le_scan (l : List α) (i : ℕ) : i ≤ scan p l i := by
  rw [scan_eq]
  exact Nat.le_add_right _ _

theorem scan_le (h : i ≤ l.length) : scan p l i ≤ l.length := by
  have htake := (List.takeWhile_sublist (l := l.drop i) p).length_le
  rw [List.length_drop] at htake
  rw [scan_eq]
  omega

end Scan

/-- The text between two indices. -/
def slice (l : List α) (i j : ℕ) : List α := (l.drop i).take (j - i)

theorem slice_scan (p : α → Bool) (l : List α) (i : ℕ) :
    slice l i (scan p l i) = (l.drop i).takeWhile p := by
  have hsplit : (l.drop i).takeWhile p ++ (l.drop i).dropWhile p = l.drop i :=
    List.takeWhile_append_dropWhile
  rw [slice, scan_eq, Nat.add_sub_cancel_left]
  nth_rewrite 2 [← hsplit]
  exact List.take_left

theorem getElem?_slice (h : i + k < j) : (slice l i j)[k]? = l[i + k]? := by
  rw [slice, List.getElem?_take_of_lt (by omega), List.getElem?_drop]

theorem getElem?_of_lt_scan (p : α → Bool) (hik : i ≤ k) (hk : k < scan p l i) :
    ∃ a, l[k]? = some a ∧ p a = true := by
  obtain ⟨d, rfl⟩ := Nat.exists_eq_add_of_le hik
  have hget := getElem?_slice (l := l) hk
  rw [slice_scan] at hget
  have hlt : d < ((l.drop i).takeWhile p).length := by
    rw [scan_eq] at hk
    omega
  rw [List.getElem?_eq_getElem hlt] at hget
  exact ⟨_, hget.symm, List.mem_takeWhile_imp (List.getElem_mem hlt)⟩

theorem not_of_getElem?_scan (p : α → Bool) {a : α} (h : l[scan p l i]? = some a) :
    p a = false := by
  have hhead := List.head?_dropWhile_not p (l.drop i)
  rw [← drop_scan, List.head?_drop, h] at hhead
  simpa using hhead

section Terminator

variable [Zero α] [DecidableEq α]

/-- The string from an index up to the next terminator. -/
def cstr (l : List α) (i : ℕ) : List α := (l.drop i).takeWhile (· ≠ 0)

/-- A buffer that agrees with a text between two indices, and has a terminator at the second one,
has that text as its string. -/
theorem cstr_eq_slice {t : List α} (hij : i ≤ j) (hend : l[j]? = some 0)
    (hsame : ∀ k, i ≤ k → k < j → l[k]? = t[k]?) (hnonzero : ∀ a ∈ slice t i j, a ≠ 0) :
    cstr l i = slice t i j := by
  have hslice : slice l i j = slice t i j := by
    apply List.ext_getElem?
    intro k
    rcases Nat.lt_or_ge (i + k) j with hk | hk
    · rw [getElem?_slice hk, getElem?_slice hk, hsame _ (Nat.le_add_right _ _) hk]
    · have hpast : j - i ≤ k := by omega
      rw [slice, slice, List.getElem?_take_eq_none hpast, List.getElem?_take_eq_none hpast]
  have hrest : (l.drop i).drop (j - i) = 0 :: l.drop (j + 1) := by
    obtain ⟨hlt, hzero⟩ := List.getElem?_eq_some_iff.mp hend
    rw [List.drop_drop, Nat.add_sub_cancel' hij, List.drop_eq_getElem_cons hlt, hzero]
  have hsplit : l.drop i = slice t i j ++ 0 :: l.drop (j + 1) := by
    rw [← hslice, ← hrest, slice, List.take_append_drop]
  rw [cstr, hsplit, List.takeWhile_append_of_pos (by simpa using hnonzero)]
  simp

/-- Terminators at the given indices. -/
def terminate (ends : List ℕ) (l : List α) : List α := ends.foldl (fun l e => l.set e 0) l

omit [DecidableEq α] in
theorem getElem?_terminate_of_notMem (hk : k ∉ ends) (l : List α) :
    (terminate ends l)[k]? = l[k]? := by
  induction ends generalizing l with
  | nil => rfl
  | cons e ends ih =>
    rw [List.mem_cons, not_or] at hk
    exact (ih hk.2 _).trans (List.getElem?_set_ne (Ne.symm hk.1))

omit [DecidableEq α] in
theorem getElem?_terminate_of_mem (hk : k ∈ ends) (hlt : k < l.length) :
    (terminate ends l)[k]? = some 0 := by
  induction ends generalizing l with
  | nil => exact nomatch hk
  | cons e ends ih =>
    by_cases hmem : k ∈ ends
    · exact ih hmem (by rwa [List.length_set])
    · obtain rfl : k = e := (List.mem_cons.mp hk).resolve_right hmem
      exact (getElem?_terminate_of_notMem hmem _).trans (List.getElem?_set_self hlt)

/-- A terminator behind a maximal run of one kind does not cut another run: with terminators behind
runs only, each run that has one is a string. -/
theorem cstr_terminate (p : α → Bool) (hl : ∀ a ∈ l, a ≠ 0)
    (hends : ∀ e ∈ ends, ∃ j, e = scan p l j)
    (hi : i ≤ l.length) (hmem : scan p l i ∈ ends) :
    cstr (terminate ends (l ++ [0])) i = slice l i (scan p l i) := by
  have hlast : scan p l i < (l ++ [0]).length := by
    rw [List.length_append]
    exact Nat.lt_succ_of_le (scan_le p hi)
  refine cstr_eq_slice (le_scan p l i) (getElem?_terminate_of_mem hmem hlast) ?_ ?_
  · intro k hik hk
    have hnot : k ∉ ends := by
      intro hkmem
      obtain ⟨a, ha, hpa⟩ := getElem?_of_lt_scan p hik hk
      obtain ⟨j, rfl⟩ := hends k hkmem
      rw [not_of_getElem?_scan p ha] at hpa
      exact nomatch hpa
    rw [getElem?_terminate_of_notMem hnot,
      List.getElem?_append_left (hk.trans_le (scan_le p hi))]
  · intro a ha
    exact hl a (List.mem_of_mem_drop (List.mem_of_mem_take ha))

end Terminator

end InuOs
