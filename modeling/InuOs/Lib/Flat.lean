import Mathlib.Data.List.Basic

/-!
# Flat arrays

An array of which only a front part matters is a function on indices; `splice` overwrites a range of
it. On lists the same is `writeAt`, which may also make the list longer; `map_range_splice` connects
the two. `pieces` cuts a list into pieces that are written one after the other.
-/

namespace InuOs.Flat

universe u

variable {α : Type u}

/-- The elements of `l` go to `off`, `off + 1`, …. -/
def splice (f : ℕ → α) (off : ℕ) (l : List α) : ℕ → α :=
  fun o => if off ≤ o then (l[o - off]?).getD (f o) else f o

@[simp] theorem splice_nil (f : ℕ → α) (off : ℕ) : splice f off [] = f := by
  funext o
  simp [splice]

variable {f : ℕ → α} {off n : ℕ} {l a : List α}

/-- Outside of the range nothing changes. -/
theorem splice_of_notMem {o : ℕ} (h : o < off ∨ off + l.length ≤ o) : splice f off l o = f o := by
  unfold splice
  split
  · next hle =>
    have hnone : l[o - off]? = none := List.getElem?_eq_none (by omega)
    rw [hnone]
    rfl
  · rfl

theorem splice_of_mem {k : ℕ} (h : k < l.length) : splice f off l (off + k) = l[k] := by
  rw [splice, if_pos (Nat.le_add_right off k), Nat.add_sub_cancel_left, List.getElem?_eq_getElem h]
  rfl

/-- One piece after the other. -/
theorem splice_append (f : ℕ → α) (off : ℕ) (l₁ l₂ : List α) :
    splice f off (l₁ ++ l₂) = splice (splice f off l₁) (off + l₁.length) l₂ := by
  funext o
  by_cases hin : off ≤ o ∧ o < off + (l₁ ++ l₂).length
  · obtain ⟨k, rfl⟩ := Nat.exists_eq_add_of_le hin.1
    have hk : k < (l₁ ++ l₂).length := by omega
    rw [splice_of_mem hk]
    by_cases hk₁ : k < l₁.length
    · rw [splice_of_notMem (.inl (by omega)), splice_of_mem hk₁, List.getElem_append_left hk₁]
    · obtain ⟨m, rfl⟩ := Nat.exists_eq_add_of_le (Nat.le_of_not_lt hk₁)
      have hm : m < l₂.length := by
        rw [List.length_append] at hk
        omega
      rw [← Nat.add_assoc, splice_of_mem hm, List.getElem_append_right (Nat.le_add_right ..)]
      simp
  · rw [List.length_append] at hin
    rw [splice_of_notMem (by rw [List.length_append]; omega), splice_of_notMem (by omega),
      splice_of_notMem (by omega)]

/-- Overwrite a range of a list, beginning inside of it or at its end. -/
def writeAt (a : List α) (off : ℕ) (src : List α) : List α :=
  a.take off ++ src ++ a.drop (off + src.length)

theorem map_range_splice (f : ℕ → α) {size : ℕ} (src : List α) (hoff : off ≤ size) :
    (List.range (max size (off + src.length))).map (splice f off src) =
      writeAt ((List.range size).map f) off src := by
  rw [writeAt]
  apply List.ext_getElem
  · simp only [List.length_map, List.length_range, List.length_append, List.length_take,
      List.length_drop]
    omega
  · intro o h₁ h₂
    have hfront : (((List.range size).map f).take off).length = off := by
      simp [hoff]
    rw [List.getElem_map, List.getElem_range]
    by_cases hlt : o < off
    · rw [splice_of_notMem (.inl hlt), List.getElem_append_left (by simp; omega),
        List.getElem_append_left (by omega)]
      simp
    · obtain ⟨k, rfl⟩ := Nat.exists_eq_add_of_le (Nat.le_of_not_lt hlt)
      by_cases hk : k < src.length
      · rw [splice_of_mem hk, List.getElem_append_left (by simp; omega),
          List.getElem_append_right (by omega)]
        simp [hfront]
      · rw [splice_of_notMem (.inr (by omega)), List.getElem_append_right (by simp; omega)]
        have hrest : off + src.length + (off + k - (off + src.length)) = off + k := by omega
        simp [hfront, hrest]

/-- A range of a list. -/
theorem take_drop_map_range (f : ℕ → α) (size off n : ℕ) :
    (((List.range size).map f).drop off).take n =
      (List.range (min n (size - off))).map fun k => f (off + k) := by
  apply List.ext_getElem
  · simp
  · intro k h₁ h₂
    simp

/-- Record `j` of a sequence of records of `c` elements each. -/
theorem take_drop_flatMap {β : Type u} {f : β → List α} {c : ℕ} (hc : ∀ b, (f b).length = c)
    (l : List β) {j : ℕ} (hj : j < l.length) :
    ((l.flatMap f).drop (c * j)).take c = f l[j] := by
  induction l generalizing j with
  | nil => exact absurd hj (Nat.not_lt_zero j)
  | cons b l ih =>
    rw [List.flatMap_cons]
    cases j with
    | zero => simp [← hc b]
    | succ j =>
      have hskip : c * (j + 1) = (f b).length + c * j := by rw [hc, Nat.mul_succ, Nat.add_comm]
      rw [hskip, ← List.drop_drop, List.drop_left, List.getElem_cons_succ]
      exact ih (Nat.lt_of_succ_lt_succ hj)

/-- A piece behind the end of the last one. -/
theorem writeAt_append (h : off ≤ a.length) (l₁ l₂ : List α) :
    writeAt (writeAt a off l₁) (off + l₁.length) l₂ = writeAt a off (l₁ ++ l₂) := by
  have hfront : (a.take off ++ l₁).length = off + l₁.length := by
    rw [List.length_append, List.length_take, Nat.min_eq_left h]
  have hback : off + l₁.length + l₂.length - (off + l₁.length) = l₂.length := by omega
  rw [writeAt, writeAt, writeAt, ← hfront, List.take_left, List.drop_append, hfront, hback,
    List.drop_eq_nil_of_le (by omega), List.drop_drop]
  simp [Nat.add_assoc]

@[simp] theorem writeAt_nil (a : List α) (off : ℕ) : writeAt a off [] = a := by
  simp [writeAt]

theorem length_writeAt (h : off ≤ a.length) (l : List α) :
    (writeAt a off l).length = max a.length (off + l.length) := by
  simp only [writeAt, List.length_append, List.length_take, List.length_drop]
  omega

/-! ## Pieces -/

/-- The list cut into pieces of `n` elements; the last one may be shorter. -/
def pieces (n : ℕ) (l : List α) : List (List α) :=
  if _h : n = 0 ∨ l = [] then [] else l.take n :: pieces n (l.drop n)
termination_by l.length
decreasing_by
  rw [not_or] at _h
  have := List.length_pos_iff.mpr _h.2
  rw [List.length_drop]
  omega

@[simp] theorem pieces_nil (n : ℕ) : pieces n ([] : List α) = [] := by
  rw [pieces, dif_pos (.inr rfl)]

theorem pieces_of_ne_nil (hn : n ≠ 0) (hl : l ≠ []) :
    pieces n l = l.take n :: pieces n (l.drop (l.take n).length) := by
  have hdrop : l.drop n = l.drop (l.take n).length := by
    rw [List.length_take]
    rcases Nat.le_total n l.length with h | h
    · rw [Nat.min_eq_left h]
    · rw [Nat.min_eq_right h, List.drop_eq_nil_of_le h, List.drop_length]
  rw [pieces, dif_neg (by rw [not_or]; exact ⟨hn, hl⟩), hdrop]

theorem flatten_pieces (hn : n ≠ 0) (l : List α) : (pieces n l).flatten = l := by
  induction l using pieces.induct n with
  | case1 l h => rw [pieces, dif_pos h, h.resolve_left hn, List.flatten_nil]
  | case2 l h ih => rw [pieces, dif_neg h, List.flatten_cons, ih, List.take_append_drop]

/-- A short list is one piece. -/
theorem pieces_of_length_le (hn : n ≠ 0) (hl : l ≠ []) (hle : l.length ≤ n) : pieces n l = [l] := by
  rw [pieces_of_ne_nil hn hl, List.take_of_length_le hle, List.drop_length, pieces_nil]

end InuOs.Flat
