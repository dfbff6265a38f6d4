import InuOs.Inode
import InuOs.Lib.Flat
import InuOs.Lib.Slots

/-!
# Directory entries

A directory is a file of entries of 16 bytes. `dirTable` is what they say: a slot is empty if its
inode number is 0, and otherwise holds a name and an inode number. A name is what `strncpy` makes of
it, 14 bytes with zeros at the end; `strncmp` compares names as if they were copied like that
(`namecmpEq_eq`), and what stands behind the first zero of an entry on disk does not matter.
-/

namespace InuOs

open Flat Slots

/-! ## Names -/

theorem length_strncpy (n : ℕ) (t : List UInt8) : (strncpy n t).length = n := by
  induction n generalizing t with
  | zero => rfl
  | succ n ih =>
    rw [strncpy]
    split <;> rw [List.length_cons, ih]

theorem headD_strncpy (n : ℕ) (t : List UInt8) : (strncpy (n + 1) t).headD 0 = t.headD 0 := by
  rw [strncpy]
  split
  · next h => exact h.symm
  · rfl

/-- A copy is copied as it is. -/
theorem strncpy_strncpy (n : ℕ) (t : List UInt8) : strncpy n (strncpy n t) = strncpy n t := by
  induction n generalizing t with
  | zero => rfl
  | succ n ih =>
    have hhead := headD_strncpy n t
    by_cases hzero : t.headD 0 = 0
    · rw [strncpy, hhead, if_pos hzero, strncpy, if_pos hzero]
    · rw [strncpy, hhead, if_neg hzero]
      nth_rewrite 2 [strncpy]
      rw [strncpy, if_neg hzero, List.tail_cons, ih]

/-- `strncmp` compares what `strncpy` copies. -/
theorem strncmpEq_eq (n : ℕ) (p t : List UInt8) :
    strncmpEq n p t = decide (strncpy n p = strncpy n t) := by
  induction n generalizing p t with
  | zero => simp [strncmpEq, strncpy]
  | succ n ih =>
    rw [strncmpEq]
    by_cases heq : p.headD 0 = t.headD 0
    · by_cases hzero : p.headD 0 = 0
      · have hzero' : t.headD 0 = 0 := heq ▸ hzero
        rw [if_neg fun hc => hc.1 hzero, strncpy, strncpy, if_pos hzero, if_pos hzero',
          decide_eq_true heq, decide_eq_true rfl]
      · have hzero' : t.headD 0 ≠ 0 := heq ▸ hzero
        rw [if_pos ⟨hzero, heq⟩, strncpy, strncpy, if_neg hzero, if_neg hzero', ih, heq]
        simp only [List.cons.injEq, true_and]
    · rw [if_neg fun hc => heq hc.2]
      have hne : strncpy (n + 1) p ≠ strncpy (n + 1) t := by
        intro h
        have := congrArg (List.headD · 0) h
        rw [headD_strncpy, headD_strncpy] at this
        exact heq this
      rw [decide_eq_false heq, decide_eq_false hne]

/-- A name as it is compared: its first 14 bytes. -/
def nameKey (name : List UInt8) : List UInt8 := strncpy dirSiz name

theorem namecmpEq_eq (s t : List UInt8) : namecmpEq s t = decide (nameKey s = nameKey t) :=
  strncmpEq_eq ..

/-! ## Entries -/

theorem length_direntBytes (inum : ℕ) (name : List UInt8) :
    (direntBytes inum name).length = direntSize := by
  rw [direntBytes, List.length_cons, List.length_cons, length_strncpy]
  rfl

variable {inum k : ℕ} {bytes src : List UInt8}

theorem direntInum_direntBytes (h : inum < 2 ^ 16) (name : List UInt8) :
    direntInum (direntBytes inum name) = inum := by
  simp only [direntInum, direntBytes, List.getD_cons_zero, List.getD_cons_succ, UInt8.toNat_ofNat']
  omega

/-- What an entry says. -/
def readDirent (de : List UInt8) : Option (List UInt8 × ℕ) :=
  if direntInum de = 0 then none else some (nameKey (direntName de), direntInum de)

theorem readDirent_direntBytes (hpos : 0 < inum) (h : inum < 2 ^ 16) (name : List UInt8) :
    readDirent (direntBytes inum name) = some (nameKey name, inum) := by
  have hname : direntName (direntBytes inum name) = strncpy dirSiz name := rfl
  rw [readDirent, direntInum_direntBytes h, if_neg hpos.ne', hname, nameKey, strncpy_strncpy]
  rfl

/-! ## Directories -/

/-- Entry `k` of the bytes of a directory. -/
def dirent (bytes : List UInt8) (k : ℕ) : List UInt8 :=
  (bytes.drop (direntSize * k)).take direntSize

/-- The slots of a directory. -/
def dirTable (bytes : List UInt8) : Table (List UInt8) ℕ :=
  (List.range (bytes.length / direntSize)).map fun k => readDirent (dirent bytes k)

theorem length_dirTable (bytes : List UInt8) :
    (dirTable bytes).length = bytes.length / direntSize := by
  rw [dirTable, List.length_map, List.length_range]

theorem getElem?_dirTable (hk : k < bytes.length / direntSize) :
    (dirTable bytes)[k]? = some (readDirent (dirent bytes k)) := by
  rw [dirTable, List.getElem?_map, List.getElem?_range hk]
  rfl

theorem getElem?_writeAt {a : List UInt8} {off : ℕ} (hoff : off ≤ a.length) (o : ℕ) :
    (writeAt a off src)[o]? =
      if off ≤ o ∧ o < off + src.length then src[o - off]? else a[o]? := by
  have hfront : (a.take off).length = off := by rw [List.length_take, Nat.min_eq_left hoff]
  rw [writeAt, List.append_assoc]
  rcases Nat.lt_or_ge o off with hlt | hge
  · rw [List.getElem?_append_left (by omega), if_neg (by omega), List.getElem?_take_of_lt hlt]
  · rw [List.getElem?_append_right (by omega), hfront]
    rcases Nat.lt_or_ge o (off + src.length) with hin | hout
    · rw [List.getElem?_append_left (by omega), if_pos ⟨hge, hin⟩]
    · rw [List.getElem?_append_right (by omega), if_neg (by omega), List.getElem?_drop]
      congr 1
      omega

/-- Writing one entry. -/
theorem dirent_writeAt (hk : direntSize * k ≤ bytes.length)
    (hsrc : src.length = direntSize) (m : ℕ) :
    dirent (writeAt bytes (direntSize * k) src) m = if m = k then src else dirent bytes m := by
  apply List.ext_getElem?
  intro c
  rw [dirent, List.getElem?_take]
  split
  · next hc =>
    rw [List.getElem?_drop, getElem?_writeAt hk, hsrc]
    rcases eq_or_ne m k with rfl | hne
    · rw [if_pos rfl, if_pos (by omega), Nat.add_sub_cancel_left]
    · rw [if_neg hne, if_neg (by unfold direntSize at *; omega), dirent,
        List.getElem?_take, if_pos hc, List.getElem?_drop]
  · next hc =>
    rcases eq_or_ne m k with rfl | hne
    · rw [if_pos rfl, List.getElem?_eq_none (by omega)]
    · rw [if_neg hne, dirent, List.getElem?_take, if_neg hc]

/-- The slots of a directory when an entry is written over one that is there, or behind the last
one. -/
theorem dirTable_writeAt (hmul : bytes.length % direntSize = 0) (hk : k ≤ bytes.length / direntSize)
    (hsrc : src.length = direntSize) :
    dirTable (writeAt bytes (direntSize * k) src) = put (dirTable bytes) k (readDirent src) := by
  have hoff : direntSize * k ≤ bytes.length := by
    unfold direntSize at hk ⊢
    omega
  have hlen : (writeAt bytes (direntSize * k) src).length / direntSize =
      max (bytes.length / direntSize) (k + 1) := by
    rw [length_writeAt hoff, hsrc]
    unfold direntSize at hk hmul ⊢
    omega
  apply List.ext_getElem?
  intro m
  rw [getElem?_put (by rw [length_dirTable]; exact hk)]
  by_cases hm : m < max (bytes.length / direntSize) (k + 1)
  · rw [getElem?_dirTable (by rw [hlen]; exact hm), dirent_writeAt hoff hsrc]
    split
    · rfl
    · rw [getElem?_dirTable (by omega)]
  · rw [List.getElem?_eq_none (by rw [length_dirTable, hlen]; omega), if_neg (by omega),
      List.getElem?_eq_none (by rw [length_dirTable]; omega)]

end InuOs
