import InuOs.Dirent
import InuOs.Syscall.Cache
import InuOs.Syscall.Resources

/-!
# Directories are finite maps

`dirlookup` and `dirlink` of a process alone, on a directory that it has locked. What they see of
the directory is its table of slots, `dirTable`; with names that are pairwise different it is a
finite map from names to inode numbers.
-/

namespace InuOs

open Prog Flat Slots

/-! ## Reading -/

variable {off n k M x : ℕ} {ip : Dinode} {d : Disk} {T : Halt Panic Wait → Prop} {src : List UInt8}
  {s' : State}

namespace Dinode

/-- The bytes of a file. -/
def bytes (ip : Dinode) (d : Disk) : List UInt8 := (List.range ip.size.toNat).map (ip.content d)

/-- The file has no holes. -/
def Whole (ip : Dinode) (d : Disk) : Prop :=
  ∀ bn, bn * bSize < ip.size.toNat → ip.ptr d (place bn) ≠ 0

variable {ip : Dinode} {d : Disk}

theorem length_bytes (ip : Dinode) (d : Disk) : (ip.bytes d).length = ip.size.toNat := by
  rw [bytes, List.length_map, List.length_range]

theorem Whole.size_le (h : ip.Whole d) : ip.size.toNat ≤ maxFile * bSize := by
  by_contra hlt
  refine h maxFile (by omega) (ptr_eq_zero_of_large ?_)
  decide

theorem Whole.covers (h : ip.Whole d) (hend : off + n ≤ ip.size.toNat) : ip.Covers d off n :=
  fun bn _ hlt => h bn (by omega)

end Dinode

namespace Syscall

variable {s : State} {sb : Superblock} {p j bn : ℕ}

/-- `bmap` of a block that is there. -/
theorem runS_bmap (hbn : bn < maxFile) (hptr : (s.icache j).din.ptr s.disk (place bn) ≠ 0)
    (hbuf : ∀ b, s.buf b = none) :
    (bmap sb p j bn).runS s = .ok ((s.icache j).din.ptr s.disk (place bn), s) := by
  rw [bmap]
  by_cases hdir : bn < nDirect
  · have haddr : (s.icache j).din.ptr s.disk (place bn) = (s.icache j).din.addr bn := by
      rw [place, if_pos hdir, Dinode.ptr_direct hdir.le]
    rw [haddr] at hptr ⊢
    rw [if_pos hdir, runS_bind_ok (runS_core ..), if_neg hptr]
    rfl
  · have hle := Nat.le_of_not_lt hdir
    have hplace := place_of_le hle
    have hind : (s.icache j).din.addr nDirect ≠ 0 := fun hzero =>
      hptr (Dinode.ptr_eq_zero_of_indirect (by omega) hzero)
    have hword := Dinode.ptr_place (d := s.disk) hle hbn hind
    rw [hword] at hptr ⊢
    have hm := sub_nDirect_lt hbn
    have hload : (bmapLoad sb p j).runS s = .ok ((s.icache j).din.addr nDirect, s) := by
      rw [bmapLoad, runS_bind_ok (runS_core ..), if_neg hind]
      rfl
    rw [if_neg hdir, if_pos hm, runS_bind_ok hload, bmapEntry, runS_bind_ok (runS_bread (hbuf _)),
      if_neg hptr, runS_bind_ok (runS_brelse (hbuf _))]
    rfl

theorem runS_readiLoop (hmax : off + n ≤ maxFile * bSize)
    (hcovers : (s.icache j).din.Covers s.disk off n) (hbuf : ∀ b, s.buf b = none) :
    (readiLoop sb p j off n).runS s =
      .ok ((List.range n).map fun k => (s.icache j).din.content s.disk (off + k), s) := by
  induction n using Nat.strong_induction_on generalizing off with
  | _ n ih =>
    rw [readiLoop]
    split
    · next hn =>
      subst hn
      rfl
    · next hn =>
      have hpos := chunk_pos hn off
      have hle := chunk_le n off
      have hptr := hcovers (off / bSize) le_rfl (by have := Nat.div_mul_le_self off bSize; omega)
      have hrest : (s.icache j).din.Covers s.disk (off + chunk n off) (n - chunk n off) :=
        fun bn hbn hend =>
          hcovers bn ((Nat.div_le_div_right (Nat.le_add_right ..)).trans hbn) (by omega)
      rw [runS_bind_ok (runS_bmap (div_lt_maxFile hn hmax) hptr hbuf),
        runS_bind_ok (runS_bread (hbuf _)), runS_bind_ok (runS_brelse (hbuf _)),
        runS_bind_ok (ih (n - chunk n off) (by omega) (by omega) hrest),
        slice_eq_content off n hptr]
      simp only [Nat.add_assoc]
      rw [map_range_add (fun k => (s.icache j).din.content s.disk (off + k)) hle]
      rfl

/-- `readi` on a file without holes. -/
theorem runS_readi (hdev : (s.icache j).din.type ≠ tDev) (hwhole : (s.icache j).din.Whole s.disk)
    (hbuf : ∀ b, s.buf b = none) (hend : off + n ≤ (s.icache j).din.size.toNat) :
    (readi sb p j off n).runS s =
      .ok (((n : ℤ), (((s.icache j).din.bytes s.disk).drop off).take n), s) := by
  have hmax := hwhole.size_le
  have hlt : maxFile * bSize < 2 ^ 32 := by decide
  rw [readi, runS_bind_ok (runS_core ..), if_neg hdev, if_neg (by omega), if_neg (by omega),
    runS_bind_ok (runS_readiLoop (by omega) (hwhole.covers hend) hbuf), Dinode.bytes,
    take_drop_map_range, Nat.min_eq_left (by omega)]
  rfl

/-! ## Looking for a name and for an empty slot -/

/-- A directory: entries of 16 bytes, and no holes. -/
structure IsDir (ip : Dinode) (d : Disk) : Prop where
  type : ip.type = tDir
  whole : ip.Whole d
  mul : ip.size.toNat % direntSize = 0

/-- The slots of a directory. -/
abbrev slots (ip : Dinode) (d : Disk) : Table (List UInt8) ℕ := dirTable (ip.bytes d)

theorem IsDir.count (h : IsDir ip d) : direntCount ip = (slots ip d).length := by
  have hmul := h.mul
  rw [slots, length_dirTable, Dinode.length_bytes, direntCount]
  unfold direntSize at hmul ⊢
  omega

/-- Reading one entry. -/
theorem runS_readDirent (h : IsDir (s.icache j).din s.disk) (hbuf : ∀ b, s.buf b = none)
    (hk : k < (slots (s.icache j).din s.disk).length) :
    (readi sb p j (direntSize * k) direntSize).runS s =
      .ok (((direntSize : ℤ), dirent ((s.icache j).din.bytes s.disk) k), s) := by
  have hmul := h.mul
  rw [slots, length_dirTable, Dinode.length_bytes] at hk
  refine runS_readi (by rw [h.type]; decide) h.whole hbuf ?_
  unfold direntSize at hmul hk ⊢
  omega

theorem drop_dirTable {bytes : List UInt8} (hk : k < (dirTable bytes).length) :
    (dirTable bytes).drop k = readDirent (dirent bytes k) :: (dirTable bytes).drop (k + 1) := by
  rw [List.drop_eq_getElem_cons hk]
  congr 1
  rw [length_dirTable] at hk
  exact Option.some.inj ((List.getElem?_eq_getElem _).symm.trans (getElem?_dirTable hk))

theorem runS_dirlookupLoop (h : IsDir (s.icache j).din s.disk) (hbuf : ∀ b, s.buf b = none)
    (name : List UInt8) {count : ℕ} (hk : k + count = (slots (s.icache j).din s.disk).length) :
    (dirlookupLoop sb p j name count (direntSize * k)).runS s =
      .ok ((findFrom (nameKey name) ((slots (s.icache j).din s.disk).drop k) k).map
        fun r => (r.1, direntSize * r.2), s) := by
  induction count generalizing k with
  | zero =>
    rw [List.drop_eq_nil_of_le (by omega)]
    rfl
  | succ count ih =>
    have hlt : k < (slots (s.icache j).din s.disk).length := by omega
    have hnext : direntSize * k + direntSize = direntSize * (k + 1) := (Nat.mul_succ ..).symm
    rw [dirlookupLoop, runS_bind_ok (runS_readDirent h hbuf hlt), slots,
      drop_dirTable hlt, readDirent]
    dsimp only
    rw [if_neg (not_not.mpr rfl), hnext]
    by_cases hzero : direntInum (dirent ((s.icache j).din.bytes s.disk) k) = 0
    · rw [if_pos hzero, if_pos hzero, findFrom]
      exact ih (by omega)
    · rw [if_neg hzero, if_neg hzero, findFrom, namecmpEq_eq]
      by_cases hname : nameKey name =
        nameKey (direntName (dirent ((s.icache j).din.bytes s.disk) k))
      · rw [decide_eq_true hname, if_pos rfl, if_pos hname.symm]
        rfl
      · rw [decide_eq_false hname, if_neg Bool.false_ne_true, if_neg (Ne.symm hname)]
        exact ih (by omega)

theorem runS_dirlinkLoop (h : IsDir (s.icache j).din s.disk)
    (hbuf : ∀ b, s.buf b = none) {count : ℕ}
    (hk : k + count = (slots (s.icache j).din s.disk).length) :
    (dirlinkLoop sb p j count (direntSize * k)).runS s =
      .ok (direntSize * (k + emptySlot ((slots (s.icache j).din s.disk).drop k)), s) := by
  induction count generalizing k with
  | zero =>
    rw [List.drop_eq_nil_of_le (by omega)]
    rfl
  | succ count ih =>
    have hlt : k < (slots (s.icache j).din s.disk).length := by omega
    have hnext : direntSize * k + direntSize = direntSize * (k + 1) := (Nat.mul_succ ..).symm
    rw [dirlinkLoop, runS_bind_ok (runS_readDirent h hbuf hlt), slots,
      drop_dirTable hlt, readDirent]
    dsimp only
    rw [if_neg (not_not.mpr rfl), hnext, emptySlot, List.findIdx_cons]
    by_cases hzero : direntInum (dirent ((s.icache j).din.bytes s.disk) k) = 0
    · rw [if_pos hzero, if_pos hzero]
      rfl
    · rw [if_neg hzero, if_neg hzero, ih (by omega)]
      simp only [emptySlot, Option.isNone_some, cond_false]
      rw [Nat.add_assoc, Nat.add_comm 1]

section Lookup

variable {name : List UInt8} {x n k : ℕ}

section

variable (h : IsDir (s.icache j).din s.disk) (hbuf : ∀ b, s.buf b = none)
include h hbuf

theorem runS_dirlookup (name : List UInt8) :
    (dirlookup sb p j name).runS s =
      (match (findFrom (nameKey name) (slots (s.icache j).din s.disk) 0) with
        | none => (pure none : Code (Option (ℕ × ℕ)))
        | some (x, n) => do
          let i ← iget x
          pure (some (i, direntSize * n))).runS s := by
  have hcount : 0 + direntCount (s.icache j).din = (slots (s.icache j).din s.disk).length := by
    rw [h.count, Nat.zero_add]
  have hloop : (dirlookupLoop sb p j name _ _).runS s = _ := runS_dirlookupLoop h hbuf name hcount
  rw [Nat.mul_zero, List.drop_zero] at hloop
  rw [dirlookup, runS_bind_ok (runS_core ..), if_neg (not_not.mpr h.type), runS_bind_ok hloop]
  cases findFrom (nameKey name) (slots (s.icache j).din s.disk) 0 <;> rfl

/-- The name is not there. -/
theorem runS_dirlookup_none
    (hfind : findFrom (nameKey name) (slots (s.icache j).din s.disk) 0 = none) :
    (dirlookup sb p j name).runS s = .ok (none, s) := by
  rw [runS_dirlookup h hbuf, hfind]
  rfl

/-- The name is in slot `n`, with inode number `x`, for which there is slot `k` of the cache. -/
theorem runS_dirlookup_some
    (hfind : findFrom (nameKey name) (slots (s.icache j).din s.disk) 0 = some (x, n))
    (hslot : igetSlot s x = some k) :
    (dirlookup sb p j name).runS s = .ok (some (k, direntSize * n), s.got k x) := by
  rw [runS_dirlookup h hbuf, hfind]
  exact runS_bind_ok (runS_iget hslot)

/-- `dirlink` of a name that is not there writes to the first empty slot. -/
theorem runS_dirlink_none
    (hfind : findFrom (nameKey name) (slots (s.icache j).din s.disk) 0 = none) (inum : ℕ) :
    (dirlink sb p j name inum).runS s = (do
      let r ← writei sb p j (direntSize * emptySlot (slots (s.icache j).din s.disk))
        (direntBytes inum name)
      if r ≠ direntSize then Prog.fail .dirlink else pure 0 : Code ℤ).runS s := by
  have hcount : 0 + direntCount (s.icache j).din = (slots (s.icache j).din s.disk).length := by
    rw [h.count, Nat.zero_add]
  have hloop : (dirlinkLoop sb p j _ _).runS s = _ := runS_dirlinkLoop h hbuf hcount
  rw [Nat.mul_zero, List.drop_zero, Nat.zero_add] at hloop
  rw [dirlink, runS_bind_ok (runS_dirlookup_none h hbuf hfind)]
  exact (runS_bind_ok (runS_core ..)).trans (runS_bind_ok hloop)

end

end Lookup

/-! ## Storing an entry -/

/-- The finite map of directory `i`. -/
def dirMap (sb : Superblock) (d : Disk) (i : ℕ) : List UInt8 → Option ℕ :=
  lookup (dirTable (fileBytes sb d i))

/-- Slot `j` of the cache has the directory `i` of a sound image. -/
structure OpenDir (sb : Superblock) (s : State) (j i : ℕ) : Prop where
  sound : Sound sb s.disk
  lt : i < sb.ninodes
  ref : 0 < (s.icache j).ref
  inum : (s.icache j).inum = i
  core : (s.icache j).din = sb.dinode s.disk i
  type : (sb.dinode s.disk i).type = tDir
  mul : (sb.dinode s.disk i).size.toNat % direntSize = 0
  buf : ∀ b, s.buf b = none

namespace OpenDir

variable {i : ℕ}

theorem type_ne_zero (h : OpenDir sb s j i) : (sb.dinode s.disk i).type ≠ 0 := by
  rw [h.type]
  decide

theorem type_ne_tDev (h : OpenDir sb s j i) : (sb.dinode s.disk i).type ≠ tDev := by
  rw [h.type]
  decide

theorem isDir (h : OpenDir sb s j i) : IsDir (s.icache j).din s.disk := by
  rw [h.core]
  exact ⟨h.type, h.sound.noHoles i h.lt h.type_ne_zero, h.mul⟩

theorem slots_eq (h : OpenDir sb s j i) :
    slots (s.icache j).din s.disk = dirTable (fileBytes sb s.disk i) := by
  rw [h.core]
  rfl

theorem length_slots (h : OpenDir sb s j i) :
    (slots (s.icache j).din s.disk).length * direntSize = (sb.dinode s.disk i).size.toNat := by
  have hmul := h.mul
  rw [slots, length_dirTable, Dinode.length_bytes, h.core]
  exact Nat.div_mul_cancel (Nat.dvd_of_mod_eq_zero hmul)

/-- What is left of a directory when an entry has been stored. -/
theorem stored {m : ℕ} (h : OpenDir sb s j i) (hn : n ≤ (slots (s.icache j).din s.disk).length)
    (hsrc : src.length = direntSize) (hst : Stored sb s.disk i (direntSize * n) src d ip)
    (hch : Changed T M m j s d ip s') :
    OpenDir sb s' j i ∧ slots (s'.icache j).din s'.disk =
      put (slots (s.icache j).din s.disk) n (readDirent src) := by
  have hlen := h.length_slots
  have hmul := h.mul
  have hsize := hst.size
  obtain ⟨addrs, size, hip⟩ := hst.fields
  obtain rfl := hch.disk
  have hopen : OpenDir sb s' j i := {
    sound := hst.sound
    lt := h.lt
    ref := hch.ref ▸ h.ref
    inum := hch.inum.trans h.inum
    core := hch.din.trans hst.self.symm
    type := by rw [hst.self, hip]; exact h.type
    mul := by
      rw [hst.self, hsize, hsrc, ← hlen, Nat.mul_comm _ direntSize, ← Nat.mul_succ]
      rcases Nat.le_total (direntSize * (slots (s.icache j).din s.disk).length)
        (direntSize * (n + 1)) with hle | hle
      · rw [Nat.max_eq_right hle, Nat.mul_mod_right]
      · rw [Nat.max_eq_left hle, Nat.mul_mod_right]
    buf := by rw [hch.buf]; exact h.buf }
  refine ⟨hopen, ?_⟩
  have hlength : (fileBytes sb s.disk i).length = (sb.dinode s.disk i).size.toNat := by
    rw [fileBytes, List.length_map, List.length_range]
  rw [hopen.slots_eq, h.slots_eq, hst.bytes]
  refine dirTable_writeAt (by rw [hlength]; exact hmul) ?_ hsrc
  rw [← length_dirTable, ← h.slots_eq]
  exact hn

/-- Writing one entry needs room for six blocks at most: the inode, the block of the entry, the
indirect block, and for the latter two a block of the free map. -/
theorem writeEntry_follows (h : OpenDir sb s j i) (hsb : sb.Layout) (hsrc : src.length = direntSize)
    (dev : Devsw) (hfits : Fits T M 6 s) :
    Follows T (writei sb p j (direntSize * n) src) s
      (InuOs.writei sb dev s.disk i (sb.dinode s.disk i) (direntSize * n) src) (Fits T M 1)
      fun r a s' => a = r.2.2 ∧ Changed T M 1 j s r.1 r.2.1 s' := by
  refine Syscall.writei_follows
    (k := 0) h.sound.held hsb h.lt h.type_ne_zero h.type_ne_tDev h.core h.inum
    h.buf dev (hfits.mono ?_)
  have hind := indirectCost_le (sb.dinode s.disk i) s.log.lh
  have hloop := loopCost_le (sb.dinode s.disk i) s.disk (direntSize * n) src.length
  have hturns : turns (direntSize * n) src.length = 1 := by
    rw [hsrc, turns, if_neg (by decide), show bSize = 512 from rfl, show direntSize = 16 from rfl]
    omega
  omega

/-- `iget` leaves the directory as it is, even if it picks its slot. -/
theorem got (h : OpenDir sb s j i) : OpenDir sb (s.got k x) j i := by
  rcases eq_or_ne j k with rfl | hne
  · have hgot : (s.got j x).icache j = { s.icache j with ref := (s.icache j).ref + 1 } := by
      rw [State.got, State.setInode_self, gotInode, if_pos h.ref]
    exact { h with
      ref := by rw [hgot]; exact Nat.succ_pos _
      inum := by rw [hgot]; exact h.inum
      core := by rw [hgot]; exact h.core }
  · have hgot : (s.got k x).icache j = s.icache j := State.setInode_of_ne _ _ hne
    exact { h with
      ref := hgot ▸ h.ref
      inum := hgot ▸ h.inum
      core := hgot ▸ h.core }

/-- There is a place for an entry: an empty slot, or a new one at the end if that is not too far and
there are free blocks for it. -/
def CanTake (sb : Superblock) (d : Disk) (i : ℕ) : Prop :=
  (∃ n : ℕ, (dirTable (fileBytes sb d i))[n]? = some none) ∨
    (sb.dinode d i).size.toNat + direntSize ≤ maxFile * bSize ∧
      ((sb.dinode d i).missing d (rangePlaces (sb.dinode d i).size.toNat direntSize)).card ≤
        (freeBlocks sb d).card

/-- An entry is written over another one, or where there is a place for it. -/
theorem writeEntry (h : OpenDir sb s j i) (hsb : sb.Layout)
    (hn : n ≤ (slots (s.icache j).din s.disk).length) (hsrc : src.length = direntSize)
    (hmax : direntSize * n + direntSize ≤ maxFile * bSize)
    (hfree : ((sb.dinode s.disk i).missing s.disk (rangePlaces (direntSize * n) direntSize)).card ≤
      (freeBlocks sb s.disk).card)
    (hroom : Room M 6 s) :
    ∃ s', (writei sb p j (direntSize * n) src).runS s = .ok ((direntSize : ℤ), s') ∧
      (OpenDir sb s' j i ∧
        slots (s'.icache j).din s'.disk = put (slots (s.icache j).din s.disk) n (readDirent src)) ∧
      ∃ ip, s'.icache = Function.update s.icache j { s.icache j with din := ip } := by
  have hlen := h.length_slots
  have hbound : maxFile * bSize < 2 ^ 32 := by decide
  have hoff : direntSize * n ≤ (sb.dinode s.disk i).size.toNat := by
    rw [← hlen, Nat.mul_comm]
    exact Nat.mul_le_mul_right _ hn
  obtain ⟨d, ip, hwrite, hst⟩ := writei_total hsb h.sound h.lt h.type_ne_zero h.type_ne_tDev
    ⟨fun _ => none, fun _ => none⟩ (direntSize * n) src (by rw [hsrc]; omega)
    (by rw [hsrc]; exact hfree)
  have hfits : Fits (fun _ => False) M 6 s := .inr hroom
  obtain ⟨a, s', hrun, ha, hch⟩ := (h.writeEntry_follows hsb hsrc _ hfits).exists_ok hwrite
  refine ⟨s', ?_, h.stored hn hsrc hst hch, _, hch.icache⟩
  rw [hrun, ha, hsrc]

/-- `dirlink` of a name that is not there. -/
theorem dirlink_new (h : OpenDir sb s j i) (hsb : sb.Layout) (name : List UInt8) (inum : ℕ)
    (hnew : dirMap sb s.disk i (nameKey name) = none) (htake : CanTake sb s.disk i)
    (hroom : Room M 6 s) (hpos : 0 < inum) (hlt : inum < 2 ^ 16) :
    ∃ s', (dirlink sb p j name inum).runS s = .ok (0, s') ∧
      (OpenDir sb s' j i ∧ slots (s'.icache j).din s'.disk = put (slots (s.icache j).din s.disk)
        (emptySlot (slots (s.icache j).din s.disk)) (some (nameKey name, inum))) ∧
      ∃ ip, s'.icache = Function.update s.icache j { s.icache j with din := ip } := by
  have hfind : findFrom (nameKey name) (slots (s.icache j).din s.disk) 0 = none := by
    rw [h.slots_eq]
    exact Option.map_eq_none_iff.mp hnew
  have hlen := h.length_slots
  have hle := emptySlot_le (slots (s.icache j).din s.disk)
  have hplace : direntSize * emptySlot (slots (s.icache j).din s.disk) + direntSize ≤
      maxFile * bSize ∧
      ((sb.dinode s.disk i).missing s.disk
        (rangePlaces (direntSize * emptySlot (slots (s.icache j).din s.disk)) direntSize)).card ≤
          (freeBlocks sb s.disk).card := by
    rcases Nat.lt_or_eq_of_le hle with hinside | hend
    · have hend : direntSize * emptySlot (slots (s.icache j).din s.disk) + direntSize ≤
          (sb.dinode s.disk i).size.toNat := by
        rw [← hlen, Nat.mul_comm _ direntSize, ← Nat.mul_succ]
        exact Nat.mul_le_mul_left _ hinside
      refine ⟨hend.trans (h.sound.size_le h.lt h.type_ne_zero), ?_⟩
      rw [h.sound.missing_eq_empty h.lt h.type_ne_zero hend, Finset.card_empty]
      exact Nat.zero_le _
    · rw [hend, Nat.mul_comm, hlen]
      refine htake.resolve_left ?_
      rintro ⟨n, hn⟩
      rw [← h.slots_eq] at hn
      exact absurd (emptySlot_lt hn) (by omega)
  obtain ⟨s', hrun, hstored, hcache⟩ := h.writeEntry (p := p) hsb hle (length_direntBytes inum name)
    hplace.1 hplace.2 hroom
  rw [readDirent_direntBytes hpos hlt] at hstored
  refine ⟨s', ?_, hstored, hcache⟩
  rw [runS_dirlink_none h.isDir h.buf hfind, runS_bind_ok hrun, if_neg (not_not.mpr rfl)]
  rfl

/-- Clearing the entry that `dirlookup` has found. -/
theorem clear {name : List UInt8} (h : OpenDir sb s j i) (hsb : sb.Layout)
    (hfind : findFrom (nameKey name) (slots (s.icache j).din s.disk) 0 = some (x, n))
    (hroom : Room M 6 s) :
    ∃ s', (writei sb p j (direntSize * n) (List.replicate direntSize 0)).runS s =
        .ok ((direntSize : ℤ), s') ∧ OpenDir sb s' j i ∧
      slots (s'.icache j).din s'.disk = put (slots (s.icache j).din s.disk) n none := by
  have hn : n < (slots (s.icache j).din s.disk).length :=
    (List.getElem?_eq_some_iff.mp (getElem?_of_findFrom hfind).2).1
  have hend : direntSize * n + direntSize ≤ (sb.dinode s.disk i).size.toNat := by
    rw [← h.length_slots, Nat.mul_comm _ direntSize, ← Nat.mul_succ]
    exact Nat.mul_le_mul_left _ hn
  have hfree := h.sound.missing_eq_empty h.lt h.type_ne_zero hend
  obtain ⟨s', hrun, hstored, -⟩ := h.writeEntry (p := p) hsb hn.le
    (List.length_replicate (a := (0 : UInt8))) (hend.trans (h.sound.size_le h.lt h.type_ne_zero))
    (by rw [hfree, Finset.card_empty]; exact Nat.zero_le _) hroom
  exact ⟨s', hrun, hstored⟩

end OpenDir

/-! ## Directories refine finite maps -/

/-- `dirlookup` yields `r`: nothing, or the slot of the inode with that number, and leaves the disk
as it is. -/
def Yields (sb : Superblock) (p : ℕ) (s : State) (j : ℕ) (name : List UInt8) : Option ℕ → Prop
  | none => (dirlookup sb p j name).run s = .ok (none, s)
  | some x =>
    ∀ k, igetSlot s x = some k → ∃ off s', (dirlookup sb p j name).run s = .ok (some (k, off), s') ∧
      (s'.icache k).inum = x ∧ s'.disk = s.disk

theorem inum_got (h : igetSlot s x = some k) : ((s.got k x).icache k).inum = x := by
  rw [State.got, State.setInode_self, gotInode]
  rcases (igetSlot_spec h).2 with ⟨href, hinum⟩ | ⟨href, -⟩
  · rw [if_pos href]
    exact hinum
  · rw [if_neg (by omega)]

section Refinement

variable {i : ℕ} {name : List UInt8}

theorem IsDir.yields (h : IsDir (s.icache j).din s.disk) (hbuf : ∀ b, s.buf b = none)
    (hcore : (s.icache j).din = sb.dinode s.disk i) (name : List UInt8) :
    Yields sb p s j name (dirMap sb s.disk i (nameKey name)) := by
  have hslots : dirTable (fileBytes sb s.disk i) = slots (s.icache j).din s.disk := by
    rw [hcore]
    rfl
  rw [dirMap, hslots, lookup]
  rcases hfind : findFrom (nameKey name) (slots (s.icache j).din s.disk) 0 with _ | ⟨x, n⟩
  · exact run_of_runS_ok (runS_dirlookup_none h hbuf hfind)
  · intro k hk
    exact ⟨_, _, run_of_runS_ok (runS_dirlookup_some h hbuf hfind hk), inum_got hk, rfl⟩

theorem OpenDir.yields (h : OpenDir sb s j i) (name : List UInt8) :
    Yields sb p s j name (dirMap sb s.disk i (nameKey name)) :=
  h.isDir.yields h.buf h.core name

/-- A well-formed directory whose map is `f`. -/
structure Refines (sb : Superblock) (s : State) (j i : ℕ) (f : List UInt8 → Option ℕ) : Prop where
  isOpen : OpenDir sb s j i
  distinct : Distinct (dirTable (fileBytes sb s.disk i))
  map : dirMap sb s.disk i = f

theorem OpenDir.refines {t : Table (List UInt8) ℕ} {f : List UInt8 → Option ℕ}
    (h : OpenDir sb s' j i)
    (hslots : slots (s'.icache j).din s'.disk = t) (ht : Distinct t ∧ lookup t = f) :
    Refines sb s' j i f := by
  rw [h.slots_eq] at hslots
  rw [← hslots] at ht
  exact ⟨h, ht.1, ht.2⟩

theorem lock_gotInode (s : State) (k x : ℕ) : (gotInode s k x).lock = (s.icache k).lock := by
  rw [gotInode]
  split <;> rfl

/-- The reference that `iget` gives is not the last one, or the inode has not been read. -/
theorem gotInode_keeps (s : State) (k x : ℕ) :
    ¬ ((gotInode s k x).valid = true ∧ (gotInode s k x).din.nlink = 0 ∧
      (gotInode s k x).ref = 1) := by
  rw [gotInode]
  split
  · rintro ⟨-, -, href⟩
    dsimp only at href
    omega
  · simp

/-- `dirlink` of a name that is there, called with the lock of the directory, returns -1 and changes
nothing exactly if the inode found has a slot in the cache and the process does not hold its lock. A
lock that another process holds only delays it. -/
theorem OpenDir.dirlink_old_iff (h : OpenDir sb s j i)
    (hx : dirMap sb s.disk i (nameKey name) = some x)
    (hlock : (s.icache j).lock = some p) (inum : ℕ) :
    (∃ s', (dirlink sb p j name inum).runAmong (letGo p) s = .ok (-1, s') ∧ s'.disk = s.disk ∧
      s'.icache j = s.icache j) ↔ ∃ k, igetSlot s x = some k ∧ (s.icache k).lock ≠ some p := by
  obtain ⟨⟨y, n⟩, hfind, rfl⟩ := Option.map_eq_some_iff.mp hx
  rw [← h.slots_eq] at hfind
  cases hk : igetSlot s y with
  | none =>
    have hlookup : (dirlookup sb p j name).runS s = _ := runS_dirlookup h.isDir h.buf name
    rw [hfind] at hlookup
    have hlink : (dirlink sb p j name inum).runS s = _ :=
      runS_bind_error (hlookup.trans (runS_bind_error (runS_iget_none hk)))
    simp [runAmong_of_runS_fail hlink]
  | some k =>
    have hgot : (s.got k y).icache k = gotInode s k y := State.setInode_self ..
    rw [dirlink, runAmong_bind_ok (runS_dirlookup_some h.isDir h.buf hfind hk)]
    constructor
    · rintro ⟨s', hrun, -⟩
      refine ⟨k, rfl, fun hown => ?_⟩
      rw [← lock_gotInode s k y, ← hgot] at hown
      rw [runAmong_bind, runAmong_iput_stuck hown] at hrun
      cases hrun
    · rintro ⟨_, hslot, hother⟩
      obtain rfl := Option.some.inj hslot
      have hne : j ≠ k := fun hjk => hother (hjk ▸ hlock)
      rw [← lock_gotInode s k y, ← hgot] at hother
      rw [runAmong_bind, runAmong_iput hother (by rw [hgot]; exact gotInode_keeps s k y)]
      exact ⟨_, rfl, rfl, (State.setInode_of_ne _ _ hne).trans (State.setInode_of_ne _ _ hne)⟩

/-- **Directories refine finite maps.** On a directory whose names are different, `dirlookup` yields
the values of its map. `dirlink` is called with the lock of the directory. If the name is there, it
returns -1 and changes nothing exactly if the inode found has a slot in the cache and the process
does not hold its lock itself, so that it is not the directory; a lock that another process holds
only delays it. If the name is not there, it returns 0 and the map is updated. Writing zeros to the
offset that `dirlookup` has reported removes the name. -/
theorem dirlink_refines (sb : Superblock) (hsb : sb.Layout) (s : State) (p j i M : ℕ)
    (f : List UInt8 → Option ℕ) (h : Refines sb s j i f) (hroom : Room M 6 s) (name : List UInt8) :
    Yields sb p s j name (f (nameKey name)) ∧
    (∀ inum, 0 < inum → inum < 2 ^ 16 →
      (∀ x, f (nameKey name) = some x → (s.icache j).lock = some p →
        ((∃ s', (dirlink sb p j name inum).runAmong (letGo p) s = .ok (-1, s') ∧ s'.disk = s.disk ∧
            s'.icache j = s.icache j) ↔
          ∃ k, igetSlot s x = some k ∧ (s.icache k).lock ≠ some p)) ∧
      (f (nameKey name) = none → OpenDir.CanTake sb s.disk i →
        ∃ s', (dirlink sb p j name inum).run s = .ok (0, s') ∧
          Refines sb s' j i (Function.update f (nameKey name) (some inum)) ∧
          ∀ name', Yields sb p s' j name'
            (Function.update f (nameKey name) (some inum) (nameKey name')))) ∧
    ∀ k off s₁, (dirlookup sb p j name).run s = .ok (some (k, off), s₁) →
      ∃ s', (writei sb p j off (List.replicate direntSize 0)).run s₁ = .ok ((direntSize : ℤ), s') ∧
        Refines sb s' j i (Function.update f (nameKey name) none) ∧
        ∀ name', Yields sb p s' j name'
          (Function.update f (nameKey name) none (nameKey name')) := by
  obtain ⟨hopen, hdistinct, rfl⟩ := h
  have hslots := hopen.slots_eq
  refine ⟨hopen.yields name, fun inum hpos hlt =>
    ⟨fun x hx hlock => hopen.dirlink_old_iff hx hlock inum, fun hnew htake => ?_⟩,
    fun k off s₁ hfound => ?_⟩
  · obtain ⟨s', hrun, ⟨hopen', hput⟩, -⟩ :=
      hopen.dirlink_new (p := p) hsb name inum hnew htake hroom hpos hlt
    rw [hslots] at hput
    have href := hopen'.refines hput (lookup_put hdistinct (emptySlot_le _)
      (fun e he => eq_none_of_getElem?_emptySlot he) hnew)
    refine ⟨s', run_of_runS_ok hrun, href, fun name' => ?_⟩
    have hyields := hopen'.yields (p := p) name'
    rwa [href.map] at hyields
  · rcases hfind : findFrom (nameKey name) (slots (s.icache j).din s.disk) 0 with _ | ⟨x, n⟩
    · rw [run_of_runS_ok (runS_dirlookup_none hopen.isDir hopen.buf hfind)] at hfound
      cases hfound
    · rcases hk : igetSlot s x with _ | k'
      · have hrun : (dirlookup sb p j name).runS s = _ := runS_dirlookup hopen.isDir hopen.buf name
        rw [hfind] at hrun
        rw [run_of_runS_error (hrun.trans (runS_bind_error (runS_iget_none hk)))] at hfound
        cases hfound
      · rw [run_of_runS_ok (runS_dirlookup_some hopen.isDir hopen.buf hfind hk)] at hfound
        obtain ⟨hpair, rfl⟩ := Prod.mk.inj (Except.ok.inj hfound)
        obtain ⟨rfl, rfl⟩ := Prod.mk.inj (Option.some.inj hpair)
        have hgot : OpenDir sb (s.got k' x) j i := hopen.got
        have hfind' : findFrom (nameKey name)
          (slots ((s.got k' x).icache j).din (s.got k' x).disk) 0 =
            some (x, n) := by
          rw [hgot.slots_eq, ← hfind, hslots]
          rfl
        have hroom' : Room M 6 (s.got k' x) := hroom.congr rfl le_rfl
        obtain ⟨s', hrun, hopen', hput⟩ := hgot.clear (p := p) hsb hfind' hroom'
        have hentry := (getElem?_of_findFrom hfind').2
        rw [hgot.slots_eq] at hput hentry
        have href := hopen'.refines hput (lookup_clear hdistinct hentry)
        refine ⟨s', run_of_runS_ok hrun, href, fun name' => ?_⟩
        have hyields := hopen'.yields (p := p) name'
        rwa [href.map] at hyields

/-- `dirlink` of the name of the directory itself waits for the lock that the caller holds. -/
theorem OpenDir.dirlink_self (h : OpenDir sb s j i)
    (hself : dirMap sb s.disk i (nameKey name) = some i)
    (hslot : igetSlot s i = some j) (hlock : (s.icache j).lock ≠ none) (inum : ℕ) :
    (dirlink sb p j name inum).run s = .error (.stuck (.inode j)) := by
  obtain ⟨⟨x, n⟩, hfind, hx⟩ := Option.map_eq_some_iff.mp hself
  obtain rfl : x = i := hx
  rw [← h.slots_eq] at hfind
  have hlock' : ((s.got j x).icache j).lock ≠ none := by
    rw [State.got, State.setInode_self, gotInode, if_pos h.ref]
    exact hlock
  have hrun : (dirlink sb p j name inum).runS s =
      .error (.stuck (.inode j), (s.got j x).emit .iput) :=
    (runS_bind_ok (runS_dirlookup_some h.isDir h.buf hfind hslot)).trans
      (runS_bind_error (runS_iput_stuck hlock'))
  exact run_of_runS_error hrun

/-- A root directory without entries. -/
def emptyRoot : Dinode := { Fs.freshDinode tDir with nlink := 1 }

/-- Process 0 has the root directory locked, in a log operation. -/
def lockedRoot : State :=
  { openRoot with
    disk := mkfsSuperblock.putDinode (emptyImage mkfsSuperblock) 1 emptyRoot
    log := ⟨2, 30, 1, false, []⟩
    icache := fun j =>
      if j = 0 then ⟨1, 2, some 0, true, emptyRoot⟩ else ⟨0, 0, none, false, Fs.freshDinode 0⟩ }

theorem refines_lockedRoot : Refines mkfsSuperblock lockedRoot 0 1 fun _ => none := by
  have hroot : mkfsSuperblock.dinode lockedRoot.disk 1 = emptyRoot :=
    (Superblock.dinode_putDinode ..).trans (if_pos rfl)
  have hbytes : fileBytes mkfsSuperblock lockedRoot.disk 1 = [] := by
    rfl
  refine ⟨⟨sound_putDinode_emptyImage
    ⟨fun k hk => ?_, rfl⟩, by decide, by decide, rfl, hroot.symm, ?_, ?_, fun _ => rfl⟩, ?_, ?_⟩
  · simp [Dinode.addr, emptyRoot, Fs.freshDinode]
  · rfl
  · rfl
  · intro m n k v w hm
    cases hm
  · rfl

theorem canTake_lockedRoot : OpenDir.CanTake mkfsSuperblock lockedRoot.disk 1 := by
  have hroot : mkfsSuperblock.dinode lockedRoot.disk 1 = emptyRoot :=
    (Superblock.dinode_putDinode ..).trans (if_pos rfl)
  have hfree : 999 ∈ freeBlocks mkfsSuperblock lockedRoot.disk := by
    refine Finset.mem_filter.mpr ⟨Finset.mem_range.mpr (by decide), ?_⟩
    decide
  refine .inr ⟨by rw [hroot]; decide, ?_⟩
  exact (Finset.card_filter_le _ _).trans (Finset.card_pos.mpr ⟨999, hfree⟩)

theorem room_lockedRoot : Room 29 6 lockedRoot := ⟨by decide, by decide, by decide, by decide⟩

/-- The entry `.` of a new directory. -/
theorem dirlink_refines_dot :
    Yields mkfsSuperblock 0 lockedRoot 0 dot none ∧
    ∃ s', (dirlink mkfsSuperblock 0 0 dot 1).run lockedRoot = .ok (0, s') ∧
      Refines mkfsSuperblock s' 0 1 (Function.update (fun _ => none) (nameKey dot) (some 1)) ∧
      Yields mkfsSuperblock 0 s' 0 dot (some 1) := by
  obtain ⟨hyields, hlink, -⟩ :=
    dirlink_refines mkfsSuperblock layout_mkfsSuperblock lockedRoot 0 0 1 29
    (fun _ => none) refines_lockedRoot room_lockedRoot dot
  obtain ⟨s', hrun, href, hall⟩ := (hlink 1 (by decide) (by decide)).2 rfl canTake_lockedRoot
  refine ⟨hyields, s', hrun, href, ?_⟩
  have hdot := hall dot
  rwa [Function.update_self] at hdot

/-- **A directory that has an entry for itself.** Process 0 holds the lock of the root directory,
whose only name is `.`, and calls `dirlink` for that name again. It does not return -1: it waits for
ever for the lock that it holds itself. -/
theorem dirlink_dot_stuck :
    ∃ s, Refines mkfsSuperblock s 0 1 (Function.update (fun _ => none) (nameKey dot) (some 1)) ∧
      (s.icache 0).lock = some 0 ∧
      (dirlink mkfsSuperblock 0 0 dot 5).run s = .error (.stuck (.inode 0)) := by
  have hlocked := refines_lockedRoot
  obtain ⟨s, -, ⟨hopen, hput⟩, ip, hcache⟩ :=
    hlocked.isOpen.dirlink_new (p := 0) layout_mkfsSuperblock
    dot 1 (by rw [hlocked.map]) canTake_lockedRoot room_lockedRoot (by decide) (by decide)
  have href := hopen.refines hput (lookup_put hlocked.distinct (emptySlot_le _)
    (fun e he => eq_none_of_getElem?_emptySlot he) (congrFun hlocked.map _))
  have hself : s.icache 0 = ⟨1, 2, some 0, true, ip⟩ := by
    rw [hcache, Function.update_self]
    rfl
  have hslot : igetSlot s 1 = some 0 := by
    rw [igetSlot, nInode, List.range_succ_eq_map, List.find?_cons, hself]
    rfl
  refine ⟨s, href, by rw [hself], hopen.dirlink_self ?_ hslot (by rw [hself]; simp) 5⟩
  rw [href.map, Function.update_self]

end Refinement

end Syscall

end InuOs
