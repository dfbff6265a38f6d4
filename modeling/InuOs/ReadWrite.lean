import InuOs.BlockRun

/-!
# Reads return what was written

`readi` and `writei` refine a flat array of bytes. On a sound image (`Sound`: every block is held
once, the free map agrees, and no file has a hole below its size) the bytes of inode `i` are the
list `fileBytes sb d i`. `readi` returns a range of it; `writei` overwrites a range of it
(`Flat.writeAt`) and leaves all other files as they are.
-/

namespace InuOs

open Flat

variable {sb : Superblock} {d : Disk} {i n : ℕ} {ip : Dinode}

/-! ## Sound images -/

/-- Every block is held once and the free map agrees, and no file has a hole below its size. -/
structure Sound (sb : Superblock) (d : Disk) : Prop where
  held : Held sb (sb.dinode d) d
  noHoles : ∀ i < sb.ninodes, (sb.dinode d i).type ≠ 0 →
    ∀ bn, bn * bSize < (sb.dinode d i).size.toNat → (sb.dinode d i).ptr d (place bn) ≠ 0

/-- The bytes of file `i`. -/
def fileBytes (sb : Superblock) (d : Disk) (i : ℕ) : List UInt8 :=
  (List.range (sb.dinode d i).size.toNat).map ((sb.dinode d i).content d)

namespace Sound

section

variable (h : Sound sb d) (hi : i < sb.ninodes) (htype : (sb.dinode d i).type ≠ 0)
include h hi htype

theorem size_le :
    (sb.dinode d i).size.toNat ≤ maxFile * bSize := by
  by_contra hlt
  refine h.noHoles i hi htype maxFile (by omega) (Dinode.ptr_eq_zero_of_large ?_)
  decide

theorem covers {off : ℕ} (hend : off + n ≤ (sb.dinode d i).size.toNat) :
    (sb.dinode d i).Covers d off n :=
  fun bn _ hlt => h.noHoles i hi htype bn (by omega)

/-- Nothing is missing below the size. -/
theorem missing_eq_empty {off : ℕ} (hend : off + n ≤ (sb.dinode d i).size.toNat) :
    (sb.dinode d i).missing d (rangePlaces off n) = ∅ :=
  (h.covers hi htype hend).missing_eq_empty

end

theorem of_wellFormed (h : WellFormed sb d)
    (hsize : ∀ i < sb.ninodes, (sb.dinode d i).type ≠ 0 →
      (sb.dinode d i).size.toNat ≤ maxFile * bSize) : Sound sb d where
  held := h.held
  noHoles i hi htype bn hbn := by
    have hle := hsize i hi htype
    exact (h.slots i hi htype bn (lt_of_mul_lt_mul_right (by omega) (Nat.zero_le bSize))).mpr
      (lt_blocks_iff.mpr hbn)

end Sound

/-- What `writei` leaves behind when it returns the number of bytes. -/
structure Stored (sb : Superblock) (d : Disk) (i off : ℕ) (src : List UInt8) (d' : Disk)
    (ip : Dinode) : Prop where
  sound : Sound sb d'
  self : sb.dinode d' i = ip
  fields : ∃ addrs size, ip = { sb.dinode d i with addrs := addrs, size := size }
  size : ip.size.toNat = max (sb.dinode d i).size.toNat (off + src.length)
  bytes : fileBytes sb d' i = writeAt (fileBytes sb d i) off src
  dinode_other : ∀ j < sb.ninodes, j ≠ i → sb.dinode d' j = sb.dinode d j
  bytes_other : ∀ j < sb.ninodes, (sb.dinode d j).type ≠ 0 → j ≠ i →
    fileBytes sb d' j = fileBytes sb d j
  budget : ∀ T, rangePlaces off src.length ⊆ T → Budget sb T (sb.dinode d i) d ip d'

/-- The loop has ended, and the disk has caught up. -/
theorem Wrote.stored {off stop : ℕ} {src : List UInt8} {d₁ d' : Disk} {ip₁ : Dinode}
    (hw : Wrote sb (sb.dinode d) d i off src (d₁, ip₁, stop)) (h : Sound sb d)
    (hs : Settled sb d i d₁ ip₁ d' ip) (hi : i < sb.ninodes) (htype : (sb.dinode d i).type ≠ 0)
    (hoff : off ≤ (sb.dinode d i).size.toNat)
    (hfields : ∃ addrs size, ip = { sb.dinode d i with addrs := addrs, size := size })
    (hsize : ip.size.toNat = max (sb.dinode d i).size.toNat (off + src.length)) :
    Stored sb d i off src d' ip := by
  refine ⟨⟨hs.held, fun j hj ht bn hbn => ?_⟩, hs.self, hfields, hsize, ?_, hs.dinode_other,
    fun j hj ht hne => ?_, fun T hT => ?_⟩
  · rcases eq_or_ne j i with rfl | hne
    · rw [hs.self, hsize] at hbn
      rw [hs.self, hs.ptr]
      by_cases hin : bn * bSize < (sb.dinode d j).size.toNat
      · have hold := h.noHoles j hi htype bn hin
        rwa [hw.keep _ hold]
      · exact hw.covers (by omega) bn
          (Nat.div_le_of_le_mul (by rw [Nat.mul_comm]; omega)) (by omega)
    · rw [hs.dinode_other j hj hne] at ht hbn ⊢
      rw [(hs.other j hj ht hne).1, hw.other j hj ht hne]
      exact h.noHoles j hj ht bn hbn
  · rw [fileBytes, hs.self, hsize, hs.content, hw.content, map_range_splice _ _ hoff, fileBytes]
  · rw [fileBytes, fileBytes, hs.dinode_other j hj hne, (hs.other j hj ht hne).2,
      hw.content_other j hj ht hne]
  · have hbudget := hw.budget T hT
    have hmissing : ip.missing d' T = ip₁.missing d₁ T :=
      Finset.filter_congr fun k _ => by rw [hs.ptr]
    rwa [Budget, hs.free, hmissing]

/-! ## `readi` and `writei` -/

section Refinement

variable (hsb : sb.Layout) (h : Sound sb d) (hi : i < sb.ninodes)
  (htype : (sb.dinode d i).type ≠ 0) (hdev : (sb.dinode d i).type ≠ tDev) (dev : Devsw)

include h hi htype hdev

theorem readi_total (off n : ℕ) :
    readi sb dev d (sb.dinode d i) off n = .ok (d, sb.dinode d i,
      if (sb.dinode d i).size.toNat < off ∨ 2 ^ 32 ≤ off + n then (-1, [])
      else (((min n ((sb.dinode d i).size.toNat - off) : ℕ) : ℤ),
        ((fileBytes sb d i).drop off).take n)) := by
  have hmax := h.size_le hi htype
  rw [readi, if_neg hdev]
  split
  · rfl
  · next hok =>
    have hn :
      (if (sb.dinode d i).size.toNat < off + n then (sb.dinode d i).size.toNat - off else n) =
        min n ((sb.dinode d i).size.toNat - off) := by
      split <;> omega
    dsimp only
    rw [hn, readiLoop_total off _ (by omega) (h.covers hi htype (by omega)), fileBytes,
      take_drop_map_range]
    rfl

omit h hi htype in
/-- A `writei` that begins behind the end of the file, or that makes the file too long. -/
theorem writei_of_out {off : ℕ} {src : List UInt8}
    (hout : (sb.dinode d i).size.toNat < off ∨ 2 ^ 32 ≤ off + src.length ∨
      maxFile * bSize < off + src.length) :
    writei sb dev d i (sb.dinode d i) off src = .ok (d, sb.dinode d i, -1) := by
  rw [writei, if_neg hdev]
  rcases hout with hoff | hwrap | hfit
  · rw [if_pos (.inl hoff)]
    rfl
  · rw [if_pos (.inr hwrap)]
    rfl
  · rw [if_pos hfit, ite_self]
    rfl

include hsb

section

variable (off : ℕ) (src : List UInt8)
  (hok : ¬ ((sb.dinode d i).size.toNat < off ∨ 2 ^ 32 ≤ off + src.length ∨
    maxFile * bSize < off + src.length))
include off src hok

/-- A `writei` in the range of the file fails only if there are too few free blocks. -/
theorem writei_stored :
    Meets (writei sb dev d i (sb.dinode d i) off src)
      (Short sb d (sb.dinode d i) (rangePlaces off src.length)) fun r =>
      r.2.2 = (src.length : ℤ) ∧ Stored sb d i off src r.1 r.2.1 := by
  obtain ⟨hoff, hwrap, hfit⟩ : ¬ (sb.dinode d i).size.toNat < off ∧ ¬ 2 ^ 32 ≤ off + src.length ∧
      ¬ maxFile * bSize < off + src.length := by
    simpa only [not_or] using hok
  rw [writei, if_neg hdev, if_neg (by simp only [not_or]; exact ⟨hoff, hwrap⟩), if_neg hfit]
  refine (writeiLoop_wrote h.held hsb hi htype off src (by omega)).bind ?_
  rintro ⟨d₁, ip, stop⟩ hw
  obtain rfl : stop = off + src.length := hw.stop
  obtain ⟨addrs, hfields⟩ := hw.fields
  obtain rfl : ip = { sb.dinode d i with addrs := addrs } := hfields
  dsimp only
  split
  · next hgrow =>
    refine Meets.pure
      ⟨rfl, hw.stored h (hw.settled_iupdate hsb hi htype rfl rfl) hi htype (by omega)
      ⟨_, _, rfl⟩ ?_⟩
    rw [UInt32.toNat_ofNat', Nat.mod_eq_of_lt (by omega), max_eq_right hgrow.2.le]
  · have hin : off + src.length ≤ (sb.dinode d i).size.toNat := by omega
    have hsame := hw.same (h.covers hi htype hin)
    dsimp only at hsame
    rw [hsame] at hw ⊢
    exact Meets.pure ⟨rfl, hw.stored h (hw.settled hsb hi) hi htype (by omega) ⟨_, _, rfl⟩
      (max_eq_left hin).symm⟩

theorem writei_total (hfree : ((sb.dinode d i).missing d (rangePlaces off src.length)).card ≤
      (freeBlocks sb d).card) :
    ∃ d' ip, writei sb dev d i (sb.dinode d i) off src = .ok (d', ip, (src.length : ℤ)) ∧
      Stored sb d i off src d' ip := by
  obtain ⟨⟨d', ip, r⟩, heq, hr, hstored⟩ :=
    (writei_stored hsb h hi htype hdev dev off src hok).exists_ok
      fun _ hshort => Nat.not_lt.mpr hfree hshort.2
  obtain rfl : r = (src.length : ℤ) := hr
  exact ⟨d', ip, heq, hstored⟩

end

end Refinement

/-- **Reads return what was written.** On a sound image, `readi` and `writei` of an inode that is no
device work on the list of its bytes. `readi` returns the bytes of the range that are there, or
fails behind the end of the file; `writei` overwrites the range, or fails and changes nothing. No
other file changes, and the image stays sound. -/
theorem readi_writei_flat (sb : Superblock) (hsb : sb.Layout) (d : Disk) (h : Sound sb d) (i : ℕ)
    (hi : i < sb.ninodes) (htype : (sb.dinode d i).type ≠ 0) (hdev : (sb.dinode d i).type ≠ tDev)
    (dev : Devsw) :
    (∀ off n, readi sb dev d (sb.dinode d i) off n = .ok (d, sb.dinode d i,
      if (sb.dinode d i).size.toNat < off ∨ 2 ^ 32 ≤ off + n then (-1, [])
      else (((min n ((sb.dinode d i).size.toNat - off) : ℕ) : ℤ),
        ((fileBytes sb d i).drop off).take n))) ∧
    ∀ off (src : List UInt8),
      ((sb.dinode d i).size.toNat < off ∨ 2 ^ 32 ≤ off + src.length ∨
          maxFile * bSize < off + src.length →
        writei sb dev d i (sb.dinode d i) off src = .ok (d, sb.dinode d i, -1)) ∧
      (¬ ((sb.dinode d i).size.toNat < off ∨ 2 ^ 32 ≤ off + src.length ∨
          maxFile * bSize < off + src.length) →
        ((sb.dinode d i).missing d (rangePlaces off src.length)).card ≤ (freeBlocks sb d).card →
        ∃ d' ip, writei sb dev d i (sb.dinode d i) off src = .ok (d', ip, (src.length : ℤ)) ∧
          Stored sb d i off src d' ip) := by
  exact ⟨readi_total h hi htype hdev dev, fun off src => ⟨writei_of_out hdev dev,
    writei_total hsb h hi htype hdev dev off src⟩⟩

/-- An image with mkfs's super block and one file, which is empty. -/
def oneFile : Disk := mkfsSuperblock.putDinode (emptyImage mkfsSuperblock) 1 (Fs.freshDinode 2)

theorem dinode_oneFile (j : ℕ) : mkfsSuperblock.dinode oneFile j =
    if j = 1 then Fs.freshDinode 2 else mkfsSuperblock.dinode (emptyImage mkfsSuperblock) j :=
  Superblock.dinode_putDinode ..

/-- An image with an inode that is empty. -/
theorem sound_putDinode_emptyImage (hip : ip.Empty) :
    Sound mkfsSuperblock (mkfsSuperblock.putDinode (emptyImage mkfsSuperblock) 1 ip) := by
  have hsb := layout_mkfsSuperblock
  have hwf : WellFormed mkfsSuperblock
      (mkfsSuperblock.putDinode (emptyImage mkfsSuperblock) 1 ip) :=
    (wellFormed_emptyImage hsb).putDinode_empty hsb (by decide)
      (.inl (type_emptyImage hsb (by decide))) hip
  refine .of_wellFormed hwf fun j hj htype => ?_
  rw [Superblock.dinode_putDinode] at htype ⊢
  split at htype
  · next hj1 =>
    rw [if_pos hj1, hip.2]
    decide
  · exact absurd (type_emptyImage hsb hj) htype

theorem sound_oneFile : Sound mkfsSuperblock oneFile :=
  sound_putDinode_emptyImage ⟨fun k hk => by simp [Dinode.addr, Fs.freshDinode], rfl⟩

/-- There is a block for three bytes. -/
theorem missing_oneFile :
    ((mkfsSuperblock.dinode oneFile 1).missing oneFile (rangePlaces 0 3)).card ≤
      (freeBlocks mkfsSuperblock oneFile).card := by
  have hfree : 999 ∈ freeBlocks mkfsSuperblock oneFile := by
    refine Finset.mem_filter.mpr ⟨Finset.mem_range.mpr (by decide), ?_⟩
    decide
  have hmissing : ((mkfsSuperblock.dinode oneFile 1).missing oneFile (rangePlaces 0 3)).card ≤ 1 :=
    Finset.card_filter_le _ _
  exact hmissing.trans (Finset.card_pos.mpr ⟨999, hfree⟩)

/-- Three bytes are written to an empty file. -/
theorem readi_writei_flat_three :
    ∃ d' ip, writei mkfsSuperblock ⟨fun _ => none, fun _ => none⟩ oneFile 1
        (mkfsSuperblock.dinode oneFile 1) 0 [7, 8, 9] = .ok (d', ip, 3) ∧
      fileBytes mkfsSuperblock d' 1 = [7, 8, 9] := by
  have hone : mkfsSuperblock.dinode oneFile 1 = Fs.freshDinode 2 := dinode_oneFile 1
  obtain ⟨d', ip, heq, hstored⟩ := ((readi_writei_flat mkfsSuperblock layout_mkfsSuperblock oneFile
    sound_oneFile 1 (by decide) (by rw [hone]; decide) (by rw [hone]; decide)
    ⟨fun _ => none, fun _ => none⟩).2 0 [7, 8, 9]).2 (by rw [hone]; decide) missing_oneFile
  refine ⟨d', ip, heq, hstored.bytes.trans ?_⟩
  rfl

end InuOs
