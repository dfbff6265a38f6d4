import InuOs.BlockOwner
import InuOs.Lib.Flat
import Mathlib.Data.Finset.Card
import Mathlib.Data.Finset.Union

/-!
# The bytes of a file

`Dinode.content` are the bytes of a file, one after the other, with zeros where there is no block.
As `balloc` returns a block of zeros, `bmap` changes the content of no file (`Grows.content`),
whether it allocates blocks or not.

`bmap` and `writei` give blocks to one inode and move nothing else (`Gains`). They return if there
are enough free blocks. What is enough is counted exactly: `missing` are the places without a block,
of those that `bmap` looks at, and each block that is taken goes to one of them (`Gains.budget`).
-/

namespace InuOs

open Flat

/-- Byte `o` of a file. -/
def Dinode.content (ip : Dinode) (d : Disk) (o : ℕ) : UInt8 :=
  if ip.ptr d (place (o / bSize)) = 0 then 0
  else (d (ip.ptr d (place (o / bSize))).toNat).byte (o % bSize)

/-- The places of `T` that have no block. -/
def Dinode.missing (ip : Dinode) (d : Disk) (T : Finset ℕ) : Finset ℕ :=
  T.filter fun k => ip.ptr d k = 0

/-- The blocks that are free. -/
def freeBlocks (sb : Superblock) (d : Disk) : Finset ℕ :=
  (Finset.range sb.size).filter fun b => sb.bit d b = false

/-- The places that `bmap` looks at. -/
def bmapPlaces (bn : ℕ) : Finset ℕ := if bn < nDirect then {place bn} else {nDirect, place bn}

variable {sb : Superblock} {ino : ℕ → Dinode} {d d' : Disk} {i bn : ℕ}

variable {T : Finset ℕ} {ip : Dinode} {k : ℕ}

theorem Dinode.missing_mono (ip : Dinode) (d : Disk) {S : Finset ℕ} (h : S ⊆ T) :
    (ip.missing d S).card ≤ (ip.missing d T).card :=
  Finset.card_le_card (Finset.filter_subset_filter _ h)

/-! ## Allocation -/

theorem ballocFind_ne_none {b : ℕ} (hb : b ∈ freeBlocks sb d) : ballocFind sb d ≠ none := by
  intro hnone
  obtain ⟨hlt, hbit⟩ := Finset.mem_filter.mp hb
  rw [Finset.mem_range] at hlt
  have hpos : 0 < bpb := by decide
  have hdiv := Nat.div_add_mod b bpb
  have hmod := Nat.mod_lt b hpos
  have hj : b / bpb < (sb.size + bpb - 1) / bpb := by
    rw [Nat.div_lt_iff_lt_mul hpos]
    have hup : sb.size ≤ (sb.size + bpb - 1) / bpb * bpb := by
      have := Nat.div_add_mod (sb.size + bpb - 1) bpb
      have := Nat.mod_lt (sb.size + bpb - 1) hpos
      rw [Nat.mul_comm]
      omega
    exact hlt.trans_le hup
  have hrow := List.findSome?_eq_none_iff.mp hnone (b / bpb) (List.mem_range.mpr hj)
  have hcol := List.find?_eq_none.mp (Option.map_eq_none_iff.mp hrow) (b % bpb)
    (List.mem_range.mpr (lt_min hmod (by rw [Nat.mul_comm]; omega)))
  have hblk : sb.bblock (b / bpb * bpb) = sb.bblock b := by
    rw [Superblock.bblock, Superblock.bblock, Nat.mul_div_cancel _ hpos]
  rw [hblk] at hcol
  exact hcol (by rw [Superblock.bit] at hbit; simp [hbit])

/-- `balloc` panics, as there are too few free blocks for what is missing at the places `T`. -/
def Short (sb : Superblock) (d : Disk) (ip : Dinode) (T : Finset ℕ) (e : Panic) : Prop :=
  e = .ballocOutOfBlocks ∧ (freeBlocks sb d).card < (ip.missing d T).card

theorem Short.mono {T' : Finset ℕ} {e : Panic} (hT : T ⊆ T') (h : Short sb d ip T e) :
    Short sb d ip T' e :=
  ⟨h.1, h.2.trans_le (ip.missing_mono d hT)⟩

/-- `balloc` for a place without a block fails only if no block is free. -/
theorem Held.balloc_short (h : Held sb ino d) (hsb : sb.Layout) (hempty : ip.ptr d k = 0) :
    Meets (InuOs.balloc sb d) (Short sb d ip {k}) fun r =>
      ∃ b, r.2 = UInt32.ofNat b ∧ Alloced sb d r.1 b := by
  by_cases hfree : 0 < (freeBlocks sb d).card
  · obtain ⟨b, hb⟩ := Finset.card_pos.mp hfree
    refine Meets.mono_error ((h.balloc hsb).total fun e he => ?_) fun _ => False.elim
    unfold InuOs.balloc at he
    split at he
    · next hnone => exact ballocFind_ne_none hb hnone
    · cases he
  · have hmissing : ip.missing d {k} = {k} := by
      rw [Dinode.missing, Finset.filter_singleton, if_pos hempty]
    refine (h.balloc hsb).mono_error fun e he => ⟨he, ?_⟩
    rw [hmissing, Finset.card_singleton]
    omega

namespace Alloced

variable {b : ℕ}

/-- One free block less. -/
theorem card_freeBlocks (ha : Alloced sb d d' b) :
    (freeBlocks sb d').card + 1 = (freeBlocks sb d).card := by
  have hmem : b ∈ freeBlocks sb d :=
    Finset.mem_filter.mpr ⟨Finset.mem_range.mpr ha.isData.2, ha.free⟩
  have herase : freeBlocks sb d' = (freeBlocks sb d).erase b := by
    ext c
    simp only [freeBlocks, Finset.mem_filter, Finset.mem_range, Finset.mem_erase]
    constructor
    · rintro ⟨hlt, hbit⟩
      rw [ha.bit c hlt] at hbit
      have hne : c ≠ b := by
        rintro rfl
        rw [Function.update_self] at hbit
        cases hbit
      rw [Function.update_of_ne hne] at hbit
      exact ⟨hne, hlt, hbit⟩
    · rintro ⟨hne, hlt, hbit⟩
      rw [ha.bit c hlt, Function.update_of_ne hne]
      exact ⟨hlt, hbit⟩
  rw [herase, Finset.card_erase_of_mem hmem]
  exact Nat.sub_add_cancel (Finset.card_pos.mpr ⟨b, hmem⟩)

end Alloced

/-- Inode `ip` on `d` has become `ip'` on `d'`, and each block that was taken for it went to one of
the places `T` that had none. -/
def Budget (sb : Superblock) (T : Finset ℕ) (ip : Dinode) (d : Disk)
    (ip' : Dinode) (d' : Disk) : Prop :=
  (freeBlocks sb d).card + (ip'.missing d' T).card = (freeBlocks sb d').card + (ip.missing d T).card

/-- Inode `i` gets blocks at places of `S`, and no other block moves. -/
structure Gains (sb : Superblock) (ino : ℕ → Dinode) (d : Disk) (i : ℕ) (S : Finset ℕ)
    (ip : Dinode) (d' : Disk) : Prop where
  held : Held sb (Function.update ino i ip) d'
  keep : ∀ k, (ino i).ptr d k ≠ 0 → ip.ptr d' k = (ino i).ptr d k
  rest : ∀ k ∉ S, ip.ptr d' k = (ino i).ptr d k
  other : ∀ j < sb.ninodes, (ino j).type ≠ 0 → j ≠ i → ∀ k, (ino j).ptr d' k = (ino j).ptr d k
  dinode : ∀ j < sb.ninodes, sb.dinode d' j = sb.dinode d j
  fields : ∃ addrs, ip = { ino i with addrs := addrs }
  budget : ∀ T, S ⊆ T → Budget sb T (ino i) d ip d'

namespace Gains

variable {S S' : Finset ℕ} {ip ip' : Dinode} {d'' : Disk}

theorem refl (h : Held sb ino d) (i : ℕ) (S : Finset ℕ) : Gains sb ino d i S (ino i) d where
  held := by rwa [Function.update_eq_self]
  keep _ _ := rfl
  rest _ _ := rfl
  other _ _ _ _ _ := rfl
  dinode _ _ := rfl
  fields := ⟨_, rfl⟩
  budget _ _ := rfl

theorem mono (h : Gains sb ino d i S ip d') (hS : S ⊆ S') : Gains sb ino d i S' ip d' := { h with
  rest k hk := h.rest k (mt (@hS k) hk)
  budget T hT := h.budget T (hS.trans hT) }

/-- What runs short later was short from the start. -/
theorem short {e : Panic} (h : Gains sb ino d i S ip d') (hT : S ⊆ T)
    (hshort : Short sb d' ip T e) : Short sb d (ino i) T e := by
  have hbudget := h.budget T hT
  have hless := hshort.2
  unfold Budget at hbudget
  exact ⟨hshort.1, by omega⟩

theorem type (h : Gains sb ino d i S ip d') : ip.type = (ino i).type := by
  obtain ⟨addrs, hfields⟩ := h.fields
  rw [hfields]

theorem trans (h : Gains sb ino d i S ip d')
    (h' : Gains sb (Function.update ino i ip) d' i S' ip' d'') :
    Gains sb ino d i (S ∪ S') ip' d'' where
  held := by simpa using h'.held
  keep k hk := by
    have hold := h.keep k hk
    have hnew := h'.keep k (by rwa [Function.update_self, hold])
    rw [hnew, Function.update_self, hold]
  rest k hk := by
    rw [Finset.notMem_union] at hk
    have hnew := h'.rest k hk.2
    rw [hnew, Function.update_self, h.rest k hk.1]
  other j hj ht hne k := by
    have hold := h.other j hj ht hne k
    have hnew := h'.other j hj (by rwa [Function.update_of_ne hne]) hne k
    rw [Function.update_of_ne hne] at hnew
    rw [hnew, hold]
  dinode j hj := (h'.dinode j hj).trans (h.dinode j hj)
  fields := by
    obtain ⟨addrs, hip⟩ := h.fields
    obtain ⟨addrs', hip'⟩ := h'.fields
    rw [Function.update_self, hip] at hip'
    exact ⟨addrs', hip'⟩
  budget T hT := by
    have h₁ := h.budget T (Finset.union_subset_left hT)
    have h₂ := h'.budget T (Finset.union_subset_right hT)
    rw [Function.update_self] at h₂
    unfold Budget at h₁ h₂ ⊢
    omega

end Gains

/-- Blocks of zeros are added: the content of no file changes. -/
structure Grows (sb : Superblock) (ino : ℕ → Dinode) (d : Disk) (i : ℕ) (S : Finset ℕ)
    (ip : Dinode) (d' : Disk) : Prop extends Gains sb ino d i S ip d' where
  content : ∀ j < sb.ninodes, (ino j).type ≠ 0 → ∀ o,
    (Function.update ino i ip j).content d' o = (ino j).content d o

namespace Grows

variable {S S' : Finset ℕ} {ip ip' : Dinode} {d'' : Disk}

theorem refl (h : Held sb ino d) (i : ℕ) (S : Finset ℕ) : Grows sb ino d i S (ino i) d where
  toGains := .refl h i S
  content _ _ _ _ := by rw [Function.update_eq_self]

theorem trans (h : Grows sb ino d i S ip d')
    (h' : Grows sb (Function.update ino i ip) d' i S' ip' d'') :
    Grows sb ino d i (S ∪ S') ip' d'' where
  toGains := h.toGains.trans h'.toGains
  content j hj ht o := by
    have htype : (Function.update ino i ip j).type ≠ 0 := by
      rcases eq_or_ne j i with rfl | hne
      · rwa [Function.update_self, h.type]
      · rwa [Function.update_of_ne hne]
    have hnew := h'.content j hj htype o
    rw [Function.update_idem] at hnew
    exact hnew.trans (h.content j hj ht o)

end Grows

namespace Alloced

variable {b : ℕ}

/-- The new block goes to the empty place `k` of inode `i`. -/
theorem grows {d₂ : Disk} {ip : Dinode} {k : ℕ} (ha : Alloced sb d d' b) (h : Held sb ino d)
    (hsb : sb.Layout) (hi : i < sb.ninodes) (htype : (ino i).type ≠ 0)
    (hempty : (ino i).ptr d k = 0) (hfields : ∃ addrs, ip = { ino i with addrs := addrs })
    (hbit : ∀ c < sb.size, sb.bit d₂ c = sb.bit d' c)
    (hdinode : ∀ j < sb.ninodes, sb.dinode d₂ j = sb.dinode d' j)
    (hself : ∀ k', ip.ptr d₂ k' = if k' = k then UInt32.ofNat b else (ino i).ptr d k')
    (hother : ∀ j < sb.ninodes, (ino j).type ≠ 0 → j ≠ i → ∀ k',
      (ino j).ptr d₂ k' = (ino j).ptr d k')
    (hblock : ∀ j < sb.ninodes, (ino j).type ≠ 0 → ∀ n, (ino j).ptr d (place n) ≠ 0 →
      d₂ ((ino j).ptr d (place n)).toNat = d' ((ino j).ptr d (place n)).toNat)
    (hzero : d₂ b = zeroBlock) : Grows sb ino d i {k} ip d₂ := by
  have hptr (j : ℕ) (hj : j < sb.ninodes) (ht : (ino j).type ≠ 0) (k' : ℕ) :
      (Function.update ino i ip j).ptr d₂ k' =
        if j = i ∧ k' = k then UInt32.ofNat b else (ino j).ptr d k' := by
    rcases eq_or_ne j i with rfl | hne
    · rw [Function.update_self, hself]
      simp
    · rw [Function.update_of_ne hne, hother j hj ht hne, if_neg fun hc => hne hc.1]
  have htypes (j : ℕ) : (Function.update ino i ip j).type = (ino j).type := by
    obtain ⟨addrs, hip⟩ := hfields
    rcases eq_or_ne j i with rfl | hne
    · rw [Function.update_self, hip]
    · rw [Function.update_of_ne hne]
  refine ⟨⟨ha.held h hsb hi htype hempty hbit htypes hptr, ?_, ?_, hother, ?_, hfields, ?_⟩, ?_⟩
  · intro k' hk'
    have hne : k' ≠ k := by
      rintro rfl
      exact hk' hempty
    rw [hself, if_neg hne]
  · intro k' hk'
    rw [hself, if_neg (mt Finset.mem_singleton.mpr hk')]
  · exact fun j hj => (hdinode j hj).trans (ha.dinode j hj)
  · intro T hT
    have hk : k ∈ (ino i).missing d T :=
      Finset.mem_filter.mpr ⟨hT (Finset.mem_singleton_self k), hempty⟩
    have hfilled : ip.missing d₂ T = ((ino i).missing d T).erase k := by
      ext k'
      simp only [Dinode.missing, Finset.mem_filter, Finset.mem_erase, hself]
      split
      · next heq => simp [heq, ha.ofNat_ne_zero hsb]
      · next hne => simp [hne]
    have hpos := Finset.card_pos.mpr ⟨k, hk⟩
    have hfree := ha.card_freeBlocks
    have hsame : freeBlocks sb d₂ = freeBlocks sb d' :=
      Finset.filter_congr fun c hc => by rw [hbit c (Finset.mem_range.mp hc)]
    rw [Budget, hsame, hfilled, Finset.card_erase_of_mem hk]
    omega
  · intro j hj ht o
    have hnew := hptr j hj ht (place (o / bSize))
    by_cases hnil : (ino j).ptr d (place (o / bSize)) = 0
    · rw [Dinode.content, Dinode.content, if_pos hnil, hnew, hnil]
      split
      · next hcase =>
        -- a block of zeros where there was none
        rw [ha.toNat_ofNat hsb, hzero]
        simp [Bytes.byte, zeroBlock]
      · rfl
    · have hne : ¬ (j = i ∧ place (o / bSize) = k) := by
        rintro ⟨rfl, rfl⟩
        exact hnil hempty
      rw [if_neg hne] at hnew
      have hown := Held.own_ptr hj ht hnil
      have hfresh : ((ino j).ptr d (place (o / bSize))).toNat ≠ b := fun heq =>
        h.exact.own_ne_of_not_used ha.free _ (heq ▸ hown)
      rw [Dinode.content, Dinode.content, hnew, if_neg hnil, if_neg hnil, hblock j hj ht _ hnil,
        ha.block _ (h.exact.mem hown).1 hfresh]

end Alloced

/-! ## `bmap` -/

theorem place_of_le (h : nDirect ≤ bn) : place bn = bn - nDirect + (nDirect + 1) := by
  rw [place, if_neg (Nat.not_lt.mpr h)]
  omega

theorem place_le (h : bn < maxFile) : place bn ≤ maxFile := by
  unfold place
  split <;> omega

/-- The entry of the indirect block for block `bn`. -/
theorem Dinode.ptr_place (hdir : nDirect ≤ bn) (hbn : bn < maxFile) (hind : ip.addr nDirect ≠ 0) :
    ip.ptr d (place bn) = (d (ip.addr nDirect).toNat).getWord (bn - nDirect) := by
  have hplace := place_of_le hdir
  rw [ptr_indirect (by omega) (place_le hbn) hind, hplace, Nat.add_sub_cancel]

/-- `bmap` of a block that is there. -/
theorem bmap_of_ptr (hbn : bn < maxFile) (hptr : ip.ptr d (place bn) ≠ 0) :
    bmap sb d ip bn = .ok (d, ip, ip.ptr d (place bn)) := by
  unfold bmap
  by_cases hdir : bn < nDirect
  · have haddr : ip.ptr d (place bn) = ip.addr bn := by
      rw [place, if_pos hdir, Dinode.ptr_direct hdir.le]
    rw [haddr] at hptr ⊢
    rw [if_pos hdir, if_neg hptr]
    rfl
  · have hdir := Nat.le_of_not_lt hdir
    have hplace := place_of_le hdir
    have hind : ip.addr nDirect ≠ 0 := fun hzero =>
      hptr (Dinode.ptr_eq_zero_of_indirect (by omega) hzero)
    have hword := Dinode.ptr_place (d := d) hdir hbn hind
    rw [hword] at hptr ⊢
    have hm := sub_nDirect_lt hbn
    rw [if_neg (Nat.not_lt.mpr hdir), if_pos hm, bmapLoad, if_neg hind]
    change bmapEntry sb d ip (bn - nDirect) = _
    rw [bmapEntry, if_neg hptr]
    rfl

/-- What `bmap` leaves behind. -/
structure Maps (sb : Superblock) (ino : ℕ → Dinode) (d : Disk) (i bn : ℕ)
    (r : Disk × Dinode × UInt32) : Prop where
  grows : Grows sb ino d i (bmapPlaces bn) r.2.1 r.1
  ptr : r.2.1.ptr r.1 (place bn) = r.2.2
  ne_zero : r.2.2 ≠ 0
  same : (ino i).ptr d (place bn) ≠ 0 → r.2.1 = ino i ∧ r.1 = d

section Bmap

variable (h : Held sb ino d) (hsb : sb.Layout) (hi : i < sb.ninodes) (htype : (ino i).type ≠ 0)

include h hsb hi htype

theorem bmapLoad_grows :
    Meets (bmapLoad sb d (ino i)) (Short sb d (ino i) {nDirect}) fun r =>
      Grows sb ino d i {nDirect} r.2 r.1 ∧ r.2.addr nDirect ≠ 0 := by
  unfold bmapLoad
  split
  · next hempty =>
    have hptr : (ino i).ptr d nDirect = 0 := (Dinode.ptr_direct le_rfl).trans hempty
    refine (h.balloc_short hsb hptr).bind ?_
    rintro ⟨d₁, a⟩ ⟨b, rfl, ha⟩
    have hzero : d₁ (UInt32.ofNat b).toNat = zeroBlock := by
      rw [ha.toNat_ofNat hsb]
      exact ha.zero
    refine Meets.pure ⟨ha.grows h hsb hi htype hptr ⟨_, rfl⟩ (fun _ _ => rfl) (fun _ _ => rfl)
      (fun k => ?_) (fun j hj ht _ k => ha.ptr h hj ht k) (fun _ _ _ _ _ => rfl) ha.zero, ?_⟩
    · rw [Dinode.ptr_setAddr_indirect _ hempty hzero, ha.ptr h hi htype]
    · exact ha.ofNat_ne_zero hsb
  · next hind => exact Meets.pure ⟨.refl h i _, hind⟩

theorem bmapEntry_grows (hdir : nDirect ≤ bn) (hbn : bn < maxFile)
    (hind : (ino i).addr nDirect ≠ 0) :
    Meets (bmapEntry sb d (ino i) (bn - nDirect)) (Short sb d (ino i) {place bn}) fun r =>
      Grows sb ino d i {place bn} r.2.1 r.1 ∧ r.2.1.ptr r.1 (place bn) = r.2.2 ∧ r.2.2 ≠ 0 := by
  have hptr := Dinode.ptr_place (d := d) hdir hbn hind
  have hm := sub_nDirect_lt hbn
  have hdata := h.isData_indirect hi htype hind
  -- the indirect block holds the data of no file
  have hindirect (j k : ℕ) (hj : j < sb.ninodes) (ht : (ino j).type ≠ 0)
      (hk : (ino j).ptr d k ≠ 0) (hne : (i, nDirect) ≠ (j, k)) :
      ((ino j).ptr d k).toNat ≠ ((ino i).addr nDirect).toNat :=
    (h.indirect_ne hi htype hj ht hind hk hne).symm
  unfold bmapEntry
  dsimp only
  split
  · next hempty =>
    rw [← hptr] at hempty
    refine (h.balloc_short hsb hempty).bind ?_
    rintro ⟨d₁, a⟩ ⟨b, rfl, ha⟩
    have hself (k : ℕ) : (ino i).ptr (Function.update d₁ ((ino i).addr nDirect).toNat
        ((d₁ ((ino i).addr nDirect).toNat).setWord (bn - nDirect) (UInt32.ofNat b))) k =
        if k = place bn then UInt32.ofNat b else (ino i).ptr d k := by
      rw [Dinode.ptr_setWord _ hm hind, ha.ptr h hi htype, place_of_le hdir]
    refine Meets.pure ⟨ha.grows h hsb hi htype hempty ⟨_, rfl⟩
      (fun c hc => Superblock.Layout.bit_update hc hdata.1)
      (fun j hj => hsb.dinode_update hj ((Nat.le_add_right _ _).trans hdata.1)) hself
      (fun j hj ht hne k => ?_) (fun j hj ht n hn => ?_) ?_, ?_, ha.ofNat_ne_zero hsb⟩
    · rw [← ha.ptr h hj ht]
      refine Dinode.ptr_congr fun hindj => Function.update_of_ne ?_ ..
      refine hindirect j nDirect hj ht hindj ?_
      rintro ⟨⟩
      exact hne rfl
    · refine Function.update_of_ne (hindirect j (place n) hj ht hn fun heq => ?_) ..
      exact place_ne_nDirect n (congrArg Prod.snd heq).symm
    · exact (Function.update_of_ne (ha.ne_indirect h hi htype hind).symm ..).trans ha.zero
    · rw [hself, if_pos rfl]
  · next hne =>
    rw [← hptr] at hne ⊢
    exact Meets.pure ⟨.refl h i _, rfl, hne⟩

theorem bmap_grows (hbn : bn < maxFile) :
    Meets (bmap sb d (ino i) bn) (Short sb d (ino i) (bmapPlaces bn)) fun r =>
      Grows sb ino d i (bmapPlaces bn) r.2.1 r.1 ∧ r.2.1.ptr r.1 (place bn) = r.2.2 ∧
      r.2.2 ≠ 0 := by
  unfold bmap
  by_cases hdir : bn < nDirect
  · have hplace : place bn = bn := if_pos hdir
    have hplaces : bmapPlaces bn = {place bn} := if_pos hdir
    have hptr : (ino i).ptr d (place bn) = (ino i).addr bn := by
      rw [hplace, Dinode.ptr_direct hdir.le]
    rw [if_pos hdir]
    split
    · next hempty =>
      rw [hplaces]
      refine (h.balloc_short hsb (hptr.trans hempty)).bind ?_
      rintro ⟨d₁, a⟩ ⟨b, rfl, ha⟩
      have hself (k : ℕ) : ((ino i).setAddr bn (UInt32.ofNat b)).ptr d₁ k =
          if k = place bn then UInt32.ofNat b else (ino i).ptr d k := by
        rw [Dinode.ptr_setAddr_direct _ hdir, hplace, ha.ptr h hi htype]
      refine Meets.pure ⟨ha.grows h hsb hi htype (hptr.trans hempty) ⟨_, rfl⟩
        (fun _ _ => rfl) (fun _ _ => rfl) hself (fun j hj ht _ k => ha.ptr h hj ht k)
        (fun _ _ _ _ _ => rfl) ha.zero, ?_, ha.ofNat_ne_zero hsb⟩
      rw [hself, if_pos rfl]
    · next hne => exact Meets.pure ⟨.refl h i _, hptr, hne⟩
  · have hplaces : bmapPlaces bn = {nDirect} ∪ {place bn} := if_neg hdir
    have hle := Nat.le_of_not_lt hdir
    have hm := sub_nDirect_lt hbn
    rw [hplaces, if_neg hdir, if_pos hm]
    have hfirst : ({nDirect} : Finset ℕ) ⊆ {nDirect} ∪ {place bn} := Finset.subset_union_left
    have hsecond : ({place bn} : Finset ℕ) ⊆ {nDirect} ∪ {place bn} := Finset.subset_union_right
    refine ((bmapLoad_grows h hsb hi htype).mono_error fun _ => Short.mono hfirst).bind ?_
    rintro ⟨d₁, ip⟩ ⟨hgrows, hind⟩
    have hself : Function.update ino i ip i = ip := Function.update_self ..
    have hentry := bmapEntry_grows hgrows.held hsb hi (by rw [hself, hgrows.type]; exact htype) hle
      hbn (by rwa [hself])
    rw [hself] at hentry
    refine (hentry.mono_error fun _ hshort => hgrows.short hfirst (hshort.mono hsecond)).mono ?_
    rintro r ⟨hgrows', hptr, hne⟩
    exact ⟨hgrows.trans hgrows', hptr, hne⟩

/-- `bmap` fails only if there are too few free blocks for what is missing. -/
theorem bmap_maps (hbn : bn < maxFile) :
    Meets (bmap sb d (ino i) bn) (Short sb d (ino i) (bmapPlaces bn)) (Maps sb ino d i bn) := by
  by_cases hptr : (ino i).ptr d (place bn) = 0
  · refine (bmap_grows h hsb hi htype hbn).mono ?_
    rintro r ⟨hgrows, hplace, hne⟩
    exact ⟨hgrows, hplace, hne, fun hold => absurd hptr hold⟩
  · rw [bmap_of_ptr hbn hptr]
    exact Meets.pure ⟨.refl h i _, rfl, hptr, fun _ => ⟨rfl, rfl⟩⟩

end Bmap

end InuOs
