import InuOs.Inode
import InuOs.Lib.Except
import InuOs.Lib.Ownership

/-!
# Every block has one owner

A block number is held at a **place**: `addrs[k]` of an inode, or an entry of its indirect block.
An image is `WellFormed` when the places and the free map agree (`Exact`), the metadata is marked as
used, and a file of `n` blocks has exactly its first `n` slots filled.

While a file is being written its in-core inode is ahead of the disk, and while one is being
truncated the free map is. The first is covered by stating the agreement, `Held`, for inodes `ino`
that need not be the ones on the disk; the second by `Freed`, where the places freed so far no
longer count.
-/

namespace InuOs

/-! ## Places -/

/-- The block number at place `k` of an inode: `addrs[k]` for `k ≤ 12`, then the entries of the
indirect block. -/
def Dinode.ptr (ip : Dinode) (d : Disk) (k : ℕ) : UInt32 :=
  if k ≤ nDirect then ip.addr k
  else if k ≤ maxFile ∧ ip.addr nDirect ≠ 0 then
    (d (ip.addr nDirect).toNat).getWord (k - (nDirect + 1))
  else 0

/-- The place of slot `n`: place 12 is the indirect block itself. -/
def place (n : ℕ) : ℕ := if n < nDirect then n else n + 1

/-- The number of blocks of `n` bytes, `ceil(n / BSIZE)`. -/
def blocks (n : ℕ) : ℕ := (n + (bSize - 1)) / bSize

variable {n k m i b j : ℕ} {ino : ℕ → Dinode} {d'' d₁ : Disk}

theorem blocks_le_iff : blocks n ≤ k ↔ n ≤ bSize * k := by
  unfold blocks bSize
  omega

theorem lt_blocks_iff : k < blocks n ↔ k * bSize < n := by
  rw [← not_le, blocks_le_iff, Nat.mul_comm, not_le]

theorem place_ne_nDirect (n : ℕ) : place n ≠ nDirect := by
  unfold place
  split <;> omega

theorem place_inj : place m = place n ↔ m = n := by
  unfold place
  split <;> split <;> omega

namespace Superblock

/-- The block numbers of the data area. -/
def IsData (sb : Superblock) (b : ℕ) : Prop := sb.dataStart ≤ b ∧ b < sb.size

/-- The block held at place `p.2` of inode `p.1`, if that inode is allocated. A dinode of type 0 is
free: what its bytes hold is never read, and `ialloc` clears them. -/
def own (sb : Superblock) (ino : ℕ → Dinode) (d : Disk) (p : ℕ × ℕ) : Option ℕ :=
  if p.1 < sb.ninodes ∧ (ino p.1).type ≠ 0 ∧ (ino p.1).ptr d p.2 ≠ 0 then
    some ((ino p.1).ptr d p.2).toNat
  else none

theorem own_eq_some {sb : Superblock} {d : Disk} :
    sb.own ino d (i, k) = some b ↔
      i < sb.ninodes ∧ (ino i).type ≠ 0 ∧ (ino i).ptr d k ≠ 0 ∧ ((ino i).ptr d k).toNat = b := by
  unfold own
  split
  · next h => simp [h.1, h.2.1, h.2.2]
  · next h =>
    constructor
    · rintro ⟨⟩
    · rintro ⟨hi, ht, hp, -⟩
      exact absurd ⟨hi, ht, hp⟩ h

/-- A free inode holds nothing. -/
theorem own_eq_none {sb : Superblock} {d : Disk} (h : ¬ (i < sb.ninodes ∧ (ino i).type ≠ 0)) :
    sb.own ino d (i, k) = none :=
  if_neg fun hc => h ⟨hc.1, hc.2.1⟩

end Superblock

/-- The blocks that the inodes `ino` hold are those that the free map of `d` marks. -/
structure Held (sb : Superblock) (ino : ℕ → Dinode) (d : Disk) : Prop where
  /-- a data block is marked exactly if it is held, and is held once -/
  exact : Exact sb.IsData (sb.own ino d) (sb.bit d)
  /-- the metadata is marked -/
  metadata : ∀ b < sb.dataStart, sb.bit d b = true

/-- A well-formed image. -/
structure WellFormed (sb : Superblock) (d : Disk) : Prop extends Held sb (sb.dinode d) d where
  /-- an allocated inode has the slots filled that its size asks for -/
  slots : ∀ i < sb.ninodes, (sb.dinode d i).type ≠ 0 → ∀ n < maxFile,
    ((sb.dinode d i).ptr d (place n) ≠ 0 ↔ n < blocks (sb.dinode d i).size.toNat)

theorem WellFormed.held {sb : Superblock} {d : Disk} (h : WellFormed sb d) :
    Held sb (sb.dinode d) d := h.toHeld

/-- The panics other than `"freeing free block"`. -/
def NotFreeing (e : Panic) : Prop := e ≠ .freeingFreeBlock

/-! ## How places change -/

namespace Dinode

variable {ip : Dinode} {d d' : Disk} {k : ℕ}

theorem ptr_direct (hk : k ≤ nDirect) : ip.ptr d k = ip.addr k := if_pos hk

theorem ptr_indirect (hk : nDirect < k) (hk' : k ≤ maxFile) (hind : ip.addr nDirect ≠ 0) :
    ip.ptr d k = (d (ip.addr nDirect).toNat).getWord (k - (nDirect + 1)) := by
  rw [ptr, if_neg (by omega), if_pos ⟨hk', hind⟩]

theorem ptr_eq_zero_of_indirect (hk : nDirect < k) (hind : ip.addr nDirect = 0) :
    ip.ptr d k = 0 := by
  rw [ptr, if_neg (by omega), if_neg (fun h => h.2 hind)]

theorem ptr_eq_zero_of_large (hk : maxFile < k) : ip.ptr d k = 0 := by
  have hmax : nDirect < maxFile := by decide
  rw [ptr, if_neg (by omega), if_neg (by omega)]

/-- Only the indirect block matters. -/
theorem ptr_congr (h : ip.addr nDirect ≠ 0 →
    d' (ip.addr nDirect).toNat = d (ip.addr nDirect).toNat) : ip.ptr d' k = ip.ptr d k := by
  unfold ptr
  split
  · rfl
  · split
    · next hind => rw [h hind.2]
    · rfl

/-- Of the inode only the block numbers matter. -/
theorem ptr_of_addrs {ip' : Dinode} (h : ip'.addrs = ip.addrs) : ip'.ptr d k = ip.ptr d k := by
  have haddr : ∀ j, ip'.addr j = ip.addr j := fun j => by simp only [addr, h]
  simp only [ptr, haddr]

/-- A new direct block. -/
theorem ptr_setAddr_direct {bn : ℕ} (a : UInt32) (hbn : bn < nDirect) :
    (ip.setAddr bn a).ptr d k = if k = bn then a else ip.ptr d k := by
  have hind : (ip.setAddr bn a).addr nDirect = ip.addr nDirect := by
    rw [addr_setAddr _ _ (by decide), if_neg hbn.ne']
  by_cases hk : k ≤ nDirect
  · have hk13 : k < 13 := Nat.lt_succ_of_le hk
    rw [ptr_direct hk, ptr_direct hk, addr_setAddr _ _ hk13]
  · have hne : k ≠ bn := by omega
    simp only [ptr, if_neg hk, hind, if_neg hne]

/-- A new indirect block, full of zeros. -/
theorem ptr_setAddr_indirect (a : UInt32) (hold : ip.addr nDirect = 0)
    (hzero : d a.toNat = zeroBlock) :
    (ip.setAddr nDirect a).ptr d k = if k = nDirect then a else ip.ptr d k := by
  have hind : (ip.setAddr nDirect a).addr nDirect = a := by
    rw [addr_setAddr _ _ (by decide), if_pos rfl]
  by_cases hk : k ≤ nDirect
  · have hk13 : k < 13 := Nat.lt_succ_of_le hk
    rw [ptr_direct hk, ptr_direct hk, addr_setAddr _ _ hk13]
  · have hne : k ≠ nDirect := by omega
    rw [if_neg hne, ptr_eq_zero_of_indirect (by omega) hold, ptr, if_neg hk, hind, hzero,
      zeroBlock_getWord]
    split <;> rfl

/-- A new entry in the indirect block. -/
theorem ptr_setWord (a : UInt32) (hm : m < nIndirect) (hind : ip.addr nDirect ≠ 0) :
    ip.ptr (Function.update d (ip.addr nDirect).toNat
        ((d (ip.addr nDirect).toNat).setWord m a)) k =
      if k = m + (nDirect + 1) then a else ip.ptr d k := by
  by_cases hk : k ≤ nDirect
  · have hne : k ≠ m + (nDirect + 1) := by omega
    rw [ptr_direct hk, ptr_direct hk, if_neg hne]
  · by_cases hmax : k ≤ maxFile
    · rw [ptr_indirect (by omega) hmax hind, ptr_indirect (by omega) hmax hind,
        Function.update_self]
      rcases eq_or_ne k (m + (nDirect + 1)) with rfl | hne
      · have hword : 4 * m + 4 ≤ bSize := by
          unfold nIndirect at hm
          unfold bSize
          omega
        rw [if_pos rfl, Nat.add_sub_cancel, Bytes.getWord_setWord_self hword]
      · rw [if_neg hne, Bytes.getWord_setWord_ne (by omega)]
    · have hne : k ≠ m + (nDirect + 1) := by
        unfold maxFile at hmax
        omega
      rw [if_neg hne, ptr_eq_zero_of_large (by omega), ptr_eq_zero_of_large (by omega)]

end Dinode

namespace Held

variable {sb : Superblock} {ino ino' : ℕ → Dinode} {d d' : Disk}

/-- The places hold what they held. -/
theorem of_ptr (h : Held sb ino d) (hsb : sb.Layout)
    (htype : ∀ i < sb.ninodes, (ino' i).type = (ino i).type)
    (hptr : ∀ i < sb.ninodes, (ino i).type ≠ 0 → ∀ k, (ino' i).ptr d' k = (ino i).ptr d k)
    (hbit : ∀ b < sb.size, sb.bit d' b = sb.bit d b) : Held sb ino' d' := by
  refine ⟨h.exact.congr ?_ fun b hb => hbit b hb.2, fun b hb => ?_⟩
  · rintro ⟨i, k⟩
    by_cases hi : i < sb.ninodes ∧ (ino i).type ≠ 0
    · simp only [Superblock.own, htype i hi.1, hptr i hi.1 hi.2]
    · have hi' : ¬ (i < sb.ninodes ∧ (ino' i).type ≠ 0) := by
        rintro ⟨hlt, ht⟩
        exact hi ⟨hlt, htype i hlt ▸ ht⟩
      rw [Superblock.own_eq_none hi, Superblock.own_eq_none hi']
  · rw [hbit b (hb.trans_le hsb.data)]
    exact h.metadata b hb

section Allocated

variable (h : Held sb ino d) {i : ℕ} (hi : i < sb.ninodes) (htype : (ino i).type ≠ 0)

include hi htype

theorem own_ptr (hk : (ino i).ptr d k ≠ 0) : sb.own ino d (i, k) = some ((ino i).ptr d k).toNat :=
  Superblock.own_eq_some.mpr ⟨hi, htype, hk, rfl⟩

include h

/-- A block number held at a place lies in the data area. -/
theorem isData_ptr (hk : (ino i).ptr d k ≠ 0) : sb.IsData ((ino i).ptr d k).toNat :=
  h.exact.mem (own_ptr hi htype hk)

theorem isData_indirect (hind : (ino i).addr nDirect ≠ 0) :
    sb.IsData ((ino i).addr nDirect).toNat := by
  rw [← Dinode.ptr_direct (d := d) le_rfl] at hind ⊢
  exact h.isData_ptr hi htype hind

/-- Two inodes never share an indirect block. -/
theorem indirect_ne (hj : j < sb.ninodes) (htypej : (ino j).type ≠ 0)
    (hind : (ino i).addr nDirect ≠ 0) (hk : (ino j).ptr d k ≠ 0) (hne : (i, nDirect) ≠ (j, k)) :
    ((ino i).addr nDirect).toNat ≠ ((ino j).ptr d k).toNat := by
  intro heq
  rw [← Dinode.ptr_direct (d := d) le_rfl] at hind heq
  refine hne (h.exact.inj (own_ptr hi htype hind) ?_)
  rw [heq]
  exact own_ptr hj htypej hk

/-- Writing the data of a file moves no block. -/
theorem ptr_update_data (hj : j < sb.ninodes) (htypej : (ino j).type ≠ 0)
    (hptr : (ino i).ptr d (place n) ≠ 0) (blk : Block) :
    (ino j).ptr (Function.update d ((ino i).ptr d (place n)).toNat blk) k = (ino j).ptr d k := by
  refine Dinode.ptr_congr fun hind => Function.update_of_ne ?_ ..
  refine h.indirect_ne hj htypej hi htype hind hptr ?_
  -- the data of a file is never in its indirect block
  intro heq
  exact place_ne_nDirect n (congrArg Prod.snd heq).symm

end Allocated

end Held

/-! ## The allocator -/

/-- What `balloc` does when it returns block `b`. -/
structure Alloced (sb : Superblock) (d d' : Disk) (b : ℕ) : Prop where
  isData : sb.IsData b
  free : sb.bit d b = false
  bit : ∀ c < sb.size, sb.bit d' c = Function.update (sb.bit d) b true c
  dinode : ∀ i < sb.ninodes, sb.dinode d' i = sb.dinode d i
  block : ∀ c, sb.dataStart ≤ c → c ≠ b → d' c = d c
  zero : d' b = zeroBlock

variable {sb : Superblock} {d d' : Disk}

/-- The block whose bit the inner loop of `balloc` has found to be clear. -/
theorem bit_of_find {bi : ℕ}
    (h : ((List.range (min bpb (sb.size - j * bpb))).find? fun bi =>
      !(d (sb.bblock (j * bpb))).testBit bi) = some bi) :
    j * bpb + bi < sb.size ∧ sb.bblock (j * bpb + bi) = sb.bblock (j * bpb) ∧
      (j * bpb + bi) % bpb = bi ∧ sb.bit d (j * bpb + bi) = false := by
  have hmem := List.mem_range.mp (List.mem_of_find?_eq_some h)
  have hclear := List.find?_some h
  have hpos : 0 < bpb := by decide
  obtain ⟨hlt, hlt'⟩ := lt_min_iff.mp hmem
  have hdiv : (j * bpb + bi) / bpb = j * bpb / bpb := by
    rw [Nat.mul_div_cancel _ hpos, Nat.mul_comm, Nat.mul_add_div hpos, Nat.div_eq_of_lt hlt,
      Nat.add_zero]
  have hmod : (j * bpb + bi) % bpb = bi := by
    rw [Nat.mul_comm, Nat.mul_add_mod, Nat.mod_eq_of_lt hlt]
  have hblk : sb.bblock (j * bpb + bi) = sb.bblock (j * bpb) := by
    rw [Superblock.bblock, Superblock.bblock, hdiv]
  refine ⟨by omega, hblk, hmod, ?_⟩
  rw [Superblock.bit, hblk, hmod]
  simpa using hclear

theorem ballocFind_spec (h : ballocFind sb d = some b) : b < sb.size ∧ sb.bit d b = false := by
  obtain ⟨j, hj, hfind⟩ := List.exists_of_findSome?_eq_some h
  obtain ⟨bi, hbi, rfl⟩ := Option.map_eq_some_iff.mp hfind
  obtain ⟨hsize, -, -, hbit⟩ := bit_of_find hbi
  exact ⟨hsize, hbit⟩

theorem Held.balloc (h : Held sb ino d) (hsb : sb.Layout) :
    Meets (balloc sb d) (· = .ballocOutOfBlocks) fun r => ∃ b, r.2 = UInt32.ofNat b ∧
      Alloced sb d r.1 b := by
  unfold InuOs.balloc
  cases hfind : ballocFind sb d with
  | none => exact Meets.throw rfl
  | some b =>
    obtain ⟨hsize, hfree⟩ := ballocFind_spec hfind
    have hdata : sb.dataStart ≤ b := by
      by_contra hlt
      rw [h.metadata b (by omega)] at hfree
      cases hfree
    refine Meets.pure ⟨b, rfl, ⟨hdata, hsize⟩, hfree, ?_, ?_, ?_, Function.update_self ..⟩
    · intro c hc
      rw [Superblock.Layout.bit_update hc hdata, Superblock.bit_setBit]
    · intro i hi
      have hmap : sb.bmapstart ≤ b := (Nat.le_add_right _ _).trans hdata
      rw [hsb.dinode_update hi hmap, hsb.dinode_setBit hi]
    · intro c hc hne
      exact (Function.update_of_ne hne ..).trans (Superblock.Layout.data_setBit hsize hc)

namespace Alloced

variable {ino ino' : ℕ → Dinode} {b : ℕ} (ha : Alloced sb d d' b)

include ha

theorem toNat_ofNat (hsb : sb.Layout) : (UInt32.ofNat b).toNat = b := by
  have hsize := hsb.size
  have hlt := ha.isData.2
  rw [UInt32.toNat_ofNat']
  omega

theorem ofNat_ne_zero (hsb : sb.Layout) : UInt32.ofNat b ≠ 0 := by
  intro h0
  have hb := ha.toNat_ofNat hsb
  have hpos : 0 < b := (Nat.succ_pos _).trans_le ha.isData.1
  rw [h0] at hb
  exact hpos.ne hb

/-- The new block is no inode's indirect block. -/
theorem ne_indirect (h : Held sb ino d) (hi : i < sb.ninodes) (htype : (ino i).type ≠ 0)
    (hind : (ino i).addr nDirect ≠ 0) : ((ino i).addr nDirect).toNat ≠ b := by
  rintro rfl
  rw [← Dinode.ptr_direct (d := d) le_rfl] at hind
  refine h.exact.own_ne_of_not_used ha.free (i, nDirect) ?_
  rw [Held.own_ptr hi htype hind, Dinode.ptr_direct le_rfl]

/-- So that every place still holds what it held. -/
theorem ptr (h : Held sb ino d) (hi : i < sb.ninodes) (htype : (ino i).type ≠ 0) (k : ℕ) :
    (ino i).ptr d' k = (ino i).ptr d k :=
  Dinode.ptr_congr fun hind =>
    ha.block _ (h.isData_indirect hi htype hind).1 (ha.ne_indirect h hi htype hind)

/-- The new block goes to an empty place `k` of inode `i`. -/
theorem held (h : Held sb ino d) (hsb : sb.Layout) (hi : i < sb.ninodes) (htype : (ino i).type ≠ 0)
    (hempty : (ino i).ptr d k = 0) (hbit : ∀ c < sb.size, sb.bit d'' c = sb.bit d' c)
    (htypes : ∀ j, (ino' j).type = (ino j).type)
    (hptr : ∀ j < sb.ninodes, (ino j).type ≠ 0 → ∀ k',
      (ino' j).ptr d'' k' = if j = i ∧ k' = k then UInt32.ofNat b else (ino j).ptr d k') :
    Held sb ino' d'' := by
  have hown : sb.own ino' d'' = Function.update (sb.own ino d) (i, k) (some b) := by
    funext ⟨j, k'⟩
    by_cases hj : j < sb.ninodes ∧ (ino j).type ≠ 0
    · by_cases hp : j = i ∧ k' = k
      · obtain ⟨rfl, rfl⟩ := hp
        have hnew := hptr j hi htype k'
        rw [if_pos ⟨rfl, rfl⟩] at hnew
        rw [Function.update_self, Superblock.own_eq_some, htypes, hnew]
        exact ⟨hi, htype, ha.ofNat_ne_zero hsb, ha.toNat_ofNat hsb⟩
      · have hne : (j, k') ≠ (i, k) := by
          rintro ⟨⟩
          exact hp ⟨rfl, rfl⟩
        have hold := hptr j hj.1 hj.2 k'
        rw [if_neg hp] at hold
        rw [Function.update_of_ne hne]
        simp only [Superblock.own, htypes, hold]
    · have hne : (j, k') ≠ (i, k) := by
        rintro ⟨⟩
        exact hj ⟨hi, htype⟩
      rw [Function.update_of_ne hne, Superblock.own_eq_none hj]
      exact Superblock.own_eq_none (by rwa [htypes])
  have hnone : sb.own ino d (i, k) = none := if_neg fun hc => hc.2.2 hempty
  refine ⟨?_, ?_⟩
  · rw [hown]
    refine (h.exact.alloc ha.isData ha.free hnone).congr (fun _ => rfl) fun c hc => ?_
    rw [hbit c hc.2, ha.bit c hc.2]
  · intro c hc
    have hne : c ≠ b := (hc.trans_le ha.isData.1).ne
    have hlt : c < sb.size := hc.trans_le hsb.data
    rw [hbit c hlt, ha.bit c hlt, Function.update_of_ne hne]
    exact h.metadata c hc

end Alloced

end InuOs
