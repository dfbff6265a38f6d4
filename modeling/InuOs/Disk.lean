import InuOs.Param

/-!
# The on-disk format (`fs.h`)

The disk is a map from block numbers to blocks of 512 bytes, as `bread` returns them and `log_write`
changes them:

`[ boot block | super block | log | inode blocks | free bit map | data blocks ]`

* `Superblock` gives the places of these regions, and `Superblock.Layout` says that they follow each
  other as mkfs lays them out, for a bit map of any length.
* `dinode` and `putDinode` read and write one 64-byte `struct dinode`; `bit` and `setBit`,
  `clearBit` do the same for the bit of a block in the map.
* A store into one region leaves the other two alone; the lemmas at the end say so once, and are all
  that the proofs about `balloc`, `bmap` and the rest know about bytes.
-/

namespace InuOs

/-! ## Constants and the super block -/

/-- Direct block numbers in an inode. -/
def nDirect : ℕ := 12

/-- Block numbers in an indirect block. -/
def nIndirect : ℕ := 128

/-- The longest file, in blocks. -/
def maxFile : ℕ := nDirect + nIndirect

theorem sub_nDirect_lt {bn : ℕ} (h : bn < maxFile) : bn - nDirect < nIndirect := by
  unfold maxFile nDirect nIndirect at *
  omega

/-- Inodes in a block. -/
def ipb : ℕ := 8

/-- Bits of the free map in a block. -/
def bpb : ℕ := bSize * 8

/-- `T_DIR`. -/
def tDir : UInt16 := 1

/-- `T_DEV`. -/
def tDev : UInt16 := 3

/-- The fields of `struct superblock` that the file system reads after boot. -/
structure Superblock : Type where
  /-- blocks in the image -/
  size : ℕ
  /-- number of inodes -/
  ninodes : ℕ
  /-- first inode block -/
  inodestart : ℕ
  /-- first block of the free map -/
  bmapstart : ℕ
  deriving DecidableEq, Repr

namespace Superblock

/-- `IBLOCK`. -/
def iblock (sb : Superblock) (i : ℕ) : ℕ := i / ipb + sb.inodestart

/-- `BBLOCK`. -/
def bblock (sb : Superblock) (b : ℕ) : ℕ := b / bpb + sb.bmapstart

/-- The first block after the free map (mkfs's `nmeta`). -/
def dataStart (sb : Superblock) : ℕ := sb.bmapstart + (sb.size / bpb + 1)

/-- The regions follow each other, as in mkfs, and block numbers fit the `int b` of `balloc`. -/
structure Layout (sb : Superblock) : Prop where
  inodes : sb.inodestart + (sb.ninodes / ipb + 1) ≤ sb.bmapstart
  data : sb.dataStart ≤ sb.size
  size : sb.size < 2 ^ 31

end Superblock

/-- The disk, through the buffer cache. -/
abbrev Disk : Type := ℕ → Block

/-! ## Inodes -/

/-- `struct dinode`; also the part of `struct inode` that is a copy of it. -/
structure Dinode : Type where
  type : UInt16
  major : UInt16
  minor : UInt16
  nlink : UInt16
  /-- size of the file in bytes -/
  size : UInt32
  /-- data block numbers; the last one is the indirect block -/
  addrs : Fin 13 → UInt32

variable {k j k' i b c : ℕ} {blk : Block} {ip : Dinode}

namespace Dinode

/-- `addrs[k]`. -/
def addr (ip : Dinode) (k : ℕ) : UInt32 := if h : k < 13 then ip.addrs ⟨k, h⟩ else 0

/-- `addrs[k] = a`. -/
def setAddr (ip : Dinode) (k : ℕ) (a : UInt32) : Dinode :=
  { ip with addrs := fun j => if j.1 = k then a else ip.addrs j }

theorem addr_setAddr (ip : Dinode) (a : UInt32) (hj : j < 13) :
    (ip.setAddr k a).addr j = if j = k then a else ip.addr j := by
  simp only [addr, setAddr, dif_pos hj]

/-- Two `short`s in a word. -/
def shorts (lo hi : UInt16) : UInt32 := UInt32.ofNat (lo.toNat + 65536 * hi.toNat)

/-- The first `short` of a word. -/
def loShort (w : UInt32) : UInt16 := UInt16.ofNat w.toNat

/-- The second `short` of a word. -/
def hiShort (w : UInt32) : UInt16 := UInt16.ofNat (w.toNat / 65536)

@[simp] theorem loShort_shorts (lo hi : UInt16) : loShort (shorts lo hi) = lo := by
  have hlo := lo.toNat_lt
  apply UInt16.toNat_inj.mp
  rw [loShort, shorts, UInt16.toNat_ofNat', UInt32.toNat_ofNat']
  omega

@[simp] theorem hiShort_shorts (lo hi : UInt16) : hiShort (shorts lo hi) = hi := by
  have hlo := lo.toNat_lt
  have hhi := hi.toNat_lt
  apply UInt16.toNat_inj.mp
  rw [hiShort, shorts, UInt16.toNat_ofNat', UInt32.toNat_ofNat']
  omega

/-- The sixteen words of the structure. -/
def word (ip : Dinode) : ℕ → UInt32
  | 0 => shorts ip.type ip.major
  | 1 => shorts ip.minor ip.nlink
  | 2 => ip.size
  | k + 3 => ip.addr k

/-- The structure with the given words. -/
def ofWords (w : ℕ → UInt32) : Dinode where
  type := loShort (w 0)
  major := hiShort (w 0)
  minor := loShort (w 1)
  nlink := hiShort (w 1)
  size := w 2
  addrs k := w (k.1 + 3)

theorem ofWords_word (ip : Dinode) : ofWords ip.word = ip := by
  have haddrs : (fun k : Fin 13 => ip.addr k.1) = ip.addrs := by
    funext k
    simp [addr]
  simp only [ofWords, word, loShort_shorts, hiShort_shorts, haddrs]

theorem ofWords_congr {w w' : ℕ → UInt32} (h : ∀ k < 16, w k = w' k) : ofWords w = ofWords w' := by
  have haddrs : (fun k : Fin 13 => w (k.1 + 3)) = fun k : Fin 13 => w' (k.1 + 3) := by
    funext k
    exact h _ (by omega)
  simp only [ofWords, h 0 (by decide), h 1 (by decide), h 2 (by decide), haddrs]

end Dinode

/-- The dinode in slot `k` of an inode block. -/
def Block.dinode (b : Block) (k : ℕ) : Dinode := .ofWords fun j => b.getWord (16 * k + j)

/-- Store a dinode into slot `k` of an inode block. -/
def Block.putDinode (b : Block) (k : ℕ) (ip : Dinode) : Block :=
  fun i => if i.1 / 64 = k then wordByte (ip.word (i.1 % 64 / 4)) (i.1 % 4) else b i

theorem Block.getWord_putDinode (b : Block) (ip : Dinode) (hk' : k' < ipb) (hj : j < 16) :
    (b.putDinode k ip).getWord (16 * k' + j) =
      if k' = k then ip.word j else b.getWord (16 * k' + j) := by
  have hbound : ∀ c < 4, 4 * (16 * k' + j) + c < bSize := by
    intro c hc
    unfold ipb at hk'
    unfold bSize
    omega
  have hbyte : ∀ c < 4, (b.putDinode k ip).byte (4 * (16 * k' + j) + c) =
      if k' = k then wordByte (ip.word j) c else b.byte (4 * (16 * k' + j) + c) := by
    intro c hc
    have hdiv : (4 * (16 * k' + j) + c) / 64 = k' := by omega
    have hword : (4 * (16 * k' + j) + c) % 64 / 4 = j := by omega
    have hrem : (4 * (16 * k' + j) + c) % 4 = c := by omega
    simp only [Bytes.byte, dif_pos (hbound c hc), Block.putDinode, hdiv, hword, hrem]
  have h₀ := hbyte 0 (by decide)
  rw [Nat.add_zero] at h₀
  rw [Bytes.getWord, h₀, hbyte 1 (by decide), hbyte 2 (by decide), hbyte 3 (by decide)]
  by_cases hkk : k' = k
  · simp only [if_pos hkk, wordOf_wordByte]
  · simp only [if_neg hkk, Bytes.getWord]

theorem Block.dinode_putDinode (b : Block) (ip : Dinode) (hk' : k' < ipb) :
    (b.putDinode k ip).dinode k' = if k' = k then ip else b.dinode k' := by
  by_cases hkk : k' = k
  · rw [if_pos hkk]
    refine Eq.trans (Dinode.ofWords_congr fun j hj => ?_) ip.ofWords_word
    rw [Block.getWord_putDinode b ip hk' hj, if_pos hkk]
  · rw [if_neg hkk]
    refine Dinode.ofWords_congr fun j hj => ?_
    rw [Block.getWord_putDinode b ip hk' hj, if_neg hkk]

namespace Superblock

variable (sb : Superblock)

/-! ## Reading and writing the regions -/

/-- The on-disk inode `i`. -/
def dinode (d : Disk) (i : ℕ) : Dinode := (d (sb.iblock i)).dinode (i % ipb)

/-- Store the on-disk inode `i`. -/
def putDinode (d : Disk) (i : ℕ) (ip : Dinode) : Disk :=
  Function.update d (sb.iblock i) ((d (sb.iblock i)).putDinode (i % ipb) ip)

/-- The bit of block `b` in the free map. -/
def bit (d : Disk) (b : ℕ) : Bool := (d (sb.bblock b)).testBit (b % bpb)

/-- Mark block `b` as used. -/
def setBit (d : Disk) (b : ℕ) : Disk :=
  Function.update d (sb.bblock b) ((d (sb.bblock b)).setBit (b % bpb))

/-- Mark block `b` as free. -/
def clearBit (d : Disk) (b : ℕ) : Disk :=
  Function.update d (sb.bblock b) ((d (sb.bblock b)).clearBit (b % bpb))

/-! ## Stores stay in their region -/

variable {sb}

section Regions

variable (hsb : sb.Layout) {d : Disk}

include hsb

theorem Layout.iblock_lt (hi : i < sb.ninodes) : sb.iblock i < sb.bmapstart := by
  have := hsb.inodes
  have hdiv : i / ipb ≤ sb.ninodes / ipb := Nat.div_le_div_right hi.le
  unfold iblock
  omega

omit hsb in
theorem Layout.bblock_lt (hb : b < sb.size) : sb.bblock b < sb.dataStart := by
  have hdiv : b / bpb ≤ sb.size / bpb := Nat.div_le_div_right hb.le
  unfold bblock dataStart
  omega

omit hsb in
theorem bmapstart_le_bblock (b : ℕ) : sb.bmapstart ≤ sb.bblock b := Nat.le_add_left _ _

theorem Layout.iblock_lt_dataStart (hi : i < sb.ninodes) : sb.iblock i < sb.dataStart :=
  (hsb.iblock_lt hi).trans_le (Nat.le_add_right _ _)

/-- A store into a data block, or into any block that is not an inode block. -/
theorem Layout.dinode_update (hi : i < sb.ninodes) (hb : sb.bmapstart ≤ b) :
    sb.dinode (Function.update d b blk) i = sb.dinode d i := by
  have hne : sb.iblock i ≠ b := ((hsb.iblock_lt hi).trans_le hb).ne
  rw [dinode, Function.update_of_ne hne, dinode]

theorem Layout.dinode_setBit (hi : i < sb.ninodes) : sb.dinode (sb.setBit d b) i = sb.dinode d i :=
  hsb.dinode_update hi (bmapstart_le_bblock b)

theorem Layout.dinode_clearBit (hi : i < sb.ninodes) :
    sb.dinode (sb.clearBit d b) i = sb.dinode d i :=
  hsb.dinode_update hi (bmapstart_le_bblock b)

omit hsb in
theorem dinode_putDinode (i j : ℕ) (ip : Dinode) :
    sb.dinode (sb.putDinode d i ip) j = if j = i then ip else sb.dinode d j := by
  have hpos : j % ipb < ipb := Nat.mod_lt j (by decide)
  by_cases hblk : sb.iblock j = sb.iblock i
  · rw [dinode, putDinode, hblk, Function.update_self,
      Block.dinode_putDinode _ _ hpos, dinode, hblk]
    have hiff : j % ipb = i % ipb ↔ j = i := by
      unfold iblock at hblk
      have hdiv : j / ipb = i / ipb := by omega
      constructor
      · intro hmod
        rw [← Nat.div_add_mod j ipb, ← Nat.div_add_mod i ipb, hdiv, hmod]
      · rintro rfl
        rfl
    simp only [hiff]
  · have hne : j ≠ i := fun h => hblk (by rw [h])
    rw [if_neg hne, dinode, putDinode, Function.update_of_ne hblk, dinode]

omit hsb in
/-- A store into a data block leaves the map alone. -/
theorem Layout.bit_update (hb : b < sb.size) (hc : sb.dataStart ≤ c) :
    sb.bit (Function.update d c blk) b = sb.bit d b := by
  have hne : sb.bblock b ≠ c := ((Layout.bblock_lt hb).trans_le hc).ne
  rw [bit, Function.update_of_ne hne, bit]

theorem Layout.bit_putDinode (hi : i < sb.ninodes) :
    sb.bit (sb.putDinode d i ip) b = sb.bit d b := by
  have hne : sb.bblock b ≠ sb.iblock i :=
    ((hsb.iblock_lt hi).trans_le (bmapstart_le_bblock b)).ne'
  rw [bit, putDinode, Function.update_of_ne hne, bit]

omit hsb in
theorem eq_of_bblock_eq (hblk : sb.bblock b = sb.bblock c) (hmod : b % bpb = c % bpb) : b = c := by
  have hdiv : b / bpb = c / bpb := by
    unfold bblock at hblk
    omega
  rw [← Nat.div_add_mod b bpb, ← Nat.div_add_mod c bpb, hdiv, hmod]

omit hsb in
theorem bit_setBit (b c : ℕ) :
    sb.bit (sb.setBit d b) c = Function.update (sb.bit d) b true c := by
  have hpos : c % bpb < 8 * bSize := Nat.mod_lt c (by decide)
  rcases eq_or_ne c b with rfl | hne
  · rw [Function.update_self, bit, setBit, Function.update_self, Bytes.testBit_setBit hpos]
    simp
  · rw [Function.update_of_ne hne, bit, setBit]
    by_cases hblk : sb.bblock c = sb.bblock b
    · have hmod : b % bpb ≠ c % bpb := fun h => hne (eq_of_bblock_eq hblk h.symm)
      rw [hblk, Function.update_self, Bytes.testBit_setBit hpos, bit, hblk]
      simp [hmod]
    · rw [Function.update_of_ne hblk, bit]

omit hsb in
theorem bit_clearBit (b c : ℕ) :
    sb.bit (sb.clearBit d b) c = Function.update (sb.bit d) b false c := by
  have hpos : c % bpb < 8 * bSize := Nat.mod_lt c (by decide)
  rcases eq_or_ne c b with rfl | hne
  · rw [Function.update_self, bit, clearBit, Function.update_self, Bytes.testBit_clearBit hpos]
    simp
  · rw [Function.update_of_ne hne, bit, clearBit]
    by_cases hblk : sb.bblock c = sb.bblock b
    · have hmod : b % bpb ≠ c % bpb := fun h => hne (eq_of_bblock_eq hblk h.symm)
      rw [hblk, Function.update_self, Bytes.testBit_clearBit hpos, bit, hblk]
      simp [hmod]
    · rw [Function.update_of_ne hblk, bit]

/-- The map and the inodes lie before the data. -/
theorem Layout.data_putDinode (hi : i < sb.ninodes) (hc : sb.dataStart ≤ c) :
    sb.putDinode d i ip c = d c := by
  have hne : c ≠ sb.iblock i := ((hsb.iblock_lt_dataStart hi).trans_le hc).ne'
  rw [putDinode, Function.update_of_ne hne]

omit hsb in
theorem Layout.data_setBit (hb : b < sb.size) (hc : sb.dataStart ≤ c) : sb.setBit d b c = d c := by
  have hne : c ≠ sb.bblock b := ((Layout.bblock_lt hb).trans_le hc).ne'
  rw [setBit, Function.update_of_ne hne]

omit hsb in
theorem Layout.data_clearBit (hb : b < sb.size) (hc : sb.dataStart ≤ c) :
    sb.clearBit d b c = d c := by
  have hne : c ≠ sb.bblock b := ((Layout.bblock_lt hb).trans_le hc).ne'
  rw [clearBit, Function.update_of_ne hne]

end Regions

end Superblock

end InuOs
