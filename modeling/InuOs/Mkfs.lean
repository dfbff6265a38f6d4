import InuOs.ReadWrite

/-!
# mkfs (`mkfs.c`)

The program that builds the file-system image. It allocates with two counters, `freeinode` and
`freeblock`, and writes the free map at the end; the kernel allocates from the free map.

* What mkfs has built so far is read as a disk of the kernel by `Image.virt`: the blocks of the
  image file, with the map that `balloc(freeblock)` would write now. On this disk `freeblock++` is a
  call of the kernel's `balloc` (`balloc_virt`), and the loop of `iappend` is the loop of `writei`
  (`iappendLoop_spec`). So what `InuOs.BlockRun` and `InuOs.ReadWrite` say about `writei` holds for
  images.
* A failed assertion and `exit(1)` end the program; the functions return `Except Exit`.
* Reading a sector behind the end of the image file fails. As `iappend` reads each block before it
  writes it, no block of a finished image lies there.

Conversions to and from the byte order of the disk are in `Block.dinode` and `Block.putDinode`.
-/

namespace InuOs.Mkfs

open Flat

/-! ## The layout -/

/-- `NINODES` -/
def nInodes : ℕ := 200

/-- `nbitmap` -/
def nBitmap : ℕ := fsSize / (bSize * 8) + 1

/-- `ninodeblocks` -/
def nInodeBlocks : ℕ := nInodes / ipb + 1

/-- `nlog` -/
def nLog : ℕ := logSize

/-- `nmeta` -/
def nMeta : ℕ := 2 + nLog + nInodeBlocks + nBitmap

/-- `nblocks` -/
def nBlocks : ℕ := fsSize - nMeta

/-- `sb` -/
def sb : Superblock where
  size := fsSize
  ninodes := nInodes
  inodestart := 2 + nLog
  bmapstart := 2 + nLog + nInodeBlocks

/-- The fields of `sb`, in their order. -/
def sbWords : List ℕ :=
  [fsSize, nBlocks, nInodes, nLog, 2, 2 + nLog, 2 + nLog + nInodeBlocks]

/-- Block 1. -/
def sbBlock : Block :=
  sbWords.zipIdx.foldl (fun b w => b.setWord w.2 (UInt32.ofNat w.1)) zeroBlock

/-- `ROOTINO` -/
def rootIno : ℕ := 1

/-- `T_FILE` -/
def typeFile : UInt16 := 2

/-! ## The image file -/

/-- Why the program ends early. -/
inductive Exit : Type where
  /-- `assert(index(argv[i], '/') == 0)` -/
  | slash
  /-- `open(argv[i], 0)` fails -/
  | cannotOpen
  /-- `rsect`: `read` returns less than a block -/
  | read
  /-- `assert(fbn < MAXFILE)` -/
  | maxFile
  /-- `assert(used < BSIZE*8)` -/
  | bitmap
  /-- `assert(rootino == ROOTINO)` -/
  | rootino
  deriving DecidableEq, Repr

/-- The state of the program. `writes` is not in the source: the sectors that `winode` has
written. -/
structure Image : Type where
  disk : Disk
  /-- the length of the image file in blocks -/
  length : ℕ
  freeinode : ℕ
  freeblock : ℕ
  writes : List ℕ

namespace Image

/-- `rsect` -/
def rsect (img : Image) (sec : ℕ) : Except Exit Block :=
  if sec < img.length then pure (img.disk sec) else throw .read

/-- `wsect`. Behind the end it makes the image file longer. -/
def wsect (img : Image) (sec : ℕ) (buf : Block) : Image :=
  { img with disk := Function.update img.disk sec buf, length := max img.length (sec + 1) }

/-- `winode` -/
def winode (img : Image) (inum : ℕ) (ip : Dinode) : Except Exit Image := do
  let bn := sb.iblock inum
  let buf ← img.rsect bn
  pure { img.wsect bn (buf.putDinode (inum % ipb) ip) with writes := img.writes ++ [bn] }

/-- `rinode` -/
def rinode (img : Image) (inum : ℕ) : Except Exit Dinode := do
  let buf ← img.rsect (sb.iblock inum)
  pure (buf.dinode (inum % ipb))

/-- The inode that `ialloc` writes. -/
def newDinode (type : UInt16) : Dinode := { Fs.freshDinode type with nlink := 1 }

/-- `ialloc` -/
def ialloc (img : Image) (type : UInt16) : Except Exit (Image × ℕ) := do
  let inum := img.freeinode
  let img ← { img with freeinode := inum + 1 }.winode inum (newDinode type)
  pure (img, inum)

/-- The loop of `balloc`. -/
def mapBlock (used : ℕ) : Block := (List.range used).foldl Bytes.setBit zeroBlock

/-- `balloc` -/
def balloc (img : Image) (used : ℕ) : Except Exit Image :=
  if used < bSize * 8 then pure (img.wsect sb.bmapstart (mapBlock used)) else throw .bitmap

/-- `freeblock++` -/
def nextBlock (img : Image) : Image := { img with freeblock := img.freeblock + 1 }

/-- `iappend`: the indirect block, a new one if there is none. -/
def slotLoad (img : Image) (din : Dinode) : Image × Dinode :=
  if din.addr nDirect = 0 then
    (img.nextBlock, din.setAddr nDirect (UInt32.ofNat img.freeblock))
  else (img, din)

/-- `iappend`: entry `k` of the indirect block, a new block if there is none. -/
def slotEntry (img : Image) (din : Dinode) (k : ℕ) : Except Exit (Image × Dinode × UInt32) := do
  let indirect ← img.rsect (din.addr nDirect).toNat
  if indirect.getWord k = 0 then
    let x := UInt32.ofNat img.freeblock
    pure (img.nextBlock.wsect (din.addr nDirect).toNat (indirect.setWord k x), din, x)
  else pure (img, din, indirect.getWord k)

/-- `iappend`: the block for slot `fbn`, a new one if there is none. -/
def slot (img : Image) (din : Dinode) (fbn : ℕ) : Except Exit (Image × Dinode × UInt32) :=
  if fbn < nDirect then
    if din.addr fbn = 0 then
      let x := UInt32.ofNat img.freeblock
      pure (img.nextBlock, din.setAddr fbn x, x)
    else pure (img, din, din.addr fbn)
  else
    let (img, din) := img.slotLoad din
    img.slotEntry din (fbn - nDirect)

/-- `min(n, (fbn + 1) * BSIZE - off)` -/
theorem min_eq_chunk (n off : ℕ) : min n ((off / bSize + 1) * bSize - off) = chunk n off := by
  have hdiv := Nat.div_add_mod off bSize
  rw [chunk, Nat.add_mul, Nat.one_mul, Nat.mul_comm (off / bSize)]
  congr 1
  omega

/-- The loop of `iappend`. -/
def iappendLoop (img : Image) (din : Dinode) (off : ℕ) (p : List UInt8) :
    Except Exit (Image × Dinode × ℕ) :=
  if _hp : p.length = 0 then pure (img, din, off)
  else do
    let fbn := off / bSize
    if maxFile ≤ fbn then throw .maxFile
    let (img, din, x) ← img.slot din fbn
    let n1 := min p.length ((fbn + 1) * bSize - off)
    let buf ← img.rsect x.toNat
    let img := img.wsect x.toNat (buf.paste (off - fbn * bSize) (p.take n1))
    img.iappendLoop din (off + n1) (p.drop n1)
termination_by p.length
decreasing_by
  rw [List.length_drop, min_eq_chunk]
  exact Nat.sub_lt (Nat.pos_of_ne_zero _hp) (chunk_pos _hp off)

/-- `iappend` -/
def iappend (img : Image) (inum : ℕ) (p : List UInt8) : Except Exit Image := do
  let din ← img.rinode inum
  let (img, din, off) ← img.iappendLoop din din.size.toNat p
  img.winode inum { din with size := UInt32.ofNat off }

end Image

/-! ## The program -/

/-- A file on the command line. -/
structure Input : Type where
  argv : List UInt8
  /-- what `read` returns, call after call, if the file can be opened -/
  reads : Option (List (List UInt8))
  deriving DecidableEq, Repr

/-- The name without a leading `_`. -/
def Input.name (f : Input) : List UInt8 := if f.argv.head? = some 95 then f.argv.tail else f.argv

/-- The loop over `read`. -/
def appendReads (img : Image) (inum : ℕ) : List (List UInt8) → Except Exit Image
  | [] => pure img
  | buf :: rest =>
    if buf.length = 0 then pure img
    else do
      let img ← img.iappend inum buf
      appendReads img inum rest

/-- A turn of the loop over the files. -/
def addFile (img : Image) (f : Input) : Except Exit Image :=
  if 47 ∈ f.argv then throw .slash
  else
    match f.reads with
    | none => throw .cannotOpen
    | some reads => do
      let (img, inum) ← img.ialloc typeFile
      let img ← img.iappend rootIno (direntBytes inum f.name)
      appendReads img inum reads

/-- The loop over the files. -/
def addFiles (img : Image) : List Input → Except Exit Image
  | [] => pure img
  | f :: fs => do
    let img ← addFile img f
    addFiles img fs

/-- An empty image file, and the counters. -/
def created : Image where
  disk _ := zeroBlock
  length := 0
  freeinode := 1
  freeblock := nMeta
  writes := []

/-- The image before `ialloc(T_DIR)`. -/
def start : Image :=
  ((List.range fsSize).foldl (fun img i => img.wsect i zeroBlock) created).wsect 1 sbBlock

/-- The root directory with `"."` and `".."`. -/
def makeRoot : Except Exit Image := do
  let (img, rootino) ← start.ialloc tDir
  if rootino ≠ rootIno then throw .rootino
  let img ← img.iappend rootino (direntBytes rootino [46])
  img.iappend rootino (direntBytes rootino [46, 46])

/-- The end of `main`: the size of the root directory, and the free map. -/
def finish (img : Image) : Except Exit Image := do
  let din ← img.rinode rootIno
  let off := (din.size.toNat / bSize + 1) * bSize
  let img ← img.winode rootIno { din with size := UInt32.ofNat off }
  img.balloc img.freeblock

/-- `main`, for an image file that can be written. -/
def mkfs (files : List Input) : Except Exit Image := do
  let img ← makeRoot
  let img ← addFiles img files
  finish img

/-! ## The image as a disk of the kernel -/

theorem layout : sb.Layout := ⟨by decide, by decide, by decide⟩

variable {i b n n' : ℕ} {img'' : Image} {ip : Dinode}

theorem iblock_lt (hi : i < nInodes) : sb.iblock i < sb.bmapstart := layout.iblock_lt hi

/-- The bits of the first `used` blocks are set. -/
theorem testBit_mapBlock (used : ℕ) (hb : b < bpb) :
    (Image.mapBlock used).testBit b = decide (b < used) := by
  induction used with
  | zero => simp [Image.mapBlock, Bytes.testBit_eq, Bytes.byte, zeroBlock]
  | succ used ih =>
    have hb' : b < 8 * bSize := hb
    rw [Image.mapBlock, List.range_succ, List.foldl_concat, Bytes.testBit_setBit hb',
      ← Image.mapBlock, ih]
    rcases Nat.lt_trichotomy b used with hlt | rfl | hgt
    · simp [hlt, Nat.lt_succ_of_lt hlt]
    · simp
    · simp [hgt.ne, Nat.not_lt_of_gt hgt, Nat.not_lt_of_ge (Nat.succ_le_of_lt hgt)]

namespace Image

/-- The image with the free map that belongs to it. -/
def virt (img : Image) : Disk := Function.update img.disk sb.bmapstart (mapBlock img.freeblock)

variable {img img' : Image}

theorem virt_of_ne (hb : b ≠ sb.bmapstart) : img.virt b = img.disk b :=
  Function.update_of_ne hb ..

theorem bit_virt (hb : b < bpb) : sb.bit img.virt b = decide (b < img.freeblock) := by
  have hblock : sb.bblock b = sb.bmapstart := by
    rw [Superblock.bblock, Nat.div_eq_of_lt hb, Nat.zero_add]
  rw [Superblock.bit, hblock, virt, Function.update_self, Nat.mod_eq_of_lt hb,
    testBit_mapBlock _ hb]

/-- The image file has its full length, the counter of blocks is behind the metadata, and the blocks
that are not allocated are zeros. -/
structure Ready (img : Image) : Prop where
  length : img.length = fsSize
  lo : nMeta ≤ img.freeblock
  hi : img.freeblock ≤ fsSize
  zero : ∀ b, img.freeblock ≤ b → img.disk b = zeroBlock

theorem Ready.rsect (h : Ready img) (hb : b < fsSize) : img.rsect b = .ok (img.disk b) := by
  rw [Image.rsect, h.length, if_pos hb]
  rfl

theorem virt_wsect (hb : b ≠ sb.bmapstart) (buf : Block) :
    (img.wsect b buf).virt = Function.update img.virt b buf :=
  Function.update_comm hb ..

/-- Writing an allocated block. -/
theorem Ready.wsect (h : Ready img) (hb : b < img.freeblock) (buf : Block) :
    Ready (img.wsect b buf) := { h with
  length := by
    have hhi := h.hi
    rw [Image.wsect, h.length]
    exact max_eq_left (by omega)
  zero c hc := by
    have hne : c ≠ b := (hb.trans_le hc).ne'
    exact (Function.update_of_ne hne ..).trans (h.zero c hc) }

theorem Ready.nextBlock (h : Ready img) (hlt : img.freeblock < fsSize) : Ready img.nextBlock where
  length := h.length
  lo := h.lo.trans (Nat.le_succ _)
  hi := hlt
  zero b hb := h.zero b (Nat.le_of_succ_le hb)

/-- `freeblock++` is the kernel's `balloc`. -/
theorem balloc_virt (h : Ready img) (hlt : img.freeblock < fsSize) :
    InuOs.balloc sb img.virt = .ok (img.nextBlock.virt, UInt32.ofNat img.freeblock) := by
  have hfind : ballocFind sb img.virt = some img.freeblock := by
    have hrange : List.range ((sb.size + bpb - 1) / bpb) = [0] := rfl
    have hmin : min bpb (sb.size - 0 * bpb) = fsSize := rfl
    have hblock : sb.bblock (0 * bpb) = sb.bmapstart := rfl
    rw [ballocFind, hrange, List.findSome?_singleton, hmin, hblock, virt, Function.update_self]
    have hfirst : (List.range fsSize).find? (fun bi => !(mapBlock img.freeblock).testBit bi) =
        some img.freeblock := by
      have hbits (b : ℕ) (hb : b < fsSize) :
          (mapBlock img.freeblock).testBit b = decide (b < img.freeblock) :=
        testBit_mapBlock _ (hb.trans (by decide))
      rw [List.find?_range_eq_some]
      refine ⟨by rw [hbits _ hlt]; simp, List.mem_range.mpr hlt, fun b hb => ?_⟩
      rw [hbits _ (hb.trans hlt)]
      simp [hb]
    rw [hfirst]
    simp
  have hne : img.freeblock ≠ sb.bmapstart := by
    have hlo : 59 ≤ img.freeblock := h.lo
    have hmap : sb.bmapstart = 58 := rfl
    omega
  have hbit : sb.setBit img.virt img.freeblock = img.nextBlock.virt := by
    have hsmall : img.freeblock < bpb := hlt.trans (by decide)
    have hblock : sb.bblock img.freeblock = sb.bmapstart := by
      rw [Superblock.bblock, Nat.div_eq_of_lt hsmall, Nat.zero_add]
    rw [Superblock.setBit, hblock, virt, Function.update_self, Function.update_idem, virt,
      Nat.mod_eq_of_lt hsmall, nextBlock, mapBlock, mapBlock, List.range_succ, List.foldl_concat]
  have hzero : img.nextBlock.virt img.freeblock = zeroBlock :=
    (virt_of_ne hne).trans (h.zero _ le_rfl)
  rw [InuOs.balloc, hfind]
  dsimp only
  rw [hbit, ← hzero, Function.update_eq_self]
  rfl

/-- When all blocks are allocated, `balloc` fails. -/
theorem balloc_virt_full (hfull : img.freeblock = fsSize) :
    InuOs.balloc sb img.virt = .error .ballocOutOfBlocks := by
  have hfind : ballocFind sb img.virt = none := by
    rw [Option.eq_none_iff_forall_ne_some]
    intro b hb
    obtain ⟨hlt, hfree⟩ := ballocFind_spec hb
    have hlt' : b < fsSize := hlt
    rw [bit_virt (hlt'.trans (by decide)), hfull] at hfree
    simp [hlt'] at hfree
  rw [InuOs.balloc, hfind]
  rfl

/-! ## `iappend` and `writei` -/

/-- The blocks that a file of `n` data blocks takes, with the indirect block. -/
def need (n : ℕ) : ℕ := n + if nDirect < n then 1 else 0

/-- The program has allocated blocks and written them. -/
structure Advance (img img' : Image) : Prop where
  ready : Ready img'
  writes : img'.writes = img.writes

theorem Advance.refl (h : Ready img) : Advance img img := ⟨h, rfl⟩

theorem Advance.trans (h : Advance img img') (h' : Advance img' img'') : Advance img img'' :=
  ⟨h'.ready, h'.writes.trans h.writes⟩

theorem Advance.nextBlock (h : Ready img) (hlt : img.freeblock < fsSize) :
    Advance img img.nextBlock := ⟨h.nextBlock hlt, rfl⟩

theorem Advance.wsect (h : Ready img) (hb : b < img.freeblock) (buf : Block) :
    Advance img (img.wsect b buf) := ⟨h.wsect hb buf, rfl⟩

/-- From `img` the kernel gets to `r` and mkfs to `r'`: the same disk and the same value. -/
structure Tracks {α : Type} (img : Image) (r : Disk × α) (r' : Image × α) : Prop
    extends Advance img r'.1 where
  disk : r.1 = r'.1.virt
  value : r.2 = r'.2

theorem Tracks.of_advance {α : Type} {r : Disk × α} {r' : Image × α} (h : Advance img img')
    (h' : Tracks img' r r') : Tracks img r r' := { h' with toAdvance := h.trans h'.toAdvance }

/-- The block of a slot is read, as `iappend` does before it writes it. -/
def load (r : Image × Dinode × UInt32) : Except Exit (Image × Dinode × UInt32) := do
  let _ ← r.1.rsect r.2.2.toNat
  pure r

theorem load_of_lt {x : UInt32} (h : Ready img) (hx : x.toNat < fsSize) :
    load (img, ip, x) = .ok (img, ip, x) := by
  rw [load, h.rsect hx]
  rfl

/-- A block behind the end cannot be read. -/
theorem rsect_full (hfull : img.freeblock = fsSize) (hlen : img'.length = fsSize) :
    img'.rsect (UInt32.ofNat img.freeblock).toNat = .error .read := by
  rw [Image.rsect, hfull, hlen]
  exact if_neg (by decide)

/-- A new block. If there is none left, `balloc` fails in the kernel, and mkfs cannot read the
block. -/
theorem agree_balloc {f : Disk × UInt32 → Disk × Dinode × UInt32} (h : Ready img)
    (hlen : img'.length = fsSize)
    (htracks : img.freeblock < fsSize → Tracks img
      (f (img.nextBlock.virt, UInt32.ofNat img.freeblock)) (img', ip, UInt32.ofNat img.freeblock)) :
    Agree (Tracks img) (InuOs.balloc sb img.virt >>= fun r => pure (f r))
      (load (img', ip, UInt32.ofNat img.freeblock)) := by
  rcases h.hi.lt_or_eq with hlt | hfull
  · have hsmall : img.freeblock < 2 ^ 32 := hlt.trans (by decide)
    have hx : (UInt32.ofNat img.freeblock).toNat < fsSize := by
      rwa [UInt32.toNat_ofNat', Nat.mod_eq_of_lt hsmall]
    have htracks := htracks hlt
    rw [balloc_virt h hlt, load_of_lt htracks.ready hx]
    exact .ok htracks
  · rw [balloc_virt_full hfull, load, rsect_full hfull hlen]
    exact .error ..

section Slot

variable {ino : ℕ → Dinode} {i bn : ℕ} (hr : Ready img) (h : Held sb ino img.virt)
  (hi : i < nInodes) (htype : (ino i).type ≠ 0)

include h hi htype in
/-- A block that an inode holds is one of those that were allocated. -/
theorem lt_freeblock {k : ℕ} (hk : (ino i).ptr img.virt k ≠ 0) :
    nMeta ≤ ((ino i).ptr img.virt k).toNat ∧ ((ino i).ptr img.virt k).toNat < img.freeblock := by
  have hdata := h.isData_ptr hi htype hk
  have hlt : ((ino i).ptr img.virt k).toNat < bpb := hdata.2.trans (by decide)
  have hused := h.exact.used_of_own (Held.own_ptr hi htype hk)
  rw [bit_virt hlt, decide_eq_true_eq] at hused
  exact ⟨hdata.1, hused⟩

theorem ne_bmapstart (hb : nMeta ≤ b) : b ≠ sb.bmapstart := by
  have hmap : sb.bmapstart < nMeta := by decide
  omega

include hr h hi htype

/-- A block that is there. -/
theorem agree_ptr {k : ℕ} (hk : (ino i).ptr img.virt k ≠ 0) :
    Agree (ε := Panic) (Tracks img) (pure (img.virt, ino i, (ino i).ptr img.virt k))
      (load (img, ino i, (ino i).ptr img.virt k)) := by
  rw [load_of_lt hr ((lt_freeblock h hi htype hk).2.trans_le hr.hi)]
  exact .ok ⟨.refl hr, rfl, rfl⟩

theorem agree_slotEntry (hdir : nDirect ≤ bn) (hbn : bn < maxFile)
    (hind : (ino i).addr nDirect ≠ 0) :
    Agree (Tracks img) (bmapEntry sb img.virt (ino i) (bn - nDirect))
      (img.slotEntry (ino i) (bn - nDirect) >>= load) := by
  have hword := Dinode.ptr_place (d := img.virt) hdir hbn hind
  obtain ⟨hlo, hlt⟩ : nMeta ≤ ((ino i).addr nDirect).toNat ∧
      ((ino i).addr nDirect).toNat < img.freeblock := by
    have hptr : (ino i).ptr img.virt nDirect = (ino i).addr nDirect := Dinode.ptr_direct le_rfl
    rw [← hptr] at hind ⊢
    exact lt_freeblock h hi htype hind
  have hne := ne_bmapstart hlo
  have hsame : img.disk ((ino i).addr nDirect).toNat = img.virt ((ino i).addr nDirect).toNat :=
    (virt_of_ne hne).symm
  have hslot : img.slotEntry (ino i) (bn - nDirect) =
      if (img.virt ((ino i).addr nDirect).toNat).getWord (bn - nDirect) = 0 then
        pure (img.nextBlock.wsect ((ino i).addr nDirect).toNat
          ((img.virt ((ino i).addr nDirect).toNat).setWord (bn - nDirect)
            (UInt32.ofNat img.freeblock)), ino i, UInt32.ofNat img.freeblock)
      else pure (img, ino i, (img.virt ((ino i).addr nDirect).toNat).getWord (bn - nDirect)) := by
    rw [slotEntry, hr.rsect (hlt.trans_le hr.hi), hsame]
    rfl
  rw [bmapEntry, hslot]
  dsimp only
  split
  · have hnext : img.nextBlock.virt ((ino i).addr nDirect).toNat =
        img.virt ((ino i).addr nDirect).toNat := by
      rw [virt_of_ne hne, virt_of_ne hne]
      rfl
    rw [pure_bind]
    refine agree_balloc (f := fun r => (Function.update r.1 ((ino i).addr nDirect).toNat
      ((r.1 ((ino i).addr nDirect).toNat).setWord (bn - nDirect) r.2), ino i, r.2)) hr ?_
      fun hfree => ⟨(Advance.nextBlock hr hfree).trans
        (.wsect (hr.nextBlock hfree) (hlt.trans (Nat.lt_succ_self _)) _), ?_, rfl⟩
    · have hlen := hr.length
      have hhi := hr.hi
      change max img.length (((ino i).addr nDirect).toNat + 1) = fsSize
      rw [hlen]
      exact max_eq_left (by omega)
    · rw [virt_wsect hne]
      dsimp only
      rw [hnext]
  · next hne =>
    rw [← hword] at hne ⊢
    rw [pure_bind]
    exact agree_ptr hr h hi htype hne

/-- **A slot is a block of `bmap`.** -/
theorem agree_slot (hbn : bn < maxFile) :
    Agree (Tracks img) (bmap sb img.virt (ino i) bn) (img.slot (ino i) bn >>= load) := by
  rw [bmap, slot]
  by_cases hdir : bn < nDirect
  · have hptr : (ino i).ptr img.virt bn = (ino i).addr bn := Dinode.ptr_direct hdir.le
    rw [if_pos hdir, if_pos hdir]
    split
    · rw [pure_bind]
      exact agree_balloc (f := fun r => (r.1, (ino i).setAddr bn r.2, r.2)) hr hr.length
        fun hfree => ⟨.nextBlock hr hfree, rfl, rfl⟩
    · next hne =>
      rw [← hptr] at hne ⊢
      rw [pure_bind]
      exact agree_ptr hr h hi htype hne
  · rw [if_neg hdir, if_neg hdir, if_pos (sub_nDirect_lt hbn)]
    have hdir := Nat.le_of_not_lt hdir
    have hload := bmapLoad_grows h layout hi htype
    rw [bmapLoad] at hload ⊢
    rw [slotLoad]
    by_cases hind : (ino i).addr nDirect = 0
    · rw [if_pos hind] at hload ⊢
      rw [if_pos hind]
      rcases hr.hi.lt_or_eq with hlt | hfull
      · rw [balloc_virt hr hlt] at hload ⊢
        obtain ⟨hgrows, hind'⟩ := hload.of_ok rfl
        have hself : Function.update ino i
          ((ino i).setAddr nDirect (UInt32.ofNat img.freeblock)) i =
            (ino i).setAddr nDirect (UInt32.ofNat img.freeblock) := Function.update_self ..
        have hadv := Advance.nextBlock hr hlt
        have hentry := agree_slotEntry hadv.ready hgrows.held hi
          (by rw [hself]; exact htype) hdir hbn
          (by rwa [hself])
        rw [hself] at hentry
        exact hentry.mono fun _ _ => .of_advance hadv
      · rw [balloc_virt_full hfull]
        dsimp only
        have hfail : img.nextBlock.rsect (UInt32.ofNat img.freeblock).toNat = .error .read :=
          rsect_full hfull hr.length
        rw [slotEntry, Dinode.addr_setAddr _ _ (by decide), if_pos rfl, hfail]
        exact .error ..
    · rw [if_neg hind, if_neg hind]
      exact agree_slotEntry hr h hi htype hdir hbn hind

/-- A data block of an inode is written. -/
theorem wsect_data (hptr : (ino i).ptr img.virt (place bn) ≠ 0) (blk : Block) :
    (img.wsect ((ino i).ptr img.virt (place bn)).toNat blk).virt =
        Function.update img.virt ((ino i).ptr img.virt (place bn)).toNat blk ∧
      Advance img (img.wsect ((ino i).ptr img.virt (place bn)).toNat blk) ∧
      Held sb ino (img.wsect ((ino i).ptr img.virt (place bn)).toNat blk).virt := by
  obtain ⟨hlo, hlt⟩ := lt_freeblock h hi htype hptr
  have hvirt : (img.wsect ((ino i).ptr img.virt (place bn)).toNat blk).virt = _ :=
    virt_wsect (ne_bmapstart hlo) blk
  refine ⟨hvirt, .wsect hr hlt blk, ?_⟩
  rw [hvirt]
  exact h.update_data hi htype hptr blk layout

end Slot

/-- One turn of the loop. -/
theorem iappendLoop_turn {din : Dinode} {off : ℕ} {p : List UInt8} (hp : p.length ≠ 0)
    (hfbn : off / bSize < maxFile) :
    img.iappendLoop din off p = ((img.slot din (off / bSize) >>= load) >>= fun r =>
      (r.1.wsect r.2.2.toNat ((r.1.disk r.2.2.toNat).paste (off % bSize)
        (p.take (chunk p.length off)))).iappendLoop r.2.1 (off + chunk p.length off)
          (p.drop (chunk p.length off))) := by
  have hoff : off - off / bSize * bSize = off % bSize := by
    have := Nat.div_add_mod off bSize
    rw [Nat.mul_comm]
    omega
  rw [iappendLoop, dif_neg hp]
  rw [if_neg (Nat.not_le.mpr hfbn), hoff, min_eq_chunk, bind_assoc]
  refine bind_congr fun r => ?_
  unfold load Image.rsect
  dsimp only
  split <;> rfl

/-- The end of the range lies in the block of its first chunk, or behind it. -/
theorem add_le_of_chunk_eq {off n : ℕ} (hn : n = chunk n off) (hfbn : off / bSize < maxFile) :
    off + n ≤ maxFile * bSize := by
  have hdiv := Nat.div_add_mod off bSize
  have hmod := Nat.mod_lt off (show 0 < bSize by decide)
  have hle : chunk n off ≤ bSize - off % bSize := Nat.min_le_right ..
  calc off + n ≤ bSize * (off / bSize + 1) := by rw [Nat.mul_succ]; omega
    _ ≤ bSize * maxFile := Nat.mul_le_mul_left _ hfbn
    _ = maxFile * bSize := Nat.mul_comm ..

/-- **The loop of `iappend` is the loop of `writei`.** They fail together, and otherwise leave the
same disk and the same inode. -/
theorem agree_iappendLoop {ino : ℕ → Dinode} (hr : Ready img) (h : Held sb ino img.virt)
    (hi : i < nInodes) (htype : (ino i).type ≠ 0) (off : ℕ) (p : List UInt8) :
    Agree (Tracks img) (writeiLoop sb img.virt (ino i) off p) (img.iappendLoop (ino i) off p) := by
  induction hlen : p.length using Nat.strong_induction_on generalizing img ino off p with
  | _ n ih =>
    subst hlen
    by_cases hp : p.length = 0
    · rw [writeiLoop, dif_pos hp, iappendLoop, dif_pos hp]
      exact .ok ⟨.refl hr, rfl, rfl⟩
    · by_cases hfbn : off / bSize < maxFile
      · rw [iappendLoop_turn hp hfbn, writeiLoop, dif_neg hp]
        refine (agree_slot hr h hi htype hfbn).bind ?_
        rintro ⟨d, ip, a⟩ ⟨img₁, ip', a'⟩ hbmap ⟨hadv, hd, hvalue⟩
        obtain rfl : d = img₁.virt := hd
        obtain ⟨rfl, rfl⟩ := Prod.mk.inj hvalue
        obtain ⟨hgrows, hplace, hptr, -⟩ := (bmap_maps h layout hi htype hfbn).of_ok hbmap
        dsimp only at hgrows hplace hptr ⊢
        subst hplace
        have hself : Function.update ino i ip i = ip := Function.update_self ..
        have htype' : (Function.update ino i ip i).type ≠ 0 := by
          rw [hself, hgrows.type]
          exact htype
        rw [← hself] at hptr ⊢
        have hpos := chunk_pos hp off
        have hle := chunk_le p.length off
        -- the block is written, and the loop goes on
        have hdata := wsect_data hadv.ready hgrows.held hi htype' hptr
        rw [← (hdata _).1, ← virt_of_ne (ne_bmapstart (lt_freeblock hgrows.held hi htype' hptr).1)]
        exact (ih (p.length - chunk p.length off) (by omega) (hdata _).2.1.ready
          (hdata _).2.2 htype'
          _ _ List.length_drop).mono fun _ _ => .of_advance (hadv.trans (hdata _).2.1)
      · have hdir : ¬ off / bSize < nDirect := fun hlt => hfbn (hlt.trans (by decide))
        have hm : ¬ off / bSize - nDirect < nIndirect := by
          unfold maxFile at hfbn
          omega
        rw [writeiLoop, dif_neg hp, bmap, if_neg hdir, if_neg hm, iappendLoop, dif_neg hp]
        rw [if_pos (Nat.le_of_not_lt hfbn)]
        exact .error ..

/-! ## The counter of inodes -/

/-- The function leaves `freeinode` as it is, if it returns. -/
def Keeps {α : Type} (img : Image) (f : α → Image) (x : Except Exit α) : Prop :=
  Meets x (fun _ => True) fun r => (f r).freeinode = img.freeinode

theorem keeps_winode (img : Image) (i : ℕ) (ip : Dinode) : Keeps img id (img.winode i ip) :=
  (Meets.trivial (img.rsect (sb.iblock i))).bind fun _ _ => Meets.pure rfl

theorem keeps_slotEntry (img : Image) (din : Dinode) (k : ℕ) :
    Keeps img Prod.fst (img.slotEntry din k) := by
  refine (Meets.trivial (img.rsect (din.addr nDirect).toNat)).bind fun buf _ => ?_
  split
  · exact Meets.pure rfl
  · exact Meets.pure rfl

theorem keeps_slot (img : Image) (din : Dinode) (fbn : ℕ) :
    Keeps img Prod.fst (img.slot din fbn >>= load) := by
  have hslot : Keeps img Prod.fst (img.slot din fbn) := by
    rw [slot]
    split
    · split
      · exact Meets.pure rfl
      · exact Meets.pure rfl
    · have hload : (img.slotLoad din).1.freeinode = img.freeinode := by
        rw [slotLoad]
        split <;> rfl
      exact (keeps_slotEntry (img.slotLoad din).1 (img.slotLoad din).2 (fbn - nDirect)).mono
        fun r hr => hr.trans hload
  exact hslot.bind fun r hr => (Meets.trivial (r.1.rsect r.2.2.toNat)).bind fun _ _ => Meets.pure hr

/-- The loop also fails if the file gets too long. -/
theorem keeps_iappendLoop (img : Image) (din : Dinode) (off : ℕ) (p : List UInt8) :
    Meets (img.iappendLoop din off p) (fun _ => True) fun r =>
      r.1.freeinode = img.freeinode ∧ r.2.2 = off + p.length ∧
        (p.length ≠ 0 → off + p.length ≤ maxFile * bSize) := by
  induction hlen : p.length using Nat.strong_induction_on generalizing img din off p with
  | _ n ih =>
    subst hlen
    by_cases hp : p.length = 0
    · rw [iappendLoop, dif_pos hp]
      exact Meets.pure ⟨rfl, by rw [hp]; rfl, fun hne => absurd hp hne⟩
    · by_cases hfbn : off / bSize < maxFile
      · rw [iappendLoop_turn hp hfbn]
        refine (keeps_slot img din (off / bSize)).bind fun r hr => ?_
        have hpos := chunk_pos hp off
        have hle := chunk_le p.length off
        refine (ih (p.length - chunk p.length off) (by omega) _ r.2.1 (off + chunk p.length off) _
          List.length_drop).mono ?_
        rintro r' ⟨hfreeinode, hstop, hmax⟩
        refine ⟨hfreeinode.trans hr, by omega, fun _ => ?_⟩
        by_cases hlast : p.length = chunk p.length off
        · exact add_le_of_chunk_eq hlast hfbn
        · have := hmax (by omega)
          omega
      · rw [iappendLoop, dif_neg hp]
        rw [if_pos (Nat.le_of_not_lt hfbn)]
        exact Meets.throw trivial

theorem keeps_iappend (img : Image) (i : ℕ) (p : List UInt8) : Keeps img id (img.iappend i p) := by
  refine (Meets.trivial (img.rinode i)).bind fun din _ => ?_
  refine (keeps_iappendLoop img din din.size.toNat p).bind fun r hr => ?_
  exact (keeps_winode r.1 i _).mono fun img' himg' => himg'.trans hr.1

theorem keeps_appendReads (img : Image) (i : ℕ) (reads : List (List UInt8)) :
    Keeps img id (appendReads img i reads) := by
  induction reads generalizing img with
  | nil => exact Meets.pure rfl
  | cons buf rest ih =>
    rw [appendReads]
    split
    · exact Meets.pure rfl
    · exact (keeps_iappend img i buf).bind fun img₁ h₁ => (ih img₁).mono fun img₂ h₂ => h₂.trans h₁

/-! ## Inodes -/

theorem Ready.iblock_lt (h : Ready img) (hi : i < nInodes) :
    sb.iblock i < img.freeblock ∧ sb.iblock i ≠ sb.bmapstart := by
  have hlt := Mkfs.iblock_lt hi
  have hlast : sb.bmapstart < nMeta := by decide
  have hlo := h.lo
  omega

theorem Ready.rinode (h : Ready img) (hi : i < nInodes) :
    img.rinode i = .ok (sb.dinode img.virt i) := by
  obtain ⟨hlt, hne⟩ := h.iblock_lt hi
  rw [Image.rinode, h.rsect (hlt.trans_le h.hi), Superblock.dinode, virt_of_ne hne]
  rfl

/-- `winode` is `iupdate`. -/
theorem Ready.winode (h : Ready img) (hi : i < nInodes) (ip : Dinode) :
    ∃ img', img.winode i ip = .ok img' ∧ img'.virt = sb.putDinode img.virt i ip ∧ Ready img' ∧
      img'.freeblock = img.freeblock ∧ img'.freeinode = img.freeinode ∧
      img'.writes = img.writes ++ [sb.iblock i] := by
  obtain ⟨hlt, hne⟩ := h.iblock_lt hi
  refine ⟨{ img.wsect (sb.iblock i) ((img.disk (sb.iblock i)).putDinode (i % ipb) ip) with
    writes := img.writes ++ [sb.iblock i] }, ?_, ?_, ?_, rfl, rfl, rfl⟩
  · rw [Image.winode, h.rsect (hlt.trans_le h.hi)]
    rfl
  · rw [Superblock.putDinode, virt_of_ne hne]
    exact virt_wsect hne _
  · have hready := h.wsect hlt ((img.disk (sb.iblock i)).putDinode (i % ipb) ip)
    exact ⟨hready.length, hready.lo, hready.hi, hready.zero⟩

theorem empty_newDinode (type : UInt16) : (newDinode type).Empty :=
  ⟨fun k hk => by simp [Dinode.addr, newDinode, Fs.freshDinode], rfl⟩

/-! ## Counting blocks -/

theorem freeBlocks_virt :
    (freeBlocks sb img.virt).card = fsSize - img.freeblock := by
  have heq : freeBlocks sb img.virt = Finset.Ico img.freeblock fsSize := by
    ext b
    rw [freeBlocks, Finset.mem_filter, Finset.mem_range, Finset.mem_Ico]
    constructor
    · rintro ⟨hlt, hbit⟩
      have hlt' : b < fsSize := hlt
      rw [bit_virt (hlt'.trans (by decide)), decide_eq_false_iff_not] at hbit
      exact ⟨Nat.le_of_not_lt hbit, hlt'⟩
    · rintro ⟨hle, hlt⟩
      refine ⟨hlt, ?_⟩
      rw [bit_virt (hlt.trans (by decide)), decide_eq_false_iff_not]
      exact Nat.not_lt.mpr hle
  rw [heq, Nat.card_Ico]

/-- What is missing for `n` more bytes is at most what the longer file takes more. -/
theorem missing_add_need {d : Disk} {m : ℕ} (off n : ℕ)
    (hslots : ∀ bn < maxFile, ip.ptr d (place bn) ≠ 0 ↔ bn < m) (hm : m ≤ blocks (off + n))
    (hmax : blocks (off + n) ≤ maxFile) :
    (ip.missing d (rangePlaces off n)).card + need m ≤ need (blocks (off + n)) := by
  have hsub : ip.missing d (rangePlaces off n) ⊆ (Finset.Ico m (blocks (off + n))).image place ∪
      if nDirect < blocks (off + n) ∧ ¬ nDirect < m then {nDirect} else ∅ := by
    intro k hk
    obtain ⟨hrange, hzero⟩ := Finset.mem_filter.mp hk
    obtain ⟨bn, -, hlt, hcases⟩ := mem_rangePlaces hrange
    rw [← lt_blocks_iff] at hlt
    rcases hcases with rfl | ⟨rfl, hdir⟩
    · refine Finset.mem_union_left _ (Finset.mem_image_of_mem place (Finset.mem_Ico.mpr ⟨?_, hlt⟩))
      by_contra hge
      exact (hslots bn (hlt.trans_le hmax)).mpr (Nat.lt_of_not_le hge) hzero
    · refine Finset.mem_union_right _ ?_
      have hnew : ¬ nDirect < m := fun hold =>
        Dinode.addr_ne_zero le_rfl ((hslots nDirect (by decide)).mpr hold) hzero
      rw [if_pos ⟨hdir.trans_lt hlt, hnew⟩]
      exact Finset.mem_singleton_self _
  have hcard := (Finset.card_le_card hsub).trans (Finset.card_union_le _ _)
  have himage : ((Finset.Ico m (blocks (off + n))).image place).card ≤ blocks (off + n) - m :=
    Finset.card_image_le.trans (Nat.card_Ico ..).le
  have hrest :
      (if nDirect < blocks (off + n) ∧ ¬ nDirect < m then {nDirect} else ∅ : Finset ℕ).card +
      (if nDirect < m then 1 else 0) ≤ if nDirect < blocks (off + n) then 1 else 0 := by
    split <;> split <;> split <;> simp <;> omega
  rw [need, need]
  omega

end Image

/-! ## What has been built -/

/-- The bytes of a file, with zeros behind the end. -/
def flat (bs : List UInt8) (o : ℕ) : UInt8 := bs.getD o 0

theorem splice_flat (bs p : List UInt8) : splice (flat bs) bs.length p = flat (bs ++ p) := by
  funext o
  rw [splice, flat, flat]
  split
  · next hle =>
    simp [List.getD_eq_getElem?_getD, List.getElem?_append_right hle,
      List.getElem?_eq_none hle]
  · next hlt =>
    simp [List.getD_eq_getElem?_getD, List.getElem?_append_left (Nat.lt_of_not_le hlt)]

/-- Inode `i` of disk `d` is a file, or the root directory, with the bytes `b`. -/
structure FileOf (d : Disk) (i : ℕ) (b : List UInt8) : Prop where
  type : (sb.dinode d i).type = if i = rootIno then tDir else typeFile
  size : (sb.dinode d i).size.toNat = b.length
  fits : b.length ≤ maxFile * bSize
  content : (sb.dinode d i).content d = flat b

theorem FileOf.type_ne_zero {d : Disk} {b : List UInt8} (h : FileOf d i b) :
    (sb.dinode d i).type ≠ 0 := by
  rw [h.type]
  split <;> decide

/-- Another file has changed. -/
theorem FileOf.congr {d d' : Disk} {b : List UInt8} (h : FileOf d i b)
    (hdinode : sb.dinode d' i = sb.dinode d i)
    (hcontent : (sb.dinode d i).content d' = (sb.dinode d i).content d) : FileOf d' i b where
  type := by rw [hdinode, h.type]
  size := by rw [hdinode, h.size]
  fits := h.fits
  content := by rw [hdinode, hcontent, h.content]

/-- The inodes below `freeinode` are allocated, `bs i` are the bytes of inode `i`, and the blocks
below `freeblock` are those of these files. -/
structure Built (img : Image) (bs : ℕ → List UInt8) : Prop where
  ready : img.Ready
  wellFormed : WellFormed sb img.virt
  pos : 1 ≤ img.freeinode
  inodes : img.freeinode ≤ nInodes
  free : ∀ i < nInodes, ¬ (1 ≤ i ∧ i < img.freeinode) → sb.dinode img.virt i = Fs.freshDinode 0
  file : ∀ i, 1 ≤ i → i < img.freeinode → FileOf img.virt i (bs i)
  /-- `winode` has written inode blocks only -/
  writes : ∀ b ∈ img.writes, sb.inodestart ≤ b ∧ b < sb.bmapstart

namespace Built

variable {img img' : Image} {bs : ℕ → List UInt8} {i : ℕ} {p : List UInt8}

theorem writes_append (h : Built img bs) (hi : i < nInodes) :
    ∀ b ∈ img.writes ++ [sb.iblock i], sb.inodestart ≤ b ∧ b < sb.bmapstart := by
  intro b hb
  rcases List.mem_append.mp hb with hb | hb
  · exact h.writes b hb
  · rw [List.mem_singleton.mp hb]
    exact ⟨Nat.le_add_left _ _, iblock_lt hi⟩

section Append

variable (h : Built img bs) (hi : 1 ≤ i) (hi' : i < img.freeinode)

include h hi hi'

theorem missing_le (hmax : (bs i).length + p.length ≤ maxFile * bSize) :
    ((sb.dinode img.virt i).missing img.virt (rangePlaces (bs i).length p.length)).card +
      Image.need (blocks (bs i).length) ≤ Image.need (blocks ((bs i).length + p.length)) := by
  have hfile := h.file i hi hi'
  refine Image.missing_add_need _ _ ?_ ?_ (blocks_le_iff.mpr (by rwa [Nat.mul_comm]))
  · rw [← hfile.size]
    exact h.wellFormed.slots i (hi'.trans_le h.inodes) hfile.type_ne_zero
  · exact blocks_le_iff.mpr ((Nat.le_add_right _ _).trans (blocks_le_iff.mp le_rfl))

/-- `iappend` is its loop and `winode`. -/
theorem iappend_eq : img.iappend i p =
    (img.iappendLoop (sb.dinode img.virt i) (bs i).length p >>= fun r =>
      r.1.winode i { r.2.1 with size := UInt32.ofNat r.2.2 }) := by
  rw [Image.iappend, h.ready.rinode (hi'.trans_le h.inodes), ← (h.file i hi hi').size]
  rfl

theorem agree_loop : Agree (Image.Tracks img)
    (writeiLoop sb img.virt (sb.dinode img.virt i) (bs i).length p)
    (img.iappendLoop (sb.dinode img.virt i) (bs i).length p) :=
  Image.agree_iappendLoop h.ready h.wellFormed.held (hi'.trans_le h.inodes)
    (h.file i hi hi').type_ne_zero _ _

/-- `iappend` fails for lack of blocks or because the file gets too long, and in no other case. -/
theorem iappend_ok (hmax : (bs i ++ p).length ≤ maxFile * bSize)
    (hroom : img.freeblock + Image.need (blocks (bs i ++ p).length) ≤
      fsSize + Image.need (blocks (bs i).length)) : ∃ img', img.iappend i p = .ok img' := by
  have hlt : i < nInodes := hi'.trans_le h.inodes
  rw [List.length_append] at hmax hroom
  have hmissing := h.missing_le hi hi' hmax
  obtain ⟨r, hwritei, -⟩ := (writeiLoop_wrote h.wellFormed.held layout hlt
    (h.file i hi hi').type_ne_zero (bs i).length p hmax).exists_ok fun e hshort => by
      have hfew := hshort.2
      rw [Image.freeBlocks_virt] at hfew
      omega
  obtain ⟨r', hloop, htracks⟩ := (h.agree_loop hi hi').exists_ok hwritei
  obtain ⟨img', hwinode, -⟩ := htracks.ready.winode hlt { r'.2.1 with size := UInt32.ofNat r'.2.2 }
  exact ⟨img', by rw [h.iappend_eq hi hi', hloop]; exact hwinode⟩

/-- `iappend` puts the bytes at the end of the file. -/
theorem iappend (hp : p.length ≠ 0) (happend : img.iappend i p = .ok img') :
    Built img' (Function.update bs i (bs i ++ p)) ∧ img'.freeinode = img.freeinode ∧
      img'.freeblock + Image.need (blocks (bs i).length) ≤
        img.freeblock + Image.need (blocks (bs i ++ p).length) := by
  have hlt : i < nInodes := hi'.trans_le h.inodes
  have hfile := h.file i hi hi'
  have htype := hfile.type_ne_zero
  have hfreeinode : img'.freeinode = img.freeinode := (Image.keeps_iappend img i p).of_ok happend
  rw [h.iappend_eq hi hi'] at happend
  obtain ⟨⟨img₁, ip, stop⟩, hloop, hwinode⟩ := exists_of_bind_eq_ok happend
  obtain ⟨-, hstop, hmax⟩ := (Image.keeps_iappendLoop _ _ _ _).of_ok hloop
  obtain rfl : stop = (bs i).length + p.length := hstop
  have hmax := hmax hp
  have hlen32 : (bs i).length + p.length < 2 ^ 32 := hmax.trans_lt (by decide)
  -- the kernel's loop leaves the same disk
  obtain ⟨⟨d, ip', stop'⟩, hwritei, hready, hdisk, hvalue⟩ := (h.agree_loop hi hi').ok_exists hloop
  obtain rfl : d = img₁.virt := hdisk
  obtain ⟨rfl, rfl⟩ := Prod.mk.inj hvalue
  have hwrote := (writeiLoop_wrote h.wellFormed.held layout hlt htype (bs i).length p hmax).of_ok
    hwritei
  -- the inode is stored
  obtain ⟨img₂, hwinode', hvirt, hready', hfreeblock, -, hwrites⟩ := hready.ready.winode hlt
    { ip' with size := UInt32.ofNat ((bs i).length + p.length) }
  obtain rfl : img' = img₂ := Except.ok.inj (hwinode.symm.trans hwinode')
  have hsettled : Settled sb img.virt i img₁.virt ip' img'.virt
      { ip' with size := UInt32.ofNat ((bs i).length + p.length) } := by
    rw [hvirt]
    exact hwrote.settled_iupdate layout hlt htype rfl rfl
  have hsize : (UInt32.ofNat ((bs i).length + p.length)).toNat = (bs i).length + p.length := by
    rw [UInt32.toNat_ofNat', Nat.mod_eq_of_lt hlen32]
  have hlocal := h.wellFormed.settled hsettled hwrote.toGains hwrote.type fun n hn => by
    rw [h.wellFormed.wrote_slots hlt htype hwrote hfile.size.ge hn, hfile.size, hsize,
      max_eq_right (Nat.le_add_right ..)]
  refine ⟨⟨hready', hlocal.wellFormed, hfreeinode ▸ h.pos, hfreeinode ▸ h.inodes,
    fun j hj hfree => ?_, fun j hj hj' => ?_, ?_⟩, hfreeinode, ?_⟩
  · rw [hfreeinode] at hfree
    have hne : j ≠ i := fun heq => hfree (heq ▸ ⟨hi, hi'⟩)
    rw [hlocal.other j hj hne]
    exact h.free j hj hfree
  · rw [hfreeinode] at hj'
    rcases eq_or_ne j i with rfl | hne
    · rw [Function.update_self]
      refine ⟨?_, ?_, by rwa [List.length_append], ?_⟩
      · rw [hlocal.self, hlocal.type, hfile.type]
      · rw [hlocal.self, List.length_append]
        exact hsize
      · rw [hlocal.self, hsettled.content, hwrote.content, hfile.content, splice_flat]
    · have hold := h.file j hj hj'
      have hj := hj'.trans_le h.inodes
      rw [Function.update_of_ne hne]
      refine hold.congr (hlocal.other j hj hne) ?_
      rw [(hsettled.other j hj hold.type_ne_zero hne).2,
        hwrote.content_other j hj hold.type_ne_zero hne]
  · rw [hwrites, hready.writes]
    exact h.writes_append hlt
  · -- the blocks that were taken are those that were missing
    have hbudget := hwrote.budget _ subset_rfl
    have hmissing := h.missing_le hi hi' hmax
    have hhi := h.ready.hi
    have hhi' : img₁.freeblock ≤ fsSize := hready.ready.hi
    have hfreeblock' : img'.freeblock = img₁.freeblock := hfreeblock
    rw [Budget, (hwrote.covers (Nat.pos_of_ne_zero hp)).missing_eq_empty, Finset.card_empty,
      Image.freeBlocks_virt, Image.freeBlocks_virt] at hbudget
    rw [hfreeblock', List.length_append]
    omega

end Append

/-- The new inode that `ialloc` writes. -/
theorem fileOf_ialloc {d : Disk} {type : UInt16}
    (htype : type = if i = rootIno then tDir else typeFile)
    (hself : sb.dinode d i = Image.newDinode type) : FileOf d i [] := by
  refine ⟨by rw [hself, ← htype]; rfl, by rw [hself]; rfl, Nat.zero_le _, ?_⟩
  funext o
  rw [hself, Dinode.content, if_pos ((Image.empty_newDinode type).ptr _)]
  rfl

/-- `ialloc` makes an empty file of the next inode. -/
theorem ialloc (h : Built img bs) (hlt : img.freeinode < nInodes) {type : UInt16}
    (htype : type = if img.freeinode = rootIno then tDir else typeFile) :
    ∃ img', img.ialloc type = .ok (img', img.freeinode) ∧
      Built img' (Function.update bs img.freeinode []) ∧ img'.freeinode = img.freeinode + 1 ∧
      img'.freeblock = img.freeblock := by
  have hfree := h.free img.freeinode hlt fun hc => Nat.lt_irrefl _ hc.2
  have hready : Image.Ready { img with freeinode := img.freeinode + 1 } :=
    ⟨h.ready.length, h.ready.lo, h.ready.hi, h.ready.zero⟩
  obtain ⟨img', hwinode, hvirt, hready', hfreeblock, hfreeinode, hwrites⟩ :=
    hready.winode hlt (Image.newDinode type)
  have hvirt' : img'.virt = sb.putDinode img.virt img.freeinode (Image.newDinode type) := hvirt
  have hdinode (j : ℕ) : sb.dinode img'.virt j =
      if j = img.freeinode then Image.newDinode type else sb.dinode img.virt j := by
    rw [hvirt', Superblock.dinode_putDinode]
  refine ⟨img', by rw [Image.ialloc, hwinode]; rfl, ⟨hready', ?_, ?_, ?_, fun j hj hfree' => ?_,
    fun j hj hj' => ?_, ?_⟩, hfreeinode, hfreeblock⟩
  · rw [hvirt']
    exact h.wellFormed.putDinode_empty layout hlt (.inl (by rw [hfree]; rfl))
      (Image.empty_newDinode type)
  · rw [hfreeinode]
    exact Nat.le_add_left _ _
  · rw [hfreeinode]
    exact hlt
  · rw [hfreeinode] at hfree'
    dsimp only at hfree'
    have hpos := h.pos
    rw [hdinode, if_neg (by omega)]
    exact h.free j hj (by omega)
  · rw [hfreeinode] at hj'
    rcases Nat.lt_succ_iff_lt_or_eq.mp hj' with hj' | rfl
    · have hold := h.file j hj hj'
      have hself : sb.dinode img'.virt j = sb.dinode img.virt j := by rw [hdinode, if_neg hj'.ne]
      rw [Function.update_of_ne hj'.ne]
      refine hold.congr hself ?_
      have haddrs : (Image.newDinode type).addrs = (sb.dinode img.virt img.freeinode).addrs := by
        rw [hfree]
        rfl
      have hcontent := h.wellFormed.held.content_putDinode haddrs (fun _ _ _ => rfl) layout hlt
        (hj'.trans_le h.inodes) hold.type_ne_zero
      rwa [← hvirt', hself] at hcontent
    · rw [Function.update_self]
      exact fileOf_ialloc htype (by rw [hdinode, if_pos rfl])
  · rw [hwrites]
    exact h.writes_append hlt

end Built

end InuOs.Mkfs
