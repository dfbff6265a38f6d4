import InuOs.Disk

/-!
# Blocks, inodes and directories (`fs.c`)

The block allocator, the content of inodes and the directory operations, on the bytes of the disk.
A function that changes the disk returns the new one; a function that works on a locked inode takes
its in-core copy `ip` and returns the copy it leaves, which is written back by `iupdate` alone.

* `balloc`, `bfree` — the free map;
* `bmap`, `itrunc`, `readi`, `writei` — the content of one inode;
* `Fs` adds the inode cache: for each inode the reference count and, while the entry is valid, the
  in-core copy. `ilock`, `iget`, `iput`, `ialloc` and `dirlink` work on it.

The cache is a map from inode numbers, so that it never runs out of entries.
-/

namespace InuOs

/-! ## The free map -/

/-- The block of zeros. -/
def zeroBlock : Block := fun _ => 0

theorem zeroBlock_getWord (j : ℕ) : zeroBlock.getWord j = 0 := by
  simp [Bytes.getWord, Bytes.byte, zeroBlock, wordOf]

/-- The loops of `balloc`: the first block below `sb.size` whose bit is clear, one block of the map
after the other. -/
def ballocFind (sb : Superblock) (d : Disk) : Option ℕ :=
  (List.range ((sb.size + bpb - 1) / bpb)).findSome? fun j =>
    ((List.range (min bpb (sb.size - j * bpb))).find? fun bi =>
      !(d (sb.bblock (j * bpb))).testBit bi).map fun bi => j * bpb + bi

/-- `balloc`. -/
def balloc (sb : Superblock) (d : Disk) : Except Panic (Disk × UInt32) :=
  match ballocFind sb d with
  | none => throw .ballocOutOfBlocks
  | some b => pure (Function.update (sb.setBit d b) b zeroBlock, UInt32.ofNat b)

/-- `bfree`. -/
def bfree (sb : Superblock) (d : Disk) (b : UInt32) : Except Panic Disk :=
  if sb.bit d b.toNat then pure (sb.clearBit d b.toNat) else throw .freeingFreeBlock

/-! ## The content of an inode -/

/-- `bmap`, the indirect case: load the indirect block, allocating if necessary. -/
def bmapLoad (sb : Superblock) (d : Disk) (ip : Dinode) : Except Panic (Disk × Dinode) :=
  if ip.addr nDirect = 0 then do
    let (d, addr) ← balloc sb d
    pure (d, ip.setAddr nDirect addr)
  else pure (d, ip)

/-- `bmap`, the indirect case: entry `bn` of the indirect block, allocating if necessary. -/
def bmapEntry (sb : Superblock) (d : Disk) (ip : Dinode) (bn : ℕ) :
    Except Panic (Disk × Dinode × UInt32) :=
  let ind := (ip.addr nDirect).toNat
  if (d ind).getWord bn = 0 then do
    let (d, addr) ← balloc sb d
    pure (Function.update d ind ((d ind).setWord bn addr), ip, addr)
  else pure (d, ip, (d ind).getWord bn)

/-- `bmap`: the block number of the `bn`th block, allocated if there is none. -/
def bmap (sb : Superblock) (d : Disk) (ip : Dinode) (bn : ℕ) :
    Except Panic (Disk × Dinode × UInt32) :=
  if bn < nDirect then
    if ip.addr bn = 0 then do
      let (d, addr) ← balloc sb d
      pure (d, ip.setAddr bn addr, addr)
    else pure (d, ip, ip.addr bn)
  else if bn - nDirect < nIndirect then do
    let (d, ip) ← bmapLoad sb d ip
    bmapEntry sb d ip (bn - nDirect)
  else throw .bmapOutOfRange

/-- `iupdate`. -/
def iupdate (sb : Superblock) (d : Disk) (i : ℕ) (ip : Dinode) : Disk := sb.putDinode d i ip

/-- The first loop of `itrunc`, over the direct block numbers `ks`. -/
def itruncDirect (sb : Superblock) (d : Disk) (ip : Dinode) :
    List ℕ → Except Panic (Disk × Dinode)
  | [] => pure (d, ip)
  | k :: ks =>
    if ip.addr k = 0 then itruncDirect sb d ip ks
    else do
      let d ← bfree sb d (ip.addr k)
      itruncDirect sb d (ip.setAddr k 0) ks

/-- The second loop of `itrunc`, over the entries `js` of the indirect block `ind`. -/
def itruncIndirect (sb : Superblock) (d : Disk) (ind : ℕ) : List ℕ → Except Panic Disk
  | [] => pure d
  | j :: js =>
    if (d ind).getWord j = 0 then itruncIndirect sb d ind js
    else do
      let d ← bfree sb d ((d ind).getWord j)
      itruncIndirect sb d ind js

/-- The second half of `itrunc`: free the entries of the indirect block, then the indirect block. -/
def itruncRest (sb : Superblock) (d : Disk) (ip : Dinode) : Except Panic (Disk × Dinode) :=
  if ip.addr nDirect = 0 then pure (d, ip)
  else do
    let d ← itruncIndirect sb d (ip.addr nDirect).toNat (List.range nIndirect)
    let d ← bfree sb d (ip.addr nDirect)
    pure (d, ip.setAddr nDirect 0)

/-- `itrunc`. -/
def itrunc (sb : Superblock) (d : Disk) (i : ℕ) (ip : Dinode) : Except Panic (Disk × Dinode) := do
  let (d, ip) ← itruncDirect sb d ip (List.range nDirect)
  let (d, ip) ← itruncRest sb d ip
  let ip := { ip with size := 0 }
  pure (iupdate sb d i ip, ip)

/-- The drivers behind `devsw`: what `read` and `write` of a major number do, if there is one. They
do not touch the file system. -/
structure Devsw : Type where
  read : UInt16 → Option (ℕ → ℤ × List UInt8)
  write : UInt16 → Option (List UInt8 → ℤ)

/-- The bytes `[o, o + n)` of a block. -/
def Block.slice (b : Block) (o n : ℕ) : List UInt8 := (List.range n).map fun k => b.byte (o + k)

/-- Copy bytes into a block at offset `o`. -/
def Block.paste (b : Block) (o : ℕ) (bs : List UInt8) : Block :=
  fun i => if o ≤ i.1 then (bs[i.1 - o]?).getD (b i) else b i

/-- `min(n - tot, BSIZE - off%BSIZE)`. -/
def chunk (n off : ℕ) : ℕ := min n (bSize - off % bSize)

theorem chunk_pos {n : ℕ} (hn : n ≠ 0) (off : ℕ) : 0 < chunk n off := by
  have hmod : off % bSize < bSize := Nat.mod_lt off (by decide)
  unfold chunk
  omega

/-- The loop of `readi`. -/
def readiLoop (sb : Superblock) (d : Disk) (ip : Dinode) (off n : ℕ) :
    Except Panic (Disk × Dinode × List UInt8) :=
  if _hn : n = 0 then pure (d, ip, [])
  else do
    let (d, ip, addr) ← bmap sb d ip (off / bSize)
    let m := chunk n off
    let data := (d addr.toNat).slice (off % bSize) m
    let (d, ip, rest) ← readiLoop sb d ip (off + m) (n - m)
    pure (d, ip, data ++ rest)
termination_by n
decreasing_by exact Nat.sub_lt (Nat.pos_of_ne_zero _hn) (chunk_pos _hn off)

/-- `readi`: the return value and the bytes copied to `dst`. -/
def readi (sb : Superblock) (dev : Devsw) (d : Disk) (ip : Dinode) (off n : ℕ) :
    Except Panic (Disk × Dinode × ℤ × List UInt8) :=
  if ip.type = tDev then
    match dev.read ip.major with
    | none => pure (d, ip, -1, [])
    | some read => pure (d, ip, read n)
  else if ip.size.toNat < off ∨ 2 ^ 32 ≤ off + n then pure (d, ip, -1, [])
  else do
    let n := if ip.size.toNat < off + n then ip.size.toNat - off else n
    let (d, ip, data) ← readiLoop sb d ip off n
    pure (d, ip, n, data)

/-- The loop of `writei`; it returns the offset behind the last byte written. -/
def writeiLoop (sb : Superblock) (d : Disk) (ip : Dinode) (off : ℕ) (src : List UInt8) :
    Except Panic (Disk × Dinode × ℕ) :=
  if _hsrc : src.length = 0 then pure (d, ip, off)
  else do
    let (d, ip, addr) ← bmap sb d ip (off / bSize)
    let m := chunk src.length off
    let d := Function.update d addr.toNat ((d addr.toNat).paste (off % bSize) (src.take m))
    writeiLoop sb d ip (off + m) (src.drop m)
termination_by src.length
decreasing_by
  rw [List.length_drop]
  exact Nat.sub_lt (Nat.pos_of_ne_zero _hsrc) (chunk_pos _hsrc off)

/-- `writei` on inode `i`. -/
def writei (sb : Superblock) (dev : Devsw) (d : Disk) (i : ℕ) (ip : Dinode) (off : ℕ)
    (src : List UInt8) : Except Panic (Disk × Dinode × ℤ) :=
  if ip.type = tDev then
    match dev.write ip.major with
    | none => pure (d, ip, -1)
    | some write => pure (d, ip, write src)
  else if ip.size.toNat < off ∨ 2 ^ 32 ≤ off + src.length then pure (d, ip, -1)
  else if maxFile * bSize < off + src.length then pure (d, ip, -1)
  else do
    let (d, ip, off) ← writeiLoop sb d ip off src
    if 0 < src.length ∧ ip.size.toNat < off then
      let ip := { ip with size := UInt32.ofNat off }
      pure (iupdate sb d i ip, ip, src.length)
    else pure (d, ip, src.length)

/-! ## Directory entries -/

/-- `DIRSIZ`. -/
def dirSiz : ℕ := 14

/-- `sizeof(struct dirent)`. -/
def direntSize : ℕ := 16

/-- `strncmp(p, q, n) == 0`. -/
def strncmpEq : ℕ → List UInt8 → List UInt8 → Bool
  | 0, _, _ => true
  | n + 1, p, q =>
    if p.headD 0 ≠ 0 ∧ p.headD 0 = q.headD 0 then strncmpEq n p.tail q.tail
    else p.headD 0 = q.headD 0

/-- `namecmp(s, t) == 0`. -/
def namecmpEq (s t : List UInt8) : Bool := strncmpEq dirSiz s t

/-- `strncpy(s, t, n)`: the characters of `t`, padded with zeros. -/
def strncpy : ℕ → List UInt8 → List UInt8
  | 0, _ => []
  | n + 1, t => if t.headD 0 = 0 then 0 :: strncpy n [] else t.headD 0 :: strncpy n t.tail

/-- `de.inum` of the bytes of a `struct dirent`. -/
def direntInum (de : List UInt8) : ℕ := (de.getD 0 0).toNat + 256 * (de.getD 1 0).toNat

/-- `de.name` of the bytes of a `struct dirent`. -/
def direntName (de : List UInt8) : List UInt8 := de.drop 2

/-- The bytes of a `struct dirent`. -/
def direntBytes (inum : ℕ) (name : List UInt8) : List UInt8 :=
  UInt8.ofNat inum :: UInt8.ofNat (inum / 256) :: strncpy dirSiz name

/-- The loop of `dirlookup` over the next `count` entries: the inode number found and its offset. -/
def dirlookupLoop (sb : Superblock) (dev : Devsw) (name : List UInt8) (d : Disk) (dp : Dinode) :
    ℕ → ℕ → Except Panic (Disk × Dinode × Option (ℕ × ℕ))
  | 0, _ => pure (d, dp, none)
  | count + 1, off => do
    let (d, dp, r, de) ← readi sb dev d dp off direntSize
    if r ≠ direntSize then throw .dirlookupRead
    if direntInum de = 0 then dirlookupLoop sb dev name d dp count (off + direntSize)
    else if namecmpEq name (direntName de) then pure (d, dp, some (direntInum de, off))
    else dirlookupLoop sb dev name d dp count (off + direntSize)

/-- How often the loops over a directory turn: `off = 0, 16, .. < size`. -/
def direntCount (dp : Dinode) : ℕ := (dp.size.toNat + direntSize - 1) / direntSize

/-- `dirlookup`, up to the `iget` of what it found. -/
def dirlookup (sb : Superblock) (dev : Devsw) (d : Disk) (dp : Dinode) (name : List UInt8) :
    Except Panic (Disk × Dinode × Option (ℕ × ℕ)) :=
  if dp.type ≠ tDir then throw .dirlookupNotDir
  else dirlookupLoop sb dev name d dp (direntCount dp) 0

/-- The loop of `dirlink` that looks for an empty entry. -/
def dirlinkLoop (sb : Superblock) (dev : Devsw) (d : Disk) (dp : Dinode) :
    ℕ → ℕ → Except Panic (Disk × Dinode × ℕ)
  | 0, off => pure (d, dp, off)
  | count + 1, off => do
    let (d, dp, r, de) ← readi sb dev d dp off direntSize
    if r ≠ direntSize then throw .dirlinkRead
    if direntInum de = 0 then pure (d, dp, off)
    else dirlinkLoop sb dev d dp count (off + direntSize)

/-! ## The inode cache -/

/-- The disk and the inode cache. -/
structure Fs : Type where
  disk : Disk
  /-- the in-core copy of a cached inode, while `valid` is set -/
  core : ℕ → Option Dinode
  /-- the reference count of a cached inode -/
  ref : ℕ → ℕ

namespace Fs

/-- `iget`: an entry that is not in use is recycled, with `valid` clear. -/
def iget (s : Fs) (i : ℕ) : Fs :=
  if 0 < s.ref i then { s with ref := Function.update s.ref i (s.ref i + 1) }
  else { s with ref := Function.update s.ref i 1, core := Function.update s.core i none }

/-- The part of `ilock` under the lock: read the inode if the entry is not valid. -/
def ilock (sb : Superblock) (s : Fs) (i : ℕ) : Except Panic (Fs × Dinode) :=
  match s.core i with
  | some ip => pure (s, ip)
  | none =>
    let ip := sb.dinode s.disk i
    if ip.type = 0 then throw .ilockNoType
    else pure ({ s with core := Function.update s.core i (some ip) }, ip)

/-- The disk and the in-core copy of inode `i` after an operation on it. -/
def store (s : Fs) (i : ℕ) (d : Disk) (ip : Dinode) : Fs :=
  { s with disk := d, core := Function.update s.core i (some ip) }

/-- The part of `iput` under the inode's lock: free the inode if it has no links and this is its
last reference. -/
def iputLast (sb : Superblock) (s : Fs) (i : ℕ) : Except Panic Fs :=
  match s.core i with
  | none => pure s
  | some ip =>
    if ip.nlink = 0 ∧ s.ref i = 1 then do
      let (d, ip) ← itrunc sb s.disk i ip
      let d := iupdate sb d i { ip with type := 0 }
      pure { s with disk := d, core := Function.update s.core i none }
    else pure s

/-- `iput`. -/
def iput (sb : Superblock) (s : Fs) (i : ℕ) : Except Panic Fs := do
  let s ← iputLast sb s i
  pure { s with ref := Function.update s.ref i (s.ref i - 1) }

/-- The loop of `ialloc` over the inode numbers `is`. -/
def iallocFind (sb : Superblock) (d : Disk) (is : List ℕ) : Option ℕ :=
  is.find? fun i => (sb.dinode d i).type = 0

/-- A dinode of zeros but for its type. -/
def freshDinode (type : UInt16) : Dinode :=
  { type := type, major := 0, minor := 0, nlink := 0, size := 0, addrs := fun _ => 0 }

/-- `ialloc`. -/
def ialloc (sb : Superblock) (s : Fs) (type : UInt16) : Except Panic (Fs × ℕ) :=
  match iallocFind sb s.disk ((List.range sb.ninodes).drop 1) with
  | none => throw .iallocNoInodes
  | some i => pure ({ s with disk := sb.putDinode s.disk i (freshDinode type) }.iget i, i)

/-- `dirlink` on the locked directory `i`. -/
def dirlink (sb : Superblock) (dev : Devsw) (s : Fs) (i : ℕ) (dp : Dinode) (name : List UInt8)
    (inum : ℕ) : Except Panic (Fs × ℤ) := do
  let (d, dp, found) ← dirlookup sb dev s.disk dp name
  match found with
  | some (ino, _) =>
    let s ← ((s.store i d dp).iget ino).iput sb ino
    pure (s, -1)
  | none =>
    let (d, dp, off) ← dirlinkLoop sb dev d dp (direntCount dp) 0
    let (d, dp, r) ← writei sb dev d i dp off (direntBytes inum name)
    if r ≠ direntSize then throw .dirlink
    pure (s.store i d dp, 0)

end Fs

end InuOs
