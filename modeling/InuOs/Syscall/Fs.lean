import InuOs.Syscall.State

/-!
# Blocks, inodes and directories, with their locks (`fs.c`)

The functions of `fs.c`, as the process `p` runs them on the file system with super block `sb`. A
function that works on an inode takes its slot in the cache.
-/

namespace InuOs.Syscall

/-- `CONSOLE`. -/
def console : UInt16 := 1

/-! ## Blocks -/

/-- `bzero`. -/
def bzero (p b : ℕ) : Code Unit := do
  let _ ← bread p b
  setData b zeroBlock
  logWrite b
  brelse b

/-- The loops of `balloc`, over the blocks of the free map. -/
def ballocLoop (sb : Superblock) (p : ℕ) : List ℕ → Code UInt32
  | [] => Prog.fail .ballocOutOfBlocks
  | j :: js => do
    let data ← bread p (sb.bblock (j * bpb))
    match (List.range (min bpb (sb.size - j * bpb))).find? fun bi => !data.testBit bi with
    | some bi => do
      setData (sb.bblock (j * bpb)) (data.setBit bi)
      logWrite (sb.bblock (j * bpb))
      brelse (sb.bblock (j * bpb))
      bzero p (j * bpb + bi)
      pure (UInt32.ofNat (j * bpb + bi))
    | none => do
      brelse (sb.bblock (j * bpb))
      ballocLoop sb p js

/-- `balloc`. -/
def balloc (sb : Superblock) (p : ℕ) : Code UInt32 :=
  ballocLoop sb p (List.range ((sb.size + bpb - 1) / bpb))

/-- `bfree`. -/
def bfree (sb : Superblock) (p : ℕ) (b : UInt32) : Code Unit := do
  let data ← bread p (sb.bblock b.toNat)
  Prog.when (data.testBit (b.toNat % bpb) = false) (Prog.fail .freeingFreeBlock)
  setData (sb.bblock b.toNat) (data.clearBit (b.toNat % bpb))
  logWrite (sb.bblock b.toNat)
  brelse (sb.bblock b.toNat)

/-! ## Inodes -/

/-- The fields of a cached inode that are a copy of the disk inode. -/
def core (j : ℕ) : Code Dinode := Prog.get fun s => (s.icache j).din

/-- Assign to these fields. -/
def setCore (j : ℕ) (f : Dinode → Dinode) : Code Unit :=
  Prog.modify fun s => s.setInode j { s.icache j with din := f (s.icache j).din }

/-- `ip->inum`. -/
def inumOf (j : ℕ) : Code ℕ := Prog.get fun s => (s.icache j).inum

/-- `iupdate`. -/
def iupdate (sb : Superblock) (p j : ℕ) : Code Unit := do
  let inum ← inumOf j
  let data ← bread p (sb.iblock inum)
  let din ← core j
  setData (sb.iblock inum) (data.putDinode (inum % ipb) din)
  logWrite (sb.iblock inum)
  brelse (sb.iblock inum)

/-- `iget`: the slot. -/
def iget (inum : ℕ) : Code ℕ :=
  Prog.atomic fun s =>
    match (List.range nInode).find? fun j => 0 < (s.icache j).ref ∧ (s.icache j).inum = inum with
    | some j => pure (j, s.setInode j { s.icache j with ref := (s.icache j).ref + 1 })
    | none =>
      match (List.range nInode).find? fun j => (s.icache j).ref = 0 with
      | none => throw .igetNoInodes
      | some j =>
        pure (j, s.setInode j { s.icache j with inum := inum, ref := 1, valid := false })

/-- The loop of `ialloc` over the inode numbers. -/
def iallocLoop (sb : Superblock) (p : ℕ) (type : UInt16) : List ℕ → Code ℕ
  | [] => Prog.fail .iallocNoInodes
  | inum :: inums => do
    let data ← bread p (sb.iblock inum)
    if (data.dinode (inum % ipb)).type = 0 then do
      setData (sb.iblock inum) (data.putDinode (inum % ipb) (Fs.freshDinode type))
      logWrite (sb.iblock inum)
      brelse (sb.iblock inum)
      iget inum
    else do
      brelse (sb.iblock inum)
      iallocLoop sb p type inums

/-- `ialloc`. -/
def ialloc (sb : Superblock) (p : ℕ) (type : UInt16) : Code ℕ :=
  iallocLoop sb p type ((List.range sb.ninodes).drop 1)

/-- `idup`. -/
def idup (j : ℕ) : Code ℕ := do
  Prog.modify fun s => s.setInode j { s.icache j with ref := (s.icache j).ref + 1 }
  pure j

/-- `acquiresleep(&ip->lock)`. -/
def acquiresleep (p j : ℕ) : Code Unit :=
  Prog.await (.inode j) fun s =>
    if (s.icache j).lock = none then some (s.setInode j { s.icache j with lock := some p })
      else none

/-- The part of `ilock` that reads the inode from disk. -/
def ilockRead (sb : Superblock) (p j : ℕ) : Code Unit := do
  let inum ← inumOf j
  let data ← bread p (sb.iblock inum)
  setCore j fun _ => data.dinode (inum % ipb)
  brelse (sb.iblock inum)
  Prog.modify fun s => s.setInode j { s.icache j with valid := true }
  let din ← core j
  Prog.when (din.type = 0) (Prog.fail .ilockNoType)

/-- `ilock`. -/
def ilock (sb : Superblock) (p j : ℕ) : Code Unit := do
  let ref ← Prog.get fun s => (s.icache j).ref
  Prog.when (ref < 1) (Prog.fail .ilock)
  acquiresleep p j
  let valid ← Prog.get fun s => (s.icache j).valid
  Prog.when (valid = false) (ilockRead sb p j)

/-- `iunlock`. -/
def iunlock (j : ℕ) : Code Unit :=
  Prog.update fun s =>
    if (s.icache j).lock = none ∨ (s.icache j).ref < 1 then throw .iunlock
    else pure (s.setInode j { s.icache j with lock := none })

/-! ## The content of an inode -/

/-- `bmap`, the indirect case: load the indirect block, allocating if necessary. -/
def bmapLoad (sb : Superblock) (p j : ℕ) : Code UInt32 := do
  let din ← core j
  if din.addr nDirect = 0 then do
    let addr ← balloc sb p
    setCore j fun din => din.setAddr nDirect addr
    pure addr
  else pure (din.addr nDirect)

/-- `bmap`, the indirect case: entry `bn` of the indirect block `ind`, allocating if necessary. -/
def bmapEntry (sb : Superblock) (p ind bn : ℕ) : Code UInt32 := do
  let data ← bread p ind
  if data.getWord bn = 0 then do
    let addr ← balloc sb p
    setData ind (data.setWord bn addr)
    logWrite ind
    brelse ind
    pure addr
  else do
    brelse ind
    pure (data.getWord bn)

/-- `bmap`. -/
def bmap (sb : Superblock) (p j bn : ℕ) : Code UInt32 :=
  if bn < nDirect then do
    let din ← core j
    if din.addr bn = 0 then do
      let addr ← balloc sb p
      setCore j fun din => din.setAddr bn addr
      pure addr
    else pure (din.addr bn)
  else if bn - nDirect < nIndirect then do
    let ind ← bmapLoad sb p j
    bmapEntry sb p ind.toNat (bn - nDirect)
  else Prog.fail .bmapOutOfRange

/-- The first loop of `itrunc`, over the direct block numbers. -/
def itruncDirect (sb : Superblock) (p j : ℕ) : List ℕ → Code Unit
  | [] => pure ()
  | k :: ks => do
    let din ← core j
    Prog.when (din.addr k ≠ 0) do
      bfree sb p (din.addr k)
      setCore j fun din => din.setAddr k 0
    itruncDirect sb p j ks

/-- The second loop of `itrunc`, over the entries of the indirect block. -/
def itruncIndirect (sb : Superblock) (p : ℕ) (data : Block) : List ℕ → Code Unit
  | [] => pure ()
  | k :: ks => do
    Prog.when (data.getWord k ≠ 0) (bfree sb p (data.getWord k))
    itruncIndirect sb p data ks

/-- `itrunc`. -/
def itrunc (sb : Superblock) (p j : ℕ) : Code Unit := do
  itruncDirect sb p j (List.range nDirect)
  let din ← core j
  Prog.when (din.addr nDirect ≠ 0) do
    let data ← bread p (din.addr nDirect).toNat
    itruncIndirect sb p data (List.range nIndirect)
    brelse (din.addr nDirect).toNat
    bfree sb p (din.addr nDirect)
    setCore j fun din => din.setAddr nDirect 0
  setCore j fun din => { din with size := 0 }
  iupdate sb p j

/-- The part of `iput` that frees the inode. -/
def iputFree (sb : Superblock) (p j : ℕ) : Code Unit := do
  itrunc sb p j
  setCore j fun din => { din with type := 0 }
  iupdate sb p j
  Prog.modify fun s => s.setInode j { s.icache j with valid := false }

/-- `iput` from the point where it has the lock. -/
def iputLocked (sb : Superblock) (p j : ℕ) : Code Unit := do
  let ip ← Prog.get fun s => s.icache j
  Prog.when (ip.valid = true ∧ ip.din.nlink = 0 ∧ ip.ref = 1) (iputFree sb p j)
  Prog.modify fun s => s.setInode j { s.icache j with lock := none }
  Prog.modify fun s => s.setInode j { s.icache j with ref := (s.icache j).ref - 1 }

/-- `iput`. -/
def iput (sb : Superblock) (p j : ℕ) : Code Unit := do
  Prog.modify fun s => s.emit .iput
  acquiresleep p j
  iputLocked sb p j

/-- `iunlockput`. -/
def iunlockput (sb : Superblock) (p j : ℕ) : Code Unit := do
  iunlock j
  iput sb p j

/-- The loop of `consoleread` for `n` more of `target` characters. -/
def consoleLoop (target : ℕ) : ℕ → List UInt8 → Code (ℤ × List UInt8)
  | 0, dst => pure (target, dst)
  | n + 1, dst => do
    Prog.await .input fun s => if s.input = [] then none else some s
    let c ← Prog.get fun s => s.input.headD none
    match c with
    | none => do
      Prog.modify fun s => { s with input := s.input.tail }
      pure (-1, dst)
    | some c =>
      if c = 4 then do
        -- `^D` is kept for the next read, unless it is the first character of this one
        Prog.when (n + 1 = target) (Prog.modify fun s => { s with input := s.input.tail })
        pure ((target : ℤ) - (n + 1), dst)
      else do
        Prog.modify fun s => { s with input := s.input.tail }
        if c = 10 then pure ((target : ℤ) - n, dst ++ [c])
        else consoleLoop target n (dst ++ [c])

/-- `consoleread`. -/
def consoleread (sb : Superblock) (p j n : ℕ) : Code (ℤ × List UInt8) := do
  iunlock j
  let r ← consoleLoop n n []
  ilock sb p j
  pure r

/-- `consolewrite`, but for what appears on the screen. -/
def consolewrite (sb : Superblock) (p j n : ℕ) : Code ℤ := do
  iunlock j
  ilock sb p j
  pure n

/-- The loop of `readi`. -/
def readiLoop (sb : Superblock) (p j off n : ℕ) : Code (List UInt8) :=
  if _hn : n = 0 then pure []
  else do
    let addr ← bmap sb p j (off / bSize)
    let data ← bread p addr.toNat
    brelse addr.toNat
    let rest ← readiLoop sb p j (off + chunk n off) (n - chunk n off)
    pure (data.slice (off % bSize) (chunk n off) ++ rest)
termination_by n
decreasing_by exact Nat.sub_lt (Nat.pos_of_ne_zero _hn) (chunk_pos _hn off)

/-- `readi`: the return value and the bytes copied to `dst`. -/
def readi (sb : Superblock) (p j off n : ℕ) : Code (ℤ × List UInt8) := do
  let din ← core j
  if din.type = tDev then
    if din.major = console then consoleread sb p j n else pure (-1, [])
  else if din.size.toNat < off ∨ 2 ^ 32 ≤ off + n then pure (-1, [])
  else do
    let n := if din.size.toNat < off + n then din.size.toNat - off else n
    let data ← readiLoop sb p j off n
    pure (n, data)

/-- The loop of `writei`; it returns the offset behind the last byte written. -/
def writeiLoop (sb : Superblock) (p j off : ℕ) (src : List UInt8) : Code ℕ :=
  if _hsrc : src.length = 0 then pure off
  else do
    let addr ← bmap sb p j (off / bSize)
    let data ← bread p addr.toNat
    setData addr.toNat (data.paste (off % bSize) (src.take (chunk src.length off)))
    logWrite addr.toNat
    brelse addr.toNat
    writeiLoop sb p j (off + chunk src.length off) (src.drop (chunk src.length off))
termination_by src.length
decreasing_by
  rw [List.length_drop]
  exact Nat.sub_lt (Nat.pos_of_ne_zero _hsrc) (chunk_pos _hsrc off)

/-- `writei`. -/
def writei (sb : Superblock) (p j off : ℕ) (src : List UInt8) : Code ℤ := do
  let din ← core j
  if din.type = tDev then
    if din.major = console then consolewrite sb p j src.length else pure (-1)
  else if din.size.toNat < off ∨ 2 ^ 32 ≤ off + src.length then pure (-1)
  else if maxFile * bSize < off + src.length then pure (-1)
  else do
    let off ← writeiLoop sb p j off src
    let din ← core j
    Prog.when (0 < src.length ∧ din.size.toNat < off) do
      setCore j fun din => { din with size := UInt32.ofNat off }
      iupdate sb p j
    pure src.length

/-! ## Directories -/

/-- The loop of `dirlookup` over the next `count` entries: the inode number found and its offset. -/
def dirlookupLoop (sb : Superblock) (p j : ℕ) (name : List UInt8) : ℕ → ℕ → Code (Option (ℕ × ℕ))
  | 0, _ => pure none
  | count + 1, off => do
    let (r, de) ← readi sb p j off direntSize
    if r ≠ direntSize then Prog.fail .dirlookupRead
    else if direntInum de = 0 then dirlookupLoop sb p j name count (off + direntSize)
    else if namecmpEq name (direntName de) then pure (some (direntInum de, off))
    else dirlookupLoop sb p j name count (off + direntSize)

/-- `dirlookup`: the slot of the inode found, and the offset of its entry. -/
def dirlookup (sb : Superblock) (p j : ℕ) (name : List UInt8) : Code (Option (ℕ × ℕ)) := do
  let din ← core j
  if din.type ≠ tDir then Prog.fail .dirlookupNotDir
  else do
    let found ← dirlookupLoop sb p j name (direntCount din) 0
    match found with
    | none => pure none
    | some (inum, off) => do
      let i ← iget inum
      pure (some (i, off))

/-- The loop of `dirlink` that looks for an empty entry. -/
def dirlinkLoop (sb : Superblock) (p j : ℕ) : ℕ → ℕ → Code ℕ
  | 0, off => pure off
  | count + 1, off => do
    let (r, de) ← readi sb p j off direntSize
    if r ≠ direntSize then Prog.fail .dirlinkRead
    else if direntInum de = 0 then pure off
    else dirlinkLoop sb p j count (off + direntSize)

/-- `dirlink`. -/
def dirlink (sb : Superblock) (p j : ℕ) (name : List UInt8) (inum : ℕ) : Code ℤ := do
  let found ← dirlookup sb p j name
  match found with
  | some (i, _) => do
    iput sb p i
    pure (-1)
  | none => do
    let din ← core j
    let off ← dirlinkLoop sb p j (direntCount din) 0
    let r ← writei sb p j off (direntBytes inum name)
    if r ≠ direntSize then Prog.fail .dirlink else pure 0

/-! ## Paths -/

/-- A path, without its terminating 0. -/
abbrev Path : Type := List UInt8

/-- The character `/`. -/
def slash : UInt8 := 47

/-- `skipelem`: the first element, cut to `DIRSIZ` characters, and the path behind it. -/
def skipelem (path : Path) : Option (List UInt8 × Path) :=
  let s := path.dropWhile (· = slash)
  if s = [] then none
  else some ((s.takeWhile (· ≠ slash)).take dirSiz, (s.dropWhile (· ≠ slash)).dropWhile (· = slash))

theorem length_dropWhile_le (q : UInt8 → Bool) (s : Path) : (s.dropWhile q).length ≤ s.length :=
  (List.dropWhile_sublist q).length_le

/-- `skipelem` gets ahead in the path. -/
theorem length_of_skipelem {path rest : Path} {name : List UInt8}
    (h : skipelem path = some (name, rest)) : rest.length < path.length := by
  unfold skipelem at h
  dsimp only at h
  split at h
  · cases h
  · next hs =>
    cases h
    obtain ⟨c, s, hcons⟩ := List.exists_cons_of_ne_nil hs
    have hc : c ≠ slash := by
      have hhead := List.head_dropWhile_not (fun x => decide (x = slash)) hs
      simpa [hcons] using hhead
    have hle := length_dropWhile_le (fun x => decide (x = slash)) path
    rw [hcons] at hle ⊢
    have hdrop : (c :: s).dropWhile (fun x => decide (x ≠ slash)) =
        s.dropWhile fun x => decide (x ≠ slash) := by
      rw [List.dropWhile_cons, if_pos (decide_eq_true hc)]
    rw [hdrop]
    have h₁ := length_dropWhile_le (fun x => decide (x = slash))
      (s.dropWhile fun x => decide (x ≠ slash))
    have h₂ := length_dropWhile_le (fun x => decide (x ≠ slash)) s
    rw [List.length_cons] at hle
    omega

/-- The loop of `namex`. -/
def namexLoop (sb : Superblock) (p : ℕ) (parent : Bool) (j : ℕ) (path : Path) (name : List UInt8) :
    Code (Option ℕ × List UInt8) :=
  match _h : skipelem path with
  | none =>
    if parent then do
      iput sb p j
      pure (none, name)
    else pure (some j, name)
  | some (name, rest) => do
    ilock sb p j
    let din ← core j
    if din.type ≠ tDir then do
      iunlockput sb p j
      pure (none, name)
    else if parent ∧ rest = [] then do
      -- stop one level early
      iunlock j
      pure (some j, name)
    else do
      let next ← dirlookup sb p j name
      iunlockput sb p j
      match next with
      | none => pure (none, name)
      | some (next, _) => namexLoop sb p parent next rest name
termination_by path.length
decreasing_by exact length_of_skipelem _h

/-- `namex`: the slot of the inode and the last element of the path. -/
def namex (sb : Superblock) (p : ℕ) (path : Path) (parent : Bool) :
    Code (Option ℕ × List UInt8) := do
  if path.head? = some slash then do
    let j ← iget rootIno
    namexLoop sb p parent j path []
  else do
    let cwd ← Prog.get fun s => s.cwd p
    match cwd with
    | none => Prog.fail .badPointer
    | some cwd => do
      let j ← idup cwd
      namexLoop sb p parent j path []

/-- `namei`. -/
def namei (sb : Superblock) (p : ℕ) (path : Path) : Code (Option ℕ) := do
  let (j, _) ← namex sb p path false
  pure j

/-- `nameiparent`. -/
def nameiparent (sb : Superblock) (p : ℕ) (path : Path) : Code (Option ℕ × List UInt8) :=
  namex sb p path true

end InuOs.Syscall
