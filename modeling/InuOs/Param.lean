import InuOs.Lib.Bytes

/-!
# Kernel and file-system constants

The constants of `param.h` and `fs.h` that the modelled code reads, and the messages of the
`panic` calls it can reach. A `panic` never returns, so a modelled function that reaches one has
no result: fallible functions return `Except Panic`.
-/

namespace InuOs

/-! ## `param.h` -/

/-- The most blocks any file-system operation writes. -/
def maxOpBlocks : ℕ := 10

/-- The most data blocks in the on-disk log. -/
def logSize : ℕ := maxOpBlocks * 3

/-- Size of the file system in blocks. -/
def fsSize : ℕ := 1000

/-! ## `fs.h` -/

/-- Block size in bytes. -/
def bSize : ℕ := 512

/-- A disk block. -/
abbrev Block : Type := Bytes bSize

/-! ## Panics -/

/-- The messages of the `panic` calls in the modelled code. -/
inductive Panic : Type where
  /-- `log_write`: `"too big a transaction"` -/
  | tooBigATransaction
  /-- `log_write`: `"log_write outside of trans"` -/
  | logWriteOutsideOfTrans
  /-- `end_op`: `"log.committing"` -/
  | logCommitting
  /-- `balloc`: `"balloc: out of blocks"` -/
  | ballocOutOfBlocks
  /-- `bfree`: `"freeing free block"` -/
  | freeingFreeBlock
  /-- `bmap`: `"bmap: out of range"` -/
  | bmapOutOfRange
  /-- `ialloc`: `"ialloc: no inodes"` -/
  | iallocNoInodes
  /-- `ilock`: `"ilock: no type"` -/
  | ilockNoType
  /-- `dirlookup`: `"dirlookup not DIR"` -/
  | dirlookupNotDir
  /-- `dirlookup`: `"dirlookup read"` -/
  | dirlookupRead
  /-- `dirlink`: `"dirlink read"` -/
  | dirlinkRead
  /-- `dirlink`: `"dirlink"` -/
  | dirlink
  /-- `bwrite`: `"bwrite"` -/
  | bwrite
  /-- `brelse`: `"brelse"` -/
  | brelse
  /-- `iget`: `"iget: no inodes"` -/
  | igetNoInodes
  /-- `ilock`: `"ilock"` -/
  | ilock
  /-- `iunlock`: `"iunlock"` -/
  | iunlock
  /-- `isdirempty`: `"isdirempty: readi"` -/
  | isdiremptyReadi
  /-- `sys_unlink`: `"unlink: nlink < 1"` -/
  | unlinkNlink
  /-- `sys_unlink`: `"unlink: writei"` -/
  | unlinkWritei
  /-- `create`: `"create dots"` -/
  | createDots
  /-- `create`: `"create: dirlink"` -/
  | createDirlink
  /-- `kfree`: `"kfree"`, also in `deallocuvm` -/
  | kfree
  /-- `mappages`: `"remap"` -/
  | remap
  /-- `setupkvm`: `"PHYSTOP too high"` -/
  | phystopTooHigh
  /-- `loaduvm`: `"loaduvm: addr must be page aligned"` -/
  | loaduvmAlign
  /-- `loaduvm`: `"loaduvm: address should exist"` -/
  | loaduvmExist
  /-- `clearpteu`: `"clearpteu"` -/
  | clearpteu
  /-- `copyuvm`: `"copyuvm: pte should exist"` -/
  | copyuvmExist
  /-- `copyuvm`: `"copyuvm: page not present"` -/
  | copyuvmPresent
  /-- `freevm`: `"freevm: no pgdir"` -/
  | freevmNoPgdir
  /-- `filedup`: `"filedup"` -/
  | filedup
  /-- `fileclose`: `"fileclose"` -/
  | fileclose
  /-- `fileread`: `"fileread"` -/
  | fileread
  /-- `filewrite`: `"filewrite"` -/
  | filewrite
  /-- `filewrite`: `"short filewrite"` -/
  | shortFilewrite
  /-- `exit`: `"init exiting"` -/
  | initExiting
  /-- no message: the code reads through a pointer that is null or dangling, and has no defined
  behaviour from there on -/
  | badPointer
  deriving DecidableEq, Repr

end InuOs
