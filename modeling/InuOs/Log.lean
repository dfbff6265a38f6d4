import InuOs.Lib.Crash
import InuOs.Param

/-!
# The redo log (`log.c`)

The in-memory log descriptor, the operations that bracket a file-system call, and the commit and
recovery code. Two views of the same functions are used later:

* the **admission** view (`InuOs.LogSpace`): `beginOp`, `logWrite` and `endOp` interleaved between
  processes, where only the header and the counters matter;
* the **crash** view (`InuOs.LogCrash`): the block writes that `commit` and `recoverFromLog` issue,
  in order, and the disk they leave behind at every point.

A `Kernel` is what a crash destroys: the log descriptor and the buffer cache, the latter seen as
the content `bread` returns for each block. `issued` records the blocks handed to `bwrite` so far;
the disk is whatever that list makes of the disk the machine booted from.
-/

namespace InuOs

/-! ## The log descriptor -/

/-- `struct log`. The header `lh` is the list of the `lh.n` logged block numbers. -/
structure Log : Type where
  /-- block number of the header block -/
  start : ℕ
  /-- blocks in the log region, header included -/
  size : ℕ
  /-- how many file-system calls are executing -/
  outstanding : ℤ
  /-- in `commit()`, please wait -/
  committing : Bool
  /-- the logged block numbers, `lh.block[0 .. lh.n)` -/
  lh : List UInt32
  deriving DecidableEq, Repr

variable {b : UInt32} {bs : List UInt32}

namespace Log

/-- The condition under which one pass through `begin_op`'s loop admits the caller. -/
def Admits (l : Log) : Prop :=
  l.committing = false ∧ (l.lh.length : ℤ) + (l.outstanding + 1) * maxOpBlocks ≤ logSize

instance (l : Log) : Decidable l.Admits := inferInstanceAs (Decidable (_ ∧ _))

/-- `begin_op`: admit the caller, or leave it asleep (`none`) for a later pass. -/
def beginOp (l : Log) : Option Log :=
  if l.Admits then some { l with outstanding := l.outstanding + 1 } else none

/-- The two `panic` tests at the head of `log_write`, made before `log.lock` is taken. -/
def logWriteCheck (l : Log) : Except Panic Unit :=
  if logSize ≤ l.lh.length ∨ (l.size : ℤ) - 1 ≤ l.lh.length then
    throw .tooBigATransaction
  else if l.outstanding < 1 then
    throw .logWriteOutsideOfTrans
  else
    pure ()

/-- The scan of `log_write`: overwrite the slot that already holds `b`, or append one. -/
def absorb (b : UInt32) : List UInt32 → List UInt32
  | [] => [b]
  | c :: cs => if c = b then b :: cs else c :: absorb b cs

/-- The part of `log_write` under `log.lock`. -/
def record (l : Log) (b : UInt32) : Log := { l with lh := absorb b l.lh }

/-- `end_op` up to the release of `log.lock`: the new descriptor and `do_commit`. -/
def endOp (l : Log) : Except Panic (Log × Bool) :=
  let l := { l with outstanding := l.outstanding - 1 }
  if l.committing then
    throw .logCommitting
  else if l.outstanding = 0 then
    pure ({ l with committing := true }, true)
  else
    pure (l, false)

/-- The tail of `end_op` after `commit`: let the sleepers in again. -/
def endCommit (l : Log) : Log := { l with committing := false }

/-! ### The logged set -/

theorem mem_absorb {c : UInt32} : c ∈ absorb b bs ↔ c = b ∨ c ∈ bs := by
  induction bs with
  | nil => simp [absorb]
  | cons a as ih =>
    rw [absorb]
    split
    · next h => subst h; simp
    · simp only [List.mem_cons, ih]
      tauto

/-- A block already in the log is absorbed. -/
theorem absorb_of_mem (h : b ∈ bs) : absorb b bs = bs := by
  induction bs with
  | nil => cases h
  | cons a as ih =>
    rw [absorb]
    split
    · next hab => rw [hab]
    · next hab => rw [ih ((List.mem_cons.mp h).resolve_left (Ne.symm hab))]

/-- A new block is appended. -/
theorem absorb_of_not_mem (h : b ∉ bs) : absorb b bs = bs ++ [b] := by
  induction bs with
  | nil => rfl
  | cons a as ih =>
    rw [List.mem_cons, not_or] at h
    rw [absorb, if_neg (Ne.symm h.1), ih h.2, List.cons_append]

theorem length_absorb_le (b : UInt32) (bs : List UInt32) :
    (absorb b bs).length ≤ bs.length + 1 := by
  by_cases h : b ∈ bs
  · rw [absorb_of_mem h]
    exact Nat.le_succ _
  · rw [absorb_of_not_mem h, List.length_append, List.length_singleton]

end Log

/-! ## Blocks and the header block -/

/-- The `int n` of `struct logheader`, as the loops over the header use it: no iteration when it is
negative. -/
def headerCount (b : Block) : ℕ := (b.getWord 0).toBitVec.toInt.toNat

/-- The block numbers a header block holds (`read_head`'s loop). -/
def headerBlocks (b : Block) : List UInt32 :=
  (List.range (headerCount b)).map fun i => b.getWord (i + 1)

/-- Store `block[i ..]` into a header block (`write_head`'s loop). -/
def putBlocks : ℕ → List UInt32 → Block → Block
  | _, [], b => b
  | i, x :: xs, b => putBlocks (i + 1) xs (b.setWord (i + 1) x)

/-- The header block `write_head` writes: the old one with `n` and `block[0 .. n)` stored. -/
def putHeader (lh : List UInt32) (b : Block) : Block :=
  putBlocks 0 lh (b.setWord 0 (UInt32.ofNat lh.length))

/-! ## The volatile state and its block writes -/

/-- What a crash loses, with the block writes issued since the last boot. -/
structure Kernel : Type where
  /-- the log descriptor -/
  log : Log
  /-- what `bread` returns -/
  cache : ℕ → Block
  /-- the `bwrite`s issued since boot, oldest first -/
  issued : List (ℕ × Block)

namespace Kernel

/-- The content of a block, through the buffer cache. -/
def bread (k : Kernel) (b : ℕ) : Block := k.cache b

/-- Write a block to the disk: the buffer and the disk block both hold `data`. -/
def bwrite (k : Kernel) (b : ℕ) (data : Block) : Kernel :=
  { k with cache := Function.update k.cache b data, issued := k.issued ++ [(b, data)] }

@[simp] theorem bwrite_log (k : Kernel) (b : ℕ) (data : Block) : (k.bwrite b data).log = k.log :=
  rfl

@[simp] theorem bwrite_cache (k : Kernel) (b : ℕ) (data : Block) :
    (k.bwrite b data).cache = Function.update k.cache b data := rfl

/-- Modify a buffer and `log_write` it: the buffer stays dirty in the cache and its number enters
the header. -/
def logWrite (k : Kernel) (b : UInt32) (data : Block) : Except Panic Kernel := do
  k.log.logWriteCheck
  pure { k with log := k.log.record b, cache := Function.update k.cache b.toNat data }

/-- The loop of `install_trans`, from slot `tail` on. -/
def installFrom (k : Kernel) : ℕ → List UInt32 → Kernel
  | _, [] => k
  | tail, b :: bs =>
    installFrom (k.bwrite b.toNat (k.bread (k.log.start + tail + 1))) (tail + 1) bs

/-- `install_trans`: copy committed blocks from the log to their home locations. -/
def installTrans (k : Kernel) : Kernel := k.installFrom 0 k.log.lh

/-- `read_head`: the header on disk becomes the header in memory. -/
def readHead (k : Kernel) : Kernel :=
  { k with log := { k.log with lh := headerBlocks (k.bread k.log.start) } }

/-- `write_head`: the header in memory goes to disk. -/
def writeHead (k : Kernel) : Kernel :=
  k.bwrite k.log.start (putHeader k.log.lh (k.bread k.log.start))

/-- `log.lh.n = 0`. -/
def clearHead (k : Kernel) : Kernel := { k with log := { k.log with lh := [] } }

/-- `recover_from_log`. -/
def recoverFromLog (k : Kernel) : Kernel := k.readHead.installTrans.clearHead.writeHead

/-- The loop of `write_log`, from slot `tail` on. -/
def writeLogFrom (k : Kernel) : ℕ → List UInt32 → Kernel
  | _, [] => k
  | tail, b :: bs =>
    writeLogFrom (k.bwrite (k.log.start + tail + 1) (k.bread b.toNat)) (tail + 1) bs

/-- `write_log`: copy modified blocks from the cache to the log. -/
def writeLog (k : Kernel) : Kernel := k.writeLogFrom 0 k.log.lh

/-- `commit`. -/
def commit (k : Kernel) : Kernel :=
  if 0 < k.log.lh.length then
    k.writeLog.writeHead.installTrans.clearHead.writeHead
  else k

/-- `end_op`, with the commit made by the last one. -/
def endOp (k : Kernel) : Except Panic Kernel := do
  let (l, doCommit) ← k.log.endOp
  let k := { k with log := l }
  if doCommit then
    let k := k.commit
    pure { k with log := k.log.endCommit }
  else
    pure k

end Kernel

end InuOs
