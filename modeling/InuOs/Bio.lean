import InuOs.Lib.DList
import InuOs.Lib.Lock
import InuOs.Lib.Run
import InuOs.Lib.Tally
import InuOs.Param

/-!
# The buffer cache (`bio.c`)

Any number of processes use the cache at the same time. A step is a critical section of
`bcache.lock`, taking or giving up the sleep-lock of a buffer, one change to the flags or the data
of a buffer, or one transfer by the disk driver.

* What goes on in a step list is *uses* of buffers: from the call of `bread` that gets a buffer to
  the `brelse` that gives it up. A process that holds several buffers at a time takes part in as
  many uses, and `commit` is made of such uses: `write_log`, `write_head` and `install_trans` call
  `bread`, change the data, call `bwrite` and `brelse`.
* Data that was changed is passed to `bwrite` or `log_write` before the buffer is given up.
* `log_write` sets `B_DIRTY`; what it records in the log header is in `InuOs.Log`.
* A call of `iderw` (`ide.c`) is one step. The buffer is locked for as long as the request waits in
  the queue of the driver. The driver takes the lowest bit of the device number for the disk.

`last` is not in the source: the bytes that `bwrite` or `log_write` has last stored in a block, or
what was on the disk at first.
-/

namespace InuOs.Bio

open InuOs.DList

/-- `NBUF` -/
def nBuf : ℕ := maxOpBlocks * 3

/-- The node of `bcache.head`; the others are those of the buffers `0`, …, `NBUF - 1`. -/
def head : ℕ := nBuf

/-- `struct buf`. `valid` and `dirty` are `B_VALID` and `B_DIRTY` of its flags. -/
structure Buf (α : Type) : Type where
  valid : Bool
  dirty : Bool
  dev : ℕ
  blockno : ℕ
  refcnt : ℕ
  data : α
  deriving DecidableEq, Repr

/-- The block that a buffer is for. -/
def Buf.key {α : Type} (b : Buf α) : ℕ × ℕ := (b.dev, b.blockno)

/-- Where a use of a buffer is; `k` is the block that was asked for. -/
inductive Pc : Type where
  | idle
  /-- in `bget`, before `acquiresleep` -/
  | wait (b : ℕ) (k : ℕ × ℕ)
  /-- in `bread`, behind `bget` -/
  | locked (b : ℕ) (k : ℕ × ℕ)
  /-- behind `bread`; `modified` says that the data was changed since it was last stored -/
  | ready (b : ℕ) (k : ℕ × ℕ) (modified : Bool)
  /-- in `bwrite`, before `iderw` -/
  | write (b : ℕ) (k : ℕ × ℕ)
  /-- in `brelse`, behind `releasesleep` -/
  | release (b : ℕ)
  deriving DecidableEq, Repr

/-- The cache, its users and the disks. -/
structure State (ι α : Type) : Type where
  bufs : ℕ → Buf α
  links : Links ℕ
  /-- the use that has the sleep-lock of a buffer -/
  lock : ℕ → Option ι
  pc : ι → Pc
  /-- the blocks of the two IDE disks -/
  disk : ℕ × ℕ → α
  havedisk1 : Bool
  last : ℕ × ℕ → α

/-- The disk and the block on it that the driver goes to. -/
def place (k : ℕ × ℕ) : ℕ × ℕ := (k.1 % 2, k.2)

variable {ι α : Type} [DecidableEq ι]

namespace State

/-- Change one buffer. -/
def setBuf (s : State ι α) (b : ℕ) (buf : Buf α) : State ι α :=
  { s with bufs := Function.update s.bufs b buf }

/-- Use `i` goes on to `a`. -/
def goto (s : State ι α) (i : ι) (a : Pc) : State ι α := { s with pc := Function.update s.pc i a }

/-- The first loop of `bget`. -/
def cached (s : State ι α) (k : ℕ × ℕ) : Option ℕ :=
  walk s.links.next head (fun b => (s.bufs b).key = k) (nBuf + 1) (s.links.next head)

/-- The second loop of `bget`. -/
def unused (s : State ι α) : Option ℕ :=
  walk s.links.prev head (fun b => (s.bufs b).refcnt = 0 ∧ (s.bufs b).dirty = false) (nBuf + 1)
    (s.links.prev head)

/-- `bget`, up to `release(&bcache.lock)`. -/
def bget (s : State ι α) (i : ι) (k : ℕ × ℕ) : Option (State ι α) :=
  match s.cached k with
  | some b =>
    some ((s.setBuf b { s.bufs b with refcnt := (s.bufs b).refcnt + 1 }).goto i (.wait b k))
  | none =>
    match s.unused with
    | some b =>
      some ((s.setBuf b { s.bufs b with
        dev := k.1, blockno := k.2, valid := false, dirty := false, refcnt := 1 }).goto i
          (.wait b k))
    -- "bget: no buffers"
    | none => none

/-- `iderw`. Where it panics there is no next state. -/
def iderw (s : State ι α) (b : ℕ) : Option (State ι α) :=
  let buf := s.bufs b
  if (buf.valid = true ∧ buf.dirty = false) ∨ (buf.dev ≠ 0 ∧ s.havedisk1 = false) ∨
      fsSize ≤ buf.blockno then none
  else if buf.dirty then
    some { s.setBuf b { buf with valid := true, dirty := false } with
      disk := Function.update s.disk (place buf.key) buf.data }
  else some (s.setBuf b { buf with data := s.disk (place buf.key), valid := true })

/-- The critical section of `brelse`. -/
def brelse (s : State ι α) (b : ℕ) : State ι α :=
  let refcnt := (s.bufs b).refcnt - 1
  { s.setBuf b { s.bufs b with refcnt := refcnt } with
    links := if refcnt = 0 then insertFront (unlink s.links b) head b else s.links }

/-- The bytes in buffer `b` are stored. -/
def store (s : State ι α) (b : ℕ) : State ι α :=
  { s.setBuf b { s.bufs b with dirty := true } with
    last := Function.update s.last (s.bufs b).key (s.bufs b).data }

end State

/-- The steps of use `i`. -/
inductive Event (ι α : Type) : Type where
  /-- `bget`, called by `bread`: the critical section -/
  | bget (i : ι) (k : ℕ × ℕ)
  /-- `bget`: `acquiresleep` -/
  | acquire (i : ι)
  /-- the rest of `bread` -/
  | bread (i : ι)
  | modify (i : ι) (data : α)
  /-- `bwrite`: `flags |= B_DIRTY` -/
  | bwrite (i : ι)
  /-- `bwrite`: `iderw` -/
  | iderw (i : ι)
  | logWrite (i : ι)
  /-- `brelse`: `releasesleep` -/
  | release (i : ι)
  /-- `brelse`: the critical section -/
  | brelse (i : ι)
  deriving DecidableEq, Repr

/-- One step. -/
def step (s : State ι α) : Event ι α → Option (State ι α)
  | .bget i k =>
    match s.pc i with
    | .idle => s.bget i k
    | _ => none
  | .acquire i =>
    match s.pc i with
    | .wait b k =>
      if s.lock b = none then
        some { s.goto i (.locked b k) with lock := Function.update s.lock b (some i) }
      else none
    | _ => none
  | .bread i =>
    match s.pc i with
    | .locked b k =>
      if (s.bufs b).valid then some (s.goto i (.ready b k false))
      else (s.iderw b).map fun s => s.goto i (.ready b k false)
    | _ => none
  | .modify i data =>
    match s.pc i with
    | .ready b k _ => some ((s.setBuf b { s.bufs b with data := data }).goto i (.ready b k true))
    | _ => none
  | .bwrite i =>
    match s.pc i with
    | .ready b k _ => some ((s.store b).goto i (.write b k))
    | _ => none
  | .iderw i =>
    match s.pc i with
    | .write b k => (s.iderw b).map fun s => s.goto i (.ready b k false)
    | _ => none
  | .logWrite i =>
    match s.pc i with
    | .ready b k _ => some ((s.store b).goto i (.ready b k false))
    | _ => none
  | .release i =>
    match s.pc i with
    | .ready b _ false =>
      some { s.goto i (.release b) with lock := Function.update s.lock b none }
    | _ => none
  | .brelse i =>
    match s.pc i with
    | .release b => some ((s.brelse b).goto i .idle)
    | _ => none

/-- `binit`, on zeroed memory. -/
def binit (disk : ℕ × ℕ → α) (havedisk1 : Bool) (data : ℕ → α) : State ι α where
  bufs b := ⟨false, false, 0, 0, 0, data b⟩
  links := (List.range nBuf).foldl (fun L b => insertFront L head b) ⟨fun _ => head, fun _ => head⟩
  lock _ := none
  pc _ := .idle
  disk := disk
  havedisk1 := havedisk1
  last k := disk (place k)

end InuOs.Bio
