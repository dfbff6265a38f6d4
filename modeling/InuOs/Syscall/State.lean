import InuOs.Inode
import InuOs.Lib.Prog
import InuOs.Log
import InuOs.Proc

/-!
# The state behind the file system calls

`InuOs.Inode` has the functions of `fs.c` as maps of the disk. Here they are programs, with
everything that a call can hold on to while it runs: the sleep-locks of buffers and inodes, the
slots of the inode cache with their reference counts, and the log operation.

* A pointer to a cached inode is its slot in the cache, one to an open file its slot in the file
  table.
* `disk` is the content of the blocks through the buffer cache; `bread` locks the buffer and
  `brelse` unlocks it.
* There is one file system, so that inodes need no device number.
* `trace` lists the `begin_op`, `end_op`, `log_write` and `iput` that were made.
-/

namespace InuOs.Syscall

/-- `NINODE`. -/
def nInode : ℕ := 50

/-- `ROOTINO`. -/
def rootIno : ℕ := 1

/-- `struct inode`. -/
structure Inode : Type where
  inum : ℕ
  ref : ℕ
  /-- the process that holds the sleep-lock -/
  lock : Option ℕ
  /-- whether the inode has been read from disk -/
  valid : Bool
  /-- the copy of the disk inode -/
  din : Dinode

/-- What a call does to the log and to references, in order. -/
inductive Event : Type where
  | beginOp
  | endOp
  | logWrite
  | iput
  deriving DecidableEq, Repr

/-- What a process sleeps for. -/
inductive Wait : Type where
  | beginOp
  /-- the sleep-lock of a buffer -/
  | buf (b : ℕ)
  /-- the sleep-lock of an inode -/
  | inode (j : ℕ)
  /-- console input -/
  | input
  deriving DecidableEq, Repr

/-- What the file system calls share. -/
structure State : Type where
  /-- the content of each block, through the buffer cache -/
  disk : Disk
  /-- the process that holds the sleep-lock of the buffer of a block -/
  buf : ℕ → Option ℕ
  log : Log
  icache : ℕ → Inode
  /-- memory, processes and open files -/
  machine : Machine
  /-- `p->cwd` -/
  cwd : ℕ → Option ℕ
  /-- `f->ip` -/
  fip : ℕ → ℕ
  /-- `f->off` -/
  off : ℕ → ℕ := fun _ => 0
  /-- what the next reads from the console meet: a character, or that the process is killed -/
  input : List (Option UInt8)
  trace : List Event

/-- Code of the kernel. -/
abbrev Code (α : Type) : Type 1 := Prog State Panic Wait α

namespace State

/-- Change one entry of the inode cache. -/
def setInode (s : State) (j : ℕ) (ip : Inode) : State :=
  { s with icache := Function.update s.icache j ip }

@[simp] theorem setInode_self (s : State) (j : ℕ) (ip : Inode) : (s.setInode j ip).icache j = ip :=
  Function.update_self ..

theorem setInode_of_ne (s : State) {i j : ℕ} (ip : Inode) (h : i ≠ j) :
    (s.setInode j ip).icache i = s.icache i :=
  Function.update_of_ne h ..

/-- Record an event. -/
def emit (s : State) (e : Event) : State := { s with trace := s.trace ++ [e] }

end State

/-! ## Buffers (`bio.c`) -/

/-- `bread`: the locked buffer, with its content. -/
def bread (p b : ℕ) : Code Block := do
  Prog.await (.buf b) fun s =>
    if s.buf b = none then some { s with buf := Function.update s.buf b (some p) } else none
  Prog.get fun s => s.disk b

/-- Store into the data of a buffer. -/
def setData (b : ℕ) (data : Block) : Code Unit :=
  Prog.modify fun s => { s with disk := Function.update s.disk b data }

/-- `bwrite`. -/
def bwrite (b : ℕ) : Code Unit :=
  Prog.update fun s => if s.buf b = none then throw .bwrite else pure s

/-- `brelse`. -/
def brelse (b : ℕ) : Code Unit :=
  Prog.update fun s =>
    if s.buf b = none then throw .brelse
    else pure { s with buf := Function.update s.buf b none }

/-! ## The log (`log.c`) -/

/-- `begin_op`. -/
def beginOp : Code Unit :=
  Prog.await .beginOp fun s => s.log.beginOp.map fun log => ({ s with log := log }.emit .beginOp)

/-- `log_write`. -/
def logWrite (b : ℕ) : Code Unit :=
  Prog.update fun s => do
    s.log.logWriteCheck
    pure ({ s with log := s.log.record (UInt32.ofNat b) }.emit .logWrite)

/-- The loop of `write_log`, from slot `tail` on. -/
def writeLogFrom (p : ℕ) : ℕ → List UInt32 → Code Unit
  | _, [] => pure ()
  | tail, b :: bs => do
    let start ← Prog.get fun s => s.log.start
    let _ ← bread p (start + tail + 1)
    let data ← bread p b.toNat
    setData (start + tail + 1) data
    bwrite (start + tail + 1)
    brelse b.toNat
    brelse (start + tail + 1)
    writeLogFrom p (tail + 1) bs

/-- `write_head`. -/
def writeHead (p : ℕ) : Code Unit := do
  let log ← Prog.get State.log
  let data ← bread p log.start
  setData log.start (putHeader log.lh data)
  bwrite log.start
  brelse log.start

/-- The loop of `install_trans`, from slot `tail` on. -/
def installFrom (p : ℕ) : ℕ → List UInt32 → Code Unit
  | _, [] => pure ()
  | tail, b :: bs => do
    let start ← Prog.get fun s => s.log.start
    let data ← bread p (start + tail + 1)
    let _ ← bread p b.toNat
    setData b.toNat data
    bwrite b.toNat
    brelse (start + tail + 1)
    brelse b.toNat
    installFrom p (tail + 1) bs

/-- `commit`. -/
def commit (p : ℕ) : Code Unit := do
  let log ← Prog.get State.log
  Prog.when (0 < log.lh.length) do
    writeLogFrom p 0 log.lh
    writeHead p
    installFrom p 0 log.lh
    Prog.modify fun s => { s with log := { s.log with lh := [] } }
    writeHead p

/-- `end_op`. -/
def endOp (p : ℕ) : Code Unit := do
  let doCommit ← Prog.atomic fun s => do
    let (log, doCommit) ← s.log.endOp
    pure (doCommit, { s with log := log }.emit .endOp)
  Prog.when (doCommit = true) do
    commit p
    Prog.modify fun s => { s with log := s.log.endCommit }

end InuOs.Syscall
