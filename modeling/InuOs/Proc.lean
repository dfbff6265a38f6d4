import InuOs.Lib.Prog
import InuOs.Vm
import Mathlib.Algebra.Order.Group.Multiset

/-!
# Processes, pipes and program images (`proc.c`, `exec.c`, `pipe.c`, `file.c`)

The parts of the process and file tables that decide which pages are taken and given back. A system
call runs from start to end here; it works on the process table slot `i` of its caller.

* A process owns its kernel stack and its address space from `allocproc` to `wait`; the slot of a
  process that is gone is `unused`, whatever its fields still hold.
* A pipe lies in a page of its own and lives until both of its ends are closed.
* Inodes, trap frames and names are left out: they take no pages.
-/

namespace InuOs

/-- `NPROC`. -/
def nProc : ℕ := 64

/-- `NOFILE`. -/
def nOFile : ℕ := 16

/-- `NFILE`. -/
def nFile : ℕ := 100

/-- `MAXARG`. -/
def maxArg : ℕ := 32

/-- `enum procstate`. -/
inductive ProcState : Type where
  | unused
  | embryo
  | sleeping
  | runnable
  | running
  | zombie
  deriving DecidableEq, Repr

/-- `struct proc`. -/
structure Proc : Type where
  state : ProcState
  pid : ℕ
  /-- table slot of the parent -/
  parent : Option ℕ
  kstack : Option Page
  pgdir : Option PageDir
  /-- size of user memory -/
  sz : UserSize
  /-- file table slots of the open files -/
  ofile : ℕ → Option ℕ

/-- The type of an open file. -/
inductive FileType : Type where
  | none
  | pipe
  | inode
  deriving DecidableEq, Repr

/-- `struct file`. -/
structure File : Type where
  type : FileType
  ref : ℕ
  readable : Bool
  writable : Bool
  /-- the page of the pipe -/
  pipe : Page

/-- `struct pipe`, and the page it lies in. -/
structure Pipe : Type where
  page : Page
  readopen : Bool
  writeopen : Bool
  deriving DecidableEq, Repr

/-- The state that the page-owning system calls share. -/
structure Machine : Type where
  /-- `kmem.freelist` -/
  free : List Page
  procs : ℕ → Proc
  nextpid : ℕ
  /-- table slot of `initproc` -/
  initproc : ℕ
  files : ℕ → File
  /-- the pipes that are open -/
  pipes : List Pipe
  kpgdir : PageDir
  /-- the pages taken by drivers and for CPU stacks at boot -/
  boot : Multiset Page

namespace Machine

/-- Change one slot of the process table. -/
def setProc (s : Machine) (i : ℕ) (p : Proc) : Machine :=
  { s with procs := Function.update s.procs i p }

@[simp] theorem setProc_procs_self (s : Machine) (i : ℕ) (p : Proc) : (s.setProc i p).procs i = p :=
  Function.update_self ..

theorem setProc_procs_of_ne (s : Machine) {i j : ℕ} (p : Proc) (h : j ≠ i) :
    (s.setProc i p).procs j = s.procs j :=
  Function.update_of_ne h ..

/-- What the process has in common with the one before it. -/
theorem setProc_congr {s : Machine} {i j : ℕ} {p : Proc} {α : Type} (g : Proc → α)
    (h : g p = g (s.procs i)) : g ((s.setProc i p).procs j) = g (s.procs j) := by
  rcases eq_or_ne j i with rfl | hne
  · rw [setProc_procs_self, h]
  · rw [setProc_procs_of_ne s p hne]

/-- Change one slot of the file table. -/
def setFile (s : Machine) (f : ℕ) (file : File) : Machine :=
  { s with files := Function.update s.files f file }

@[simp] theorem setFile_files_self (s : Machine) (f : ℕ) (file : File) :
    (s.setFile f file).files f = file :=
  Function.update_self ..

theorem setFile_files_of_ne (s : Machine) {f g : ℕ} (file : File) (h : g ≠ f) :
    (s.setFile f file).files g = s.files g :=
  Function.update_of_ne h ..

/-! ## Files and pipes -/

/-- `filealloc`. -/
def filealloc (s : Machine) : Option (Machine × ℕ) :=
  ((List.range nFile).find? fun f => (s.files f).ref = 0).map fun f =>
    (s.setFile f { s.files f with ref := 1 }, f)

/-- `filedup`. -/
def filedup (s : Machine) (f : ℕ) : Except Panic Machine :=
  if (s.files f).ref < 1 then throw .filedup
  else pure (s.setFile f { s.files f with ref := (s.files f).ref + 1 })

/-- Close one end of a pipe. -/
def closePipe (q : Pipe) (writable : Bool) : Pipe :=
  if writable then { q with writeopen := false } else { q with readopen := false }

@[simp] theorem closePipe_page (q : Pipe) (writable : Bool) :
    (closePipe q writable).page = q.page := by
  cases writable <;> rfl

/-- Close one end of the pipe in page `p`; the flag says that this was the last one, and the pipe is
gone. -/
def closeEnd (p : Page) (writable : Bool) : List Pipe → Option (List Pipe × Bool)
  | [] => none
  | q :: qs =>
    if q.page = p then
      if (closePipe q writable).readopen || (closePipe q writable).writeopen then
        some (closePipe q writable :: qs, false)
      else some (qs, true)
    else (closeEnd p writable qs).map fun (qs, last) => (q :: qs, last)

/-- `pipeclose`. -/
def pipeclose (c : Platform) (s : Machine) (p : Page) (writable : Bool) : Except Panic Machine :=
  match closeEnd p writable s.pipes with
  | none => throw .badPointer
  | some (pipes, false) => pure { s with pipes := pipes }
  | some (pipes, true) => do
    let free ← kfree c s.free p
    pure { s with free := free, pipes := pipes }

/-- `fileclose`. -/
def fileclose (c : Platform) (s : Machine) (f : ℕ) : Except Panic Machine :=
  let file := s.files f
  if file.ref < 1 then throw .fileclose
  else if 1 < file.ref then pure (s.setFile f { file with ref := file.ref - 1 })
  else
    let s := s.setFile f { file with ref := 0, type := .none }
    if file.type = .pipe then pipeclose c s file.pipe file.writable else pure s

/-- `pipealloc`: the slots of the read and the write end. -/
def pipealloc (c : Platform) (s : Machine) : Except Panic (Machine × Option (ℕ × ℕ)) :=
  match s.filealloc with
  | none => pure (s, none)
  | some (s, f0) =>
    match s.filealloc with
    | none => do
      let s ← fileclose c s f0
      pure (s, none)
    | some (s, f1) =>
      match kalloc s.free with
      | none => do
        let s ← fileclose c s f0
        let s ← fileclose c s f1
        pure (s, none)
      | some (p, free) =>
        let s := { s with free := free, pipes := ⟨p, true, true⟩ :: s.pipes }
        let s := s.setFile f0 { s.files f0 with
          type := .pipe, readable := true, writable := false, pipe := p }
        let s := s.setFile f1 { s.files f1 with
          type := .pipe, readable := false, writable := true, pipe := p }
        pure (s, some (f0, f1))

/-- `fdalloc`. -/
def fdalloc (s : Machine) (i f : ℕ) : Option (Machine × ℕ) :=
  let p := s.procs i
  ((List.range nOFile).find? fun fd => p.ofile fd = none).map fun fd =>
    (s.setProc i { p with ofile := Function.update p.ofile fd (some f) }, fd)

/-- Clear a descriptor. -/
def fdclear (s : Machine) (i fd : ℕ) : Machine :=
  let p := s.procs i
  s.setProc i { p with ofile := Function.update p.ofile fd none }

/-- `sys_pipe`, once its argument is checked. -/
def sysPipe (c : Platform) (s : Machine) (i : ℕ) : Except Panic Machine := do
  let (s, ends) ← pipealloc c s
  match ends with
  | none => pure s
  | some (rf, wf) =>
    match s.fdalloc i rf with
    | none => do
      let s ← fileclose c s rf
      fileclose c s wf
    | some (s, fd0) =>
      match s.fdalloc i wf with
      | none => do
        let s ← fileclose c (s.fdclear i fd0) rf
        fileclose c s wf
      | some (s, _) => pure s

/-- `sys_close`. -/
def sysClose (c : Platform) (s : Machine) (i fd : ℕ) : Except Panic Machine :=
  if nOFile ≤ fd then pure s
  else
    match (s.procs i).ofile fd with
    | none => pure s
    | some f => fileclose c (s.fdclear i fd) f

/-! ## fork, exit and wait -/

/-- `allocproc`: the slot of the new process. -/
def allocproc (s : Machine) : Machine × Option ℕ :=
  match (List.range nProc).find? fun i => (s.procs i).state = .unused with
  | none => (s, none)
  | some i =>
    let p := { s.procs i with pid := s.nextpid }
    let s := { s with nextpid := s.nextpid + 1 }
    match kalloc s.free with
    | none => (s.setProc i { p with state := .unused, kstack := none }, none)
    | some (kstack, free) =>
      ({ s with free := free }.setProc i { p with state := .embryo, kstack := some kstack }, some i)

/-- The loop of `fork` over the descriptors: duplicate what is open. -/
def dupFiles (s : Machine) (ofile : ℕ → Option ℕ) : List ℕ → Except Panic Machine
  | [] => pure s
  | fd :: fds =>
    match ofile fd with
    | none => dupFiles s ofile fds
    | some f => do
      let s ← s.filedup f
      dupFiles s ofile fds

/-- `fork`. -/
def fork (c : Platform) (s : Machine) (i : ℕ) : Except Panic Machine :=
  match s.allocproc with
  | (s, none) => pure s
  | (s, some n) =>
    let curproc := s.procs i
    let np := s.procs n
    match curproc.pgdir with
    | none => throw .badPointer
    | some src => do
      let (free, pgdir) ← copyuvm c s.free src curproc.sz
      match pgdir, np.kstack with
      | _, none => throw .badPointer
      | none, some kstack => do
        let free ← kfree c free kstack
        pure ({ s with free := free }.setProc n
          { np with pgdir := none, kstack := none, state := .unused })
      | some d, some _ => do
        let s ← dupFiles { s with free := free } curproc.ofile (List.range nOFile)
        pure (s.setProc n { np with
          pgdir := some d, sz := curproc.sz, parent := some i, state := .runnable
          ofile := fun fd => (curproc.ofile fd).or (np.ofile fd) })

/-- The loop of `exit` over the descriptors. -/
def closeFiles (c : Platform) (s : Machine) (i : ℕ) : List ℕ → Except Panic Machine
  | [] => pure s
  | fd :: fds => do
    let s ← sysClose c s i fd
    closeFiles c s i fds

/-- The second loop of `exit`: the children go to init. -/
def reparent (s : Machine) (i : ℕ) : Machine :=
  let procs j :=
    if (s.procs j).parent = some i then { s.procs j with parent := some s.initproc }
    else s.procs j
  { s with procs := procs }

/-- `exit`. -/
def exit (c : Platform) (s : Machine) (i : ℕ) : Except Panic Machine :=
  if i = s.initproc then throw .initExiting
  else do
    let s ← closeFiles c s i (List.range nOFile)
    let s := s.reparent i
    pure (s.setProc i { s.procs i with state := .zombie })

/-- `wait`, up to the point where it returns or sleeps. -/
def wait (c : Platform) (s : Machine) (i : ℕ) : Except Panic Machine :=
  match (List.range nProc).find? fun j =>
      (s.procs j).parent = some i ∧ (s.procs j).state = .zombie with
  | none => pure s
  | some j =>
    let p := s.procs j
    match p.kstack, p.pgdir with
    | none, _ => throw .kfree
    | some _, none => throw .freevmNoPgdir
    | some kstack, some d => do
      let free ← kfree c s.free kstack
      let free ← freevm c free d
      pure ({ s with free := free }.setProc j
        { p with kstack := none, pid := 0, parent := none, state := .unused })

/-! ## Memory of a process -/

/-- `growproc`. -/
def growproc (c : Platform) (s : Machine) (i : ℕ) (n : ℤ) : Except Panic Machine :=
  let p := s.procs i
  match p.pgdir with
  | none => throw .badPointer
  | some d =>
    let newsz := ((p.sz : ℤ) + n) % 2 ^ 32 |>.toNat
    if 0 < n then do
      let (free, d, sz) ← allocuvm c s.free d p.sz newsz
      let s := { s with free := free }
      if sz = 0 then pure (s.setProc i { p with pgdir := some d })
      else pure (s.setProc i { p with pgdir := some d, sz := sz })
    else if n < 0 then do
      let (free, d, sz) ← deallocuvm c s.free d p.sz newsz
      let s := { s with free := free }
      if sz = 0 then pure (s.setProc i { p with pgdir := some d })
      else pure (s.setProc i { p with pgdir := some d, sz := sz })
    else pure s

end Machine

/-! ## exec -/

/-- The `uint` at offset `k`. -/
def uintAt (bs : List UInt8) (k : ℕ) : ℕ :=
  (bs.getD k 0).toNat + 256 * ((bs.getD (k + 1) 0).toNat +
    256 * ((bs.getD (k + 2) 0).toNat + 256 * (bs.getD (k + 3) 0).toNat))

/-- The `ushort` at offset `k`. -/
def ushortAt (bs : List UInt8) (k : ℕ) : ℕ := (bs.getD k 0).toNat + 256 * (bs.getD (k + 1) 0).toNat

/-- `sizeof(struct elfhdr)`. -/
def elfhdrSize : ℕ := 52

/-- `sizeof(struct proghdr)`. -/
def proghdrSize : ℕ := 32

/-- `ELF_MAGIC`. -/
def elfMagic : ℕ := 0x464C457F

/-- `(sp - n) & ~3`, in 32 bits. -/
def pushDown (sp n : ℕ) : ℕ := (sp + 2 ^ 32 - n % 2 ^ 32) % 2 ^ 32 / 4 * 4

/-- The loop of `exec` over the argument strings: the stack pointer, or `none` for `goto bad`. -/
def pushArgs (d : PageDir) : ℕ → ℕ → List (List UInt8) → Except Panic (Option (ℕ × ℕ))
  | argc, sp, [] => pure (some (argc, sp))
  | argc, sp, arg :: argv =>
    if maxArg ≤ argc then pure none
    else do
      let sp := pushDown sp (arg.length + 1)
      let ok ← copyout d sp (arg.length + 1)
      if ok then pushArgs d (argc + 1) sp argv else pure none

/-- `exec` behind the program headers: the user stack with the arguments on it. -/
def pushStack (c : Platform) (free : List Page) (d : PageDir) (sz : UserSize)
    (argv : List (List UInt8)) : Except Panic (List Page × PageDir × Option UserSize) := do
  let (free, d, sz) ← allocuvm c free d sz (sz + 2 * pgSize)
  if sz = 0 then pure (free, d, none)
  else do
    let d ← clearpteu d ((sz - 2 * pgSize) / pgSize)
    let args ← pushArgs d 0 sz argv
    match args with
    | none => pure (free, d, none)
    | some (argc, sp) => do
      let ustack := (3 + argc + 1) * 4
      let ok ← copyout d ((sp + 2 ^ 32 - ustack) % 2 ^ 32) ustack
      pure (free, d, if ok then some sz else none)

theorem pgRoundUp_mul_le (sz : UserSize) : pgRoundUp sz * pgSize < kernBase + 1 := by
  unfold pgRoundUp pgSize kernBase at *
  omega

/-- What the code of `exec` needs of the state `σ` that it runs in: the machine, and the file of the
program. -/
structure ExecEnv (σ ω : Type) where
  /-- an action on the machine -/
  machine {α : Type} : (Machine → Except Panic (α × Machine)) → Prog σ Panic ω α
  /-- `readi` on the file: the return value, and the bytes -/
  readi (off n : ℕ) : Prog σ Panic ω (ℤ × List UInt8)
  /-- `iunlockput` and `end_op` -/
  close : Prog σ Panic ω Unit

namespace ExecEnv

variable {σ ω : Type} (e : ExecEnv σ ω) (c : Platform)

/-- A function of `vm.c` that takes pages and gives them back. -/
def pages {α : Type} (f : List Page → Except Panic (List Page × α)) : Prog σ Panic ω α :=
  e.machine fun s => do
    let (free, a) ← f s.free
    pure (a, { s with free := free })

/-- The loop of `loaduvm` over `n` pages from page `v` on, for the file offset `off` and `sz` more
bytes. -/
def loadLoop (d : PageDir) : ℕ → ℕ → ℕ → ℕ → Prog σ Panic ω Bool
  | _, _, _, 0 => pure true
  | v, off, sz, n + 1 =>
    match d.pde (pdx v) with
    | none => Prog.fail .loaduvmExist
    | some _ => do
      let (r, _) ← e.readi off (min sz pgSize)
      if r ≠ (min sz pgSize : ℕ) then pure false
      else loadLoop d (v + 1) ((off + pgSize) % 2 ^ 32) (sz - pgSize) n

/-- `loaduvm`. -/
def loaduvm (d : PageDir) (addr offset sz : ℕ) : Prog σ Panic ω Bool :=
  if addr % pgSize ≠ 0 then Prog.fail .loaduvmAlign
  else e.loadLoop d (addr / pgSize) offset sz (pgRoundUp sz)

/-- The body of the loop over the program headers, for a segment to be loaded. The new size, or
`none` for `goto bad`. -/
def loadSegment (d : PageDir) (sz : UserSize) (ph : List UInt8) :
    Prog σ Panic ω (PageDir × Option UserSize) :=
  let offset := uintAt ph 4
  let vaddr := uintAt ph 8
  let filesz := uintAt ph 16
  let memsz := uintAt ph 20
  if memsz < filesz then pure (d, none)
  else if 2 ^ 32 ≤ vaddr + memsz then pure (d, none)
  else do
    let (d, sz) ← e.pages fun free => allocuvm c free d sz (vaddr + memsz)
    if sz = 0 then pure (d, none)
    else if vaddr % pgSize ≠ 0 then pure (d, none)
    else do
      let ok ← e.loaduvm d vaddr offset filesz
      pure (d, if ok then some sz else none)

/-- The loop of `exec` over the program headers, `n` of them from file offset `off` on. -/
def loadSegments : ℕ → ℕ → PageDir → UserSize → Prog σ Panic ω (PageDir × Option UserSize)
  | _, 0, d, sz => pure (d, some sz)
  | off, n + 1, d, sz => do
    let (r, ph) ← e.readi off proghdrSize
    if r ≠ proghdrSize then pure (d, none)
    else if uintAt ph 0 ≠ 1 then loadSegments ((off + proghdrSize) % 2 ^ 32) n d sz
    else do
      let (d, sz) ← e.loadSegment c d sz ph
      match sz with
      | none => pure (d, none)
      | some sz => loadSegments ((off + proghdrSize) % 2 ^ 32) n d sz

/-- `exec` up to the end of the program headers: the address space as far as it got, and its size if
all went well. -/
def loadImage : Prog σ Panic ω (Option PageDir × Option UserSize) := do
  let (r, elf) ← e.readi 0 elfhdrSize
  if r ≠ elfhdrSize then pure (none, none)
  else if uintAt elf 0 ≠ elfMagic then pure (none, none)
  else do
    let kvm ← e.pages (setupkvm c)
    match kvm with
    | none => pure (none, none)
    | some d => do
      let (d, sz) ← e.loadSegments c (uintAt elf 28) (ushortAt elf 44) d 0
      pure (some d, sz)

/-- `if(pgdir) freevm(pgdir)`. -/
def freePgdir (pgdir : Option PageDir) : Prog σ Panic ω Unit :=
  match pgdir with
  | none => pure ()
  | some d => e.pages fun free => do
      let free ← freevm c free d
      pure (free, ())

/-- `exec` from the point where it commits to the new image. -/
def commit (i : ℕ) (d : PageDir) (sz : UserSize) : Prog σ Panic ω ℤ := do
  let oldpgdir ← e.machine fun s =>
    pure ((s.procs i).pgdir, s.setProc i { s.procs i with pgdir := some d, sz := sz })
  match oldpgdir with
  | none => Prog.fail .freevmNoPgdir
  | some oldpgdir => do
    e.freePgdir c (some oldpgdir)
    pure 0

/-- `exec` from the point where the file is closed: push the arguments. -/
def execImage (i : ℕ) (d : PageDir) (sz : UserSize) (argv : List (List UInt8)) :
    Prog σ Panic ω ℤ := do
  let (d, sz) ← e.pages fun free =>
    pushStack c free d ⟨pgRoundUp sz * pgSize, pgRoundUp_mul_le sz⟩ argv
  match sz with
  | none => do
    e.freePgdir c (some d)
    pure (-1)
  | some sz => e.commit c i d sz

/-- `exec` in process `i`, once the file is locked. -/
def exec (i : ℕ) (argv : List (List UInt8)) : Prog σ Panic ω ℤ := do
  let (pgdir, sz) ← e.loadImage c
  match pgdir, sz with
  | some d, some sz => do
    e.close
    e.execImage c i d sz argv
  | pgdir, _ => do
    e.freePgdir c pgdir
    e.close
    pure (-1)

end ExecEnv

namespace Machine

/-- `exec` on the machine alone: `read` is the content of the file. -/
def execEnv (read : ℕ → ℕ → List UInt8) : ExecEnv Machine Empty where
  machine := Prog.atomic
  readi off n := pure ((read off n).length, read off n)
  close := pure ()

/-- `exec`. `file` is the content of what `path` names, if it names something. -/
def exec (c : Platform) (s : Machine) (i : ℕ) (file : Option (ℕ → ℕ → List UInt8))
    (argv : List (List UInt8)) : Except Panic Machine :=
  match file with
  | none => pure s
  | some read => (((execEnv read).exec c i argv).eval s).map Prod.snd

end Machine

end InuOs
