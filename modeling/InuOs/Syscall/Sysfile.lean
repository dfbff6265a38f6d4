import InuOs.Syscall.Fs

/-!
# The file system calls (`file.c`, `sysfile.c`, `exec.c`)

The calls as process `p` runs them. An argument is what `argstr` or `argint` made of it: `none` if
that failed. A call returns what goes to `%eax`.
-/

namespace InuOs.Syscall

/-- `T_FILE`. -/
def tFile : UInt16 := 2

/-- `O_WRONLY`. -/
def oWronly : UInt32 := 1

/-- `O_RDWR`. -/
def oRdwr : UInt32 := 2

/-- `O_CREATE`. -/
def oCreate : UInt32 := 0x200

/-! ## Open files -/

/-- `filealloc`. -/
def filealloc : Code (Option ℕ) :=
  Prog.atomic fun s =>
    match s.machine.filealloc with
    | none => pure (none, s)
    | some (machine, f) => pure (some f, { s with machine := machine })

/-- The part of `fileclose` under `ftable.lock`: the file and its inode, if this was its last
reference. -/
def fileDrop (f : ℕ) : Code (Option (File × ℕ)) :=
  Prog.atomic fun s =>
    let file := s.machine.files f
    if file.ref < 1 then throw .fileclose
    else if 1 < file.ref then
      pure (none, { s with machine := s.machine.setFile f { file with ref := file.ref - 1 } })
    else
      pure (some (file, s.fip f),
        { s with machine := s.machine.setFile f { file with ref := 0, type := .none } })

/-- `pipeclose`. -/
def pipeclose (c : Platform) (pipe : Page) (writable : Bool) : Code Unit :=
  Prog.update fun s => do
    let machine ← s.machine.pipeclose c pipe writable
    pure { s with machine := machine }

/-- `fileclose`. -/
def fileclose (c : Platform) (sb : Superblock) (p f : ℕ) : Code Unit := do
  let ff ← fileDrop f
  match ff with
  | none => pure ()
  | some (ff, ip) =>
    match ff.type with
    | .none => pure ()
    | .pipe => pipeclose c ff.pipe ff.writable
    | .inode => do
      beginOp
      iput sb p ip
      endOp p

/-- `fdalloc`. -/
def fdalloc (p f : ℕ) : Code (Option ℕ) :=
  Prog.atomic fun s =>
    match s.machine.fdalloc p f with
    | none => pure (none, s)
    | some (machine, fd) => pure (some fd, { s with machine := machine })

/-- `argfd`. -/
def argfd (p : ℕ) (fd : Option ℤ) : Code (Option (ℕ × ℕ)) :=
  match fd with
  | none => pure none
  | some fd =>
    if fd < 0 ∨ (nOFile : ℤ) ≤ fd then pure none
    else Prog.get fun s => ((s.machine.procs p).ofile fd.toNat).map fun f => (fd.toNat, f)

/-- `sys_close`. -/
def sysClose (c : Platform) (sb : Superblock) (p : ℕ) (fd : Option ℤ) : Code ℤ := do
  let arg ← argfd p fd
  match arg with
  | none => pure (-1)
  | some (fd, f) => do
    Prog.modify fun s => { s with machine := s.machine.fdclear p fd }
    fileclose c sb p f
    pure 0

/-! ## Links -/

/-- `sys_link` from the label `bad` on. -/
def sysLinkBad (sb : Superblock) (p ip : ℕ) : Code ℤ := do
  ilock sb p ip
  setCore ip fun din => { din with nlink := din.nlink - 1 }
  iupdate sb p ip
  iunlockput sb p ip
  endOp p
  pure (-1)

/-- `sys_link` from the second path on. -/
def sysLinkNew (sb : Superblock) (p ip : ℕ) (new : Path) : Code ℤ := do
  let (dp, name) ← nameiparent sb p new
  match dp with
  | none => sysLinkBad sb p ip
  | some dp => do
    ilock sb p dp
    let inum ← inumOf ip
    let r ← dirlink sb p dp name inum
    if r < 0 then do
      iunlockput sb p dp
      sysLinkBad sb p ip
    else do
      iunlockput sb p dp
      iput sb p ip
      endOp p
      pure 0

/-- `sys_link`. -/
def sysLink (sb : Superblock) (p : ℕ) (old new : Option Path) : Code ℤ :=
  match old, new with
  | some old, some new => do
    beginOp
    let ip ← namei sb p old
    match ip with
    | none => do
      endOp p
      pure (-1)
    | some ip => do
      ilock sb p ip
      let din ← core ip
      if din.type = tDir then do
        iunlockput sb p ip
        endOp p
        pure (-1)
      else do
        setCore ip fun din => { din with nlink := din.nlink + 1 }
        iupdate sb p ip
        iunlock ip
        sysLinkNew sb p ip new
  | _, _ => pure (-1)

/-- The loop of `isdirempty` over the next `count` entries. -/
def isdiremptyLoop (sb : Superblock) (p j : ℕ) : ℕ → ℕ → Code Bool
  | 0, _ => pure true
  | count + 1, off => do
    let (r, de) ← readi sb p j off direntSize
    if r ≠ direntSize then Prog.fail .isdiremptyReadi
    else if direntInum de ≠ 0 then pure false
    else isdiremptyLoop sb p j count (off + direntSize)

/-- `isdirempty`. -/
def isdirempty (sb : Superblock) (p j : ℕ) : Code Bool := do
  let din ← core j
  isdiremptyLoop sb p j (direntCount din - 2) (2 * direntSize)

/-- `ip->type == T_DIR && !isdirempty(ip)`. -/
def dirNotEmpty (sb : Superblock) (p j : ℕ) : Code Bool := do
  let din ← core j
  if din.type = tDir then do
    let empty ← isdirempty sb p j
    pure !empty
  else pure false

/-- `sys_unlink` from the label `bad` on. -/
def sysUnlinkBad (sb : Superblock) (p dp : ℕ) : Code ℤ := do
  iunlockput sb p dp
  endOp p
  pure (-1)

/-- `sys_unlink` from the point where the entry is cleared. -/
def sysUnlinkClear (sb : Superblock) (p dp ip off : ℕ) : Code ℤ := do
  let r ← writei sb p dp off (List.replicate direntSize 0)
  Prog.when (r ≠ direntSize) (Prog.fail .unlinkWritei)
  let din ← core ip
  Prog.when (din.type = tDir) do
    setCore dp fun din => { din with nlink := din.nlink - 1 }
    iupdate sb p dp
  iunlockput sb p dp
  setCore ip fun din => { din with nlink := din.nlink - 1 }
  iupdate sb p ip
  iunlockput sb p ip
  endOp p
  pure 0

/-- The name `.`. -/
def dot : List UInt8 := [46]

/-- The name `..`. -/
def dotdot : List UInt8 := [46, 46]

/-- `sys_unlink`. -/
def sysUnlink (sb : Superblock) (p : ℕ) (path : Option Path) : Code ℤ :=
  match path with
  | none => pure (-1)
  | some path => do
    beginOp
    let (dp, name) ← nameiparent sb p path
    match dp with
    | none => do
      endOp p
      pure (-1)
    | some dp => do
      ilock sb p dp
      if namecmpEq name dot ∨ namecmpEq name dotdot then sysUnlinkBad sb p dp
      else do
        let found ← dirlookup sb p dp name
        match found with
        | none => sysUnlinkBad sb p dp
        | some (ip, off) => do
          ilock sb p ip
          let din ← core ip
          -- `nlink` is signed
          Prog.when (din.nlink = 0 ∨ 0x8000 ≤ din.nlink) (Prog.fail .unlinkNlink)
          let full ← dirNotEmpty sb p ip
          if full then do
            iunlockput sb p ip
            sysUnlinkBad sb p dp
          else sysUnlinkClear sb p dp ip off

/-! ## Creating -/

/-- The part of `create` that makes the entries `.` and `..`. -/
def createDots (sb : Superblock) (p dp ip : ℕ) : Code Unit := do
  setCore dp fun din => { din with nlink := din.nlink + 1 }
  iupdate sb p dp
  let inum ← inumOf ip
  let r ← dirlink sb p ip dot inum
  if r < 0 then Prog.fail .createDots
  else do
    let parent ← inumOf dp
    let r ← dirlink sb p ip dotdot parent
    if r < 0 then Prog.fail .createDots else pure ()

/-- The part of `create` behind the lookup of a name that is not there. -/
def createNew (sb : Superblock) (p dp : ℕ) (name : List UInt8) (type major minor : UInt16) :
    Code (Option ℕ) := do
  let ip ← ialloc sb p type
  ilock sb p ip
  setCore ip fun din => { din with major := major, minor := minor, nlink := 1 }
  iupdate sb p ip
  Prog.when (type = tDir) (createDots sb p dp ip)
  let inum ← inumOf ip
  let r ← dirlink sb p dp name inum
  if r < 0 then Prog.fail .createDirlink
  else do
    iunlockput sb p dp
    pure (some ip)

/-- `create`. -/
def create (sb : Superblock) (p : ℕ) (path : Path) (type major minor : UInt16) :
    Code (Option ℕ) := do
  let (dp, name) ← nameiparent sb p path
  match dp with
  | none => pure none
  | some dp => do
    ilock sb p dp
    let found ← dirlookup sb p dp name
    match found with
    | some (ip, _) => do
      iunlockput sb p dp
      ilock sb p ip
      let din ← core ip
      if type = tFile ∧ din.type = tFile then pure (some ip)
      else do
        iunlockput sb p ip
        pure none
    | none => createNew sb p dp name type major minor

/-- `sys_open` without `O_CREATE`, up to the locked inode. -/
def openExisting (sb : Superblock) (p : ℕ) (path : Path) (omode : UInt32) : Code (Option ℕ) := do
  let ip ← namei sb p path
  match ip with
  | none => pure none
  | some ip => do
    ilock sb p ip
    let din ← core ip
    if din.type = tDir ∧ omode ≠ 0 then do
      iunlockput sb p ip
      pure none
    else pure (some ip)

/-- `filealloc` and `fdalloc` of `sys_open`: the file and the descriptor. -/
def openFile (c : Platform) (sb : Superblock) (p : ℕ) : Code (Option (ℕ × ℕ)) := do
  let f ← filealloc
  match f with
  | none => pure none
  | some f => do
    let fd ← fdalloc p f
    match fd with
    | none => do
      fileclose c sb p f
      pure none
    | some fd => pure (some (f, fd))

/-- The assignments to the open file in `sys_open`. -/
def State.setOpen (s : State) (f ip : ℕ) (omode : UInt32) : State :=
  { s with
    fip := Function.update s.fip f ip
    off := Function.update s.off f 0
    machine := s.machine.setFile f { s.machine.files f with
      type := .inode
      readable := omode &&& oWronly = 0
      writable := omode &&& oWronly ≠ 0 ∨ omode &&& oRdwr ≠ 0 } }

/-- `sys_open` from the inode on. -/
def openInode (c : Platform) (sb : Superblock) (p : ℕ) (omode : UInt32) (ip : Option ℕ) : Code ℤ :=
  match ip with
  | none => do
    endOp p
    pure (-1)
  | some ip => do
    let file ← openFile c sb p
    match file with
    | none => do
      iunlockput sb p ip
      endOp p
      pure (-1)
    | some (f, fd) => do
      iunlock ip
      endOp p
      Prog.modify fun s => s.setOpen f ip omode
      pure fd

/-- `sys_open`. -/
def sysOpen (c : Platform) (sb : Superblock) (p : ℕ) (path : Option Path) (omode : Option UInt32) :
    Code ℤ :=
  match path, omode with
  | some path, some omode => do
    beginOp
    let ip ← if omode &&& oCreate ≠ 0 then create sb p path tFile 0 0
      else openExisting sb p path omode
    openInode c sb p omode ip
  | _, _ => pure (-1)

/-- What `sys_mkdir` and `sys_mknod` do with the result of `create`. -/
def createDone (sb : Superblock) (p : ℕ) (ip : Option ℕ) : Code ℤ :=
  match ip with
  | none => do
    endOp p
    pure (-1)
  | some ip => do
    iunlockput sb p ip
    endOp p
    pure 0

/-- `sys_mkdir`. -/
def sysMkdir (sb : Superblock) (p : ℕ) (path : Option Path) : Code ℤ := do
  beginOp
  match path with
  | none => createDone sb p none
  | some path => do
    let ip ← create sb p path tDir 0 0
    createDone sb p ip

/-- `sys_mknod`. The device numbers are cut to `short`. -/
def sysMknod (sb : Superblock) (p : ℕ) (path : Option Path) (major minor : Option UInt32) :
    Code ℤ := do
  beginOp
  match path, major, minor with
  | some path, some major, some minor => do
    let ip ← create sb p path tDev major.toUInt16 minor.toUInt16
    createDone sb p ip
  | _, _, _ => createDone sb p none

/-! ## The working directory -/

/-- `sys_chdir`. -/
def sysChdir (sb : Superblock) (p : ℕ) (path : Option Path) : Code ℤ := do
  beginOp
  match path with
  | none => do
    endOp p
    pure (-1)
  | some path => do
    let ip ← namei sb p path
    match ip with
    | none => do
      endOp p
      pure (-1)
    | some ip => do
      ilock sb p ip
      let din ← core ip
      if din.type ≠ tDir then do
        iunlockput sb p ip
        endOp p
        pure (-1)
      else do
        iunlock ip
        let cwd ← Prog.get fun s => s.cwd p
        match cwd with
        | none => Prog.fail .badPointer
        | some cwd => do
          iput sb p cwd
          endOp p
          Prog.modify fun s => { s with cwd := Function.update s.cwd p (some ip) }
          pure 0

/-! ## `exec` -/

/-- `exec` reads the program through the file system. -/
def execEnv (sb : Superblock) (p ip : ℕ) : ExecEnv State Wait where
  machine f := Prog.atomic fun s => do
    let (a, machine) ← f s.machine
    pure (a, { s with machine := machine })
  readi := readi sb p ip
  close := do
    iunlockput sb p ip
    endOp p

/-- `exec`. The trap frame and the name of the process are left out. -/
def exec (c : Platform) (sb : Superblock) (p : ℕ) (path : Path) (argv : List (List UInt8)) :
    Code ℤ := do
  beginOp
  let ip ← namei sb p path
  match ip with
  | none => do
    endOp p
    pure (-1)
  | some ip => do
    ilock sb p ip
    (execEnv sb p ip).exec c p argv

end InuOs.Syscall
