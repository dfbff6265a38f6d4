import InuOs.BlockRun
import InuOs.PageOwner
import InuOs.Syscall.Balance
import InuOs.Syscall.Sysfile

/-!
# Every call gives back what it takes

Between calls the references to a cache entry are the working directories and the open files that
point to it (`owners`), nothing is locked and no log operation is open: `Idle`. Every file system
call, on whatever path it returns, leaves it so (`call_idle`).

* `chdir` hands its reference to the process and drops that of the old directory; `open` hands it to
  the open file and `close` takes it from there.
* A slot of the file table that is free has no type. The failing paths of `sys_open` rely on that:
  they close the file inside their log operation, and for a file of type `FD_INODE` that would open
  a second one.
* What `close` does to the machine is `Machine.sysClose` (`sysClose_rests`).
-/

namespace InuOs.Syscall

open Prog

/-! ## Pointers to inodes -/

/-- How many of the first `n` pointers point to `j`. -/
def pointers (n : ℕ) (ptr : ℕ → Option ℕ) (j : ℕ) : ℕ :=
  ((Finset.range n).filter fun k => ptr k = some j).card

/-- The inode of an open file of type `FD_INODE`. -/
def filePtr (m : Machine) (fip : ℕ → ℕ) (f : ℕ) : Option ℕ :=
  if 0 < (m.files f).ref ∧ (m.files f).type = .inode then some (fip f) else none

/-- The working directories and open files that point to cache entry `j`. -/
def owners (m : Machine) (cwd : ℕ → Option ℕ) (fip : ℕ → ℕ) (j : ℕ) : ℕ :=
  pointers nProc cwd j + pointers nFile (filePtr m fip) j

theorem pointers_update {n k : ℕ} (ptr : ℕ → Option ℕ) (hk : k < n) (x : Option ℕ) (j : ℕ) :
    pointers n (Function.update ptr k x) j + (if ptr k = some j then 1 else 0) =
      pointers n ptr j + if x = some j then 1 else 0 := by
  rw [pointers, pointers, Finset.card_filter, Finset.card_filter]
  exact sum_update (fun o : Option ℕ => if o = some j then 1 else 0) ptr (Finset.mem_range.mpr hk) x

theorem filePtr_setFile (m : Machine) (fip : ℕ → ℕ) (f : ℕ) (file : File) (ip : ℕ) :
    filePtr (m.setFile f file) (Function.update fip f ip) = Function.update (filePtr m fip) f
      (if 0 < file.ref ∧ file.type = .inode then some ip else none) := by
  funext g
  rcases eq_or_ne g f with rfl | hne
  · rw [Function.update_self, filePtr, Machine.setFile_files_self, Function.update_self]
  · rw [Function.update_of_ne hne, filePtr, Machine.setFile_files_of_ne _ _ hne,
      Function.update_of_ne hne, filePtr]

variable {file : File} {ip f : ℕ} {m : Machine} {pipe : Page} {writable : Bool} {α : Type}

/-- Changes of a file that matter to no pointer. -/
theorem filePtr_setFile_same (m : Machine) (fip : ℕ → ℕ) (f : ℕ)
    (h : (if 0 < file.ref ∧ file.type = .inode then some (fip f) else none) = filePtr m fip f) :
    filePtr (m.setFile f file) fip = filePtr m fip := by
  have hset := filePtr_setFile m fip f file (fip f)
  rw [Function.update_eq_self] at hset
  rw [hset, h, Function.update_eq_self]

/-- The file table and the descriptors are in order. -/
structure TableOk (m : Machine) : Prop where
  /-- a free slot of the file table has no type -/
  fresh : ∀ f < nFile, (m.files f).ref = 0 → (m.files f).type = .none
  /-- a descriptor points into the file table -/
  slot : ∀ q fd f, (m.procs q).ofile fd = some f → f < nFile

/-- No call is in progress. -/
structure Idle (s : State) : Prop where
  ref : ∀ j < nInode, (s.icache j).ref = owners s.machine s.cwd s.fip j
  lock : ∀ j, (s.icache j).lock = none
  buf : ∀ b, s.buf b = none
  table : TableOk s.machine

/-- All references that others have are those of working directories and open files. -/
structure Base.Exact (B : Base) : Prop where
  ref : ∀ j < nInode, B.ref j = owners B.machine B.cwd B.fip j
  table : TableOk B.machine

/-- What there is before a call. -/
def State.base (s : State) : Base :=
  ⟨owners s.machine s.cwd s.fip, s.machine, s.cwd, s.fip, s.trace⟩

/-- The call has what it had, and each other reference has its owner, though the tables may have
changed. -/
def Settled (B : Base) (op : Bool) (T L K : Multiset ℕ) (s : State) : Prop :=
  ∃ B' : Base, B'.Exact ∧ B'.trace = B.trace ∧ Owns B' op T L K s

/-- The call holds nothing, and each reference has its owner again. -/
abbrev Rests (B : Base) : State → Prop := Settled B false 0 0 0

variable {B B' : Base} {op : Bool} {T T' L K : Multiset ℕ} {s s' : State} {sb : Superblock}
  {c : Platform} {p j : ℕ}

theorem Idle.owns (h : Idle s) : s.base.Exact ∧ Owns s.base false 0 0 0 s :=
  ⟨⟨fun _ _ => rfl, h.table⟩, fun j hj => by simpa [State.base] using h.ref j hj,
    fun j => by simp [h.lock j], Multiset.nodup_zero, fun b => by simp [h.buf b],
    Multiset.nodup_zero, ⟨[], by simp [State.base], rfl⟩, rfl, rfl, rfl⟩

theorem Rests.idle (h : Rests B s) :
    Idle s ∧ ∃ es, s.trace = B.trace ++ es ∧ scan false es = some false := by
  obtain ⟨B', hexact, htrace, h⟩ := h
  refine ⟨⟨fun j hj => ?_, fun j => ?_, fun b => ?_, ?_⟩, ?_⟩
  · rw [h.ref j hj, hexact.ref j hj, h.machine, h.cwd, h.fip, Multiset.count_zero, Nat.add_zero]
  · exact (h.lock j).mpr (Multiset.notMem_zero j)
  · exact (h.buf b).mpr (Multiset.notMem_zero b)
  · rw [h.machine]
    exact hexact.table
  · rw [← htrace]
    exact h.trace

/-- References change hands. -/
theorem Owns.rebase (h : Owns B op T L K s)
    (href : ∀ j < nInode, B.ref j + T.count j = B'.ref j + T'.count j) (htrace : B'.trace = B.trace)
    (hsame : (s'.icache, s'.buf, s'.trace) = (s.icache, s.buf, s.trace))
    (hrest : (s'.machine, s'.cwd, s'.fip) = (B'.machine, B'.cwd, B'.fip)) :
    Owns B' op T' L K s' := by
  simp only [Prod.mk.injEq] at hsame hrest
  obtain ⟨hcache, hbuf, htrace'⟩ := hsame
  refine ⟨fun j hj => ?_, by rw [hcache]; exact h.lock, h.nodup, by rw [hbuf]; exact h.buf,
    h.nodup_buf, by rw [htrace', htrace]; exact h.trace, hrest.1, hrest.2.1, hrest.2.2⟩
  rw [hcache, h.ref j hj, href j hj]

/-! ## Calls that leave the tables alone -/

theorem sysLinkBad_owns :
    Triple (Owns B true (j ::ₘ T) 0 0) (sysLinkBad sb p j) fun _ => Owns B false T 0 0 :=
  ilock_owns.bind fun _ => setCore_owns.bind fun _ => iupdate_owns.bind fun _ =>
    iunlockput_owns.bind fun _ => endOp_owns.bind fun _ => Triple.done

theorem sysLinkNew_owns (new : Path) :
    Triple (Owns B true (j ::ₘ T) 0 0) (sysLinkNew sb p j new) fun _ => Owns B false T 0 0 := by
  refine (nameiparent_owns new).bind fun r => ?_
  obtain ⟨dp, name⟩ := r
  cases dp with
  | none => exact sysLinkBad_owns
  | some dp =>
    refine ilock_owns.bind fun _ => get_owns.bind fun inum => (dirlink_owns _ _).bind fun r => ?_
    split
    · exact iunlockput_owns.bind fun _ => sysLinkBad_owns
    · exact iunlockput_owns.bind fun _ => iput_owns.bind fun _ => endOp_owns.bind fun _ =>
        Triple.done

theorem sysLink_owns (old new : Option Path) :
    Keeps (Owns B false T 0 0) (sysLink sb p old new) := by
  unfold sysLink
  split
  · refine beginOp_owns.bind fun _ => (namei_owns _).bind fun ip => ?_
    cases ip with
    | none => exact endOp_owns.bind fun _ => Triple.done
    | some ip =>
      refine ilock_owns.bind fun _ => get_owns.bind fun din => ?_
      split
      · exact iunlockput_owns.bind fun _ => endOp_owns.bind fun _ => Triple.done
      · exact setCore_owns.bind fun _ => iupdate_owns.bind fun _ => iunlock_owns.bind fun _ =>
          sysLinkNew_owns _
  · exact Triple.done

theorem isdiremptyLoop_owns (count off : ℕ) :
    Keeps (Owns B true T (j ::ₘ L) K) (isdiremptyLoop sb p j count off) := by
  induction count generalizing off with
  | zero => exact Triple.done
  | succ count ih =>
    refine (readi_owns _ _).bind fun r => ?_
    dsimp only
    split
    · exact Triple.fail
    · split
      · exact Triple.done
      · exact ih _

theorem dirNotEmpty_owns : Keeps (Owns B true T (j ::ₘ L) K) (dirNotEmpty sb p j) := by
  refine get_owns.bind fun din => ?_
  split
  · exact (get_owns.bind fun _ => isdiremptyLoop_owns _ _).bind fun _ => Triple.done
  · exact Triple.done

theorem sysUnlinkBad_owns :
    Triple (Owns B true (j ::ₘ T) (j ::ₘ 0) 0) (sysUnlinkBad sb p j) fun _ => Owns B false T 0 0 :=
  iunlockput_owns.bind fun _ => endOp_owns.bind fun _ => Triple.done

theorem sysUnlinkClear_owns (dp ip off : ℕ) :
    Triple (Owns B true (dp ::ₘ ip ::ₘ T) (dp ::ₘ ip ::ₘ 0) 0)
      (sysUnlinkClear sb p dp ip off)
      fun _ => Owns B false T 0 0 := by
  refine (writei_owns _ _).bind fun r => check_owns.bind fun _ => get_owns.bind fun din => ?_
  refine Triple.bind (Q := fun _ => Owns B true (dp ::ₘ ip ::ₘ T) (dp ::ₘ ip ::ₘ 0) 0)
    (Triple.whenever fun _ => ?_) fun _ => ?_
  · exact setCore_owns.bind fun _ => iupdate_owns
  · exact iunlockput_owns.bind fun _ => setCore_owns.bind fun _ => iupdate_owns.bind fun _ =>
      iunlockput_owns.bind fun _ => endOp_owns.bind fun _ => Triple.done

theorem sysUnlink_owns (path : Option Path) : Keeps (Owns B false T 0 0) (sysUnlink sb p path) := by
  unfold sysUnlink
  split
  · exact Triple.done
  · refine beginOp_owns.bind fun _ => (nameiparent_owns _).bind fun r => ?_
    obtain ⟨dp, name⟩ := r
    cases dp with
    | none => exact endOp_owns.bind fun _ => Triple.done
    | some dp =>
      refine ilock_owns.bind fun _ => ?_
      split
      · exact sysUnlinkBad_owns
      · refine (dirlookup_owns name).bind fun found => ?_
        cases found with
        | none => exact sysUnlinkBad_owns
        | some found =>
          obtain ⟨ip, off⟩ := found
          refine ilock_owns.bind fun _ => get_owns.bind fun din => check_owns.bind fun _ => ?_
          refine dirNotEmpty_owns.bind fun full => ?_
          split
          · exact iunlockput_owns.bind fun _ => sysUnlinkBad_owns
          · refine (sysUnlinkClear_owns dp ip off).weaken fun s h => ?_
            rwa [Multiset.cons_swap dp ip, Multiset.cons_swap dp ip 0]

/-! ## `create` -/

theorem createDots_owns (dp ip : ℕ) :
    Keeps (Owns B true T (ip ::ₘ dp ::ₘ L) K) (createDots sb p dp ip) := by
  refine setCore_owns.bind fun _ => iupdate_owns.bind fun _ => get_owns.bind fun inum => ?_
  refine (dirlink_owns _ _).bind fun r => ?_
  split
  · exact Triple.fail
  · refine get_owns.bind fun parent => (dirlink_owns _ _).bind fun r => ?_
    split
    · exact Triple.fail
    · exact Triple.done

theorem createNew_owns (dp : ℕ) (name : List UInt8) (type major minor : UInt16) :
    Triple (Owns B true (dp ::ₘ T) (dp ::ₘ 0) 0) (createNew sb p dp name type major minor)
      fun r => Owns B true (gain r T) (gain r 0) 0 := by
  refine (ialloc_owns type).bind fun ip => ilock_owns.bind fun _ => setCore_owns.bind fun _ => ?_
  refine iupdate_owns.bind fun _ => Triple.bind (Q := fun _ => Owns B true (ip ::ₘ dp ::ₘ T)
    (ip ::ₘ dp ::ₘ 0) 0) (Triple.whenever fun _ => createDots_owns dp ip) fun _ => ?_
  rw [Multiset.cons_swap ip dp, Multiset.cons_swap ip dp 0]
  refine get_owns.bind fun inum => (dirlink_owns _ _).bind fun r => ?_
  split
  · exact Triple.fail
  · exact iunlockput_owns.bind fun _ => Triple.pure fun _ h => h

/-- `create` returns an inode that is locked and referenced. -/
theorem create_owns (path : Path) (type major minor : UInt16) :
    Triple (Owns B true T 0 0) (create sb p path type major minor) fun r =>
      Owns B true (gain r T) (gain r 0) 0 := by
  refine (nameiparent_owns path).bind fun r => ?_
  obtain ⟨dp, name⟩ := r
  cases dp with
  | none => exact Triple.pure fun _ h => h
  | some dp =>
    refine ilock_owns.bind fun _ => (dirlookup_owns name).bind fun found => ?_
    cases found with
    | none => exact createNew_owns dp name type major minor
    | some found =>
      refine Triple.bind (Q := fun _ => Owns B true (found.1 ::ₘ T) 0 0)
        (iunlockput_owns.weaken fun s h => ?_) fun _ => ilock_owns.bind fun _ => ?_
      · rwa [Multiset.cons_swap]
      · refine get_owns.bind fun din => ?_
        split
        · exact Triple.pure fun _ h => h
        · exact iunlockput_owns.bind fun _ => Triple.pure fun _ h => h

theorem createDone_owns (ip : Option ℕ) :
    Triple (Owns B true (gain ip T) (gain ip 0) 0) (createDone sb p ip) fun _ =>
      Owns B false T 0 0 := by
  cases ip with
  | none => exact endOp_owns.bind fun _ => Triple.done
  | some ip =>
    rw [gain_some, gain_some]
    exact iunlockput_owns.bind fun _ => endOp_owns.bind fun _ => Triple.done

theorem sysMkdir_owns (path : Option Path) : Keeps (Owns B false T 0 0) (sysMkdir sb p path) := by
  refine beginOp_owns.bind fun _ => ?_
  cases path with
  | none => exact createDone_owns none
  | some path => exact (create_owns _ _ _ _).bind fun ip => createDone_owns ip

theorem sysMknod_owns (path : Option Path) (major minor : Option UInt32) :
    Keeps (Owns B false T 0 0) (sysMknod sb p path major minor) := by
  refine beginOp_owns.bind fun _ => ?_
  split
  · exact (create_owns _ _ _ _).bind fun ip => createDone_owns ip
  · exact createDone_owns none

/-! ## `chdir` -/

/-- A call ends its log operation and returns. -/
theorem return_rests (hB : B.Exact) (r : ℤ) :
    Triple (Owns B true 0 0 0)
      (do
        endOp p
        pure r)
      fun _ => Rests B :=
  endOp_owns.bind fun _ => Triple.pure fun _ h => ⟨B, hB, rfl, h⟩

/-- The end of `sys_chdir`: the process gives up one reference and gets another. -/
theorem chdir_rests (hB : B.Exact) (hp : p < nProc) {cwd : ℕ} (hcwd : B.cwd p = some cwd) :
    Triple (Owns B true (ip ::ₘ 0) 0 0)
      (do
        iput sb p cwd
        endOp p
        Prog.modify fun s => { s with cwd := Function.update s.cwd p (some ip) }
        pure (0 : ℤ))
      fun _ => Rests B := by
  let B₁ : Base := { B with ref := owners B.machine (Function.update B.cwd p none) B.fip }
  let B₂ : Base := { B with
    ref := owners B.machine (Function.update B.cwd p (some ip)) B.fip
    cwd := Function.update B.cwd p (some ip) }
  have htake (j : ℕ) (hj : j < nInode) : B.ref j = B₁.ref j + if j = cwd then 1 else 0 := by
    have hupdate := pointers_update B.cwd hp none j
    simp only [hcwd, Option.some.injEq, reduceCtorEq, if_false, eq_comm (a := cwd)] at hupdate
    rw [hB.ref j hj]
    simp only [B₁, owners]
    omega
  have hgive (j : ℕ) : B₂.ref j = B₁.ref j + if j = ip then 1 else 0 := by
    have hupdate := pointers_update (Function.update B.cwd p none) hp (some ip) j
    simp only [Function.update_idem, Function.update_self, Option.some.injEq, reduceCtorEq,
      if_false, eq_comm (a := ip)] at hupdate
    simp only [B₁, B₂, owners]
    omega
  refine Triple.bind (Q := fun _ => Owns B₁ true (ip ::ₘ 0) 0 0)
    (iput_owns.weaken fun s h => h.rebase (fun j hj => ?_) rfl rfl ?_) fun _ => ?_
  · rw [htake j hj, Multiset.count_cons j cwd]
    omega
  · rw [h.machine, h.cwd, h.fip]
  · refine endOp_owns.bind fun _ => Triple.bind (Q := fun _ => Rests B)
      (Triple.modify fun s h => ?_) fun _ => Triple.done
    refine ⟨B₂, ⟨fun _ _ => rfl, hB.table⟩, rfl, h.rebase (fun j hj => ?_) rfl rfl ?_⟩
    · rw [hgive, Multiset.count_cons, Multiset.count_zero, Nat.zero_add, Nat.add_zero]
    · rw [h.machine, h.cwd, h.fip]

theorem sysChdir_rests (hB : B.Exact) (hp : p < nProc) (path : Option Path) :
    Triple (Owns B false 0 0 0) (sysChdir sb p path) fun _ => Rests B := by
  refine beginOp_owns.bind fun _ => ?_
  cases path with
  | none => exact return_rests hB _
  | some path =>
    refine (namei_owns path).bind fun ip => ?_
    cases ip with
    | none => exact return_rests hB _
    | some ip =>
      refine ilock_owns.bind fun _ => get_owns.bind fun din => ?_
      split
      · exact iunlockput_owns.bind fun _ => return_rests hB _
      · refine iunlock_owns.bind fun _ => ?_
        refine Triple.bind (Q := fun cwd s => B.cwd p = cwd ∧ Owns B true (ip ::ₘ 0) 0 0 s)
          (Triple.get fun s h => ⟨by rw [h.cwd], h⟩) fun cwd => Triple.and_pre fun hcwd => ?_
        cases cwd with
        | none => exact Triple.fail
        | some cwd => exact chdir_rests hB hp hcwd

/-! ## `close` -/

theorem TableOk.setFile (h : TableOk m) (hfile : file.ref = 0 → file.type = .none) :
    TableOk (m.setFile f file) where
  fresh g hg href := by
    rcases eq_or_ne g f with rfl | hne
    · rw [Machine.setFile_files_self] at href ⊢
      exact hfile href
    · rw [Machine.setFile_files_of_ne _ _ hne] at href ⊢
      exact h.fresh g hg href
  slot := h.slot

/-- The machine changes, but no file does. -/
theorem Base.Exact.sameFiles (hB : B.Exact) (m : Machine) (hfiles : m.files = B.machine.files)
    (hslot : ∀ q fd f, (m.procs q).ofile fd = some f → f < nFile) :
    Base.Exact { B with machine := m } where
  ref j hj := by
    have hptr : filePtr m B.fip = filePtr B.machine B.fip := by
      funext f
      rw [filePtr, hfiles, filePtr]
    rw [hB.ref j hj, owners, owners, hptr]
  table := ⟨by rw [hfiles]; exact hB.table.fresh, hslot⟩

/-- A file changes, but not what it points to. -/
theorem Base.Exact.setFile (hB : B.Exact) (hfile : file.ref = 0 → file.type = .none)
    (hptr : (if 0 < file.ref ∧ file.type = .inode then some (B.fip f) else none) =
      filePtr B.machine B.fip f) :
    Base.Exact { B with machine := B.machine.setFile f file } where
  ref j hj := by rw [hB.ref j hj, owners, owners, filePtr_setFile_same _ _ _ hptr]
  table := hB.table.setFile hfile

/-- The machine changes under a call. -/
theorem Owns.settled (h : Owns B op T L K s) {m : Machine}
    (hm : Base.Exact { B with machine := m }) : Settled B op T L K { s with machine := m } :=
  ⟨_, hm, rfl, h.rebase (fun _ _ => rfl) rfl rfl (by rw [h.cwd, h.fip])⟩

theorem slot_fdclear (h : TableOk m) (p fd : ℕ) :
    ∀ q fd' f, ((m.fdclear p fd).procs q).ofile fd' = some f → f < nFile := by
  intro q fd' f hf
  rcases eq_or_ne q p with rfl | hne
  · rw [Machine.fdclear, Machine.setProc_procs_self] at hf
    rcases eq_or_ne fd' fd with rfl | hne
    · simp at hf
    · exact h.slot q fd' f (by simpa [hne] using hf)
  · rw [Machine.fdclear, Machine.setProc_procs_of_ne _ _ hne] at hf
    exact h.slot q fd' f hf

/-- `pipeclose` is about pages. -/
theorem pipeclose_tables {m' : Machine} (h : m.pipeclose c pipe writable = .ok m') :
    m'.files = m.files ∧ m'.procs = m.procs := by
  unfold Machine.pipeclose at h
  split at h
  · cases h
  · cases h
    exact ⟨rfl, rfl⟩
  · cases hfree : kfree c m.free pipe with
    | error e =>
      rw [hfree] at h
      cases h
    | ok free =>
      rw [hfree] at h
      cases h
      exact ⟨rfl, rfl⟩

theorem pipeclose_settled (hB : B.Exact) :
    Triple (Owns B op T L K) (pipeclose c pipe writable) fun _ s =>
      B.machine.pipeclose c pipe writable = .ok s.machine ∧ Settled B op T L K s := by
  refine Triple.update fun s h => ?_
  rw [h.machine]
  cases hclose : B.machine.pipeclose c pipe writable with
  | error e => exact Meets.throw True.intro
  | ok m =>
    obtain ⟨hfiles, hprocs⟩ := pipeclose_tables hclose
    exact Meets.pure ⟨rfl, h.settled (hB.sameFiles m hfiles (by rw [hprocs]; exact hB.table.slot))⟩

/-- The last reference to an open file is gone. -/
def Base.dropFile (B : Base) (f : ℕ) : Base :=
  let m := B.machine.setFile f { B.machine.files f with ref := 0, type := .none }
  { B with machine := m, ref := owners m B.cwd B.fip }

theorem Base.Exact.dropFile (hB : B.Exact) (f : ℕ) : (B.dropFile f).Exact :=
  ⟨fun _ _ => rfl, hB.table.setFile fun _ => rfl⟩

section

variable (hB : B.Exact) {f : ℕ} (hf : f < nFile)
include hB hf

theorem Base.Exact.ref_dropFile {j : ℕ} (hj : j < nInode) :
    B.ref j = (B.dropFile f).ref j + if filePtr B.machine B.fip f = some j then 1 else 0 := by
  have hset := filePtr_setFile B.machine B.fip f { B.machine.files f with ref := 0, type := .none }
    (B.fip f)
  have hupdate := pointers_update (filePtr B.machine B.fip) hf none j
  rw [Function.update_eq_self] at hset
  simp only [Nat.lt_irrefl, false_and, if_false] at hset
  simp only [reduceCtorEq, if_false] at hupdate
  rw [hB.ref j hj]
  simp only [Base.dropFile, owners, hset]
  omega

/-- One of several references to an open file is dropped, or the last one. In the second case the
call still has to give up what the file pointed to. -/
theorem fileDrop_owns :
    Triple (Owns B op T L K) (fileDrop f) fun r s =>
      match r with
      | none => B.machine.fileclose c f = .ok s.machine ∧ Settled B op T L K s
      | some (ff, ip) => (ff = B.machine.files f ∧ B.machine.fileclose c f =
            if ff.type = .pipe then (B.dropFile f).machine.pipeclose c ff.pipe ff.writable
            else .ok (B.dropFile f).machine) ∧
          Owns (B.dropFile f) op (gain (if ff.type = .inode then some ip else none) T) L K s := by
  refine Triple.atomic fun s h => ?_
  dsimp only
  rw [h.machine, h.fip]
  split
  · exact Meets.throw True.intro
  · next href =>
    have hpos : 0 < (B.machine.files f).ref := by omega
    split
    · next hmany =>
      have hleft : 0 < (B.machine.files f).ref - 1 := by omega
      let file : File := { B.machine.files f with ref := (B.machine.files f).ref - 1 }
      have hexact : Base.Exact { B with machine := B.machine.setFile f file } :=
        hB.setFile (fun hzero => absurd hzero hleft.ne') (by simp only [filePtr, file, hleft, hpos])
      refine Meets.pure ⟨?_, _, hexact, rfl, h.rebase (fun _ _ => rfl) rfl rfl (by rw [h.cwd])⟩
      rw [Machine.fileclose, if_neg href, if_pos hmany]
      rfl
    · next hlast =>
      refine Meets.pure ⟨⟨rfl, ?_⟩, h.rebase (fun j hj => ?_) rfl rfl (by rw [h.cwd]; rfl)⟩
      · rw [Machine.fileclose, if_neg href, if_neg hlast]
        rfl
      rw [hB.ref_dropFile hf hj, filePtr]
      simp only [hpos, true_and]
      split
      · rw [gain_some, Multiset.count_cons]
        simp only [Option.some.injEq, eq_comm (a := j)]
        omega
      · rfl

/-- `fileclose` leaves the machine as it does without inodes. -/
theorem fileclose_rests :
    Triple (Owns B false 0 0 0) (fileclose c sb p f) fun _ s =>
      B.machine.fileclose c f = .ok s.machine ∧ Rests B s := by
  refine (fileDrop_owns (c := c) hB hf).bind fun r => ?_
  cases r with
  | none => exact Triple.done
  | some r =>
    obtain ⟨ff, ip⟩ := r
    refine Triple.and_pre fun hff => ?_
    rw [hff.2]
    cases htype : ff.type with
    | none =>
      simp only [htype, reduceCtorEq, if_false]
      exact Triple.pure fun s h => ⟨congrArg _ h.machine.symm, _, hB.dropFile f, rfl, h⟩
    | pipe =>
      simp only [htype]
      exact pipeclose_settled (hB.dropFile f)
    | inode =>
      simp only [htype, reduceCtorEq, if_false, if_true, gain_some]
      exact beginOp_owns.bind fun _ => iput_owns.bind fun _ =>
        endOp_owns.mono fun _ s h => ⟨congrArg _ h.machine.symm, _, hB.dropFile f, rfl, h⟩

/-- A file that has no type yet is closed without a log operation. -/
theorem fileclose_untyped (htype : (B.machine.files f).type = .none) :
    Triple (Owns B op T L K) (fileclose c sb p f) fun _ => Settled B op T L K := by
  refine (fileDrop_owns (c := c) hB hf).bind fun r => ?_
  cases r with
  | none => exact Triple.pure fun s h => h.2
  | some r =>
    obtain ⟨ff, ip⟩ := r
    refine Triple.and_pre fun hff => ?_
    rw [← hff.1] at htype
    simp only [htype]
    exact Triple.pure fun s h => ⟨_, hB.dropFile f, rfl, h⟩

end

/-- `argfd` finds what the machine has in the slot. -/
theorem argfd_owns (fd : Option ℤ) :
    Triple (Owns B op T L K) (argfd p fd) fun arg s =>
      (arg = (fd.bind fun n => if n < 0 ∨ nOFile ≤ n then none
        else ((B.machine.procs p).ofile n.toNat).map fun f => (n.toNat, f))) ∧
      Owns B op T L K s := by
  unfold argfd
  split
  · exact Triple.pure fun s h => ⟨rfl, h⟩
  · rw [Option.bind_some]
    split
    · exact Triple.pure fun s h => ⟨rfl, h⟩
    · exact Triple.get fun s h => ⟨by rw [h.machine], h⟩

/-- `close` leaves the machine as it does without inodes. -/
theorem sysClose_rests (hB : B.Exact) (fd : Option ℤ) :
    Triple (Owns B false 0 0 0) (sysClose c sb p fd) fun _ s =>
      (∀ n : ℕ, fd = some (n : ℤ) → B.machine.sysClose c p n = .ok s.machine) ∧ Rests B s := by
  refine (argfd_owns fd).bind fun arg => Triple.and_pre fun harg => ?_
  cases arg with
  | none =>
    refine Triple.pure fun s h => ⟨fun n hn => ?_, B, hB, rfl, h⟩
    rw [hn, Option.bind_some] at harg
    rw [Machine.sysClose, h.machine]
    split
    · rfl
    · rw [if_neg (by omega), Int.toNat_natCast] at harg
      rw [Option.map_eq_none_iff.mp harg.symm]
      rfl
  | some arg =>
    obtain ⟨z, hz, harg⟩ := Option.bind_eq_some_iff.mp harg.symm
    split at harg
    · cases harg
    · next hrange =>
      obtain ⟨f, hf, heq⟩ := Option.map_eq_some_iff.mp harg
      cases heq
      have hclear := hB.sameFiles (B.machine.fdclear p z.toNat) rfl (slot_fdclear hB.table p _)
      refine Triple.bind (Q := fun _ =>
        Owns { B with machine := B.machine.fdclear p z.toNat } false 0 0 0)
        (Triple.modify fun s h =>
          h.rebase (fun _ _ => rfl) rfl rfl (by rw [h.machine, h.cwd, h.fip]))
        fun _ => ?_
      refine (fileclose_rests hclear (hB.table.slot _ _ _ hf)).bind fun _ =>
        Triple.pure fun s h => ⟨fun n hn => ?_, h.2⟩
      cases Option.some.inj (hz.symm.trans hn)
      rw [Int.toNat_natCast] at hf h
      rw [Machine.sysClose, if_neg (by omega), hf]
      exact h.1

/-! ## `open` -/

/-- A new file: it has one reference and no type yet. -/
def Fresh (m : Machine) (f : ℕ) : Prop := f < nFile ∧ (m.files f).ref = 1 ∧ (m.files f).type = .none

theorem filealloc_settled (hB : B.Exact) :
    Triple (Owns B op T L K) filealloc fun r s =>
      ∃ B' : Base, (B'.Exact ∧ B'.trace = B.trace ∧ ∀ f, r = some f → Fresh B'.machine f) ∧
        Owns B' op T L K s := by
  refine Triple.atomic fun s h => ?_
  rw [h.machine]
  cases halloc : B.machine.filealloc with
  | none => exact Meets.pure ⟨B, ⟨hB, rfl, nofun⟩, h⟩
  | some r =>
    obtain ⟨g, hfind, heq⟩ := Option.map_eq_some_iff.mp halloc
    have hg : g < nFile := List.mem_range.mp (List.mem_of_find?_eq_some hfind)
    have hfree : (B.machine.files g).ref = 0 := by simpa using List.find?_some hfind
    have htype : (B.machine.files g).type = .none := hB.table.fresh g hg hfree
    cases heq
    refine Meets.pure
      ⟨{ B with machine := B.machine.setFile g { B.machine.files g with ref := 1 } },
      ⟨hB.setFile nofun ?_, rfl, ?_⟩, h.rebase (fun _ _ => rfl) rfl rfl (by rw [h.cwd, h.fip])⟩
    · simp [filePtr, htype]
    · rintro f ⟨⟩
      simp [Fresh, hg, htype]

/-- What `fdalloc` does to the machine. -/
def setFd (m : Machine) (p fd f : ℕ) : Machine :=
  m.setProc p { m.procs p with ofile := Function.update (m.procs p).ofile fd (some f) }

theorem slot_setFd (h : TableOk m) (p fd : ℕ) (hf : f < nFile) :
    ∀ q fd' g, ((setFd m p fd f).procs q).ofile fd' = some g → g < nFile := by
  intro q fd' g hg
  rcases eq_or_ne q p with rfl | hne
  · rw [setFd, Machine.setProc_procs_self] at hg
    dsimp only at hg
    rcases eq_or_ne fd' fd with rfl | hne
    · rw [Function.update_self] at hg
      cases hg
      exact hf
    · rw [Function.update_of_ne hne] at hg
      exact h.slot q fd' g hg
  · rw [setFd, Machine.setProc_procs_of_ne _ _ hne] at hg
    exact h.slot q fd' g hg

theorem fdalloc_settled (hB : B.Exact) (hf : Fresh B.machine f) :
    Triple (Owns B op T L K) (fdalloc p f) fun _ s =>
      ∃ B' : Base, (B'.Exact ∧ B'.trace = B.trace ∧ Fresh B'.machine f) ∧ Owns B' op T L K s := by
  refine Triple.atomic fun s h => ?_
  rw [h.machine]
  cases halloc : B.machine.fdalloc p f with
  | none => exact Meets.pure ⟨B, ⟨hB, rfl, hf⟩, h⟩
  | some r =>
    obtain ⟨fd, hfind, heq⟩ := Option.map_eq_some_iff.mp halloc
    cases heq
    have hexact := hB.sameFiles (setFd B.machine p fd f) rfl (slot_setFd hB.table p fd hf.1)
    exact Meets.pure ⟨_, ⟨hexact, rfl, hf⟩,
      h.rebase (fun _ _ => rfl) rfl rfl (by rw [h.cwd, h.fip]; rfl)⟩

theorem openFile_settled (hB : B.Exact) :
    Triple (Owns B op T L K) (openFile c sb p) fun r s =>
      ∃ B' : Base, (B'.Exact ∧ B'.trace = B.trace ∧ ∀ f fd, r = some (f, fd) → Fresh B'.machine f) ∧
        Owns B' op T L K s := by
  refine (filealloc_settled hB).bind fun f => Triple.exists_pre fun B₁ => Triple.and_pre
    fun hB₁ => ?_
  obtain ⟨hexact₁, htrace₁, hfresh₁⟩ := hB₁
  cases f with
  | none => exact Triple.pure fun s h => ⟨B₁, ⟨hexact₁, htrace₁, nofun⟩, h⟩
  | some f =>
    refine (fdalloc_settled hexact₁ (hfresh₁ f rfl)).bind fun fd => ?_
    refine Triple.exists_pre fun B₂ => Triple.and_pre fun hB₂ => ?_
    obtain ⟨hexact₂, htrace₂, hfresh₂⟩ := hB₂
    cases fd with
    | none =>
      refine (fileclose_untyped hexact₂ hfresh₂.1 hfresh₂.2.2).bind fun _ => Triple.pure
        fun s h => ?_
      obtain ⟨B₃, hexact₃, htrace₃, h⟩ := h
      exact ⟨B₃, ⟨hexact₃, htrace₃.trans (htrace₂.trans htrace₁), nofun⟩, h⟩
    | some fd =>
      refine Triple.pure fun s h => ⟨B₂, ⟨hexact₂, htrace₂.trans htrace₁, ?_⟩, h⟩
      rintro _ _ ⟨⟩
      exact hfresh₂

/-- `sys_open` hands its reference to the open file. -/
theorem setOpen_rests (hB : B.Exact) (hf : Fresh B.machine f) (omode : UInt32)
    (h : Owns B false (ip ::ₘ 0) 0 0 s) : Rests B (s.setOpen f ip omode) := by
  obtain ⟨hlt, href, htype⟩ := hf
  have hnone : filePtr B.machine B.fip f = none := if_neg fun hptr => by simp [htype] at hptr
  let file : File := { B.machine.files f with
    type := .inode
    readable := omode &&& oWronly = 0
    writable := omode &&& oWronly ≠ 0 ∨ omode &&& oRdwr ≠ 0 }
  let m := B.machine.setFile f file
  let fip := Function.update B.fip f ip
  refine ⟨{ B with machine := m, fip := fip, ref := owners m B.cwd fip },
    ⟨fun _ _ => rfl, hB.table.setFile fun hzero => ?_⟩, rfl, h.rebase (fun j hj => ?_) rfl rfl ?_⟩
  · exact absurd (href.symm.trans hzero) (by decide)
  · have hptr : filePtr m fip = Function.update (filePtr B.machine B.fip) f (some ip) := by
      rw [filePtr_setFile, if_pos ⟨by rw [href]; decide, rfl⟩]
    have hupdate := pointers_update (filePtr B.machine B.fip) hlt (some ip) j
    simp only [hnone, reduceCtorEq, if_false, Option.some.injEq, eq_comm (a := ip)] at hupdate
    rw [hB.ref j hj, Multiset.count_cons, Multiset.count_zero]
    simp only [owners, hptr]
    omega
  · rw [State.setOpen, h.machine, h.cwd, h.fip]

theorem openExisting_owns (path : Path) (omode : UInt32) :
    Triple (Owns B true T 0 0) (openExisting sb p path omode) fun r =>
      Owns B true (gain r T) (gain r 0) 0 := by
  refine (namei_owns path).bind fun ip => ?_
  cases ip with
  | none => exact Triple.pure fun _ h => h
  | some ip =>
    refine ilock_owns.bind fun _ => get_owns.bind fun din => ?_
    split
    · exact iunlockput_owns.bind fun _ => Triple.pure fun _ h => h
    · exact Triple.pure fun _ h => h

theorem openInode_rests (hB : B.Exact) (ip : Option ℕ) (omode : UInt32) :
    Triple (Owns B true (gain ip 0) (gain ip 0) 0)
      (openInode c sb p omode ip) fun _ => Rests B := by
  cases ip with
  | none => exact return_rests hB _
  | some ip =>
    rw [gain_some]
    refine (openFile_settled hB).bind fun r => Triple.exists_pre fun B' => Triple.and_pre
      fun hB' => ?_
    obtain ⟨hexact, htrace, hfresh⟩ := hB'
    have hrests {s : State} (h : Rests B' s) : Rests B s := by
      obtain ⟨B'', hexact', htrace', h⟩ := h
      exact ⟨B'', hexact', htrace'.trans htrace, h⟩
    cases r with
    | none => exact (iunlockput_owns.bind fun _ => return_rests hexact _).mono fun _ _ => hrests
    | some r =>
      obtain ⟨f, fd⟩ := r
      refine iunlock_owns.bind fun _ => endOp_owns.bind fun _ => ?_
      exact Triple.bind (Q := fun _ => Rests B')
        (Triple.modify fun s h => setOpen_rests hexact (hfresh f fd rfl) omode h) fun _ =>
        Triple.pure fun s h => hrests h

theorem sysOpen_rests (hB : B.Exact) (path : Option Path) (omode : Option UInt32) :
    Triple (Owns B false 0 0 0) (sysOpen c sb p path omode) fun _ => Rests B := by
  unfold sysOpen
  split
  · next path omode =>
    refine beginOp_owns.bind fun _ => ?_
    split
    · exact (create_owns _ _ _ _).bind fun ip => openInode_rests hB ip omode
    · exact (openExisting_owns _ _).bind fun ip => openInode_rests hB ip omode
  · exact Triple.pure fun s h => ⟨B, hB, rfl, h⟩

/-! ## `exec` -/

/-- What a call does whatever the tables are. -/
theorem Triple.settled {x : Code α} {op' : Bool} {T' L' K' : α → Multiset ℕ}
    (h : ∀ B', Triple (Owns B' op T L K) x fun a => Owns B' op' (T' a) (L' a) (K' a)) :
    Triple (Settled B op T L K) x fun a => Settled B op' (T' a) (L' a) (K' a) := by
  refine Triple.exists_pre fun B' => Triple.and_pre fun hexact => Triple.and_pre fun htrace => ?_
  exact (h B').mono fun a s h => ⟨B', hexact, htrace, h⟩

/-- The machine changes without the file table. -/
theorem machine_settled {f : Machine → Except Panic (α × Machine)}
    (hf : ∀ m r, f m = .ok r → r.2.files = m.files ∧
      ∀ q, (r.2.procs q).ofile = (m.procs q).ofile) :
    Keeps (Settled B op T L K) ((execEnv sb p j).machine f) := by
  refine Triple.atomic fun s h => ?_
  obtain ⟨B', hexact, htrace, h⟩ := h
  cases hrun : f s.machine with
  | error e => exact Meets.throw True.intro
  | ok r =>
    obtain ⟨hfiles, hofile⟩ := hf _ _ hrun
    rw [h.machine] at hfiles hofile
    obtain ⟨B'', hexact', htrace', h'⟩ := h.settled (hexact.sameFiles r.2 hfiles fun q => by
      rw [hofile]
      exact hexact.table.slot q)
    exact Meets.pure ⟨B'', hexact', htrace'.trans htrace, h'⟩

theorem pages_settled {f : List Page → Except Panic (List Page × α)} :
    Keeps (Settled B op T L K) ((execEnv sb p j).pages f) := by
  refine machine_settled fun m r hrun => ?_
  obtain ⟨r', -, hr⟩ := exists_of_bind_eq_ok hrun
  cases hr
  exact ⟨rfl, fun _ => rfl⟩

theorem exec_rests (hB : B.Exact) (path : Path) (argv : List (List UInt8)) :
    Triple (Owns B false 0 0 0) (exec c sb p path argv) fun _ => Rests B := by
  refine beginOp_owns.bind fun _ => (namei_owns path).bind fun ip => ?_
  cases ip with
  | none => exact return_rests hB _
  | some ip =>
    refine ilock_owns.bind fun _ => ?_
    have hI : (execEnv sb p ip).Tracks fun _ => Settled B true (ip ::ₘ 0) (ip ::ₘ 0) 0 :=
      fun _ _ => pages_settled
    have hJ : (execEnv sb p ip).Tracks fun _ => Rests B := fun _ _ => pages_settled
    refine (ExecEnv.exec_spec hI
      (fun _ off n => Triple.settled fun _ => readi_owns off n)
      (fun _ => Triple.settled fun _ => iunlockput_owns.bind fun _ => endOp_owns)
      hJ (fun _ h => h) fun d sz => ?_).weaken fun s h => ⟨B, hB, rfl, h⟩
    refine Triple.bind (machine_settled fun m r hrun => ?_) fun old => ?_
    · cases hrun
      exact ⟨rfl, fun _ => Machine.setProc_congr Proc.ofile rfl⟩
    · cases old with
      | none => exact Triple.fail
      | some old => exact (ExecEnv.freePgdir_spec hJ (some old)).bind fun _ => Triple.done

/-! ## Every call -/

/-- A file system call with its arguments. -/
inductive Call : Type where
  | open (path : Option Path) (omode : Option UInt32)
  | link (old new : Option Path)
  | unlink (path : Option Path)
  | mkdir (path : Option Path)
  | mknod (path : Option Path) (major minor : Option UInt32)
  | chdir (path : Option Path)
  | close (fd : Option ℤ)
  | exec (path : Path) (argv : List (List UInt8))

/-- The code of a call. -/
def Call.code (c : Platform) (sb : Superblock) (p : ℕ) : Call → Code ℤ
  | .open path omode => sysOpen c sb p path omode
  | .link old new => sysLink sb p old new
  | .unlink path => sysUnlink sb p path
  | .mkdir path => sysMkdir sb p path
  | .mknod path major minor => sysMknod sb p path major minor
  | .chdir path => sysChdir sb p path
  | .close fd => sysClose c sb p fd
  | .exec path argv => Syscall.exec c sb p path argv

theorem code_rests (hB : B.Exact) (hp : p < nProc) (call : Call) :
    Triple (Owns B false 0 0 0) (call.code c sb p) fun _ => Rests B := by
  have hrests {x : Code ℤ}
      (h : Keeps (Owns B false 0 0 0) x) :
      Triple (Owns B false 0 0 0) x fun _ => Rests B :=
    h.mono fun _ _ h => ⟨B, hB, rfl, h⟩
  cases call with
  | «open» path omode => exact sysOpen_rests hB path omode
  | link old new => exact hrests (sysLink_owns old new)
  | unlink path => exact hrests (sysUnlink_owns path)
  | mkdir path => exact hrests (sysMkdir_owns path)
  | mknod path major minor => exact hrests (sysMknod_owns path major minor)
  | chdir path => exact sysChdir_rests hB hp path
  | close fd => exact (sysClose_rests hB fd).mono fun _ _ h => h.2
  | exec path argv => exact exec_rests hB path argv

/-- `namex` adds one reference to what it returns, and no other. -/
theorem ref_namex {path : Path} {parent : Bool} {ip : Option ℕ} {name : List UInt8}
    (hlock : ∀ j, (s.icache j).lock = none) (hbuf : ∀ b, s.buf b = none)
    (hop : ∃ pre es, s.trace = pre ++ es ∧ scan false es = some true)
    (hrun : (namex sb p path parent).run s = .ok ((ip, name), s')) {j : ℕ} (hj : j < nInode) :
    (s'.icache j).ref = (s.icache j).ref + if ip = some j then 1 else 0 := by
  obtain ⟨pre, es, htrace, hscan⟩ := hop
  let B : Base := ⟨fun j => (s.icache j).ref, s.machine, s.cwd, s.fip, pre⟩
  have hs : Owns B true 0 0 0 s :=
    ⟨fun _ _ => rfl, fun j => by simp [hlock j], Multiset.nodup_zero, fun b => by simp [hbuf b],
      Multiset.nodup_zero, ⟨es, htrace, hscan⟩, rfl, rfl, rfl⟩
  have h := ((namex_owns path parent) s hs).of_ok hrun
  rw [h.ref j hj]
  cases ip with
  | none => rfl
  | some i =>
    simp only [gain_some, Multiset.count_cons, Multiset.count_zero, Nat.zero_add, Option.some.injEq,
      eq_comm (a := j), B]

/-- **Balance.** Whenever a file system call that runs alone returns, no sleep-lock is held, each
`begin_op` was matched by one `end_op` with every `log_write` and `iput` between them, and the
reference count of each cache entry is the number of working directories and open files that point
to it. In it, `namex` adds one reference to the inode that it returns, and none when it returns
0. -/
theorem call_idle (c : Platform) (sb : Superblock) {p : ℕ} (hp : p < nProc) :
    (∀ (call : Call) (s : State), Idle s → ∀ r s', (call.code c sb p).run s = .ok (r, s') →
      Idle s' ∧ ∃ es, s'.trace = s.trace ++ es ∧ scan false es = some false) ∧
    ∀ (path : Path) (parent : Bool) (s : State), (∀ j, (s.icache j).lock = none) →
      (∀ b, s.buf b = none) → (∃ pre es, s.trace = pre ++ es ∧ scan false es = some true) →
      ∀ ip name s', (namex sb p path parent).run s = .ok ((ip, name), s') →
        ∀ j < nInode, (s'.icache j).ref = (s.icache j).ref + if ip = some j then 1 else 0 := by
  refine ⟨fun call s hs r s' hrun => ?_, ?_⟩
  · obtain ⟨hexact, howns⟩ := hs.owns
    exact Rests.idle ((code_rests hexact hp call s howns).of_ok hrun)
  · intro path parent s hlock hbuf hop ip name s' hrun j hj
    exact ref_namex hlock hbuf hop hrun hj

/-- Process 0 has the root directory open as descriptor 0, and it is its working directory. -/
def openRoot : State where
  disk _ := zeroBlock
  buf _ := none
  log := ⟨2, 30, 0, false, []⟩
  icache j := ⟨1, if j = 0 then 2 else 0, none, true, { Fs.freshDinode tDir with nlink := 1 }⟩
  machine := { Machine.initMachine Machine.qemu 0 with
    files := fun f => if f = 0 then ⟨.inode, 1, true, false, 0⟩ else ⟨.none, 0, false, false, 0⟩
    procs := fun i =>
      { Machine.noProc with ofile := fun fd => if i = 0 ∧ fd = 0 then some 0 else none } }
  cwd i := if i = 0 then some 0 else none
  fip _ := 0
  input := []
  trace := []

theorem idle_openRoot : Idle openRoot where
  ref := by decide +kernel
  lock _ := rfl
  buf _ := rfl
  table := by
    refine ⟨by decide +kernel, fun q fd f hf => ?_⟩
    dsimp only [openRoot] at hf
    split at hf
    · cases hf
      decide
    · cases hf

theorem call_idle_close : Idle openRoot ∧
    ∃ s', ((Call.close (some 0)).code Machine.qemu mkfsSuperblock 0).run openRoot = .ok (0, s') ∧
      Idle s' ∧ (s'.icache 0).ref = 1 :=
  ⟨idle_openRoot, _, by rfl,
    ((call_idle Machine.qemu mkfsSuperblock (p := 0) (by decide)).1 (.close (some 0)) openRoot
      idle_openRoot 0 _ (by rfl)).1, by rfl⟩

end InuOs.Syscall
