import InuOs.Syscall.Alone

/-!
# The inode cache in a process alone

What `iget`, `ilock`, `iunlock` and `iput` do to the cache when nobody else is in the file system:
they return if there is a slot for the inode and its lock is free.
-/

namespace InuOs.Syscall

open Prog

variable {s : State} {sb : Superblock} {p j k inum : ℕ}

/-! ## References -/

/-- The slot that `iget` picks: the one of the inode, or the first that is free. -/
def igetSlot (s : State) (inum : ℕ) : Option ℕ :=
  ((List.range nInode).find? fun j => 0 < (s.icache j).ref ∧ (s.icache j).inum = inum).or
    ((List.range nInode).find? fun j => (s.icache j).ref = 0)

/-- Slot `k` of the cache when `iget` has picked it. -/
def gotInode (s : State) (k inum : ℕ) : Inode :=
  if 0 < (s.icache k).ref then { s.icache k with ref := (s.icache k).ref + 1 }
  else { s.icache k with inum := inum, ref := 1, valid := false }

/-- The state after `iget` has picked slot `k`. -/
def State.got (s : State) (k inum : ℕ) : State := s.setInode k (gotInode s k inum)

/-- What `iget` picks: a slot with the inode, and else one that is free. -/
theorem igetSlot_spec (h : igetSlot s inum = some k) : k < nInode ∧
    (0 < (s.icache k).ref ∧ (s.icache k).inum = inum ∨
      (s.icache k).ref = 0 ∧ ∀ j < nInode, 0 < (s.icache j).ref → (s.icache j).inum ≠ inum) := by
  rw [igetSlot, Option.or_eq_some_iff] at h
  rcases h with h | ⟨hnone, h⟩
  · have hk := List.mem_range.mp (List.mem_of_find?_eq_some h)
    have hspec := List.find?_some h
    exact ⟨hk, .inl (of_decide_eq_true hspec)⟩
  · have hk := List.mem_range.mp (List.mem_of_find?_eq_some h)
    have hspec := List.find?_some h
    refine ⟨hk, .inr ⟨of_decide_eq_true hspec, fun j hj href hinum => ?_⟩⟩
    have := List.find?_eq_none.mp hnone j (List.mem_range.mpr hj)
    exact this (decide_eq_true ⟨href, hinum⟩)

/-- There is a slot if one is free. -/
theorem igetSlot_of_free (hk : k < nInode) (href : (s.icache k).ref = 0) (inum : ℕ) :
    ∃ k', igetSlot s inum = some k' := by
  rw [← Option.isSome_iff_exists, igetSlot, Option.isSome_or, Bool.or_eq_true]
  exact .inr (List.find?_isSome.mpr ⟨k, List.mem_range.mpr hk, decide_eq_true href⟩)

theorem runS_iget (h : igetSlot s inum = some k) : (iget inum).runS s = .ok (k, s.got k inum) := by
  refine runS_atomic ?_
  rw [igetSlot] at h
  split
  · next j hj =>
    rw [hj, Option.some_or] at h
    obtain rfl := Option.some.inj h
    have hfound := List.find?_some hj
    have href : 0 < (s.icache j).ref := (of_decide_eq_true hfound).1
    rw [State.got, gotInode, if_pos href]
    rfl
  · next hnone =>
    rw [hnone, Option.none_or] at h
    rw [h]
    have hfound := List.find?_some h
    have href : (s.icache k).ref = 0 := of_decide_eq_true hfound
    rw [State.got, gotInode, if_neg (by omega)]
    rfl

theorem runS_iget_none (h : igetSlot s inum = none) :
    (iget inum).runS s = .error (.fail .igetNoInodes, s) := by
  rw [igetSlot, Option.or_eq_none_iff] at h
  rw [iget, atomic, runS]
  rw [h.1, h.2]
  rfl

theorem runS_idup (s : State) (j : ℕ) : (idup j).runS s =
    .ok (j, s.setInode j { s.icache j with ref := (s.icache j).ref + 1 }) := rfl

/-! ## Locks -/

/-- A cached inode when `ilock` has read it. -/
def lockedInode (sb : Superblock) (d : Disk) (p : ℕ) (ip : Inode) : Inode :=
  { ip with
    lock := some p
    valid := true
    din := if ip.valid = true then ip.din else sb.dinode d ip.inum }

theorem runS_acquiresleep (h : (s.icache j).lock = none) : (acquiresleep p j).runS s =
    .ok ((), s.setInode j { s.icache j with lock := some p }) :=
  runS_await (if_pos h)

theorem runS_acquiresleep_stuck (h : (s.icache j).lock ≠ none) :
    (acquiresleep p j).runS s = .error (.stuck (.inode j), s) :=
  runS_await_stuck (if_neg h)

theorem setInode_setInode (s : State) (j : ℕ) (ip ip' : Inode) :
    (s.setInode j ip).setInode j ip' = s.setInode j ip' := by
  rw [State.setInode, State.setInode, State.setInode]
  rw [Function.update_idem]

theorem runS_ilockRead (hbuf : ∀ b, s.buf b = none) : (ilockRead sb p j).runS s =
    (Prog.when ((sb.dinode s.disk (s.icache j).inum).type = 0) (Prog.fail .ilockNoType) :
      Code Unit).runS (s.setInode j { s.icache j with
        valid := true, din := sb.dinode s.disk (s.icache j).inum }) := by
  have hread : (bread p (sb.iblock (s.icache j).inum)).runS s = _ := runS_bread (hbuf _)
  have hput := runS_brelse (p := p) (s := s.setDin j (sb.dinode s.disk (s.icache j).inum))
    (hbuf (sb.iblock (s.icache j).inum))
  rw [ilockRead, runS_bind_ok (runS_inumOf ..), runS_bind_ok hread, runS_bind_ok (runS_setCore ..)]
  refine (runS_bind_ok hput).trans ((runS_bind_ok (runS_modify ..)).trans ?_)
  rw [State.setDin_icache, State.setDin, setInode_setInode, runS_bind_ok (runS_core ..),
    State.setInode_self]

/-- `ilock` of an inode whose lock is free: it panics if it reads from the disk that the inode is
free. -/
theorem runS_ilock_eq (href : 0 < (s.icache j).ref) (hlock : (s.icache j).lock = none)
    (hbuf : ∀ b, s.buf b = none) : (ilock sb p j).runS s =
      (Prog.when ((s.icache j).valid = false ∧ (sb.dinode s.disk (s.icache j).inum).type = 0)
        (Prog.fail .ilockNoType) : Code Unit).runS
          (s.setInode j (lockedInode sb s.disk p (s.icache j))) := by
  have hpos : ¬ (s.icache j).ref < 1 := by omega
  rw [ilock, runS_bind_ok (runS_get ..), when_neg hpos, runS_bind_ok (runS_pure ..),
    runS_bind_ok (runS_acquiresleep hlock), runS_bind_ok (runS_get ..), State.setInode_self]
  cases hvalid : (s.icache j).valid with
  | true =>
    rw [when_neg (by simp), when_neg (by simp), lockedInode, if_pos hvalid, ← hvalid]
  | false =>
    have hread : (ilockRead sb p j).runS (s.setInode j { s.icache j with lock := some p }) = _ :=
      runS_ilockRead hbuf
    rw [State.setInode_self, setInode_setInode] at hread
    rw [when_pos rfl, hread, lockedInode, hvalid, if_neg Bool.false_ne_true]
    simp only [true_and]
    rfl

/-- `ilock` of an inode that is not free. -/
theorem runS_ilock (href : 0 < (s.icache j).ref) (hlock : (s.icache j).lock = none)
    (hbuf : ∀ b, s.buf b = none)
    (htype : (s.icache j).valid = false → (sb.dinode s.disk (s.icache j).inum).type ≠ 0) :
    (ilock sb p j).runS s = .ok ((), s.setInode j (lockedInode sb s.disk p (s.icache j))) := by
  rw [runS_ilock_eq href hlock hbuf, when_neg fun hfree => htype hfree.1 hfree.2]
  rfl

theorem runS_iunlock (href : 0 < (s.icache j).ref) (hlock : (s.icache j).lock ≠ none) :
    (iunlock j).runS s = .ok ((), s.setInode j { s.icache j with lock := none }) := by
  refine runS_update (if_neg ?_)
  rintro (h | h)
  · exact hlock h
  · omega

/-- The inode is not freed. -/
theorem runS_iputLocked
    (hkeep : ¬ ((s.icache j).valid = true ∧ (s.icache j).din.nlink = 0 ∧ (s.icache j).ref = 1)) :
    (iputLocked sb p j).runS (s.setInode j { s.icache j with lock := some p }) =
      .ok ((), s.setInode j { s.icache j with lock := none, ref := (s.icache j).ref - 1 }) := by
  rw [iputLocked, runS_bind_ok (runS_get ..), State.setInode_self, when_neg hkeep,
    runS_bind_ok (runS_pure ..), runS_bind_ok (runS_modify ..), runS_modify, State.setInode_self,
    setInode_setInode, State.setInode_self, setInode_setInode]

/-- `iput` that does not free the inode. -/
theorem runS_iput (hlock : (s.icache j).lock = none)
    (hkeep : ¬ ((s.icache j).valid = true ∧ (s.icache j).din.nlink = 0 ∧ (s.icache j).ref = 1)) :
    (iput sb p j).runS s =
      .ok ((), (s.emit .iput).setInode j { s.icache j with ref := (s.icache j).ref - 1 }) := by
  have hcache : s.icache = (s.emit .iput).icache := rfl
  rw [iput, runS_bind_ok (runS_modify ..)]
  rw [hcache] at hlock hkeep ⊢
  generalize s.emit .iput = t at hlock hkeep ⊢
  rw [runS_bind_ok (runS_acquiresleep hlock), runS_iputLocked hkeep, ← hlock]

/-- `iput` of an inode whose lock is taken waits for ever. -/
theorem runS_iput_stuck (hlock : (s.icache j).lock ≠ none) :
    (iput sb p j).runS s = .error (.stuck (.inode j), s.emit .iput) := by
  have hacq : (acquiresleep p j).runS (s.emit .iput) = _ := runS_acquiresleep_stuck hlock
  rw [iput, runS_bind_ok (runS_modify ..)]
  exact runS_bind_error hacq

/-- What others do for process `p` where it waits for the lock of an inode: who else has it lets it
go. -/
def letGo (p : ℕ) : Wait → State → State
  | .inode j, s =>
    if (s.icache j).lock = some p then s else s.setInode j { s.icache j with lock := none }
  | _, s => s

/-- A lock that the process holds itself is not let go. -/
theorem runAmong_iput_stuck (hlock : (s.icache j).lock = some p) :
    (iput sb p j).runAmong (letGo p) s = .error (.stuck (.inode j)) := by
  have hnone : ((s.emit .iput).icache j).lock ≠ none := by
    change (s.icache j).lock ≠ none
    rw [hlock]
    exact Option.some_ne_none p
  have hlet : letGo p (.inode j) (s.emit .iput) = s.emit .iput := if_pos hlock
  rw [iput, runAmong_bind_ok (runS_modify ..), runAmong_bind, acquiresleep, runAmong_await_stuck]
  · rfl
  · rw [hlet, if_neg hnone]
    rfl

/-- A lock that nobody has, or another process, is got, and `iput` goes on. -/
theorem runAmong_iput (hlock : (s.icache j).lock ≠ some p)
    (hkeep : ¬ ((s.icache j).valid = true ∧ (s.icache j).din.nlink = 0 ∧ (s.icache j).ref = 1)) :
    (iput sb p j).runAmong (letGo p) s =
      .ok ((), (s.emit .iput).setInode j
        { s.icache j with lock := none, ref := (s.icache j).ref - 1 }) := by
  have hcache : s.icache = (s.emit .iput).icache := rfl
  rw [iput, runAmong_bind_ok (runS_modify ..)]
  rw [hcache] at hlock hkeep ⊢
  generalize s.emit .iput = t at hlock hkeep ⊢
  have hlet : letGo p (.inode j) t = t.setInode j { t.icache j with lock := none } := if_neg hlock
  have hlocked : (acquiresleep p j).runAmong (letGo p) t =
      .ok ((), t.setInode j { t.icache j with lock := some p }) := by
    refine runAmong_await ?_
    rw [hlet, State.setInode_self, if_pos rfl, setInode_setInode]
    split <;> rfl
  rw [runAmong_bind, hlocked]
  exact runAmong_of_runS_ok (runS_iputLocked hkeep)

end InuOs.Syscall
