import InuOs.FileWrite
import InuOs.Syscall.Alone
import InuOs.Syscall.Resources

/-!
# The log and one chunk of `filewrite`

`filewrite` cuts a write into chunks of at most `maxChunk` bytes and makes one log operation of
each. The room that it leaves is for two blocks of slop, the inode, the indirect block, and for each
block of data a block of the free map.

The chunk may start inside of a block, and then it touches one block more than the chunk is long.
That block is there already, as the offset is not behind the end of the file, so that nothing is
logged for it but its data: `loopCost` counts it once.
-/

namespace InuOs

/-! ## How `writei` fails -/

/-- `"balloc: out of blocks"`. -/
def OutOfBlocks (e : Panic) : Prop := e = .ballocOutOfBlocks

variable {sb : Superblock} {d : Disk} {ip : Dinode} {bn : ℕ}

theorem balloc_outOfBlocks : Meets (balloc sb d) OutOfBlocks fun _ => True := by
  unfold balloc
  split
  · exact Meets.throw rfl
  · exact Meets.pure trivial

theorem bmapLoad_outOfBlocks : Meets (bmapLoad sb d ip) OutOfBlocks fun _ => True := by
  unfold bmapLoad
  split
  · exact balloc_outOfBlocks.bind fun _ _ => Meets.pure trivial
  · exact Meets.pure trivial

theorem bmapEntry_outOfBlocks : Meets (bmapEntry sb d ip bn) OutOfBlocks fun _ => True := by
  unfold bmapEntry
  dsimp only
  split
  · exact balloc_outOfBlocks.bind fun _ _ => Meets.pure trivial
  · exact Meets.pure trivial

theorem bmap_outOfBlocks (hbn : bn < maxFile) :
    Meets (bmap sb d ip bn) OutOfBlocks fun _ => True := by
  unfold bmap
  split
  · split
    · exact balloc_outOfBlocks.bind fun _ _ => Meets.pure trivial
    · exact Meets.pure trivial
  · rw [if_pos (by unfold maxFile at hbn; omega)]
    exact bmapLoad_outOfBlocks.bind fun _ _ => bmapEntry_outOfBlocks

variable {off : ℕ} {src : List UInt8} {f : State → State} {e : Panic} {c : State → Prop}

theorem writeiLoop_outOfBlocks (hmax : off + src.length ≤ maxFile * bSize) :
    Meets (writeiLoop sb d ip off src) OutOfBlocks fun _ => True := by
  induction hlen : src.length using Nat.strong_induction_on generalizing d ip off src with
  | _ n ih =>
    rw [writeiLoop]
    split
    · exact Meets.pure trivial
    · next hne =>
      have hpos := chunk_pos hne off
      have hle := chunk_le src.length off
      have hlen : (src.drop (chunk src.length off)).length = src.length - chunk src.length off :=
        List.length_drop ..
      refine (bmap_outOfBlocks (div_lt_maxFile hne hmax)).bind fun r _ => ?_
      exact ih _ (by omega) (by rw [hlen]; omega) hlen

/-- `writei` fails in no other way. -/
theorem writei_outOfBlocks {i : ℕ} (dev : Devsw) :
    Meets (writei sb dev d i ip off src) OutOfBlocks fun _ => True := by
  unfold writei
  split
  · split <;> exact Meets.pure trivial
  split
  · exact Meets.pure trivial
  split
  · exact Meets.pure trivial
  · next hmax =>
    refine (writeiLoop_outOfBlocks (Nat.le_of_not_lt hmax)).bind fun r _ => ?_
    dsimp only
    split <;> exact Meets.pure trivial

namespace Syscall

open Prog

variable {s : State} {p j i off : ℕ} {src : List UInt8} {ino : ℕ → Dinode}

/-! ## Devices -/

/-- The run has not halted because of the log. -/
def NotLog (h : Halt Panic Wait) : Prop :=
  h ≠ .fail .tooBigATransaction ∧ h ≠ .fail .logWriteOutsideOfTrans

/-- The program leaves the log alone. -/
def KeepsLog {α : Type} (x : Code α) : Prop :=
  ∀ s, Ends (fun h s' => NotLog h ∧ s'.log = s.log) x s fun _ s' => s'.log = s.log

namespace KeepsLog

variable {α β : Type}

protected theorem pure (a : α) : KeepsLog (pure a) := fun _ => Ends.pure rfl

protected theorem bind {x : Code α} {k : α → Code β} (hx : KeepsLog x) (hk : ∀ a, KeepsLog (k a)) :
    KeepsLog (x >>= k) := by
  intro s
  refine (hx s).bind fun a s' hs' => ?_
  rw [← hs']
  exact hk a s'

theorem get (f : State → α) : KeepsLog (Prog.get f) := fun _ => Ends.get rfl

theorem modify (h : ∀ s, (f s).log = s.log) : KeepsLog (Prog.modify f) :=
  fun s => Ends.modify (h s)

theorem fail (h : NotLog (.fail e)) : KeepsLog (Prog.fail e : Code α) :=
  fun _ => Ends.fail ⟨h, rfl⟩

theorem when {c : Prop} [Decidable c] {x : Code Unit} (h : KeepsLog x) : KeepsLog (Prog.when c x) :=
  fun s => Ends.when (fun _ => h s) fun _ => rfl

/-- An action that is done under a condition. -/
theorem update [DecidablePred c] (he : NotLog (.fail e)) (h : ∀ s, (f s).log = s.log) :
    KeepsLog (Prog.update fun s => if c s then throw e else pure (f s)) := by
  refine fun s => Ends.update ?_
  split
  · exact Meets.throw ⟨he, rfl⟩
  · exact Meets.pure (h s)

theorem await [DecidablePred c] {w : Wait} (h : ∀ s, (f s).log = s.log) :
    KeepsLog (Prog.await w fun s => if c s then some (f s) else none) := by
  refine fun s => Ends.await (fun s' hpass => ?_) ⟨⟨nofun, nofun⟩, rfl⟩
  obtain ⟨-, hs'⟩ := Option.ite_none_right_eq_some.mp hpass
  rw [← Option.some.inj hs']
  exact h s

end KeepsLog

theorem keepsLog_bread (b : ℕ) : KeepsLog (bread p b) :=
  .bind (.await fun _ => rfl) fun _ => .get _

theorem keepsLog_brelse (b : ℕ) : KeepsLog (brelse b) := .update ⟨nofun, nofun⟩ fun _ => rfl

theorem keepsLog_ilock : KeepsLog (ilock sb p j) := by
  refine .bind (.get _) fun _ => .bind (.when (.fail ⟨nofun, nofun⟩)) fun _ =>
    .bind (.await fun _ => rfl) fun _ => .bind (.get _) fun _ => .when ?_
  refine .bind (.get _) fun _ => .bind (keepsLog_bread _) fun _ =>
    .bind (.modify fun _ => rfl) fun _ => .bind (keepsLog_brelse _) fun _ =>
    .bind (.modify fun _ => rfl) fun _ => .bind (.get _) fun _ => ?_
  exact .when (.fail ⟨nofun, nofun⟩)

/-- A device writes nothing to the disk. -/
theorem keepsLog_consolewrite (n : ℕ) : KeepsLog (consolewrite sb p j n) :=
  .bind (.update ⟨nofun, nofun⟩ fun _ => rfl) fun _ => .bind keepsLog_ilock fun _ => .pure _

/-! ## One chunk -/

/-- A chunk does not turn the loop of `writei` more often than there is room for. -/
theorem loopCost_chunk {ip : Dinode} {d : Disk} {n : ℕ} (hn : n ≤ FileWrite.maxChunk)
    (hoff : off ≤ ip.size.toNat)
    (hholes : ∀ bn, bn * bSize < ip.size.toNat → ip.ptr d (place bn) ≠ 0) :
    loopCost ip d off n ≤ 7 := by
  rw [show FileWrite.maxChunk = 1536 from rfl] at hn
  have hturns : turns off n ≤ 4 ∧ (turns off n = 4 → off % bSize ≠ 0) := by
    unfold turns
    rw [show bSize = 512 from rfl]
    split <;> omega
  unfold loopCost
  by_cases hfour : turns off n = 4
  · -- the offset is inside of the first block, so that the file has that block
    have hdiv := Nat.div_add_mod off bSize
    have hptr := hholes (off / bSize) (by rw [Nat.mul_comm]; omega)
    rw [if_pos hptr]
    omega
  · omega

/-- **One chunk of `filewrite` fits a log operation.** Whatever the layout of the disk and wherever
the free blocks are, a `writei` of a chunk passes at most `MAXOPBLOCKS` blocks to `log_write`, and
those are the header of the log, which is empty at first. This is so when `writei` returns and when
it fails for want of free blocks, and `log_write` refuses none of them. -/
theorem writei_chunk_fits (sb : Superblock) (hsb : sb.Layout) (s : State) (p j i off : ℕ)
    (src : List UInt8) (ino : ℕ → Dinode) (h : Held sb ino s.disk) (hi : i < sb.ninodes)
    (htype : (ino i).type ≠ 0) (hcore : (s.icache j).din = ino i) (hinum : (s.icache j).inum = i)
    (hbuf : ∀ b, s.buf b = none)
    (hholes : ∀ bn, bn * bSize < (ino i).size.toNat → (ino i).ptr s.disk (place bn) ≠ 0)
    (hoff : off ≤ (ino i).size.toNat) (hn : src.length ≤ FileWrite.maxChunk)
    (hlh : s.log.lh = []) (hout : 1 ≤ s.log.outstanding) (hsize : maxOpBlocks + 1 < s.log.size) :
    Ends (fun e s' => NotLog e ∧ s'.log.lh.length ≤ maxOpBlocks) (writei sb p j off src) s
      fun _ s' => s'.log.lh.length ≤ maxOpBlocks := by
  by_cases hdev : (ino i).type = tDev
  · have hempty {s' : State} (hlog : s'.log = s.log) : s'.log.lh.length ≤ maxOpBlocks := by
      rw [hlog, hlh]
      decide
    refine Ends.bind (Q := fun din s' => din = ino i ∧ s' = s) (Ends.get ⟨hcore, rfl⟩) ?_
    rintro _ _ ⟨rfl, rfl⟩
    rw [if_pos hdev]
    split
    · exact ((keepsLog_consolewrite src.length _).mono_error fun _ _ he => ⟨he.1, hempty he.2⟩).mono
        fun _ _ => hempty
    · exact Ends.pure (hempty rfl)
  · have hcost := loopCost_chunk hn hoff hholes
    have hindirect := indirectCost_le (ino i) s.log.lh
    have hroom : Room (maxOpBlocks + 1) (0 + 2 + indirectCost (ino i) s.log.lh +
        loopCost (ino i) s.disk off src.length) s := by
      refine ⟨hout, by decide, by omega, ?_⟩
      rw [hlh, show maxOpBlocks = 10 from rfl] at *
      rw [List.length_nil]
      omega
    have hfits : Fits (fun _ => False) (maxOpBlocks + 1) (0 + 2 + indirectCost (ino i) s.log.lh +
        loopCost (ino i) s.disk off src.length) s := .inr hroom
    refine ((writei_follows h hsb hi htype hdev hcore hinum hbuf ⟨fun _ => none, fun _ => none⟩
      hfits).ends (writei_outOfBlocks _)).mono_error ?_ |>.mono ?_
    · rintro _ s' (hfalse | ⟨e, rfl, rfl, hroom'⟩)
      · exact hfalse.elim
      · exact ⟨⟨nofun, nofun⟩, Nat.le_of_succ_le_succ hroom'.room.fits⟩
    · rintro a s' ⟨r, -, -, hchanged⟩
      have := hchanged.room.room.fits
      omega

/-- A chunk of the largest size is written to an empty file. -/
theorem writei_chunk_fits_oneFile :
    ∃ s : State, s.log.lh = [] ∧ Ends (fun e s' => NotLog e ∧ s'.log.lh.length ≤ maxOpBlocks)
      (writei mkfsSuperblock 0 0 0 (List.replicate 1536 7)) s
      fun _ s' => s'.log.lh.length ≤ maxOpBlocks := by
  have hone : mkfsSuperblock.dinode oneFile 1 = Fs.freshDinode 2 := dinode_oneFile 1
  refine ⟨{ openRoot with
    disk := oneFile
    log := ⟨2, 30, 1, false, []⟩
    icache := fun _ => ⟨1, 1, some 0, true, Fs.freshDinode 2⟩ }, rfl, ?_⟩
  refine writei_chunk_fits mkfsSuperblock layout_mkfsSuperblock _ 0 0 1 0 (List.replicate 1536 7)
    (mkfsSuperblock.dinode oneFile) sound_oneFile.held (by decide)
    (by rw [hone]; decide) hone.symm rfl
    (fun _ => rfl) ?_ (Nat.zero_le _) ?_ rfl le_rfl (by decide)
  · intro bn hbn
    exact absurd hbn (Nat.not_lt_zero _)
  · rw [List.length_replicate]
    decide

end Syscall

end InuOs
