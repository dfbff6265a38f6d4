import InuOs.Lib.Follow
import InuOs.ReadWrite
import InuOs.Syscall.Fs

/-!
# `fs.c` in a process alone

The programs of `InuOs.Syscall.Fs`, run while nobody else is in the file system, follow the maps of
`InuOs.Inode`: the sleep-locks of the buffers are free when they are asked for, and the log takes
what is written.

* `wrote` and `setDin` are what such a run does to the state: it changes the disk, the header of the
  log and the in-core copy of one inode, and nothing else.
* `Room M k s` — the log takes blocks up to the number of `M`, and `k` more fit. A block that is in
  the header already needs no room.
* `Fits T M k s` — there is that room, or it does not matter that `log_write` fails. So each lemma
  says two things: with enough room the program returns, and without, it fails in `log_write` or
  does the same.
* The indirect block of an inode costs room once, however many of its entries are set:
  `indirectCost`.
-/

namespace InuOs.Syscall

open Prog

/-! ## What changes -/

namespace State

/-- Another disk and log header. -/
def wrote (s : State) (d : Disk) (lh : List UInt32) (tr : List Event) : State :=
  { s with disk := d, log := { s.log with lh := lh }, trace := tr }

/-- Another in-core copy of inode `j`. -/
def setDin (s : State) (j : ℕ) (ip : Dinode) : State := s.setInode j { s.icache j with din := ip }

/-- The buffer of block `b` is locked. -/
def hold (s : State) (b p : ℕ) : State := { s with buf := Function.update s.buf b (some p) }

variable (s : State) (d d' : Disk) (lh lh' : List UInt32) (tr tr' : List Event) (j b p : ℕ)
  (ip ip' : Dinode)

@[simp] theorem wrote_disk : (s.wrote d lh tr).disk = d := rfl

@[simp] theorem wrote_icache : (s.wrote d lh tr).icache = s.icache := rfl

@[simp] theorem wrote_lh : (s.wrote d lh tr).log.lh = lh := rfl

@[simp] theorem wrote_wrote : (s.wrote d lh tr).wrote d' lh' tr' = s.wrote d' lh' tr' := rfl

@[simp] theorem setDin_icache : (s.setDin j ip).icache j = { s.icache j with din := ip } :=
  setInode_self ..

theorem setDin_wrote : (s.setDin j ip).wrote d lh tr = (s.wrote d lh tr).setDin j ip := rfl

@[simp] theorem setDin_setDin : (s.setDin j ip).setDin j ip' = s.setDin j ip' := by
  rw [setDin, setDin_icache, setDin, setInode, setInode]
  rw [Function.update_idem, setDin, setInode]

theorem setDin_self (h : (s.icache j).din = ip) : s.setDin j ip = s := by
  rw [setDin, ← h, setInode]
  rw [Function.update_eq_self]

/-- The in-core copies may be left alone. -/
theorem wrote_eq_setDin {s : State} {d : Disk} {lh : List UInt32} {tr : List Event} {j : ℕ}
    {ip : Dinode} (h : (s.icache j).din = ip) : s.wrote d lh tr = (s.wrote d lh tr).setDin j ip :=
  (setDin_self (s.wrote d lh tr) j ip h).symm

end State

/-! ## Buffers and the log -/

variable {T : Halt Panic Wait → Prop} {s : State} {sb : Superblock} {M k p b : ℕ}

theorem runS_bread (h : s.buf b = none) : (bread p b).runS s = .ok (s.disk b, s.hold b p) := by
  rw [bread, runS_bind]
  simp only [await, runS, if_pos h]
  rfl

theorem runS_brelse (h : s.buf b = none) : (brelse b).runS (s.hold b p) = .ok ((), s) := by
  have hheld : (s.hold b p).buf b ≠ none := by
    rw [State.hold]
    simp
  refine runS_update ((if_neg hheld).trans ?_)
  rw [State.hold]
  rw [Function.update_idem, ← h, Function.update_eq_self]
  rfl

/-- `k` more blocks fit into the log, of which it takes at most `M`. -/
structure Room (M k : ℕ) (s : State) : Prop where
  outstanding : 1 ≤ s.log.outstanding
  logSize : M ≤ logSize
  size : (M : ℤ) ≤ s.log.size - 1
  fits : s.log.lh.length + k ≤ M

variable {k' n : ℕ} {s' : State} {d : Disk} {lh lh' : List UInt32} {tr : List Event} {x : Block}
  {ip ip' : Dinode} {a : UInt32}

theorem Room.mono (h : Room M k s) (hk : k' ≤ k) : Room M k' s :=
  { h with fits := (Nat.add_le_add_left hk _).trans h.fits }

theorem Room.congr (h : Room M k s) (hlog : s'.log = s.log) (hn : n ≤ k) : Room M n s' := by
  obtain ⟨hout, hlogSize, hsize, hfits⟩ := h.mono hn
  exact ⟨hlog ▸ hout, hlogSize, hlog ▸ hsize, hlog ▸ hfits⟩

theorem runS_logWrite (h : Room M (k + 1) s) : (logWrite b).runS s =
    .ok ((), s.wrote s.disk (Log.absorb (UInt32.ofNat b) s.log.lh) (s.trace ++ [.logWrite])) := by
  have hfits := h.fits
  have hsize := h.size
  have hlog := h.logSize
  have hout := h.outstanding
  refine runS_update ?_
  rw [Log.logWriteCheck, if_neg (by omega), if_neg (by omega)]
  rfl

theorem runS_setData (x : Block) (s : State) : (setData b x).runS s =
    .ok ((), s.wrote (Function.update s.disk b x) s.log.lh s.trace) := rfl

theorem Room.wrote (h : Room M k s) (hn : lh.length + n ≤ s.log.lh.length + k) :
    Room M n (s.wrote d lh tr) :=
  ⟨h.outstanding, h.logSize, h.size, hn.trans h.fits⟩

/-- There is room for `k` more blocks, or `log_write` may refuse them. -/
def Fits (T : Halt Panic Wait → Prop) (M k : ℕ) (s : State) : Prop :=
  (T (.fail .tooBigATransaction) ∧ T (.fail .logWriteOutsideOfTrans)) ∨ Room M k s

namespace Fits

theorem room (h : Fits (fun _ => False) M k s) : Room M k s := h.resolve_left And.left

theorem mono (h : Fits T M k s) (hk : k' ≤ k) : Fits T M k' s :=
  h.imp_right fun hroom => hroom.mono hk

theorem congr (h : Fits T M k s) (hlog : s'.log = s.log) (hn : n ≤ k) : Fits T M n s' :=
  h.imp_right fun hroom => hroom.congr hlog hn

theorem wrote (h : Fits T M k s) (hn : lh.length + n ≤ s.log.lh.length + k) :
    Fits T M n (s.wrote d lh tr) :=
  h.imp_right fun hroom => hroom.wrote hn

end Fits

theorem logWrite_passes (h : Fits T M (k + 1) s) : Passes T (logWrite b) s ()
    (s.wrote s.disk (Log.absorb (UInt32.ofNat b) s.log.lh) (s.trace ++ [.logWrite])) := by
  rcases h with ⟨hbig, hout⟩ | hroom
  · have hfail {e : Panic} (he : s.log.logWriteCheck = .error e) :
        (logWrite b).runS s = .error (.fail e, s) := by
      rw [logWrite, update, runS, he]
      rfl
    by_cases hfull : logSize ≤ s.log.lh.length ∨ (s.log.size : ℤ) - 1 ≤ s.log.lh.length
    · exact .inr ⟨_, _, hfail (if_pos hfull), hbig⟩
    by_cases hnone : s.log.outstanding < 1
    · exact .inr ⟨_, _, hfail ((if_neg hfull).trans (if_pos hnone)), hout⟩
    · refine .ok (runS_update ?_)
      rw [Log.logWriteCheck, if_neg hfull, if_neg hnone]
      rfl
  · exact .ok (runS_logWrite hroom)

/-- Store into a buffer that is locked, log it and give it back. -/
theorem store_passes (hbuf : s.buf b = none) (h : Fits T M (k + 1) s) :
    Passes T (do setData b x; logWrite b; brelse b) (s.hold b p) ()
      (s.wrote (Function.update s.disk b x) (Log.absorb (UInt32.ofNat b) s.log.lh)
        (s.trace ++ [.logWrite])) := by
  have hfits : Fits T M (k + 1)
      ((s.hold b p).wrote (Function.update s.disk b x) s.log.lh s.trace) :=
    h.congr rfl le_rfl
  refine Passes.bind (.ok (runS_setData ..)) (Passes.bind (logWrite_passes hfits) (.ok ?_))
  exact runS_brelse (s := s.wrote (Function.update s.disk b x) _ _) hbuf

/-- `store_passes`, with what follows. -/
theorem follows_store {α β : Type} {g : Code α} {f : Except Panic β} {E : State → Prop}
    {Q : β → α → State → Prop} (hbuf : s.buf b = none) (h : Fits T M (k + 1) s)
    (hg : Follows T g (s.wrote (Function.update s.disk b x) (Log.absorb (UInt32.ofNat b) s.log.lh)
      (s.trace ++ [.logWrite])) f E Q) :
    Follows T (do setData b x; logWrite b; brelse b; g) (s.hold b p) f E Q :=
  Follows.pass (k := fun _ => g) (store_passes hbuf h) hg

theorem subset_absorb (a : UInt32) (lh : List UInt32) : lh ⊆ Log.absorb a lh :=
  fun _ hx => Log.mem_absorb.mpr (.inr hx)

theorem mem_absorb_self (a : UInt32) (lh : List UInt32) : a ∈ Log.absorb a lh :=
  Log.mem_absorb.mpr (.inl rfl)

/-! ## Blocks -/

theorem bzero_passes (hbuf : s.buf b = none) (h : Fits T M (k + 1) s) : Passes T (bzero p b) s ()
    (s.wrote (Function.update s.disk b zeroBlock) (Log.absorb (UInt32.ofNat b) s.log.lh)
      (s.trace ++ [.logWrite])) :=
  Passes.bind (.ok (runS_bread hbuf)) (store_passes hbuf h)

/-- The buffers that are locked are those of data blocks in use. -/
def Clear (sb : Superblock) (s : State) : Prop :=
  ∀ b, s.buf b ≠ none → sb.dataStart ≤ b ∧ sb.bit s.disk b = true

theorem Clear.of_none (h : ∀ b, s.buf b = none) : Clear sb s := fun b hb => absurd (h b) hb

theorem Clear.of_lt (h : Clear sb s) (hb : b < sb.dataStart) : s.buf b = none := by
  by_contra hne
  exact absurd (h b hne).1 (Nat.not_le.mpr hb)

theorem Clear.of_free (h : Clear sb s) (hb : sb.bit s.disk b = false) : s.buf b = none := by
  by_contra hne
  rw [(h b hne).2] at hb
  exact nomatch hb

/-- What `balloc` makes of what it has found. -/
def allocate (sb : Superblock) (d : Disk) : Option ℕ → Except Panic (Disk × UInt32)
  | none => throw .ballocOutOfBlocks
  | some b => pure (Function.update (sb.setBit d b) b zeroBlock, UInt32.ofNat b)

/-- The log after `balloc`: the block of the map and the new block are in it. -/
structure Balloced (T : Halt Panic Wait → Prop) (M k : ℕ) (s : State) (r : Disk × UInt32)
    (a : UInt32) (s' : State) : Prop where
  addr : a = r.2
  state : ∃ lh tr, s' = s.wrote r.1 lh tr
  room : Fits T M k s'
  keep : s.log.lh ⊆ s'.log.lh
  mem : a ∈ s'.log.lh

theorem ballocLoop_follows (js : List ℕ) (hjs : ∀ j ∈ js, j * bpb < sb.size) (hclear : Clear sb s)
    (hroom : Fits T M (k + 3) s) :
    Follows T (ballocLoop sb p js) s (allocate sb s.disk (js.findSome? fun j =>
      ((List.range (min bpb (sb.size - j * bpb))).find? fun bi =>
        !(s.disk (sb.bblock (j * bpb))).testBit bi).map fun bi => j * bpb + bi))
      (Fits T M 1) (Balloced T M (k + 1) s) := by
  induction js with
  | nil => exact Follows.fail (hroom.mono (by omega))
  | cons j js ih =>
    have hbuf : s.buf (sb.bblock (j * bpb)) = none :=
      hclear.of_lt (Superblock.Layout.bblock_lt (hjs j List.mem_cons_self))
    refine Follows.step (runS_bread hbuf) ?_
    rw [List.findSome?_cons]
    cases hfind : (List.range (min bpb (sb.size - j * bpb))).find? fun bi =>
        !(s.disk (sb.bblock (j * bpb))).testBit bi with
    | none =>
      refine Follows.step (runS_brelse hbuf) ?_
      exact ih fun j' hj' => hjs j' (List.mem_cons_of_mem j hj')
    | some bi =>
      obtain ⟨hsize, hblk, hmod, hbit⟩ := bit_of_find hfind
      have hdisk : Function.update s.disk (sb.bblock (j * bpb))
          ((s.disk (sb.bblock (j * bpb))).setBit bi) = sb.setBit s.disk (j * bpb + bi) := by
        rw [Superblock.setBit, hblk, hmod]
      have hle := Log.length_absorb_le (UInt32.ofNat (sb.bblock (j * bpb))) s.log.lh
      have hroom₁ : Fits T M (k + 2) (s.wrote (sb.setBit s.disk (j * bpb + bi))
          (Log.absorb (UInt32.ofNat (sb.bblock (j * bpb))) s.log.lh) (s.trace ++ [.logWrite])) :=
        hroom.wrote (by omega)
      refine follows_store hbuf (hroom.mono (Nat.le_add_left 1 (k + 2))) ?_
      rw [hdisk]
      refine Follows.pass (bzero_passes (hclear.of_free hbit) hroom₁) ?_
      refine Follows.pure ⟨rfl, ⟨_, _, rfl⟩, hroom₁.wrote ?_, ?_, mem_absorb_self ..⟩
      · exact (Nat.add_le_add_right (Log.length_absorb_le ..) _).trans
          (by rw [State.wrote_lh]; omega)
      · exact List.Subset.trans (subset_absorb ..) (subset_absorb ..)

/-- `balloc`. -/
theorem balloc_follows (hclear : Clear sb s) (hroom : Fits T M (k + 3) s) :
    Follows T (balloc sb p) s (InuOs.balloc sb s.disk) (Fits T M 1) (Balloced T M (k + 1) s) := by
  refine ballocLoop_follows _ (fun j hj => ?_) hclear hroom
  have hj := List.mem_range.mp hj
  rw [show bpb = 4096 from rfl] at hj ⊢
  omega

/-! ## The blocks of an inode -/

/-- The room that is kept for the indirect block: for itself and its block of the map, until it is
in the log. -/
def indirectCost (ip : Dinode) (lh : List UInt32) : ℕ :=
  if ip.addr nDirect ≠ 0 ∧ ip.addr nDirect ∈ lh then 0 else 2

theorem indirectCost_of_mem (hne : ip.addr nDirect ≠ 0) (hmem : ip.addr nDirect ∈ lh) :
    indirectCost ip lh = 0 := if_pos ⟨hne, hmem⟩

theorem indirectCost_le (ip : Dinode) (lh : List UInt32) : indirectCost ip lh ≤ 2 := by
  unfold indirectCost
  split <;> omega

theorem indirectCost_mono (haddr : ip'.addr nDirect = ip.addr nDirect) (h : lh ⊆ lh') :
    indirectCost ip' lh' ≤ indirectCost ip lh := by
  unfold indirectCost
  rw [haddr]
  split
  · exact Nat.zero_le _
  · next hne =>
    rw [if_neg]
    exact fun hold => hne ⟨hold.1, h hold.2⟩

/-- Logging the indirect block is paid for. -/
theorem length_absorb_add_cost (hkeep : lh ⊆ lh') (hind : ip.addr nDirect ≠ 0) :
    (Log.absorb (ip.addr nDirect) lh').length + indirectCost ip (Log.absorb (ip.addr nDirect) lh') ≤
      lh'.length + indirectCost ip lh := by
  rw [indirectCost_of_mem hind (mem_absorb_self ..)]
  unfold indirectCost
  split
  · next hmem => rw [Log.absorb_of_mem (hkeep hmem.2)]
  · exact (Log.length_absorb_le ..).trans (by omega)

/-- The state after a part of `bmap` on the inode in slot `j`. -/
structure Changed (T : Halt Panic Wait → Prop) (M k j : ℕ) (s : State) (d : Disk)
    (ip : Dinode) (s' : State) : Prop where
  state : ∃ lh tr, s' = (s.wrote d lh tr).setDin j ip
  room : Fits T M (k + indirectCost ip s'.log.lh) s'
  keep : s.log.lh ⊆ s'.log.lh

namespace Changed

variable {j : ℕ} {d d' : Disk} {ip ip' : Dinode} {s₁ s₂ : State}

section

variable (h : Changed T M k j s d ip s₁)
include h

theorem disk : s₁.disk = d := by
  obtain ⟨lh, tr, rfl⟩ := h.state
  rfl

theorem buf : s₁.buf = s.buf := by
  obtain ⟨lh, tr, rfl⟩ := h.state
  rfl

theorem din : (s₁.icache j).din = ip := by
  obtain ⟨lh, tr, rfl⟩ := h.state
  rw [State.setDin_icache]

theorem inum : (s₁.icache j).inum = (s.icache j).inum := by
  obtain ⟨lh, tr, rfl⟩ := h.state
  rw [State.setDin_icache]
  rfl

theorem icache :
    s₁.icache = Function.update s.icache j { s.icache j with din := ip } := by
  obtain ⟨lh, tr, rfl⟩ := h.state
  rfl

theorem ref : (s₁.icache j).ref = (s.icache j).ref := by
  obtain ⟨lh, tr, rfl⟩ := h.state
  rw [State.setDin_icache]
  rfl

end

theorem refl (hroom : Fits T M (k + indirectCost ip s.log.lh) s) (hcore : (s.icache j).din = ip) :
    Changed T M k j s s.disk ip s where
  state := ⟨s.log.lh, s.trace, (State.setDin_self _ _ _ hcore).symm⟩
  room := hroom
  keep := List.Subset.refl _

theorem trans (h : Changed T M k j s d ip s₁) (h' : Changed T M k' j s₁ d' ip' s₂) :
    Changed T M k' j s d' ip' s₂ where
  state := by
    obtain ⟨lh, tr, rfl⟩ := h.state
    obtain ⟨lh', tr', rfl⟩ := h'.state
    exact ⟨lh', tr', by rw [State.setDin_wrote, State.wrote_wrote, State.setDin_setDin]⟩
  room := h'.room
  keep := List.Subset.trans h.keep h'.keep

theorem mono (h : Changed T M k j s d ip s₁) (hk : k' ≤ k) : Changed T M k' j s d ip s₁ :=
  { h with room := h.room.mono (Nat.add_le_add_right hk _) }

end Changed

section Bmap

variable {ino : ℕ → Dinode} {i j bn : ℕ}

theorem runS_core (s : State) (j : ℕ) : (core j).runS s = .ok ((s.icache j).din, s) := rfl

theorem runS_inumOf (s : State) (j : ℕ) : (inumOf j).runS s = .ok ((s.icache j).inum, s) := rfl

theorem runS_setCore (s : State) (j : ℕ) (f : Dinode → Dinode) :
    (setCore j f).runS s = .ok ((), s.setDin j (f (s.icache j).din)) := rfl

theorem bmapLoad_follows (h : Held sb ino s.disk) (hsb : sb.Layout)
    (hcore : (s.icache j).din = ino i) (hbuf : ∀ b, s.buf b = none)
    (hroom : Fits T M (k + 1 + indirectCost (ino i) s.log.lh) s) :
    Follows T (bmapLoad sb p j) s (InuOs.bmapLoad sb s.disk (ino i)) (Fits T M 1) fun r a s' =>
      a = r.2.addr nDirect ∧ Changed T M (k + 1) j s r.1 r.2 s' := by
  rw [bmapLoad, InuOs.bmapLoad]
  refine Follows.step (runS_get ..) ?_
  rw [hcore]
  split
  · next hempty =>
    have hcost : indirectCost (ino i) s.log.lh = 2 := if_neg fun hne => hne.1 hempty
    rw [hcost] at hroom
    refine (balloc_follows (.of_none hbuf) hroom).bind ?_
    rintro ⟨d, _⟩ a _ hf ⟨rfl, ⟨lh, tr, rfl⟩, hroom', hkeep, hmem⟩
    obtain ⟨b, hb, ha⟩ := (h.balloc hsb).of_ok hf
    dsimp only at hb hmem ⊢
    have haddr : ((ino i).setAddr nDirect a).addr nDirect = a := by
      rw [Dinode.addr_setAddr _ _ (by decide), if_pos rfl]
    have hzero : indirectCost ((ino i).setAddr nDirect a) lh = 0 :=
      indirectCost_of_mem (by rw [haddr, hb]; exact ha.ofNat_ne_zero hsb) (by rwa [haddr])
    refine Follows.step (runS_modify ..) (Follows.pure ⟨haddr.symm, ⟨lh, tr, ?_⟩, ?_, hkeep⟩)
    · rw [State.setDin, State.wrote_icache, hcore]
    · exact hroom'.congr rfl (Nat.le_of_eq (congrArg (k + 1 + ·) hzero))
  · exact Follows.pure ⟨rfl, .refl hroom hcore⟩

/-- The buffer of the indirect block may be locked while `balloc` runs. -/
theorem clear_indirect (h : Held sb ino s.disk) (hi : i < sb.ninodes) (htype : (ino i).type ≠ 0)
    (hind : (ino i).addr nDirect ≠ 0) (hbuf : ∀ b, s.buf b = none) :
    Clear sb (s.hold ((ino i).addr nDirect).toNat p) := by
  intro b hb
  rcases eq_or_ne b ((ino i).addr nDirect).toNat with rfl | hne
  · have hdirect : (ino i).ptr s.disk nDirect = (ino i).addr nDirect := Dinode.ptr_direct le_rfl
    rw [← hdirect] at hind ⊢
    exact ⟨(h.isData_ptr hi htype hind).1, h.exact.used_of_own (Held.own_ptr hi htype hind)⟩
  · rw [State.hold] at hb
    dsimp only at hb
    rw [Function.update_of_ne hne] at hb
    exact absurd (hbuf b) hb

section

variable (h : Held sb ino s.disk) (hsb : sb.Layout) (hi : i < sb.ninodes) (htype : (ino i).type ≠ 0)
  (hcore : (s.icache j).din = ino i) (hbuf : ∀ b, s.buf b = none)
include h hsb hi htype hcore hbuf

theorem bmapEntry_follows (hind : (ino i).addr nDirect ≠ 0) (bn : ℕ)
    (hroom : Fits T M (k + 1 + indirectCost (ino i) s.log.lh +
      if (s.disk ((ino i).addr nDirect).toNat).getWord bn = 0 then 2 else 0) s) :
    Follows T (bmapEntry sb p ((ino i).addr nDirect).toNat bn) s
      (InuOs.bmapEntry sb s.disk (ino i) bn) (Fits T M 1) fun r a s' =>
      a = r.2.2 ∧ Changed T M (k + 1) j s r.1 r.2.1 s' ∧
        ((s.disk ((ino i).addr nDirect).toNat).getWord bn = 0 → a ∈ s'.log.lh) := by
  rw [bmapEntry, InuOs.bmapEntry]
  refine Follows.step (runS_bread (hbuf _)) ?_
  split
  · next hempty =>
    rw [if_pos hempty] at hroom
    have hroom₁ : Fits T M (k + indirectCost (ino i) s.log.lh + 3)
        (s.hold ((ino i).addr nDirect).toNat p) := hroom.congr rfl (by omega)
    refine (balloc_follows (clear_indirect h hi htype hind hbuf) hroom₁).bind ?_
    rintro ⟨d, _⟩ a _ hf ⟨rfl, ⟨lh, tr, rfl⟩, hroom', hkeep, hmem⟩
    obtain ⟨b, -, ha⟩ := (h.balloc hsb).of_ok hf
    have hsame : d ((ino i).addr nDirect).toNat = s.disk ((ino i).addr nDirect).toNat :=
      ha.block _ (h.isData_indirect hi htype hind).1 (ha.ne_indirect h hi htype hind)
    have hroom₂ : Fits T M (k + indirectCost (ino i) s.log.lh + 1) (s.wrote d lh tr) :=
      hroom'.congr rfl le_rfl
    refine follows_store (s := s.wrote d lh tr) (hbuf _) hroom₂ ?_
    dsimp only
    rw [hsame]
    rw [UInt32.ofNat_toNat, State.wrote_disk, State.wrote_lh, State.wrote_wrote]
    have hkeep : s.log.lh ⊆ lh := hkeep
    have hcost := length_absorb_add_cost hkeep hind
    refine Follows.pure ⟨rfl, ⟨⟨_, _, State.wrote_eq_setDin hcore⟩, ?_, ?_⟩, ?_⟩
    · exact hroom₂.wrote (by dsimp only [State.wrote_lh]; omega)
    · exact List.Subset.trans hkeep (subset_absorb ..)
    · exact fun _ => subset_absorb _ _ hmem
  · refine Follows.step (runS_brelse (hbuf _)) (Follows.pure ⟨rfl, .refl ?_ hcore, fun he => ?_⟩)
    · exact hroom.mono (Nat.le_add_right _ _)
    · exact absurd he ‹_›

/-- **`bmap`**. A block that is missing costs room for itself and its block of the map. -/
theorem bmap_follows (hbn : bn < maxFile)
    (hroom : Fits T M (k + 1 + indirectCost (ino i) s.log.lh +
      if (ino i).ptr s.disk (place bn) = 0 then 2 else 0) s) :
    Follows T (bmap sb p j bn) s (InuOs.bmap sb s.disk (ino i) bn) (Fits T M 1) fun r a s' =>
      a = r.2.2 ∧ Changed T M (k + 1) j s r.1 r.2.1 s' ∧
        ((ino i).ptr s.disk (place bn) = 0 → a ∈ s'.log.lh) := by
  rw [bmap, InuOs.bmap]
  by_cases hdir : bn < nDirect
  · have hptr : (ino i).ptr s.disk (place bn) = (ino i).addr bn := by
      rw [place, if_pos hdir, Dinode.ptr_direct hdir.le]
    rw [hptr] at hroom ⊢
    rw [if_pos hdir, if_pos hdir]
    refine Follows.step (runS_get ..) ?_
    rw [hcore]
    split
    · next hempty =>
      rw [if_pos hempty] at hroom
      have hroom₁ : Fits T M (k + indirectCost (ino i) s.log.lh + 3) s := hroom.congr rfl (by omega)
      refine (balloc_follows (.of_none hbuf) hroom₁).bind ?_
      rintro ⟨d, _⟩ a _ hf ⟨rfl, ⟨lh, tr, rfl⟩, hroom', hkeep, hmem⟩
      have haddr : ((ino i).setAddr bn a).addr nDirect = (ino i).addr nDirect := by
        rw [Dinode.addr_setAddr _ _ (by decide), if_neg hdir.ne']
      refine Follows.step (runS_modify ..)
        (Follows.pure ⟨rfl, ⟨⟨lh, tr, ?_⟩, ?_, hkeep⟩, fun _ => hmem⟩)
      · rw [State.setDin, State.wrote_icache, hcore]
      · have hkeep : s.log.lh ⊆ lh := hkeep
        have hcost := indirectCost_mono haddr hkeep
        exact hroom'.congr rfl (show k + 1 + indirectCost ((ino i).setAddr bn a) lh ≤ _ by omega)
    · next hne => exact Follows.pure ⟨rfl, .refl (hroom.mono (Nat.le_add_right _ _)) hcore,
        fun he => absurd he hne⟩
  · have hle := Nat.le_of_not_lt hdir
    have hm := sub_nDirect_lt hbn
    rw [if_neg hdir, if_neg hdir, if_pos hm, if_pos hm]
    have hroom₁ : Fits T M ((k + if (ino i).ptr s.disk (place bn) = 0 then 2 else 0) + 1 +
        indirectCost (ino i) s.log.lh) s := hroom.congr rfl (by omega)
    refine (bmapLoad_follows h hsb hcore hbuf hroom₁).bind ?_
    rintro ⟨d, ip⟩ a s₁ hf ⟨rfl, hload⟩
    obtain ⟨hgrows, hind⟩ := (bmapLoad_grows h hsb hi htype).of_ok hf
    have hptr := hgrows.rest (place bn) (mt Finset.mem_singleton.mp (place_ne_nDirect bn))
    dsimp only at hgrows hind hptr hload ⊢
    obtain rfl := hload.disk
    rw [Dinode.ptr_place hle hbn hind] at hptr
    have hself : Function.update ino i ip i = ip := Function.update_self ..
    have hentry := bmapEntry_follows (T := T) (M := M) (k := k) (p := p) hgrows.held hsb hi
      (by rw [hself, hgrows.type]; exact htype) (by rw [hself]; exact hload.din)
      (by rw [hload.buf]; exact hbuf) (by rwa [hself]) (bn - nDirect)
      (by rw [hself, hptr]; exact hload.room.congr rfl (by omega))
    rw [hself, hptr] at hentry
    refine hentry.mono ?_
    rintro r a s₂ - ⟨ha, hchanged, hmem⟩
    exact ⟨ha, hload.trans hchanged, hmem⟩

end

end Bmap

/-! ## Writing -/

/-- How often the loop of `writei` turns. -/
def turns (off n : ℕ) : ℕ := if n = 0 then 0 else (off % bSize + n + (bSize - 1)) / bSize

theorem turns_of_ne_zero {off : ℕ} (hn : n ≠ 0) :
    turns off n = turns (off + chunk n off) (n - chunk n off) + 1 := by
  have hchunk : chunk n off = min n (bSize - off % bSize) := rfl
  rw [show bSize = 512 from rfl] at hchunk
  rw [turns, if_neg hn, turns, show bSize = 512 from rfl]
  split <;> omega

/-- The room that the loop of `writei` needs: for each block that it writes, and for the block of
the map if that block is new. -/
def loopCost (ip : Dinode) (d : Disk) (off n : ℕ) : ℕ :=
  2 * turns off n - if ip.ptr d (place (off / bSize)) ≠ 0 then 1 else 0

theorem loopCost_le (ip : Dinode) (d : Disk) (off n : ℕ) : loopCost ip d off n ≤ 2 * turns off n :=
  Nat.sub_le ..

section Write

variable {ino : ℕ → Dinode} {i j off : ℕ} {src : List UInt8}

/-- Storing into a block of the file, for which there is room if it is not in the log. -/
theorem Changed.store {c : ℕ} (hcore : (s.icache j).din = ip)
    (hroom : Fits T M (k + c + indirectCost ip s.log.lh) s) (hc : c = 0 → a ∈ s.log.lh) :
    Changed T M k j s (Function.update s.disk a.toNat x) ip (s.wrote
      (Function.update s.disk a.toNat x) (Log.absorb a s.log.lh) (s.trace ++ [.logWrite])) where
  state := ⟨_, _, State.wrote_eq_setDin hcore⟩
  room := by
    refine hroom.wrote ?_
    rw [State.wrote_lh]
    have hcost : indirectCost ip (Log.absorb a s.log.lh) ≤ indirectCost ip s.log.lh :=
      indirectCost_mono rfl (subset_absorb ..)
    rcases Nat.eq_zero_or_pos c with hzero | hpos
    · rw [Log.absorb_of_mem (hc hzero)]
      omega
    · have := Log.length_absorb_le a s.log.lh
      omega
  keep := subset_absorb ..

theorem writeiLoop_follows (h : Held sb ino s.disk) (hsb : sb.Layout) (hi : i < sb.ninodes)
    (htype : (ino i).type ≠ 0) (hcore : (s.icache j).din = ino i) (hbuf : ∀ b, s.buf b = none)
    (hmax : off + src.length ≤ maxFile * bSize)
    (hroom : Fits T M (k + 1 + indirectCost (ino i) s.log.lh +
      loopCost (ino i) s.disk off src.length) s) :
    Follows T (writeiLoop sb p j off src) s
      (InuOs.writeiLoop sb s.disk (ino i) off src) (Fits T M 1)
      fun r stop s' => stop = r.2.2 ∧ Changed T M (k + 1) j s r.1 r.2.1 s' := by
  induction hlen : src.length using Nat.strong_induction_on generalizing s ino off src with
  | _ n ih =>
    subst hlen
    rw [writeiLoop, InuOs.writeiLoop]
    split
    · exact Follows.pure ⟨rfl, .refl (hroom.mono (Nat.le_add_right _ _)) hcore⟩
    · next hne =>
      have hpos := chunk_pos hne off
      have hle := chunk_le src.length off
      have hbn := div_lt_maxFile hne hmax
      have hlen : (src.drop (chunk src.length off)).length = src.length - chunk src.length off :=
        List.length_drop ..
      generalize hrest : turns (off + chunk src.length off) (src.length - chunk src.length off) = t
      have hturns : turns off src.length = t + 1 := by rw [turns_of_ne_zero hne, hrest]
      -- what is left for the other turns when `bmap` has returned, and then for the block itself
      have hroom₁ :
        Fits T M (k + 2 * t + (if (ino i).ptr s.disk (place (off / bSize)) = 0 then 0 else 1)
          + 1 + indirectCost (ino i) s.log.lh +
          if (ino i).ptr s.disk (place (off / bSize)) = 0 then 2 else 0) s := by
        refine hroom.congr rfl ?_
        rw [loopCost, hturns]
        split <;> simp_all <;> omega
      refine (bmap_follows h hsb hi htype hcore hbuf hbn hroom₁).bind ?_
      rintro ⟨d, ip, _⟩ a s₁ hf ⟨rfl, hmap, hmem⟩
      obtain ⟨hgrows, hplace, hptr, -⟩ := (bmap_maps h hsb hi htype hbn).of_ok hf
      dsimp only at hgrows hplace hptr hmap hmem ⊢
      obtain rfl := hmap.disk
      have hself : Function.update ino i ip i = ip := Function.update_self ..
      have htype' : (Function.update ino i ip i).type ≠ 0 := by rwa [hself, hgrows.type]
      have hptr' : (Function.update ino i ip i).ptr s₁.disk (place (off / bSize)) ≠ 0 := by
        rwa [hself, hplace]
      have hbuf₁ : ∀ b, s₁.buf b = none := by rw [hmap.buf]; exact hbuf
      have hroom₂ : Fits T M (0 + 1) s₁ := hmap.room.congr rfl (by omega)
      refine Follows.step (runS_bread (hbuf₁ _)) ?_
      generalize (s₁.disk a.toNat).paste (off % bSize) (src.take (chunk src.length off)) = x
      refine follows_store (hbuf₁ _) hroom₂ ?_
      rw [UInt32.ofNat_toNat]
      have hroom₃ : Fits T M (k + 2 * t + 1 +
          (if (ino i).ptr s.disk (place (off / bSize)) = 0 then 0 else 1) +
          indirectCost ip s₁.log.lh) s₁ :=
        hmap.room.congr rfl (by omega)
      have hstore : Changed T M (k + 2 * t + 1) j s₁ (Function.update s₁.disk a.toNat x) ip
          (s₁.wrote (Function.update s₁.disk a.toNat x) (Log.absorb a s₁.log.lh)
            (s₁.trace ++ [.logWrite])) :=
        Changed.store hmap.din hroom₃ fun hc => hmem (by simpa using hc)
      have hheld := Held.update_data hgrows.held hi htype' hptr' x hsb
      rw [hself, hplace] at hheld
      generalize s₁.wrote (Function.update s₁.disk a.toNat x) (Log.absorb a s₁.log.lh)
        (s₁.trace ++ [.logWrite]) = s₂ at hstore ⊢
      rw [← hstore.disk] at hheld ⊢
      have hcost : loopCost ip s₂.disk (off + chunk src.length off)
          (src.drop (chunk src.length off)).length ≤ 2 * t := by
        rw [← hrest, hlen]
        exact loopCost_le ..
      have hmax' : off + chunk src.length off + (src.drop (chunk src.length off)).length ≤
          maxFile * bSize := by
        rw [hlen]
        omega
      have hloop := ih (src.length - chunk src.length off) (by omega) hheld htype'
        (by rw [hself]; exact hstore.din) (by rw [hstore.buf]; exact hbuf₁) hmax'
        (by rw [hself]; exact hstore.room.congr rfl (by omega)) hlen
      rw [hself] at hloop
      refine hloop.mono ?_
      rintro r stop s₃ - ⟨hstop, hchanged⟩
      exact ⟨hstop, hmap.trans (hstore.trans hchanged)⟩

theorem iupdate_passes (hbuf : s.buf (sb.iblock (s.icache j).inum) = none)
    (h : Fits T M (k + 1) s) : Passes T (iupdate sb p j) s ()
      (s.wrote (sb.putDinode s.disk (s.icache j).inum (s.icache j).din)
        (Log.absorb (UInt32.ofNat (sb.iblock (s.icache j).inum)) s.log.lh)
        (s.trace ++ [.logWrite])) := by
  refine Passes.bind (.ok (runS_inumOf ..)) (Passes.bind (.ok (runS_bread hbuf)) ?_)
  exact Passes.bind (.ok (runS_core ..)) (store_passes hbuf h)

/-- New fields are written to the disk. -/
theorem setCore_iupdate_passes (hinum : (s.icache j).inum = i) (hbuf : s.buf (sb.iblock i) = none)
    (f : Dinode → Dinode) (hf : f (s.icache j).din = ip) (h : Fits T M (k + 1) s) :
    Passes T (do setCore j f; iupdate sb p j) s ()
      ((s.wrote (sb.putDinode s.disk i ip) (Log.absorb (UInt32.ofNat (sb.iblock i)) s.log.lh)
        (s.trace ++ [.logWrite])).setDin j ip) := by
  have hinum' : ((s.setDin j ip).icache j).inum = i := by rw [State.setDin_icache]; exact hinum
  have hdin : ((s.setDin j ip).icache j).din = ip := by rw [State.setDin_icache]
  have hroom : Fits T M (k + 1) (s.setDin j ip) := h.congr rfl le_rfl
  have hup := iupdate_passes (p := p) (by rw [hinum']; exact hbuf) hroom
  rw [hinum', hdin] at hup
  refine Passes.bind (.ok (runS_setCore ..)) ?_
  rw [hf]
  exact hup

theorem Changed.iupdate (hroom : Fits T M (k + 1 + indirectCost ip s.log.lh) s)
    (haddr : ip'.addr nDirect = ip.addr nDirect) :
    Changed T M k j s d ip' ((s.wrote d (Log.absorb a s.log.lh) tr).setDin j ip') where
  state := ⟨_, _, rfl⟩
  room := by
    have hlen := Log.length_absorb_le a s.log.lh
    have hcost := indirectCost_mono haddr (subset_absorb a s.log.lh)
    have hwrote : Fits T M (k + indirectCost ip' (Log.absorb a s.log.lh))
        (s.wrote d (Log.absorb a s.log.lh) tr) := hroom.wrote (by omega)
    exact hwrote.congr rfl le_rfl
  keep := subset_absorb ..

/-- **`writei`**, on an inode that is no device. -/
theorem writei_follows (h : Held sb ino s.disk) (hsb : sb.Layout) (hi : i < sb.ninodes)
    (htype : (ino i).type ≠ 0) (hdev : (ino i).type ≠ tDev) (hcore : (s.icache j).din = ino i)
    (hinum : (s.icache j).inum = i) (hbuf : ∀ b, s.buf b = none) (dev : Devsw)
    (hroom : Fits T M (k + 2 + indirectCost (ino i) s.log.lh +
      loopCost (ino i) s.disk off src.length) s) :
    Follows T (writei sb p j off src) s (InuOs.writei sb dev s.disk i (ino i) off src) (Fits T M 1)
      fun r a s' => a = r.2.2 ∧ Changed T M (k + 1) j s r.1 r.2.1 s' := by
  have hsame : Changed T M (k + 1) j s s.disk (ino i) s :=
    .refl (hroom.mono (by omega)) hcore
  rw [writei, InuOs.writei]
  refine Follows.step (runS_get ..) ?_
  rw [hcore, if_neg hdev, if_neg hdev]
  split
  · exact Follows.pure ⟨rfl, hsame⟩
  split
  · exact Follows.pure ⟨rfl, hsame⟩
  · next hmax =>
    refine (writeiLoop_follows (k := k + 1) h hsb hi htype hcore hbuf (Nat.le_of_not_lt hmax)
      (hroom.congr rfl (by omega))).bind ?_
    rintro ⟨d, ip, _⟩ stop s₁ hf ⟨rfl, hloop⟩
    dsimp only at hloop ⊢
    refine Follows.step (runS_core ..) ?_
    rw [hloop.din]
    split
    · next hgrow =>
      rw [when_pos hgrow]
      have hblk : s₁.buf (sb.iblock i) = none := by rw [hloop.buf]; exact hbuf _
      have hnew : { (s₁.icache j).din with size := UInt32.ofNat stop } =
          { ip with size := UInt32.ofNat stop } := by rw [hloop.din]
      have hroom₁ : Fits T M (0 + 1) s₁ := hloop.room.mono (by omega)
      have hsize := setCore_iupdate_passes (p := p) (hloop.inum.trans hinum) hblk
        (fun din => { din with size := UInt32.ofNat stop }) hnew hroom₁
      rw [hloop.disk] at hsize
      exact Follows.pass hsize (Follows.pure ⟨rfl, hloop.trans (Changed.iupdate hloop.room rfl)⟩)
    · next hgrow =>
      rw [when_neg hgrow]
      refine Follows.step (runS_pure ..) (Follows.pure ⟨rfl, ?_⟩)
      exact hloop.mono (Nat.le_succ _)

end Write

end InuOs.Syscall
