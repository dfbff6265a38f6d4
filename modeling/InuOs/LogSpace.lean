import InuOs.Lib.Run
import InuOs.Lib.Tally
import InuOs.Log
import Mathlib.Algebra.BigOperators.Ring.Finset
import Mathlib.Algebra.Order.BigOperators.Group.Finset
import Mathlib.Data.Fintype.BigOperators

/-!
# Space in the log, under concurrent operations

File-system calls bracket their block writes with `begin_op` and `end_op`, and `begin_op` admits a
caller only while `lh.n + (outstanding+1)*MAXOPBLOCKS <= LOGSIZE`. This module runs any number of
operations against one log descriptor, interleaved at every point where `log.lock` is not held.

* `LogSys` is the descriptor together with what each process has logged in its current operation.
  `log_write` is **two** events, because its `panic` tests read `lh.n` before `log.lock` is taken:
  `check` (the tests) and `record` (the scan and the append under the lock).
* `LogSys.Reserved` is what the admission test achieves: the blocks already logged and the blocks
  the outstanding operations may still log fit in `LOGSIZE` together. It is an invariant of every
  run, so the header array is never overrun.
* `LOGSIZE` is also the length of the **region** mkfs makes (`sb.nlog = LOGSIZE`), header block
  included, so the region has one slot fewer than `begin_op` hands out. `slotAvailable_iff` says
  exactly which runs stay clear of the missing slot.
-/

namespace InuOs

open Run

/-! ## The interleaved system -/

/-- What a process inside `begin_op` .. `end_op` has done. -/
structure OpState : Type where
  /-- the distinct blocks it has passed to `log_write` -/
  logged : List UInt32
  /-- the block of a `log_write` that has passed its tests and waits for `log.lock` -/
  pending : Option UInt32
  deriving DecidableEq, Repr

/-- The log descriptor and the operations in progress; `P` is the type of processes. -/
structure LogSys (P : Type) : Type where
  /-- the log descriptor -/
  log : Log
  /-- the operation each process is in -/
  op : P → Option OpState
  /-- the `panic` that stopped the machine -/
  halted : Option Panic

/-- The steps of the processes that touch the log. -/
inductive LogEv (P : Type) : Type where
  /-- a pass of `begin_op` that admits `p` -/
  | beginOp (p : P)
  /-- `p` enters `log_write` on block `b` and makes its two tests -/
  | check (p : P) (b : UInt32)
  /-- `p` holds `log.lock` in `log_write` and records `b` -/
  | record (p : P) (b : UInt32)
  /-- `end_op` up to the release of `log.lock` -/
  | endOp (p : P)
  /-- the last `end_op` runs `commit` and clears `committing` -/
  | commit
  deriving DecidableEq

/-- What `commit` does to the descriptor. -/
def Log.commit (l : Log) : Log := if 0 < l.lh.length then { l with lh := [] } else l

namespace LogSys

variable {P : Type} [DecidableEq P]

/-- Freshly booted from mkfs's image: the region has `sb.nlog = LOGSIZE` blocks. -/
def boot (P : Type) (start : ℕ) : LogSys P where
  log := { start := start, size := logSize, outstanding := 0, committing := false, lh := [] }
  op := fun _ => none
  halted := none

/-- One step; `none` when the process is not at that point of its code, or sleeps. An operation may
log at most `maxOpBlocks` distinct blocks, in any order and with any repetition. -/
def step (s : LogSys P) (e : LogEv P) : Option (LogSys P) :=
  if s.halted.isSome then none else
  match e with
  | .beginOp p =>
    match s.op p with
    | some _ => none
    | none => s.log.beginOp.map fun l =>
        { s with log := l, op := Function.update s.op p (some ⟨[], none⟩) }
  | .check p b =>
    match s.op p with
    | some ⟨logged, none⟩ =>
      if (Log.absorb b logged).length ≤ maxOpBlocks then
        match s.log.logWriteCheck with
        | .error m => some { s with halted := some m }
        | .ok () =>
          some { s with op := Function.update s.op p (some ⟨Log.absorb b logged, some b⟩) }
      else none
    | _ => none
  | .record p b =>
    match s.op p with
    | some ⟨logged, some c⟩ =>
      if c = b then
        some { s with
          log := s.log.record b, op := Function.update s.op p (some ⟨logged, none⟩) }
      else none
    | _ => none
  | .endOp p =>
    match s.op p with
    | some ⟨_, none⟩ =>
      match s.log.endOp with
      | .error m => some { s with halted := some m }
      | .ok (l, _) => some { s with log := l, op := Function.update s.op p none }
    | _ => none
  | .commit =>
    if s.log.committing then some { s with log := s.log.commit.endCommit } else none

/-! ## What each step does -/

section Inversion

variable {s s' : LogSys P} {p : P} {b : UInt32}

theorem step_beginOp (h : s.step (.beginOp p) = some s') :
    s.op p = none ∧ s.log.Admits ∧
      s' = { s with
        log := { s.log with outstanding := s.log.outstanding + 1 }
        op := Function.update s.op p (some ⟨[], none⟩) } := by
  simp only [step] at h
  split at h
  · cases h
  · rcases hop : s.op p with _ | o
    · rw [hop] at h
      by_cases ha : s.log.Admits
      · rw [Log.beginOp, if_pos ha] at h
        exact ⟨rfl, ha, (Option.some.inj h).symm⟩
      · rw [Log.beginOp, if_neg ha] at h
        cases h
    · rw [hop] at h
      cases h

theorem step_check (h : s.step (.check p b) = some s') :
    ∃ logged, s.op p = some ⟨logged, none⟩ ∧ (Log.absorb b logged).length ≤ maxOpBlocks ∧
      ((∃ m, s.log.logWriteCheck = .error m ∧ s' = { s with halted := some m }) ∨
        (s.log.logWriteCheck = .ok () ∧
          s' = { s with op := Function.update s.op p (some ⟨Log.absorb b logged, some b⟩) })) := by
  simp only [step] at h
  split at h
  · cases h
  · rcases hop : s.op p with _ | ⟨logged, _ | c⟩ <;> rw [hop] at h
    · cases h
    · refine ⟨logged, rfl, ?_⟩
      dsimp only at h
      split at h
      · next hlen =>
        refine ⟨hlen, ?_⟩
        rcases hc : s.log.logWriteCheck with m | u <;> rw [hc] at h
        · exact .inl ⟨m, rfl, (Option.some.inj h).symm⟩
        · exact .inr ⟨rfl, (Option.some.inj h).symm⟩
      · cases h
    · cases h

theorem step_record (h : s.step (.record p b) = some s') :
    ∃ logged, s.op p = some ⟨logged, some b⟩ ∧
      s' = { s with
        log := s.log.record b, op := Function.update s.op p (some ⟨logged, none⟩) } := by
  simp only [step] at h
  split at h
  · cases h
  · rcases hop : s.op p with _ | ⟨logged, _ | c⟩ <;> rw [hop] at h
    · cases h
    · cases h
    · dsimp only at h
      split at h
      · next hcb =>
        subst hcb
        exact ⟨logged, rfl, (Option.some.inj h).symm⟩
      · cases h

/-- `end_op` never takes the descriptor of a committing log any further. -/
theorem step_endOp (h : s.step (.endOp p) = some s') :
    ∃ logged, s.op p = some ⟨logged, none⟩ ∧
      ((s.log.committing = true ∧ s' = { s with halted := some .logCommitting }) ∨
        (s.log.committing = false ∧
          s' = { s with
            log := { s.log with
              outstanding := s.log.outstanding - 1
              committing := decide (s.log.outstanding - 1 = 0) }
            op := Function.update s.op p none })) := by
  simp only [step] at h
  split at h
  · cases h
  · rcases hop : s.op p with _ | ⟨logged, _ | c⟩ <;> rw [hop] at h
    · cases h
    · refine ⟨logged, rfl, ?_⟩
      simp only [Log.endOp] at h
      rcases hc : s.log.committing with _ | _ <;> rw [hc] at h
      · refine .inr ⟨rfl, ?_⟩
        rcases eq_or_ne (s.log.outstanding - 1) 0 with h0 | h0
        · rw [if_neg Bool.false_ne_true, if_pos h0] at h
          rw [← Option.some.inj h, decide_eq_true h0]
        · rw [if_neg Bool.false_ne_true, if_neg h0] at h
          rw [← Option.some.inj h, decide_eq_false h0]
      · exact .inl ⟨rfl, (Option.some.inj h).symm⟩
    · cases h

theorem step_commit (h : s.step .commit = some s') :
    s.log.committing = true ∧
      s' = { s with log := { s.log with lh := [], committing := false } } := by
  simp only [step] at h
  split at h
  · cases h
  · split at h
    · next hc =>
      refine ⟨hc, ?_⟩
      rw [← Option.some.inj h, Log.commit]
      split
      · rfl
      · next hlen =>
        have hnil : s.log.lh = [] := List.length_eq_zero_iff.mp (Nat.eq_zero_of_not_pos hlen)
        rw [Log.endCommit, hnil]
    · cases h

end Inversion

/-! ## What the admission test reserves -/

/-- How many blocks the operation `o` may still add to the header `lh`. -/
def slack (lh : List UInt32) : Option OpState → ℕ
  | none => 0
  | some o =>
    maxOpBlocks - o.logged.length + match o.pending with
      | none => 0
      | some b => if b ∈ lh then 0 else 1

@[simp] theorem slack_none (lh : List UInt32) : slack lh none = 0 := rfl

@[simp] theorem slack_some (lh logged : List UInt32) :
    slack lh (some ⟨logged, none⟩) = maxOpBlocks - logged.length := rfl

@[simp] theorem slack_pending (lh logged : List UInt32) (b : UInt32) :
    slack lh (some ⟨logged, some b⟩) =
      maxOpBlocks - logged.length + if b ∈ lh then 0 else 1 := rfl

/-- An operation's book-keeping agrees with the header `lh`. -/
structure OpState.Sound (lh : List UInt32) (o : OpState) : Prop where
  /-- what it logged is in the header, except for the block it is about to record -/
  logged : ∀ b ∈ o.logged, b ∈ lh ∨ o.pending = some b
  /-- the block it is about to record counts as logged -/
  pending : ∀ b, o.pending = some b → b ∈ o.logged
  /-- it keeps to the limit -/
  length : o.logged.length ≤ maxOpBlocks

/-- One for a process inside an operation. -/
def running : Option OpState → ℕ
  | none => 0
  | some _ => 1

@[simp] theorem running_none : running none = 0 := rfl

@[simp] theorem running_some (o : OpState) : running (some o) = 1 := rfl

section Reservation

variable [Fintype P]

/-- What `begin_op`'s test achieves: the header and everything the outstanding operations may still
log fit in `LOGSIZE` together. -/
structure Reserved (s : LogSys P) : Prop where
  /-- each operation's book-keeping is sound -/
  sound : ∀ p o, s.op p = some o → OpState.Sound s.log.lh o
  /-- `outstanding` counts the operations -/
  outstanding : s.log.outstanding = ∑ p, running (s.op p)
  /-- a committing log has no operation -/
  idle : s.log.committing = true → ∀ p, s.op p = none
  /-- the reservation -/
  space : s.log.lh.length + ∑ p, slack s.log.lh (s.op p) ≤ logSize

omit [DecidableEq P] [Fintype P] in
/-- An operation never claims more than `MAXOPBLOCKS` further blocks. -/
theorem slack_le {lh : List UInt32} {o : OpState} (h : OpState.Sound lh o) :
    slack lh (some o) ≤ maxOpBlocks := by
  rcases o with ⟨logged, _ | b⟩
  · exact Nat.sub_le _ _
  · have hmem : b ∈ logged := h.pending b rfl
    have hpos : 0 < logged.length := List.length_pos_of_mem hmem
    have hlen : logged.length ≤ maxOpBlocks := h.length
    rw [slack_pending]
    split <;> omega

omit [DecidableEq P] in
/-- The blocks that may still be logged, against the operations that may log them. -/
theorem sum_slack_le {s : LogSys P} (h : s.Reserved) :
    ∑ p, slack s.log.lh (s.op p) ≤ (∑ p, running (s.op p)) * maxOpBlocks := by
  rw [Finset.sum_mul]
  refine Finset.sum_le_sum fun p _ => ?_
  rcases hop : s.op p with _ | o
  · simp
  · simpa using slack_le (h.sound p o hop)

omit [DecidableEq P] [Fintype P] in
/-- A longer header leaves an operation less to add. -/
theorem slack_mono {lh lh' : List UInt32} (h : ∀ b ∈ lh, b ∈ lh') (o : Option OpState) :
    slack lh' o ≤ slack lh o := by
  rcases o with _ | ⟨logged, _ | b⟩
  · exact le_rfl
  · exact le_rfl
  · simp only [slack_pending]
    by_cases hb : b ∈ lh
    · rw [if_pos hb, if_pos (h b hb)]
    · split <;> omega

omit [DecidableEq P] [Fintype P] in
theorem OpState.Sound.mono {lh lh' : List UInt32} {o : OpState} (h : OpState.Sound lh o)
    (hlh : ∀ b ∈ lh, b ∈ lh') : OpState.Sound lh' o := { h with
  logged b hb := (h.logged b hb).imp_left (hlh b) }

omit [DecidableEq P] in
theorem reserved_boot (start : ℕ) : (boot P start).Reserved where
  sound _ _ h := by cases h
  outstanding := by simp [boot]
  idle h := by cases h
  space := by simp [boot]

variable {s s' : LogSys P} {p : P} {b : UInt32}

omit [Fintype P] in
/-- Soundness is checked for the process that moved and carried over for the others. -/
theorem sound_update {op : P → Option OpState} {lh lh' : List UInt32}
    (h : ∀ q o, op q = some o → OpState.Sound lh o) (hlh : ∀ b ∈ lh, b ∈ lh')
    {o' : Option OpState} (ho' : ∀ o, o' = some o → OpState.Sound lh' o) :
    ∀ q o, Function.update op p o' q = some o → OpState.Sound lh' o := by
  intro q o hq
  rcases eq_or_ne q p with rfl | hne
  · rw [Function.update_self] at hq
    exact ho' o hq
  · rw [Function.update_of_ne hne] at hq
    exact (h q o hq).mono hlh

theorem Reserved.beginOp (h : s.Reserved) (hs : s.step (.beginOp p) = some s') : s'.Reserved := by
  obtain ⟨hop, ⟨hcommit, hadm⟩, rfl⟩ := step_beginOp hs
  have hrun := sum_update running s.op (Finset.mem_univ p) (some ⟨[], none⟩)
  have hslack := sum_update (slack s.log.lh) s.op (Finset.mem_univ p) (some ⟨[], none⟩)
  rw [hop] at hrun hslack
  refine ⟨sound_update h.sound (fun _ hb => hb) ?_, ?_, fun hc => ?_, ?_⟩
  · rintro o ⟨⟩
    exact ⟨by simp, by simp, by simp⟩
  · simp only [h.outstanding]
    simp only [running_some, running_none] at hrun
    omega
  · rw [hcommit] at hc
    cases hc
  · -- the test bounds the header and `outstanding + 1` full reservations
    have hle := sum_slack_le h
    have hout := h.outstanding
    simp only [slack_some, slack_none, List.length_nil] at hslack
    unfold maxOpBlocks at *
    dsimp only
    omega

theorem Reserved.check (h : s.Reserved) (hs : s.step (.check p b) = some s') : s'.Reserved := by
  obtain ⟨logged, hop, hlen, ⟨m, -, rfl⟩ | ⟨-, rfl⟩⟩ := step_check hs
  · exact ⟨h.sound, h.outstanding, h.idle, h.space⟩
  have hsound := h.sound p _ hop
  have hrun := sum_update running s.op (Finset.mem_univ p) (some ⟨Log.absorb b logged, some b⟩)
  have hslack := sum_update (slack s.log.lh) s.op (Finset.mem_univ p)
    (some ⟨Log.absorb b logged, some b⟩)
  rw [hop] at hrun hslack
  refine ⟨sound_update h.sound (fun _ hb => hb) ?_, ?_, fun hc q => ?_, ?_⟩
  · rintro o ⟨⟩
    refine ⟨fun c hc => ?_, ?_, hlen⟩
    · rcases Log.mem_absorb.mp hc with rfl | hc
      · exact .inr rfl
      · exact .inl ((hsound.logged c hc).resolve_right (by simp))
    · rintro c ⟨⟩
      exact Log.mem_absorb.mpr (.inl rfl)
  · simp only [running_some] at hrun
    simp only [h.outstanding]
    omega
  · rw [h.idle hc p] at hop
    cases hop
  · -- a block logged before is in the header already, a new one uses up one of the `MAXOPBLOCKS`
    have hspace := h.space
    simp only [slack_some, slack_pending] at hslack
    by_cases hb : b ∈ logged
    · rw [Log.absorb_of_mem hb] at hslack hlen ⊢
      rw [if_pos ((hsound.logged b hb).resolve_right (by simp))] at hslack
      dsimp only
      omega
    · rw [Log.absorb_of_not_mem hb] at hslack hlen ⊢
      rw [List.length_append, List.length_singleton] at hslack hlen
      split at hslack <;> dsimp only <;> omega

theorem Reserved.record (h : s.Reserved) (hs : s.step (.record p b) = some s') :
    s'.Reserved := by
  obtain ⟨logged, hop, rfl⟩ := step_record hs
  have hsound := h.sound p _ hop
  have hgrow : ∀ c ∈ s.log.lh, c ∈ Log.absorb b s.log.lh :=
    fun c hc => Log.mem_absorb.mpr (.inr hc)
  have hrun := sum_update running s.op (Finset.mem_univ p) (some ⟨logged, none⟩)
  have hslack := sum_update (slack s.log.lh) s.op (Finset.mem_univ p) (some ⟨logged, none⟩)
  rw [hop] at hrun hslack
  refine ⟨sound_update h.sound hgrow ?_, ?_, fun hc q => ?_, ?_⟩
  · rintro o ⟨⟩
    refine ⟨fun c hc => .inl (Log.mem_absorb.mpr ?_), by simp, hsound.length⟩
    rcases hsound.logged c hc with hc | hc
    · exact .inr hc
    · exact .inl (Option.some.inj hc).symm
  · simp only [Log.record, h.outstanding]
    simp only [running_some] at hrun
    omega
  · rw [h.idle hc p] at hop
    cases hop
  · have hspace := h.space
    have hmono : ∑ q, slack (Log.absorb b s.log.lh)
          (Function.update s.op p (some ⟨logged, none⟩) q) ≤
        ∑ q, slack s.log.lh (Function.update s.op p (some ⟨logged, none⟩) q) :=
      Finset.sum_le_sum fun q _ => slack_mono hgrow _
    simp only [slack_some, slack_pending] at hslack
    simp only [Log.record]
    by_cases hb : b ∈ s.log.lh
    · rw [Log.absorb_of_mem hb] at hmono ⊢
      omega
    · rw [if_neg hb] at hslack
      rw [Log.absorb_of_not_mem hb] at hmono ⊢
      rw [List.length_append, List.length_singleton]
      omega

theorem Reserved.endOp (h : s.Reserved) (hs : s.step (.endOp p) = some s') : s'.Reserved := by
  obtain ⟨logged, hop, ⟨-, rfl⟩ | ⟨-, rfl⟩⟩ := step_endOp hs
  · exact ⟨h.sound, h.outstanding, h.idle, h.space⟩
  have hrun := sum_update running s.op (Finset.mem_univ p) none
  have hslack := sum_update (slack s.log.lh) s.op (Finset.mem_univ p) none
  rw [hop] at hrun hslack
  have hcount : s.log.outstanding - 1 =
      ((∑ q, running (Function.update s.op p none q) : ℕ) : ℤ) := by
    rw [h.outstanding]
    simp only [running_some, running_none] at hrun
    omega
  refine ⟨sound_update h.sound (fun _ hb => hb) (by simp), hcount, fun hc q => ?_, ?_⟩
  · -- the last operation has left
    dsimp only at hc ⊢
    rw [hcount, decide_eq_true_iff, Nat.cast_eq_zero, Finset.sum_eq_zero_iff] at hc
    rcases hq : Function.update s.op p none q with _ | o
    · rfl
    · have := hc q (Finset.mem_univ q)
      rw [hq] at this
      cases this
  · have hspace := h.space
    rw [slack_none] at hslack
    dsimp only
    omega

theorem Reserved.commit (h : s.Reserved) (hs : s.step .commit = some s') : s'.Reserved := by
  obtain ⟨hc, rfl⟩ := step_commit hs
  have hnone := h.idle hc
  refine ⟨fun q o hq => ?_, h.outstanding, fun hc => (by cases hc), ?_⟩
  · rw [hnone q] at hq
    cases hq
  · simp [hnone]

theorem Reserved.step (h : s.Reserved) {e : LogEv P} (hs : s.step e = some s') : s'.Reserved := by
  cases e with
  | beginOp p => exact h.beginOp hs
  | check p b => exact h.check hs
  | record p b => exact h.record hs
  | endOp p => exact h.endOp hs
  | commit => exact h.commit hs

section

variable {start : ℕ} {es : List (LogEv P)} (h : exec LogSys.step (boot P start) es = some s)
include h

/-- **The admission test works as a reservation.** In every run the header and the blocks that may
still be logged fit in `LOGSIZE`. -/
theorem reserved_run : s.Reserved :=
  exec_invariant (fun _ _ _ hs hstep => Reserved.step hs hstep) (reserved_boot start) h

/-- **What `begin_op` promises**, however operations overlap: the header and all that they may still
log fit in `block[LOGSIZE]`, `outstanding` counts them, and none is in progress during a commit. -/
theorem admission_run : s.log.lh.length + ∑ p, slack s.log.lh (s.op p) ≤ logSize ∧
    s.log.outstanding = ∑ p, running (s.op p) ∧ (s.log.committing = true → ∀ p, s.op p = none) := by
  obtain ⟨-, houtstanding, hidle, hspace⟩ := reserved_run h
  exact ⟨hspace, houtstanding, hidle⟩

/-- No operation ends while the log commits. -/
theorem not_logCommitting : s.halted ≠ some Panic.logCommitting := by
  refine (exec_invariant
    (I := fun s => s.Reserved ∧ s.halted ≠ some .logCommitting) ?_ ⟨reserved_boot start, ?_⟩ h).2
  · rintro s e s' ⟨hres, hhalt⟩ hs
    refine ⟨hres.step hs, ?_⟩
    cases e with
    | beginOp p =>
      obtain ⟨-, -, rfl⟩ := step_beginOp hs
      exact hhalt
    | check p b =>
      obtain ⟨_, -, -, ⟨m, hm, rfl⟩ | ⟨-, rfl⟩⟩ := step_check hs
      · unfold Log.logWriteCheck at hm
        split at hm
        · cases hm
          simp
        · split at hm
          · cases hm
            simp
          · cases hm
      · exact hhalt
    | record p b =>
      obtain ⟨_, -, rfl⟩ := step_record hs
      exact hhalt
    | endOp p =>
      obtain ⟨_, hop, ⟨hc, rfl⟩ | ⟨-, rfl⟩⟩ := step_endOp hs
      · rw [hres.idle hc p] at hop
        cases hop
      · exact hhalt
    | commit =>
      obtain ⟨-, rfl⟩ := step_commit hs
      exact hhalt
  · simp [boot]

end

theorem admission_run_two : ∃ s, exec LogSys.step (boot (Fin 3) 2)
    [.beginOp 0, .beginOp 1] = some s ∧ s.log.outstanding = ∑ p, running (s.op p) :=
  ⟨_, rfl,
    (admission_run (rfl : exec LogSys.step (boot (Fin 3) 2) [.beginOp 0, .beginOp 1] = _)).2.1⟩

theorem not_logCommitting_commit :
    ∃ s, exec LogSys.step (boot (Fin 3) 2) [.beginOp 0, .endOp 0, .commit] = some s ∧
      s.halted ≠ some .logCommitting :=
  ⟨_, rfl, not_logCommitting
    (rfl : exec LogSys.step (boot (Fin 3) 2) [.beginOp 0, .endOp 0, .commit] = _)⟩

end Reservation

/-! ## The slot that is missing -/

/-- What a step needs of the log region: the tests of `log_write` pass, and a block that is not in
the header yet finds a slot in the header array and in the region. -/
def SlotAvailable (s : LogSys P) : LogEv P → Prop
  | .check p b => ∀ s', s.step (.check p b) = some s' → s'.halted ≠ some .tooBigATransaction
  | .record _ b =>
    b ∈ s.log.lh ∨ s.log.lh.length < logSize ∧ s.log.lh.length + 1 < s.log.size
  | _ => True

/-- The blocks recorded since the last commit. -/
def groupBlocks : List (LogEv P) → List UInt32 :=
  List.foldl (fun bs e => match e with
    | .record _ b => Log.absorb b bs
    | .commit => []
    | _ => bs) []

/-- The steps that keep clear of the missing slot: `log_write` is entered while fewer than
`LOGSIZE - 1` blocks have been logged since the last commit, and so it stays until it holds
`log.lock`, unless its block has been logged by then. -/
def BelowRegion (hist : List (LogEv P)) : LogEv P → Prop
  | .check _ _ => (groupBlocks hist).length < logSize - 1
  | .record _ b => b ∈ groupBlocks hist ∨ (groupBlocks hist).length < logSize - 1
  | _ => True

omit [DecidableEq P] in
theorem groupBlocks_concat (hist : List (LogEv P)) (e : LogEv P) :
    groupBlocks (hist ++ [e]) = match e with
      | .record _ b => Log.absorb b (groupBlocks hist)
      | .commit => []
      | _ => groupBlocks hist := by
  rw [groupBlocks, List.foldl_append]
  rfl

/-- The header is a function of the events. -/
def Tracks (hist : List (LogEv P)) (s : LogSys P) : Prop :=
  s.log.lh = groupBlocks hist ∧ s.log.size = logSize

theorem Tracks.step {hist : List (LogEv P)} {s s' : LogSys P} {e : LogEv P} (h : Tracks hist s)
    (hs : s.step e = some s') : Tracks (hist ++ [e]) s' := by
  rw [Tracks, groupBlocks_concat]
  cases e with
  | beginOp p =>
    obtain ⟨-, -, rfl⟩ := step_beginOp hs
    exact h
  | check p b =>
    obtain ⟨_, -, -, ⟨m, -, rfl⟩ | ⟨-, rfl⟩⟩ := step_check hs
    · exact h
    · exact h
  | record p b =>
    obtain ⟨_, -, rfl⟩ := step_record hs
    exact ⟨congrArg (Log.absorb b) h.1, h.2⟩
  | endOp p =>
    obtain ⟨_, -, ⟨-, rfl⟩ | ⟨-, rfl⟩⟩ := step_endOp hs
    · exact h
    · exact h
  | commit =>
    obtain ⟨-, rfl⟩ := step_commit hs
    exact ⟨rfl, h.2⟩

/-- Only a running machine takes steps. -/
theorem halted_of_step {s s' : LogSys P} {e : LogEv P} (hs : s.step e = some s') :
    s.halted = none := by
  rcases h : s.halted with _ | m
  · rfl
  · simp [LogSys.step, h] at hs

/-- The first test of `log_write`, on mkfs's geometry: the region's bound is the tighter one. -/
theorem logWriteCheck_tooBig {l : Log} (hsize : l.size = logSize) :
    l.logWriteCheck = .error .tooBigATransaction ↔ logSize - 1 ≤ l.lh.length := by
  have hcond : (logSize ≤ l.lh.length ∨ (l.size : ℤ) - 1 ≤ l.lh.length) ↔
      logSize - 1 ≤ l.lh.length := by
    omega
  rw [← hcond, Log.logWriteCheck]
  split
  · next h => exact ⟨fun _ => h, fun _ => rfl⟩
  · next h =>
    refine ⟨fun he => ?_, fun hle => absurd hle h⟩
    split at he <;> cases he

theorem Tracks.slotAvailable {hist : List (LogEv P)} {s s' : LogSys P} {e : LogEv P}
    (h : Tracks hist s) (hs : s.step e = some s') : SlotAvailable s e ↔ BelowRegion hist e := by
  cases e with
  | beginOp p => exact Iff.rfl
  | endOp p => exact Iff.rfl
  | commit => exact Iff.rfl
  | check p b =>
    have hcheck := logWriteCheck_tooBig h.2
    rw [h.1] at hcheck
    have hhalt : SlotAvailable s (.check p b) ↔ s'.halted ≠ some .tooBigATransaction := by
      refine ⟨fun hP => hP s' hs, fun hP s'' hs'' => ?_⟩
      obtain rfl := Option.some.inj (hs.symm.trans hs'')
      exact hP
    rw [hhalt, BelowRegion, ← not_le, ← hcheck, not_iff_not]
    obtain ⟨_, -, -, ⟨m, hm, rfl⟩ | ⟨hok, rfl⟩⟩ := step_check hs
    · rw [hm]
      simp
    · rw [hok]
      simp [halted_of_step hs]
  | record p b =>
    rw [SlotAvailable, BelowRegion, h.1, h.2]
    refine or_congr_right ?_
    omega

/-- **Which runs stay clear of the missing slot.** In a run of any number of operations, no
`log_write` panics and every new block finds a slot exactly when each `log_write` is entered, and
each new block recorded, while fewer than `LOGSIZE - 1` blocks have been logged since the last
commit. -/
theorem slotAvailable_iff {P : Type} [DecidableEq P] (start : ℕ) (es : List (LogEv P))
    (s : LogSys P) (h : exec LogSys.step (boot P start) es = some s) :
    EachStep LogSys.step SlotAvailable (boot P start) es ↔ EachPoint BelowRegion [] es :=
  eachStep_iff_eachPoint (R := Tracks) (fun _ _ _ _ => Tracks.step)
    (fun _ _ _ _ => Tracks.slotAvailable) ⟨rfl, rfl⟩ h

/-- `log_write` by process `p` on each block of a list, each one run to its end. -/
def logWrites {P : Type} (p : P) (bs : List UInt32) : List (LogEv P) :=
  bs.flatMap fun b => [.check p b, .record p b]

/-- One operation that logs ten blocks and then logs the first of them again. -/
theorem slotAvailable_iff_one_op :
    EachStep LogSys.step SlotAvailable (boot (Fin 3) 2)
        (.beginOp 0 :: logWrites 0 [100, 101, 102, 103, 104, 105, 106, 107, 108, 109, 100]) ↔
      EachPoint BelowRegion []
        (.beginOp (0 : Fin 3) ::
          logWrites 0 [100, 101, 102, 103, 104, 105, 106, 107, 108, 109, 100]) :=
  slotAvailable_iff 2 _ _ rfl

/-- Three admitted operations, ten blocks each but for the last one, which has logged nine. -/
def fullReservation : List (LogEv (Fin 3)) :=
  [.beginOp 0, .beginOp 1, .beginOp 2] ++
    logWrites 0 [100, 101, 102, 103, 104, 105, 106, 107, 108, 109] ++
    logWrites 1 [110, 111, 112, 113, 114, 115, 116, 117, 118, 119] ++
    logWrites 2 [120, 121, 122, 123, 124, 125, 126, 127, 128]

/-- Three operations are admitted together, but the third one's tenth block panics, and so does
logging again a block that is in the log. -/
theorem fullReservation_panics :
    ((exec LogSys.step (boot (Fin 3) 2) (fullReservation ++ [.check 2 129])).map
        fun s => s.halted) = some (some .tooBigATransaction) ∧
      ((exec LogSys.step (boot (Fin 3) 2) (fullReservation ++ [.check 0 100])).map
        fun s => s.halted) = some (some .tooBigATransaction) := by
  constructor <;> rfl

end LogSys

end InuOs
