import InuOs.Log

/-!
# Crash atomicity of the redo log

The log is crash safe: whatever bwrite of whatever commit the machine stops after, and however often
recovery itself is cut short, `recover_from_log` ends with the home blocks as the last committed
transaction left them, and an empty header.

The argument is one invariant, `Recoverable H d lh`: the header block of the disk `d` names the
blocks `lh`, the log slots hold what `H` assigns to those blocks, and every other home block already
holds its content under `H`. With an empty `lh` it says that the home blocks *are* `H`. Log-slot
writes keep it while the header is empty, the commit write trades the old `H` for the new one in a
single step, and each install write keeps it — which is all that idempotence of `install_trans`
amounts to.
-/

namespace InuOs

open Crash

/-- A block outside the log region. -/
def Home (start size b : ℕ) : Prop := b < start ∨ start + size ≤ b

instance (start size b : ℕ) : Decidable (Home start size b) := inferInstanceAs (Decidable (_ ∨ _))

/-- The blocks a transaction passes to `log_write`, with the content each is given. -/
abbrev Tx : Type := List (UInt32 × Block)

/-- The abstract effect of a transaction: all of its blocks, in order. -/
def Tx.apply (t : Tx) (H : ℕ → Block) : ℕ → Block :=
  play (t.map fun w => (w.1.toNat, w.2)) H

/-! ## Transactions, boots and crashes -/

namespace Kernel

/-- The kernel after booting from the disk `d`: an empty descriptor and a cold cache. -/
def boot (start size : ℕ) (d : ℕ → Block) : Kernel where
  log := { start := start, size := size, outstanding := 0, committing := false, lh := [] }
  cache := d
  issued := []

/-- The `log_write`s of a transaction. -/
def logAll (k : Kernel) : Tx → Except Panic Kernel
  | [] => pure k
  | w :: ws => do
    let k ← k.logWrite w.1 w.2
    logAll k ws

/-- A transaction up to its last `end_op`. A caller that `begin_op` leaves asleep does nothing. -/
def logTx (k : Kernel) (t : Tx) : Except Panic Kernel :=
  match k.log.beginOp with
  | none => pure k
  | some l => logAll { k with log := l } t

/-- A transaction with the commit of its last `end_op`. -/
def runTx (k : Kernel) (t : Tx) : Except Panic Kernel := do
  let k ← k.logTx t
  k.endOp

/-- A sequence of transactions; a `panic` stops the machine where it is. -/
def runTxs (k : Kernel) : List Tx → Kernel
  | [] => k
  | t :: ts =>
    match k.runTx t with
    | .error _ => k
    | .ok k' => runTxs k' ts

/-- The kernel once `commit` has issued the write that commits. -/
def commitPoint (k : Kernel) : Kernel := k.writeLog.writeHead

/-- How many of the transactions have their commit-point `write_head` among the first `m` block
writes since boot. A transaction that logged nothing commits by doing nothing. -/
def committed (k : Kernel) : List Tx → ℕ → ℕ
  | [], _ => 0
  | t :: ts, m =>
    match k.logTx t with
    | .error _ => 0
    | .ok k₁ =>
      if 0 < k₁.log.lh.length ∧ m < k₁.commitPoint.issued.length then 0
      else
        match k₁.endOp with
        | .error _ => 0
        | .ok k₂ => committed k₂ ts m + 1

end Kernel

/-- The block writes of one uninterrupted `recover_from_log` on the disk `d`. -/
def recoveryWrites (start size : ℕ) (d : ℕ → Block) : List (ℕ × Block) :=
  (Kernel.boot start size d).recoverFromLog.issued

/-! ## The header block -/

variable {i j start : ℕ} {xs lh bs : List UInt32} {b : Block} {d e : ℕ → Block}

theorem getWord_putBlocks_le (h : j ≤ i) : (putBlocks i xs b).getWord j = b.getWord j := by
  induction xs generalizing i b with
  | nil => rfl
  | cons x xs ih =>
    rw [putBlocks, ih (by omega), Bytes.getWord_setWord_ne (by omega)]

theorem getWord_putBlocks (hj : j < xs.length) (hfit : 4 * (i + xs.length) + 4 ≤ bSize) :
    (putBlocks i xs b).getWord (i + j + 1) = xs[j] := by
  induction xs generalizing i j b with
  | nil => cases hj
  | cons x xs ih =>
    rw [List.length_cons] at hj hfit
    rw [putBlocks]
    cases j with
    | zero =>
      rw [getWord_putBlocks_le (by omega), Bytes.getWord_setWord_self (by omega)]
      rfl
    | succ j =>
      rw [show i + (j + 1) + 1 = i + 1 + j + 1 by omega, ih (by omega) (by omega)]
      rfl

theorem headerCount_putHeader (h : lh.length ≤ logSize) :
    headerCount (putHeader lh b) = lh.length := by
  have hlen : lh.length < 2 ^ 31 := by
    have : logSize < 2 ^ 31 := by decide
    omega
  have hword : (putHeader lh b).getWord 0 = UInt32.ofNat lh.length := by
    rw [putHeader, getWord_putBlocks_le (Nat.le_refl 0), Bytes.getWord_setWord_self (by decide)]
  rw [headerCount, hword, BitVec.toInt_eq_toNat_cond]
  simp only [UInt32.toNat_toBitVec, UInt32.toNat_ofNat']
  omega

/-- What `write_head` writes, `read_head` reads. -/
theorem headerBlocks_putHeader (h : lh.length ≤ logSize) : headerBlocks (putHeader lh b) = lh := by
  have hfit : 4 * lh.length + 4 ≤ bSize := by
    have : 4 * logSize + 4 ≤ bSize := by decide
    omega
  rw [headerBlocks, headerCount_putHeader h]
  apply List.ext_getElem
  · simp
  · intro i h₁ h₂
    simp only [List.getElem_map, List.getElem_range, putHeader]
    have := getWord_putBlocks (i := 0) (b := b.setWord 0 (UInt32.ofNat lh.length)) h₂
      (by omega)
    rwa [Nat.zero_add] at this

/-! ## The two copy loops -/

/-- The writes of `install_trans` from slot `tail` on, when the slots hold what `d` does. -/
def slotCopies (start : ℕ) (d : ℕ → Block) : ℕ → List UInt32 → List (ℕ × Block)
  | _, [] => []
  | tail, b :: bs => (b.toNat, d (start + tail + 1)) :: slotCopies start d (tail + 1) bs

/-- The writes of `write_log` from slot `tail` on, when the cached blocks are `d`. -/
def logCopies (start : ℕ) (d : ℕ → Block) : ℕ → List UInt32 → List (ℕ × Block)
  | _, [] => []
  | tail, b :: bs => (start + tail + 1, d b.toNat) :: logCopies start d (tail + 1) bs

theorem slotCopies_congr {tail : ℕ}
    (h : ∀ i, tail ≤ i → i < tail + bs.length → d (start + i + 1) = e (start + i + 1)) :
    slotCopies start d tail bs = slotCopies start e tail bs := by
  induction bs generalizing tail with
  | nil => rfl
  | cons b bs ih =>
    rw [List.length_cons] at h
    rw [slotCopies, slotCopies, h tail (Nat.le_refl _) (by omega),
      ih fun i h₁ h₂ => h i (by omega) (by omega)]

theorem logCopies_congr {tail : ℕ} (h : ∀ b ∈ bs, d b.toNat = e b.toNat) :
    logCopies start d tail bs = logCopies start e tail bs := by
  induction bs generalizing tail with
  | nil => rfl
  | cons b bs ih =>
    rw [logCopies, logCopies, h b (List.mem_cons_self ..),
      ih fun c hc => h c (List.mem_cons_of_mem _ hc)]

/-- Every block of the header is installed. -/
theorem mem_slotCopies (start : ℕ) (d : ℕ → Block) (tail : ℕ) {b : UInt32} (h : b ∈ bs) :
    ∃ x, (b.toNat, x) ∈ slotCopies start d tail bs := by
  induction bs generalizing tail with
  | nil => cases h
  | cons c cs ih =>
    rcases List.mem_cons.mp h with rfl | h
    · exact ⟨_, List.mem_cons_self ..⟩
    · obtain ⟨x, hx⟩ := ih (tail + 1) h
      exact ⟨x, List.mem_cons_of_mem _ hx⟩

namespace Kernel

/-- The kernel after the block writes `ws`. -/
def after (k : Kernel) (ws : List (ℕ × Block)) : Kernel :=
  { k with cache := play ws k.cache, issued := k.issued ++ ws }

@[simp] theorem after_log (k : Kernel) (ws : List (ℕ × Block)) : (k.after ws).log = k.log := rfl

theorem after_after (k : Kernel) (ws vs : List (ℕ × Block)) :
    (k.after ws).after vs = k.after (ws ++ vs) := by
  simp [after, play_append]

theorem bwrite_eq_after (k : Kernel) (b : ℕ) (data : Block) :
    k.bwrite b data = k.after [(b, data)] := rfl

section

variable (k : Kernel) (tail : ℕ) {bs : List UInt32}
  (hhome : ∀ b ∈ bs, Home k.log.start k.log.size b.toNat) (hroom : tail + bs.length < k.log.size)
include k tail hhome hroom

/-- `install_trans` never reads a slot it has overwritten: the destinations are home blocks. -/
theorem installFrom_eq :
    k.installFrom tail bs = k.after (slotCopies k.log.start k.cache tail bs) := by
  induction bs generalizing k tail with
  | nil => simp [installFrom, slotCopies, after]
  | cons b bs ih =>
    rw [List.length_cons] at hroom
    have hb : Home k.log.start k.log.size b.toNat := hhome b (List.mem_cons_self ..)
    have hnext := ih (k.bwrite b.toNat (k.bread (k.log.start + tail + 1))) (tail + 1)
      (fun c hc => hhome c (List.mem_cons_of_mem _ hc)) (by rw [bwrite_log]; omega)
    rw [installFrom, hnext, bwrite_log, bwrite_cache, bwrite_eq_after, after_after, slotCopies]
    refine congrArg (fun ws => k.after (_ :: ws)) (slotCopies_congr fun i h₁ h₂ => ?_)
    have hne : k.log.start + i + 1 ≠ b.toNat := by
      rcases hb with hb | hb <;> omega
    rw [Function.update_of_ne hne]

/-- `write_log` never reads a block it has overwritten: its sources are home blocks. -/
theorem writeLogFrom_eq :
    k.writeLogFrom tail bs = k.after (logCopies k.log.start k.cache tail bs) := by
  induction bs generalizing k tail with
  | nil => simp [writeLogFrom, logCopies, after]
  | cons b bs ih =>
    rw [List.length_cons] at hroom
    have hrest : ∀ c ∈ bs, Home k.log.start k.log.size c.toNat :=
      fun c hc => hhome c (List.mem_cons_of_mem _ hc)
    have hnext := ih (k.bwrite (k.log.start + tail + 1) (k.bread b.toNat)) (tail + 1) hrest
      (by rw [bwrite_log]; omega)
    rw [writeLogFrom, hnext, bwrite_log, bwrite_cache, bwrite_eq_after, after_after, logCopies]
    refine congrArg (fun ws => k.after (_ :: ws)) (logCopies_congr fun c hc => ?_)
    have hne : c.toNat ≠ k.log.start + tail + 1 := by
      rcases hrest c hc with h | h <;> omega
    rw [Function.update_of_ne hne]

end

end Kernel

/-! ## The invariant -/

/-- On the disk `d` a recovery will produce the home content `H`: the header names the blocks `lh`,
whose content under `H` is in the log slots, and the other home blocks have theirs already. -/
structure Recoverable (start size : ℕ) (H d : ℕ → Block) (lh : List UInt32) : Prop where
  /-- the header on disk -/
  head : headerBlocks (d start) = lh
  /-- the log slots lie in the log region -/
  room : lh.length < size
  /-- the destinations do not -/
  home : ∀ b ∈ lh, Home start size b.toNat
  /-- the log slots hold the committed content -/
  slot : ∀ (i : ℕ) (hi : i < lh.length), d (start + i + 1) = H lh[i].toNat
  /-- the blocks not in the log are in place -/
  rest : ∀ b, Home start size b → (∀ c ∈ lh, c.toNat ≠ b) → d b = H b

namespace Recoverable

variable {start size : ℕ} {H H' d : ℕ → Block} {lh : List UInt32}

/-- An install write keeps the invariant: it only puts a block in place. -/
theorem install_one (h : Recoverable start size H d lh) {b : UInt32} (hb : b ∈ lh) :
    Recoverable start size H (Function.update d b.toNat (H b.toNat)) lh := by
  have hhome := h.home b hb
  have hroom := h.room
  refine ⟨?_, h.room, h.home, ?_, ?_⟩
  · have hne : start ≠ b.toNat := by
      rcases hhome with hlt | hge <;> omega
    rw [Function.update_of_ne hne]
    exact h.head
  · intro i hi
    have hne : start + i + 1 ≠ b.toNat := by
      rcases hhome with hlt | hge <;> omega
    rw [Function.update_of_ne hne]
    exact h.slot i hi
  · intro c hc hnot
    rw [Function.update_of_ne (Ne.symm (hnot b hb))]
    exact h.rest c hc hnot

/-- A whole run of `install_trans` keeps the invariant at every write, and ends with the blocks it
went through in place. The induction is on the blocks still to install. -/
theorem install_from :
    ∀ (pre : List UInt32) {d : ℕ → Block}, pre ++ bs = lh → Recoverable start size H d lh →
      (∀ c ∈ pre, d c.toNat = H c.toNat) →
      Throughout (fun e => Recoverable start size H e lh) (slotCopies start d pre.length bs) d ∧
        ∀ c ∈ lh, play (slotCopies start d pre.length bs) d c.toNat = H c.toNat := by
  induction bs with
  | nil =>
    intro pre d hsplit h hdone
    rw [List.append_nil] at hsplit
    exact ⟨h, fun c hc => hdone c (hsplit ▸ hc)⟩
  | cons b bs ih =>
    intro pre d hsplit h hdone
    have hb : b ∈ lh := hsplit ▸ List.mem_append_right pre (List.mem_cons_self ..)
    have hlen : pre.length < lh.length := by
      rw [← hsplit]
      simp
    have hslot : d (start + pre.length + 1) = H b.toNat := by
      rw [h.slot pre.length hlen]
      congr 2
      simp [← hsplit]
    have h' := h.install_one hb
    -- the slots still to be read are the ones the invariant describes, before and after the write
    have hcopies : slotCopies start d (pre.length + 1) bs =
        slotCopies start (Function.update d b.toNat (H b.toNat)) (pre.length + 1) bs := by
      apply slotCopies_congr
      intro i h₁ h₂
      have hi : i < lh.length := by
        rw [← hsplit, List.length_append, List.length_cons]
        omega
      rw [h.slot i hi, h'.slot i hi]
    have hnext := ih (pre ++ [b]) (by simp [hsplit]) h' (by
      intro c hc
      by_cases hcb : c.toNat = b.toNat
      · rw [hcb, Function.update_self]
      · rw [Function.update_of_ne hcb]
        rcases List.mem_append.mp hc with hc | hc
        · exact hdone c hc
        · exact absurd (congrArg UInt32.toNat (List.mem_singleton.mp hc)) hcb)
    rw [List.length_append, List.length_singleton] at hnext
    rw [slotCopies, hslot, hcopies]
    exact ⟨⟨h, hnext.1⟩, hnext.2⟩

/-- **Installing**: the invariant holds throughout, and the home blocks end up as `H`. -/
theorem install (h : Recoverable start size H d lh) :
    Throughout (fun e => Recoverable start size H e lh) (slotCopies start d 0 lh) d ∧
      ∀ b, Home start size b → play (slotCopies start d 0 lh) d b = H b := by
  obtain ⟨hthrough, hdone⟩ :=
    install_from [] rfl h fun c hc => absurd hc List.not_mem_nil
  refine ⟨hthrough, fun b hb => ?_⟩
  by_cases hin : ∃ c ∈ lh, c.toNat = b
  · obtain ⟨c, hc, rfl⟩ := hin
    exact hdone c hc
  · exact hthrough.finish.rest b hb fun c hc hcb => hin ⟨c, hc, hcb⟩

/-- **Clearing**: once the home blocks are in place, an empty header is written over the log. -/
theorem clear (hsize : 0 < size) (hd : ∀ b, Home start size b → d b = H b) (x : Block) :
    Recoverable start size H (Function.update d start (putHeader [] x)) [] := by
  refine ⟨?_, hsize, fun b hb => absurd hb List.not_mem_nil, fun i hi => absurd hi (by simp), ?_⟩
  · rw [Function.update_self]
    exact headerBlocks_putHeader (by decide)
  · intro b hb _
    have hne : b ≠ start := by
      rcases hb with hlt | hge <;> omega
    rw [Function.update_of_ne hne]
    exact hd b hb

/-- **Logging**: with an empty header, writing log slots changes nothing that recovery looks at, and
leaves the logged contents in the slots. -/
theorem log_from (H' : ℕ → Block) :
    ∀ (tail : ℕ) {d : ℕ → Block}, tail + bs.length < size → Recoverable start size H d [] →
      Throughout (fun e => Recoverable start size H e []) (logCopies start H' tail bs) d ∧
        (∀ (i : ℕ) (hi : i < bs.length),
          play (logCopies start H' tail bs) d (start + (tail + i) + 1) = H' bs[i].toNat) ∧
        ∀ j < tail, play (logCopies start H' tail bs) d (start + j + 1) = d (start + j + 1) := by
  induction bs with
  | nil =>
    intro tail d _ h
    exact ⟨h, fun i hi => absurd hi (by simp), fun j _ => rfl⟩
  | cons b bs ih =>
    intro tail d hroom h
    rw [List.length_cons] at hroom
    have h' : Recoverable start size H (Function.update d (start + tail + 1) (H' b.toNat)) [] := by
      refine ⟨?_, h.room, h.home, fun i hi => absurd hi (by simp), ?_⟩
      · rw [Function.update_of_ne (by omega)]
        exact h.head
      · intro c hc hnot
        have hne : c ≠ start + tail + 1 := by
          rcases hc with hlt | hge <;> omega
        rw [Function.update_of_ne hne]
        exact h.rest c hc hnot
    obtain ⟨hthrough, hslots, hbefore⟩ := ih (tail + 1) (by omega) h'
    refine ⟨⟨h, hthrough⟩, ?_, ?_⟩
    · intro i hi
      simp only [logCopies, play_cons]
      cases i with
      | zero =>
        exact (hbefore tail (by omega)).trans (Function.update_self ..)
      | succ i =>
        rw [List.length_cons] at hi
        rw [show tail + (i + 1) = tail + 1 + i by omega, hslots i (by omega)]
        rfl
    · intro j hj
      simp only [logCopies, play_cons]
      rw [hbefore j (by omega), Function.update_of_ne (by omega)]

/-- **Committing**: with the new contents in the slots, the header write replaces `H` by `H'`. -/
theorem commit (hd : Recoverable start size H d []) (hroom : lh.length < size)
    (hlen : lh.length ≤ logSize) (hhome : ∀ b ∈ lh, Home start size b.toNat)
    (hslot : ∀ (i : ℕ) (hi : i < lh.length), d (start + i + 1) = H' lh[i].toNat)
    (hsame : ∀ b, Home start size b → (∀ c ∈ lh, c.toNat ≠ b) → H' b = H b) (x : Block) :
    Recoverable start size H' (Function.update d start (putHeader lh x)) lh := by
  refine ⟨?_, hroom, hhome, ?_, ?_⟩
  · rw [Function.update_self]
    exact headerBlocks_putHeader hlen
  · intro i hi
    rw [Function.update_of_ne (by omega)]
    exact hslot i hi
  · intro b hb hnot
    have hne : b ≠ start := by
      rcases hb with hlt | hge <;> omega
    rw [Function.update_of_ne hne, hsame b hb hnot]
    exact hd.rest b hb fun c hc => absurd hc List.not_mem_nil

end Recoverable

/-! ## Recovery -/

section Recovery

variable {start size : ℕ} {H d d' : ℕ → Block} {lh : List UInt32}

theorem recoveryWrites_eq (h : Recoverable start size H d lh) :
    recoveryWrites start size d =
      slotCopies start d 0 lh ++
        [(start, putHeader [] (play (slotCopies start d 0 lh) d start))] := by
  have hread : (Kernel.boot start size d).readHead =
      { Kernel.boot start size d with
        log := { (Kernel.boot start size d).log with lh := lh } } := by
    rw [← h.head]
    rfl
  have hinstall := Kernel.installFrom_eq (Kernel.boot start size d).readHead 0
    (by rw [hread]; exact h.home) (by rw [hread, Nat.zero_add]; exact h.room)
  have hlh : (Kernel.boot start size d).readHead.log.lh = lh := by rw [hread]
  rw [recoveryWrites, Kernel.recoverFromLog, Kernel.installTrans, hlh, hinstall, hread]
  rfl

/-- One attempt at recovery: recoverable at every write, and the home content at the end. -/
theorem recovery_attempt (h : Recoverable start size H d lh) :
    Throughout (fun e => ∃ lh, Recoverable start size H e lh) (recoveryWrites start size d) d ∧
      Recoverable start size H (play (recoveryWrites start size d) d) [] := by
  obtain ⟨hthrough, hdone⟩ := h.install
  have hclear := Recoverable.clear (Nat.zero_lt_of_lt h.room) hdone
    (play (slotCopies start d 0 lh) d start)
  rw [recoveryWrites_eq h, throughout_append, play_concat]
  exact ⟨⟨hthrough.mono fun e he => ⟨lh, he⟩, ⟨lh, hthrough.finish⟩, [], hclear⟩, hclear⟩

/-- **Recovery is restartable**: however often it is interrupted, it ends with the home content. -/
theorem recovery_restarts (h : Recoverable start size H d lh)
    (hr : Restarts (recoveryWrites start size) d d') : Recoverable start size H d' [] :=
  hr.ends (C := fun e => ∃ lh, Recoverable start size H e lh)
    (Q := fun e => Recoverable start size H e [])
    (fun _ ⟨_, he⟩ => (recovery_attempt he).1) (fun _ ⟨_, he⟩ => (recovery_attempt he).2) ⟨lh, h⟩

end Recovery

/-! ## Commit -/

namespace Kernel

/-- The writes of `write_log`. -/
def logWrites (k : Kernel) : List (ℕ × Block) := logCopies k.log.start k.cache 0 k.log.lh

/-- The write that commits. -/
def headWrite (k : Kernel) : ℕ × Block :=
  (k.log.start, putHeader k.log.lh (play k.logWrites k.cache k.log.start))

/-- The writes of `install_trans` in a commit. -/
def installWrites (k : Kernel) : List (ℕ × Block) :=
  slotCopies k.log.start (play (k.logWrites ++ [k.headWrite]) k.cache) 0 k.log.lh

/-- The write that erases the transaction from the log. -/
def clearWrite (k : Kernel) : ℕ × Block :=
  (k.log.start,
    putHeader [] (play (k.logWrites ++ [k.headWrite] ++ k.installWrites) k.cache k.log.start))

section

variable {k : Kernel} (hroom : k.log.lh.length < k.log.size)
  (hhome : ∀ b ∈ k.log.lh, Home k.log.start k.log.size b.toNat)

include hroom hhome

theorem commitPoint_eq : k.commitPoint = k.after (k.logWrites ++ [k.headWrite]) := by
  have hlog : k.writeLog = k.after k.logWrites := writeLogFrom_eq k 0 hhome (by omega)
  rw [commitPoint, hlog, writeHead, bwrite_eq_after, after_after]
  rfl

theorem commit_eq (hne : 0 < k.log.lh.length) :
    k.commit =
      { k.after (k.logWrites ++ [k.headWrite] ++ (k.installWrites ++ [k.clearWrite])) with
        log := { k.log with lh := [] } } := by
  have hinstall : k.commitPoint.installTrans =
      k.after (k.logWrites ++ [k.headWrite] ++ k.installWrites) := by
    have hfrom := installFrom_eq (k.after (k.logWrites ++ [k.headWrite])) 0 hhome
      (by rw [after_log]; omega)
    rw [commitPoint_eq hroom hhome, installTrans, after_log, hfrom, after_after]
    rfl
  have hunfold : k.commit = k.commitPoint.installTrans.clearHead.writeHead := if_pos hne
  rw [hunfold, hinstall, writeHead, bwrite_eq_after, ← List.append_assoc,
    ← after_after k _ [k.clearWrite]]
  rfl

end

/-- A commit on the disk `d`, cut at the commit point: up to it the old home content `H` is
recoverable, from it on the new one `H'`, and at its end the cache and the disk agree. -/
theorem commit_cut {k : Kernel} {H H' d : ℕ → Block}
    (hd : Recoverable k.log.start k.log.size H d [])
    (hroom : k.log.lh.length < k.log.size) (hlen : k.log.lh.length ≤ logSize)
    (hhome : ∀ b ∈ k.log.lh, Home k.log.start k.log.size b.toNat)
    (hcache : ∀ b, (∀ c ∈ k.log.lh, c.toNat ≠ b) → k.cache b = d b)
    (hnew : ∀ b, Home k.log.start k.log.size b → k.cache b = H' b) :
    Throughout (fun e => Recoverable k.log.start k.log.size H e []) k.logWrites d ∧
      Throughout (fun e => ∃ lh, Recoverable k.log.start k.log.size H' e lh)
        (k.installWrites ++ [k.clearWrite]) (play (k.logWrites ++ [k.headWrite]) d) ∧
      Recoverable k.log.start k.log.size H'
        (play (k.logWrites ++ [k.headWrite] ++ (k.installWrites ++ [k.clearWrite])) d) [] ∧
      play (k.logWrites ++ [k.headWrite] ++ (k.installWrites ++ [k.clearWrite])) k.cache =
        play (k.logWrites ++ [k.headWrite] ++ (k.installWrites ++ [k.clearWrite])) d := by
  have hlog : k.logWrites = logCopies k.log.start H' 0 k.log.lh :=
    logCopies_congr fun b hb => hnew b.toNat (hhome b hb)
  obtain ⟨hthrough, hslots, -⟩ :=
    hd.log_from H' 0 (by rw [Nat.zero_add]; exact hroom)
  rw [← hlog] at hthrough hslots
  -- the commit write, on the disk and in the cache
  have hpoint : Recoverable k.log.start k.log.size H' (play (k.logWrites ++ [k.headWrite]) d)
      k.log.lh := by
    rw [play_concat]
    refine hthrough.finish.commit hroom hlen hhome (fun i hi => ?_) (fun b hb hnot => ?_) _
    · rw [← hslots i hi, Nat.zero_add]
    · rw [← hnew b hb, hcache b hnot]
      exact hd.rest b hb fun c hc => absurd hc List.not_mem_nil
  -- `install_trans` reads the slots through the cache, where they hold the same
  have hslot : ∀ (i : ℕ) (hi : i < k.log.lh.length),
      play (k.logWrites ++ [k.headWrite]) k.cache (k.log.start + i + 1) = H' k.log.lh[i].toNat := by
    intro i hi
    rw [← hpoint.slot i hi]
    apply play_congr_at
    apply hcache
    intro c hc hci
    rcases hhome c hc with h | h <;> omega
  have hinstall : k.installWrites =
      slotCopies k.log.start (play (k.logWrites ++ [k.headWrite]) d) 0 k.log.lh := by
    apply slotCopies_congr
    intro i _ hi
    rw [hslot i (by omega), hpoint.slot i (by omega)]
  obtain ⟨hinst, hdone⟩ := hpoint.install
  rw [← hinstall] at hinst hdone
  have hclear : Recoverable k.log.start k.log.size H'
      (play (k.logWrites ++ [k.headWrite] ++ (k.installWrites ++ [k.clearWrite])) d) [] := by
    rw [play_append, play_concat]
    exact Recoverable.clear (Nat.zero_lt_of_lt hroom) hdone _
  refine ⟨hthrough, ?_, hclear, ?_⟩
  · rw [throughout_append]
    refine ⟨hinst.mono fun e he => ⟨_, he⟩, ⟨_, hinst.finish⟩, [], ?_⟩
    rw [play_append, play_concat] at hclear
    exact hclear
  · -- every dirty block is one of the installed ones
    apply play_eq_of_covers
    intro b hnot
    apply hcache
    intro c hc hcb
    obtain ⟨x, hx⟩ := mem_slotCopies k.log.start
      (play (k.logWrites ++ [k.headWrite]) k.cache) 0 hc
    exact hnot (c.toNat, x) (by simp [installWrites, hx]) hcb

end Kernel

/-! ## Transactions -/

theorem logWriteCheck_ok {l : Log} {u : Unit} (h : l.logWriteCheck = .ok u) :
    l.lh.length < logSize ∧ l.lh.length + 1 < l.size := by
  rw [Log.logWriteCheck] at h
  split at h
  · cases h
  · next hroom =>
    omega

namespace Kernel

/-- What the `log_write`s of a transaction leave behind: nothing on disk, the new contents in the
cache, and the numbers of exactly its blocks in a header that fits the log. -/
theorem logAll_ok {t : Tx} {k k₁ : Kernel} (h : k.logAll t = .ok k₁) :
    ∃ lh, k₁ = { k with log := { k.log with lh := lh }, cache := t.apply k.cache } ∧
      (∀ b, b ∈ lh ↔ b ∈ k.log.lh ∨ b ∈ t.map Prod.fst) ∧
      (k.log.lh.length ≤ logSize → k.log.lh.length < k.log.size →
        lh.length ≤ logSize ∧ lh.length < k.log.size) := by
  induction t generalizing k with
  | nil =>
    obtain rfl := Except.ok.inj h
    exact ⟨k.log.lh, rfl, by simp, fun h₁ h₂ => ⟨h₁, h₂⟩⟩
  | cons w t ih =>
    rw [logAll, logWrite] at h
    rcases hcheck : k.log.logWriteCheck with e | u
    · rw [hcheck] at h
      cases h
    · rw [hcheck] at h
      obtain ⟨lh, rfl, hmem, hfits⟩ := ih h
      have hroom := logWriteCheck_ok hcheck
      have hlen : (k.log.record w.1).lh.length ≤ k.log.lh.length + 1 := Log.length_absorb_le ..
      refine ⟨lh, rfl, fun b => ?_, fun _ _ => hfits (by dsimp only; omega) ?_⟩
      · rw [hmem b, Log.record, Log.mem_absorb, List.map_cons, List.mem_cons]
        tauto
      · exact Nat.lt_of_le_of_lt hlen hroom.2

/-- Between transactions: the cache is the disk, whose home content is `H`, and the descriptor is
idle. -/
structure Idle (start size : ℕ) (H d : ℕ → Block) (k : Kernel) : Prop where
  /-- the descriptor after `initlog`, and after every commit -/
  log : k.log = { start := start, size := size, outstanding := 0, committing := false, lh := [] }
  /-- nothing is dirty -/
  cache : k.cache = d
  /-- the home content -/
  disk : Recoverable start size H d []

variable {start size : ℕ} {H d : ℕ → Block} {k k₁ k₂ : Kernel} {t : Tx} {ts : List Tx}

/-- The kernel with a transaction in the log, the block numbers `lh`. -/
def opened (start size : ℕ) (lh : List UInt32) (cache : ℕ → Block) (issued : List (ℕ × Block)) :
    Kernel where
  log := { start := start, size := size, outstanding := 1, committing := false, lh := lh }
  cache := cache
  issued := issued

theorem Idle.logTx_ok (hk : Idle start size H d k) (h : k.logTx t = .ok k₁) :
    ∃ lh, k₁ = opened start size lh (t.apply d) k.issued ∧
      (∀ b, b ∈ lh ↔ b ∈ t.map Prod.fst) ∧ lh.length ≤ logSize ∧ lh.length < size := by
  have hbegin : k.log.beginOp = some { k.log with outstanding := 1 } := by
    rw [hk.log]
    rfl
  rw [logTx, hbegin] at h
  obtain ⟨lh, rfl, hmem, hfits⟩ := logAll_ok h
  simp only [hk.log, hk.cache, List.not_mem_nil, false_or, List.length_nil] at hmem hfits ⊢
  obtain ⟨hlen, hroom⟩ := hfits (Nat.zero_le _) hk.disk.room
  exact ⟨lh, rfl, hmem, hlen, hroom⟩

/-- `end_op` of the last outstanding call commits. -/
theorem endOp_opened (start size : ℕ) (lh : List UInt32) (cache : ℕ → Block)
    (issued : List (ℕ × Block)) :
    (opened start size lh cache issued).endOp =
      .ok { (Kernel.mk ⟨start, size, 0, true, lh⟩ cache issued).commit with
        log := (Kernel.mk ⟨start, size, 0, true, lh⟩ cache issued).commit.log.endCommit } :=
  rfl

/-- An idle kernel that logs a transaction of home blocks and commits it: the writes of the commit,
and the idle kernel after it. -/
theorem Idle.commit (hk : Idle start size H d k)
    (hhome : ∀ w ∈ t, Home start size w.1.toNat) (h : k.logTx t = .ok k₁)
    (hne : 0 < k₁.log.lh.length) :
    ∃ (ws : List (ℕ × Block)) (w : ℕ × Block) (vs : List (ℕ × Block)) (k₂ : Kernel),
      k₁.commitPoint.issued = k.issued ++ (ws ++ [w]) ∧
      k₁.endOp = .ok k₂ ∧
      k₂.issued = k.issued ++ (ws ++ [w] ++ vs) ∧
      Throughout (fun e => Recoverable start size H e []) ws d ∧
      Throughout (fun e => ∃ lh, Recoverable start size (t.apply H) e lh) vs
        (play (ws ++ [w]) d) ∧
      Idle start size (t.apply H) (play (ws ++ [w] ++ vs) d) k₂ := by
  obtain ⟨lh, rfl, hmem, hlen, hroom⟩ := hk.logTx_ok h
  set kc : Kernel := Kernel.mk ⟨start, size, 0, true, lh⟩ (t.apply d) k.issued with hkc
  have hkhome : ∀ b ∈ lh, Home start size b.toNat := by
    intro b hb
    obtain ⟨w, hw, rfl⟩ := List.mem_map.mp ((hmem b).mp hb)
    exact hhome w hw
  have hclean : ∀ b, (∀ c ∈ lh, c.toNat ≠ b) → t.apply d b = d b := by
    intro b hnot
    apply play_of_not_mem
    intro w hw
    obtain ⟨v, hv, rfl⟩ := List.mem_map.mp hw
    exact hnot v.1 ((hmem v.1).mpr (List.mem_map_of_mem hv))
  have hnew : ∀ b, Home start size b → t.apply d b = t.apply H b := fun b hb =>
    play_congr_at (hk.disk.rest b hb fun c hc => absurd hc List.not_mem_nil)
  obtain ⟨hbefore, hafter, hdisk, hsync⟩ :=
    commit_cut (k := kc) hk.disk hroom hlen hkhome hclean hnew
  have hcommit := commit_eq (k := kc) hroom hkhome hne
  refine ⟨kc.logWrites, kc.headWrite, kc.installWrites ++ [kc.clearWrite], _, ?_,
    endOp_opened start size lh _ _, ?_, hbefore, hafter, ?_, ?_, hdisk⟩
  · rw [commitPoint_eq hroom hkhome]
    rfl
  · rw [hcommit]
    rfl
  · rw [hcommit]
    rfl
  · rw [hcommit]
    exact hsync

/-- A transaction that logged nothing leaves an idle kernel idle. -/
theorem Idle.commit_nil (hk : Idle start size H d k) (h : k.logTx t = .ok k₁)
    (hlh : ¬0 < k₁.log.lh.length) :
    ∃ k₂, k₁.endOp = .ok k₂ ∧ k₂.issued = k.issued ∧ t.apply H = H ∧ Idle start size H d k₂ := by
  obtain ⟨lh, rfl, hmem, -, -⟩ := hk.logTx_ok h
  obtain rfl : lh = [] := List.eq_nil_of_length_eq_zero (Nat.eq_zero_of_not_pos hlh)
  have ht : t = [] := by
    cases t with
    | nil => rfl
    | cons w t => exact absurd ((hmem w.1).mpr (List.mem_cons_self ..)) List.not_mem_nil
  subst ht
  exact ⟨_, endOp_opened start size [] _ _, rfl, rfl, rfl, rfl, hk.disk⟩

/-- Block writes are only ever added. -/
theorem Idle.issued_runTxs (hk : Idle start size H d k)
    (hhome : ∀ t ∈ ts, ∀ w ∈ t, Home start size w.1.toNat) :
    ∃ rest, (k.runTxs ts).issued = k.issued ++ rest := by
  induction ts generalizing k H d with
  | nil => exact ⟨[], (List.append_nil _).symm⟩
  | cons t ts ih =>
    have hts : ∀ t ∈ ts, ∀ w ∈ t, Home start size w.1.toNat :=
      fun t ht => hhome t (List.mem_cons_of_mem _ ht)
    rw [runTxs, runTx]
    rcases hlog : k.logTx t with e | k₁
    · exact ⟨[], (List.append_nil _).symm⟩
    · by_cases hlh : 0 < k₁.log.lh.length
      · obtain ⟨ws, w, vs, k₂, -, hend, hissued, -, -, hk₂⟩ :=
          hk.commit (hhome t (List.mem_cons_self ..)) hlog hlh
        obtain ⟨rest, hrest⟩ := ih hk₂ hts
        refine ⟨ws ++ [w] ++ vs ++ rest, ?_⟩
        simp only [bind, Except.bind, hend]
        rw [hrest, hissued, List.append_assoc]
      · obtain ⟨k₂, hend, hissued, -, hk₂⟩ := hk.commit_nil hlog hlh
        obtain ⟨rest, hrest⟩ := ih hk₂ hts
        refine ⟨rest, ?_⟩
        simp only [bind, Except.bind, hend]
        rw [hrest, hissued]

end Kernel

/-- The home content after the first `n` transactions: the abstract machine, on which a
transaction is one step. -/
def contentAfter (ts : List Tx) (n : ℕ) (H : ℕ → Block) : ℕ → Block :=
  (ts.take n).foldl (fun H t => t.apply H) H

theorem contentAfter_cons (t : Tx) (ts : List Tx) (n : ℕ) (H : ℕ → Block) :
    contentAfter (t :: ts) (n + 1) H = contentAfter ts n (t.apply H) := rfl

namespace Kernel

variable {start size : ℕ} {H d : ℕ → Block} {k : Kernel} {ts : List Tx}

/-- Writes that were all issued before the first of the transactions commit none of them. -/
theorem Idle.contentAfter_of_le (hk : Idle start size H d k)
    (hhome : ∀ t ∈ ts, ∀ w ∈ t, Home start size w.1.toNat) {m : ℕ} (hm : m ≤ k.issued.length) :
    contentAfter ts (k.committed ts m) H = H := by
  induction ts generalizing k with
  | nil => rfl
  | cons t ts ih =>
    rw [committed]
    rcases hlog : k.logTx t with e | k₁
    · rfl
    · by_cases hlh : 0 < k₁.log.lh.length
      · obtain ⟨ws, w, vs, k₂, hpoint, -, -, -, -, -⟩ :=
          hk.commit (hhome t (List.mem_cons_self ..)) hlog hlh
        have hlt : m < k₁.commitPoint.issued.length := by
          simp only [hpoint, List.length_append, List.length_singleton]
          omega
        simp only [if_pos (And.intro hlh hlt)]
        rfl
      · obtain ⟨k₂, hend, hissued, happly, hk₂⟩ := hk.commit_nil hlog hlh
        simp only [if_neg (fun h : _ ∧ _ => hlh h.1), hend]
        rw [contentAfter_cons, happly]
        exact ih hk₂ (fun t ht => hhome t (List.mem_cons_of_mem _ ht)) (by rw [hissued]; exact hm)

/-- **Every crash point of a run is recoverable**, to the content after the transactions committed
by then. The induction is on the transactions; a crash falls before the first one's commit point,
between it and the end of its commit, or into the rest. -/
theorem Idle.recoverable (hk : Idle start size H d k)
    (hhome : ∀ t ∈ ts, ∀ w ∈ t, Home start size w.1.toNat) {vs rest : List (ℕ × Block)}
    (hissued : (k.runTxs ts).issued = k.issued ++ rest) (hvs : vs <+: rest) :
    ∃ lh, Recoverable start size
      (contentAfter ts (k.committed ts (k.issued.length + vs.length)) H) (play vs d) lh := by
  induction ts generalizing k H d vs rest with
  | nil =>
    obtain rfl : rest = [] := by simpa [runTxs] using hissued
    obtain rfl := List.prefix_nil.mp hvs
    exact ⟨[], hk.disk⟩
  | cons t ts ih =>
    have hts : ∀ t ∈ ts, ∀ w ∈ t, Home start size w.1.toNat :=
      fun t ht => hhome t (List.mem_cons_of_mem _ ht)
    rw [runTxs, runTx] at hissued
    rw [committed]
    rcases hlog : k.logTx t with e | k₁
    · -- the transaction panicked before writing anything
      obtain rfl : rest = [] := by simpa [hlog, bind, Except.bind] using hissued
      obtain rfl := List.prefix_nil.mp hvs
      exact ⟨[], hk.disk⟩
    · simp only [hlog, bind, Except.bind] at hissued
      by_cases hlh : 0 < k₁.log.lh.length
      · obtain ⟨ws, w, us, k₂, hpoint, hend, hk₂issued, hbefore, hafter, hk₂⟩ :=
          hk.commit (hhome t (List.mem_cons_self ..)) hlog hlh
        obtain ⟨rest', hrest'⟩ := hk₂.issued_runTxs hts
        obtain rfl : rest = ws ++ [w] ++ us ++ rest' := by
          simpa [hend, hrest', hk₂issued] using hissued.symm
        have hlen : k₁.commitPoint.issued.length = k.issued.length + (ws.length + 1) := by
          simp [hpoint]
        by_cases hlt : vs.length < ws.length + 1
        · -- before the commit point
          have hpre : vs <+: ws := by
            refine List.prefix_of_prefix_length_le hvs ?_ (by omega)
            rw [List.append_assoc, List.append_assoc]
            exact List.prefix_append ws _
          simp only [if_pos (And.intro hlh
            (by omega : k.issued.length + vs.length < k₁.commitPoint.issued.length))]
          exact ⟨[], hbefore.crash hpre⟩
        · have hpast : ¬(0 < k₁.log.lh.length ∧
              k.issued.length + vs.length < k₁.commitPoint.issued.length) := by omega
          simp only [if_neg hpast, hend]
          rw [contentAfter_cons]
          rw [List.append_assoc] at hvs
          rcases crash_append hvs with hvs | ⟨vs', rfl, hvs'⟩
          · -- exactly at the commit point
            obtain rfl : vs = ws ++ [w] := by
              refine hvs.eq_of_length_le ?_
              rw [List.length_append, List.length_singleton]
              omega
            rw [hk₂.contentAfter_of_le hts (by simp [hk₂issued])]
            exact hafter.start
          · rcases crash_append hvs' with hus | ⟨vs'', rfl, hvs''⟩
            · -- while installing or clearing
              have hle : vs'.length ≤ us.length := hus.length_le
              rw [hk₂.contentAfter_of_le hts (by simp [hk₂issued]; omega), play_append]
              exact hafter.crash hus
            · -- in a later transaction
              have hnext := ih hk₂ hts hrest' hvs''
              rw [← play_append] at hnext
              simp only [hk₂issued, List.length_append, List.append_assoc] at hnext ⊢
              simpa only [Nat.add_assoc] using hnext
      · obtain ⟨k₂, hend, hk₂issued, happly, hk₂⟩ := hk.commit_nil hlog hlh
        simp only [if_neg (fun h : _ ∧ _ => hlh h.1), hend] at hissued ⊢
        rw [contentAfter_cons, happly, ← hk₂issued]
        exact ih hk₂ hts (by rw [hissued, hk₂issued]) hvs

end Kernel

/-! ## Crash atomicity -/

/-- **Crash atomicity.** Boot from a disk with an empty log, run any transactions of home blocks,
stop after any prefix `ws` of the block writes, and recover, with any number of further crashes
inside recovery: the home blocks are those after the last transaction whose commit write is in
`ws`, and the log header is empty. -/
theorem recover_crash_atomic {start size : ℕ} {d d' : ℕ → Block} {ts : List Tx}
    {ws : List (ℕ × Block)} (hsize : 0 < size) (hclean : headerCount (d start) = 0)
    (hhome : ∀ t ∈ ts, ∀ w ∈ t, Home start size w.1.toNat)
    (hws : ws <+: ((Kernel.boot start size d).runTxs ts).issued)
    (hrec : Restarts (recoveryWrites start size) (play ws d) d') :
    headerCount (d' start) = 0 ∧
      ∀ b, Home start size b →
        d' b = contentAfter ts ((Kernel.boot start size d).committed ts ws.length) d b := by
  have hidle : Kernel.Idle start size d d (Kernel.boot start size d) := by
    refine ⟨rfl, rfl, ?_, hsize, fun b hb => absurd hb List.not_mem_nil,
      fun i hi => absurd hi (by simp), fun b _ _ => rfl⟩
    rw [headerBlocks, hclean]
    rfl
  obtain ⟨lh, hrecoverable⟩ := hidle.recoverable hhome (List.nil_append _).symm hws
  have hdone := recovery_restarts hrecoverable hrec
  refine ⟨?_, fun b hb => ?_⟩
  · have hnil := congrArg List.length hdone.head
    simpa [headerBlocks] using hnil
  · have hb := hdone.rest b hb fun c hc => absurd hc List.not_mem_nil
    simpa [Kernel.boot] using hb

/-- On `mkfs`'s geometry, one transaction stopped right after its commit write: nothing has reached
block 100 yet, and recovery installs it. -/
theorem recover_crash_atomic_at_commit_write :
    let d : ℕ → Block := fun _ _ => 0
    let t : Tx := [(100, fun _ => 7)]
    let ws := ((Kernel.boot 2 30 d).runTxs [t]).issued.take 2
    let d' := play (recoveryWrites 2 30 (play ws d)) (play ws d)
    headerCount (d' 2) = 0 ∧ d' 100 = fun _ => 7 := by
  intro d t ws d'
  have hhome : ∀ s ∈ [t], ∀ w ∈ s, Home 2 30 w.1.toNat := by
    simp [t, Home]
  have h := recover_crash_atomic (d := d) (by decide) (by decide) hhome
    (List.take_prefix 2 ((Kernel.boot 2 30 d).runTxs [t]).issued) (Restarts.finish _)
  refine ⟨h.1, (h.2 100 (by decide)).trans ?_⟩
  rfl

end InuOs
