import InuOs.SlotStep

/-!
# Process ids

`allocproc` numbers the processes with `nextpid`, a 32-bit `int` that is only ever incremented. As
long as it is positive, the pid that it gives is greater than every pid in use (`PidInv`). After
2^31 - 1 numbers it is negative, and so is the next pid (`negative_pid`).

A call of `fork` that fails takes a number as well.
-/

namespace InuOs.Sched

/-- The pids of all slots that are in use are positive and pairwise different. -/
structure State.PidsOk (s : State) : Prop where
  positive : ∀ p, (s.slots p).state ≠ .unused → 0 < (s.slots p).pid
  distinct : ∀ p q, (s.slots p).state ≠ .unused → (s.slots q).state ≠ .unused →
    (s.slots p).pid = (s.slots q).pid → p = q

/-- `allocproc` takes a positive number, if it finds a slot. -/
def State.TakesPositive (s : State) : Event → Prop
  | .fork _ => s.freeSlot ≠ none → 0 < s.nextpid
  | _ => True

/-- What the process on CPU `c` returns from a `fork` that succeeds. -/
def State.forkReturns (s : State) (c : ℕ) : Int32 :=
  match (s.cpus c).loc with
  | .process p =>
    match (s.slots p).pc with
    | .code (.copied np) => (s.slots np).pid
    | _ => -1
  | _ => -1

/-- The pids in use are all right, and smaller than the next one. -/
structure PidInv (s : State) : Prop extends s.PidsOk where
  below : 0 < s.nextpid → ∀ p, (s.slots p).state ≠ .unused → (s.slots p).pid < s.nextpid

/-- A slot that is in use was so before, with the same pid. -/
def Slot.KeepsPid (a b : Slot) : Prop := b.state ≠ .unused → a.state ≠ .unused ∧ b.pid = a.pid

theorem Slot.KeepsPid.of_same {a b : Slot} (hstate : b.state = a.state) (hpid : b.pid = a.pid) :
    a.KeepsPid b :=
  fun h => ⟨hstate ▸ h, hpid⟩

theorem Slot.Occupied.ne_unused {a : Slot} (h : a.Occupied) : a.state ≠ .unused := fun hunused =>
  h.not_vacant (.inl hunused)

/-- Only `allocproc` gives a pid. -/
theorem Slot.Step.keepsPid {s : State} {e : Event} {q : ℕ} {b : Slot} (he : ∀ c, e ≠ .fork c)
    (h : Slot.Step s e q b) : (s.slots q).KeepsPid b := by
  intro hb
  cases h with
  | same hstate hpid => exact ⟨hstate ▸ hb, hpid⟩
  | goes hbefore _ hpid => exact ⟨hbefore.ne_unused, hpid⟩
  | taken c hfork => exact absurd hfork (he c)
  | made hembryo hpid => exact ⟨by simp [hembryo], hpid⟩
  | cleared hunused => exact absurd hunused hb
  | killed c pid _ _ hby hpid =>
    exact ⟨fun hunused => hb ((hby.state_iff .unused nofun nofun).mpr hunused), hpid⟩

namespace PidInv

variable {s s' : State} {c p : ℕ}

theorem keeps (hs : PidInv s) (hnext : s'.nextpid = s.nextpid)
    (h : ∀ q, (s.slots q).KeepsPid (s'.slots q)) : PidInv s' where
  positive q hq := by
    rw [(h q hq).2]
    exact hs.positive q (h q hq).1
  distinct q r hq hr heq := by
    rw [(h q hq).2, (h r hr).2] at heq
    exact hs.distinct q r (h q hq).1 (h r hr).1 heq
  below hpos q hq := by
    rw [hnext] at hpos ⊢
    rw [(h q hq).2]
    exact hs.below hpos q (h q hq).1

/-- A positive number is below its successor, unless that is negative. -/
theorem lt_succ {n : Int32} (hn : 0 < n) (hsucc : 0 < n + 1) : n < n + 1 := by
  rw [Int32.lt_iff_toInt_lt] at *
  rw [Int32.toInt_add] at *
  have hlt := n.toInt_lt
  simp only [Int32.toInt_zero, Int32.toInt_one, Int.bmod] at *
  omega

/-- What `allocproc` does to the table. -/
theorem fork_eq_some (ht : Inv s) (h : s.fork c = some s') :
    (s.freeSlot = none ∧ s' = s) ∨ ∃ np, s.freeSlot = some np ∧ (s.slots np).state = .unused ∧
      s'.nextpid = s.nextpid + 1 ∧ (s'.slots np).pid = s.nextpid ∧
      (s'.slots np).state = .embryo ∧ ∀ q ≠ np, (s.slots q).KeepsPid (s'.slots q) := by
  obtain ⟨p, hfrom, -, -, h⟩ := State.enter_eq_some h
  have hrun := (ht.cpu.of_process hfrom).1
  split at h
  · next hfind => exact .inl ⟨hfind, (Option.some.inj h).symm⟩
  · next np hfind =>
    obtain ⟨hunused, hne⟩ := State.unused_of_freeSlot hfind hrun
    have hs' := (Option.some.inj h).symm
    obtain ⟨hp, hnp, hold⟩ := State.slots_of_update_update hne (congrArg State.slots hs')
    refine .inr ⟨np, hfind, hunused, hs' ▸ rfl, by rw [hnp], by rw [hnp], fun q hq => ?_⟩
    rcases eq_or_ne q p with rfl | hqp
    · rw [hp]
      exact .of_same rfl rfl
    · rw [hold q hqp hq]
      exact .of_same rfl rfl

theorem fork_step (hs : PidInv s) (ht : Inv s) (hpos : s.freeSlot ≠ none → 0 < s.nextpid)
    (h : s.fork c = some s') : PidInv s' := by
  obtain ⟨-, rfl⟩ | ⟨np, hfind, hunused, hnext, hpid, -, hkeep⟩ := fork_eq_some ht h
  · exact hs
  · have hpos : 0 < s.nextpid := hpos (by rw [hfind]; nofun)
    have hold {q : ℕ} (hq : q ≠ np) (hused : (s'.slots q).state ≠ .unused) :
        (s'.slots q).pid = (s.slots q).pid ∧ (s.slots q).pid < s.nextpid := by
      obtain ⟨hbefore, hsame⟩ := hkeep q hq hused
      exact ⟨hsame, hs.below hpos q hbefore⟩
    refine ⟨⟨fun q hq => ?_, fun q r hq hr heq => ?_⟩, fun hsucc q hq => ?_⟩
    · rcases eq_or_ne q np with rfl | hne
      · rwa [hpid]
      · rw [(hkeep q hne hq).2]
        exact hs.positive q (hkeep q hne hq).1
    · rcases eq_or_ne q np with rfl | hqn
      · by_contra hne
        obtain ⟨hsame, hlt⟩ := hold (Ne.symm hne) hr
        rw [hpid, hsame] at heq
        exact absurd heq.symm (Int32.ne_of_lt hlt)
      · rcases eq_or_ne r np with rfl | hrn
        · obtain ⟨hsame, hlt⟩ := hold hqn hq
          rw [hpid, hsame] at heq
          exact absurd heq (Int32.ne_of_lt hlt)
        · rw [(hkeep q hqn hq).2, (hkeep r hrn hr).2] at heq
          exact hs.distinct q r (hkeep q hqn hq).1 (hkeep r hrn hr).1 heq
    · rw [hnext] at hsucc ⊢
      rcases eq_or_ne q np with rfl | hne
      · rw [hpid]
        exact lt_succ hpos hsucc
      · obtain ⟨hsame, hlt⟩ := hold hne hq
        rw [hsame]
        exact Int32.lt_trans hlt (lt_succ hpos hsucc)

/-- **The step lemma.** -/
theorem step (hs : PidInv s) (ht : Inv s) {e : Event} (hpos : s.TakesPositive e)
    (h : Sched.step s e = some s') : PidInv s' := by
  by_cases he : ∃ c, e = .fork c
  · obtain ⟨c, rfl⟩ := he
    exact hs.fork_step ht hpos h
  · have he : ∀ c, e ≠ .fork c := fun c hc => he ⟨c, hc⟩
    exact hs.keeps ((State.counted_step h).nextpid he) fun q => (slot_step ht h q).keepsPid he

theorem boot : PidInv boot := by
  have hused (p : ℕ) (hp : (Sched.boot.slots p).state ≠ .unused) :
      p = initproc ∧ (Sched.boot.slots p).pid = 1 := by
    unfold Sched.boot at hp ⊢
    dsimp only at hp ⊢
    split at hp
    · next h => exact ⟨h, by rw [if_pos h]⟩
    · exact absurd rfl hp
  refine ⟨⟨fun p hp => ?_, fun p q hp hq _ => ?_⟩, fun _ p hp => ?_⟩
  · rw [(hused p hp).2]
    decide
  · rw [(hused p hp).1, (hused q hq).1]
  · rw [(hused p hp).2]
    decide

/-- A `fork` with a number that is not positive spoils the pids. -/
theorem takesPositive_of_pidsOk (ht : Inv s) {e : Event} (h : Sched.step s e = some s')
    (hok : s'.PidsOk) : s.TakesPositive e := by
  cases e with
  | fork c =>
    intro hfree
    obtain ⟨hnone, -⟩ | ⟨np, -, -, -, hpid, hembryo, -⟩ := fork_eq_some ht h
    · exact absurd hnone hfree
    · have hpos := hok.positive np (by rw [hembryo]; nofun)
      rwa [hpid] at hpos
  | _ => trivial

/-- `fork` returns the pid of the child that it makes. -/
theorem forkRun_returns (hs : PidInv s) (ht : TableInv s) (h : s.forkRun c = some s') :
    0 < s.forkReturns c ∧ ∃ p np, (s.cpus c).loc = .process p ∧ (s.slots np).state = .embryo ∧
      (s'.slots np).state = .runnable ∧ (s'.slots np).parent = some p ∧
      (s'.slots np).pid = s.forkReturns c := by
  obtain ⟨p, np, hfrom, hpc, -, hs'⟩ := State.forkRun_eq_some h
  have hspot : (s.slots p).pc.spot = .copied np := by
    rw [hpc]
    rfl
  obtain ⟨-, hembryo, -, hnp, -⟩ :=
    ht.slots_of_forking hfrom (by rw [hspot]; rfl) (congrArg State.slots hs')
  have hreturns : s.forkReturns c = (s.slots np).pid := by
    rw [State.forkReturns, hfrom]
    dsimp only
    rw [hpc]
  refine ⟨?_, p, np, hfrom, hembryo, by rw [hnp], ?_, by rw [hnp, hreturns]⟩
  · rw [hreturns]
    exact hs.positive np (by rw [hembryo]; nofun)
  · rw [hnp]
    exact ht.family.copied np p (ht.alive_of_process hfrom) hspot

end PidInv

/-! ## Runs -/

/-- The pids are all right behind the step. -/
def State.PidsOkAfter (s : State) (e : Event) : Prop := ∀ s', step s e = some s' → s'.PidsOk

/-- **Process ids.** In every run, the pids in use are positive and pairwise different in every
state if and only if no `fork` takes a number that is not positive; and then every `fork` that
succeeds returns the pid of its child, which is positive. -/
theorem pids_run_iff {es : List Event} {s : State} (h : Run.exec step boot es = some s) :
    (Run.EachStep step State.PidsOkAfter boot es ↔ Run.EachStep step State.TakesPositive boot es) ∧
      (Run.EachStep step State.TakesPositive boot es →
        s.PidsOk ∧ ∀ c s', step s (.forkRun c) = some s' → 0 < s.forkReturns c ∧
          ∃ p np, (s.cpus c).loc = .process p ∧ (s.slots np).state = .embryo ∧
            (s'.slots np).state = .runnable ∧ (s'.slots np).parent = some p ∧
            (s'.slots np).pid = s.forkReturns c) := by
  have hboot : TableInv boot ∧ PidInv boot := ⟨.boot, .boot⟩
  refine ⟨Run.eachStep_congr (I := fun s => TableInv s ∧ PidInv s) (fun t e t' ht hstep => ?_)
    (fun t e t' ht hstep hpos => ⟨ht.1.step hstep, ht.2.step ht.1.toInv hpos hstep⟩) hboot h,
    fun hpos => ?_⟩
  · constructor
    · exact fun hok => PidInv.takesPositive_of_pidsOk ht.1.toInv hstep (hok t' hstep)
    · exact fun hpos t'' hstep' => (ht.2.step ht.1.toInv hpos hstep').toPidsOk
  · obtain ⟨ht, hs⟩ := Run.exec_invariant_of_eachStep (I := fun s => TableInv s ∧ PidInv s)
      (fun _ _ _ hs hpos hstep => ⟨hs.1.step hstep, hs.2.step hs.1.toInv hpos hstep⟩) hboot hpos h
    exact ⟨hs.toPidsOk, fun c s' hstep => hs.forkRun_returns ht hstep⟩

/-- init has come to run and makes a child. -/
def firstFork : List Event :=
  [.schedAcquire 0, .schedTurn 0, .resume 0, .fork 0, .forkCopy 0]

theorem pids_run_iff_firstFork : ∃ s, Run.exec step boot firstFork = some s ∧
    s.PidsOk ∧ 0 < s.forkReturns 0 := by
  have h : Run.exec step boot firstFork = some _ := rfl
  have hpos : Run.EachStep step State.TakesPositive boot firstFork :=
    .cons rfl trivial (.cons rfl trivial (.cons rfl trivial (.cons rfl (fun _ => by decide)
      (.cons rfl trivial trivial))))
  obtain ⟨hok, hreturns⟩ := (pids_run_iff h).2 hpos
  exact ⟨_, h, hok, (hreturns 0 _ rfl).1⟩

/-! ## A run that gets to the end of the numbers -/

/-- init runs on CPU 0, slot 1 is free, and the next number is `n`. -/
structure Ready (n : Int32) (s : State) : Prop where
  loc : (s.cpus 0).loc = .process 0
  pc : (s.slots 0).pc = .code .user
  running : (s.slots 0).state = .running
  free : (s.slots 1).state = .unused
  lock : s.lock = none
  nextpid : s.nextpid = n

namespace Ready

variable {n : Int32} {s : State}

theorem freeSlot (h : Ready n s) : s.freeSlot = some 1 := by
  have hrange : List.range nProc = 0 :: 1 :: (List.range nProc).drop 2 := by decide
  rw [State.freeSlot, hrange, List.find?_cons_of_neg (by rw [h.running]; decide),
    List.find?_cons_of_pos (by rw [h.free]; decide)]

theorem fork (h : Ready n s) : step s (.fork 0) =
    some { (s.setSlot 1 { s.slots 1 with state := .embryo, pid := n }).setSlot 0
      { s.slots 0 with pc := .code (.embryo 1) } with nextpid := n + 1 } := by
  simp only [step, State.fork, State.enter, State.caller, h.loc, h.pc,
    h.lock, h.freeSlot, h.nextpid, if_true]

/-- A `fork` that fails takes a number. -/
theorem burn (h : Ready n s) :
    ∃ s', Run.exec step s [.fork 0, .forkFail 0] = some s' ∧ Ready (n + 1) s' := by
  rw [Run.exec_cons, h.fork, Option.bind_some, Run.exec_cons]
  simp only [step, State.forkFail, State.inFork, State.setSlot, h.loc, Function.update_self,
    Option.bind_some, Run.exec_nil]
  exact ⟨_, rfl, h.loc, by simp, by simp [h.running], by simp, h.lock, rfl⟩

theorem burns (h : Ready n s) (k : ℕ) :
    ∃ s', Run.exec step s (List.replicate k [.fork 0, .forkFail 0]).flatten = some s' ∧
      Ready (n + Int32.ofNat k) s' := by
  induction k generalizing n s with
  | zero => exact ⟨s, rfl, by simpa using h⟩
  | succ k ih =>
    obtain ⟨t, ht, hready⟩ := h.burn
    obtain ⟨u, hu, hready'⟩ := ih hready
    refine ⟨u, ?_, ?_⟩
    · rw [List.replicate_succ, List.flatten_cons, Run.exec_append, ht]
      exact hu
    · rwa [Nat.add_comm k 1, Int32.ofNat_add, ← Int32.add_assoc]

/-- A `fork` that has got its memory. -/
theorem forkCopy (h : Ready n s) : ∃ s', Run.exec step s [.fork 0, .forkCopy 0] = some s' ∧
    (s'.cpus 0).loc = .process 0 ∧ (s'.slots 0).pc = .code (.copied 1) ∧ s'.lock = none ∧
    (s'.slots 1).state = .embryo ∧ (s'.slots 1).pid = n := by
  rw [Run.exec_cons, h.fork, Option.bind_some, Run.exec_cons]
  simp only [step, State.forkCopy, State.inFork, State.setSlot, h.loc, Function.update_self,
    Option.bind_some, Run.exec_nil]
  exact ⟨_, rfl, h.loc, by simp, h.lock, by simp, by simp⟩

end Ready

/-- init calls `fork` 2^31 - 2 times without success, and then once more: the child has a negative
pid, and this is what `fork` returns. -/
theorem negative_pid : ∃ es s, Run.exec step boot es = some s ∧
    (∃ s', step s (.forkRun 0) = some s') ∧
    (s.slots 1).state = .embryo ∧ (s.slots 1).pid = -2147483648 ∧
    s.forkReturns 0 = -2147483648 := by
  have hready : ∃ s, Run.exec step boot [.schedAcquire 0, .schedTurn 0, .resume 0] = some s ∧
      Ready 2 s :=
    ⟨_, rfl, rfl, rfl, rfl, rfl, rfl, rfl⟩
  have hmin : (2 : Int32) + Int32.ofNat 2147483646 = -2147483648 := by decide +kernel
  obtain ⟨s, hs, hready⟩ := hready
  obtain ⟨t, ht, hready⟩ := hready.burns 2147483646
  obtain ⟨u, hu, hloc, hpc, hlock, hembryo, hpid⟩ := hready.forkCopy
  rw [hmin] at hpid
  refine ⟨[.schedAcquire 0, .schedTurn 0, .resume 0] ++
    (List.replicate 2147483646 [.fork 0, .forkFail 0]).flatten ++ [.fork 0, .forkCopy 0], u, ?_, ?_,
    hembryo, hpid, ?_⟩
  · rw [Run.exec_append, Run.exec_append, hs, Option.bind_some, ht, Option.bind_some, hu]
  · simp only [step, State.forkRun, hloc, hlock, hpc]
    exact ⟨_, rfl⟩
  · simp only [State.forkReturns, hloc, hpc, hpid]

end InuOs.Sched
