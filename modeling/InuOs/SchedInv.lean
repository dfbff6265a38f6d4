import InuOs.Sched

/-!
# One CPU for each running process

Across `swtch` the lock is taken by one kernel thread and released by another, so that no critical
section is the work of one of them. What holds between any two steps is said for the CPUs instead
(`CpuInv`): where a CPU is decides whether it holds the lock, what `proc` and `%cr3` are, and which
process is `RUNNING` because of it.

To a CPU there are five kinds of steps, and `CpuInv` has a rule for each: the scheduler goes on by
itself, it dispatches a process, a process leaves for the scheduler, a process releases the lock
that it was handed, or the table changes in a way that no CPU notices.
-/

namespace InuOs.Sched

/-- The process that a CPU is bound to. -/
def Loc.proc : Loc → Option ℕ
  | .process p | .back p => some p
  | _ => none

/-- A process that will run again. -/
def Slot.Parked (a : Slot) : Prop := a.state = .runnable ∨ a.state = .sleeping

/-- No CPU notices the change of this slot. -/
structure Slot.Still (a b : Slot) : Prop where
  running : b.state = .running ↔ a.state = .running
  inSched : a.state = .running → (b.pc.InSched ↔ a.pc.InSched)

theorem Slot.Still.refl (a : Slot) : a.Still a := ⟨Iff.rfl, fun _ => Iff.rfl⟩

/-- Where CPU `c` is, and what follows from it. -/
def CpuOk (s : State) (c : ℕ) : Prop :=
  match (s.cpus c).loc with
  | .idle => s.lock ≠ some c
  | .loop _ => s.lock = some c
  | .back p => s.lock = some c ∧ (s.slots p).state ≠ .running
  | .process p => (s.slots p).state = .running ∧ (s.lock = some c ↔ (s.slots p).pc.InSched)

/-- What holds of the CPUs between any two steps. -/
structure CpuInv (s : State) : Prop where
  bound : ∀ c, (s.cpus c).proc = (s.cpus c).loc.proc ∧ (s.cpus c).space = (s.cpus c).loc.proc
  ok : ∀ c, CpuOk s c
  unique : ∀ c d p, (s.cpus c).loc = .process p → (s.cpus d).loc = .process p → c = d
  running : ∀ p, (s.slots p).state = .running → ∃ c, (s.cpus c).loc = .process p
  parked : ∀ p, (s.slots p).Parked → (s.slots p).pc.InSched

variable {q np j d : ℕ} {cpu : Cpu} {slot : Slot} {chan : Chan} {e : Event}

namespace CpuInv

variable {s s' : State} {c d p k : ℕ}

theorem lock_of_loop (hs : CpuInv s) (h : (s.cpus c).loc = .loop k) : s.lock = some c := by
  have hok := hs.ok c
  rwa [CpuOk, h] at hok

theorem lock_of_back (hs : CpuInv s) (h : (s.cpus c).loc = .back p) :
    s.lock = some c ∧ (s.slots p).state ≠ .running := by
  have hok := hs.ok c
  rwa [CpuOk, h] at hok

theorem of_process (hs : CpuInv s) (h : (s.cpus c).loc = .process p) :
    (s.slots p).state = .running ∧ (s.lock = some c ↔ (s.slots p).pc.InSched) := by
  have hok := hs.ok c
  rwa [CpuOk, h] at hok

/-- A CPU that is not involved in a step, nor is the process it is bound to. -/
theorem frame (hs : CpuInv s) (hcpu : s'.cpus d = s.cpus d)
    (hlock : s'.lock = some d ↔ s.lock = some d)
    (hslot : ∀ p, (s.cpus d).loc.proc = some p → (s.slots p).Still (s'.slots p)) : CpuOk s' d := by
  have hok := hs.ok d
  unfold CpuOk at hok ⊢
  rw [hcpu]
  cases hloc : (s.cpus d).loc with
  | idle =>
    rw [hloc] at hok
    exact fun h => hok (hlock.mp h)
  | loop k =>
    rw [hloc] at hok
    exact hlock.mpr hok
  | back p =>
    rw [hloc] at hok hslot
    exact ⟨hlock.mpr hok.1, fun h => hok.2 ((hslot p rfl).running.mp h)⟩
  | process p =>
    rw [hloc] at hok hslot
    have hstill := hslot p rfl
    exact ⟨hstill.running.mpr hok.1, hlock.trans (hok.2.trans (hstill.inSched hok.1).symm)⟩

/-- The process that CPU `c` executes is bound to no other CPU, if `c` has the lock or nobody
has. -/
theorem ne_of_proc (hs : CpuInv s) (hlock : s.lock = none ∨ s.lock = some c)
    (hc : (s.cpus c).loc = .process p) (hne : d ≠ c) (hd : (s.cpus d).loc.proc = some q) :
    q ≠ p := by
  rintro rfl
  cases hloc : (s.cpus d).loc with
  | idle | loop k => rw [hloc] at hd; cases hd
  | back r =>
    have hheld := (hs.lock_of_back hloc).1
    rcases hlock with h | h
    · rw [h] at hheld
      cases hheld
    · exact hne (Option.some.inj (hheld.symm.trans h))
  | process r =>
    rw [hloc] at hd
    obtain rfl := Option.some.inj hd
    exact hne (hs.unique d c r hloc hc)

/-- A lock that at most CPU `c` takes or gives up looks the same to the others. -/
theorem lock_iff {l l' : Option ℕ} (hne : d ≠ c) (hl : l = none ∨ l = some c)
    (hl' : l' = none ∨ l' = some c) : l' = some d ↔ l = some d := by
  have hout : ∀ {m : Option ℕ}, m = none ∨ m = some c → m ≠ some d := by
    rintro m (rfl | rfl) h
    · cases h
    · exact hne (Option.some.inj h).symm
  exact iff_of_false (hout hl') (hout hl)

section

variable (hs : CpuInv s)
include hs

/-- A running process stays on its CPU, if that is not the one that changes. -/
theorem running_of_ne (hother : ∀ d ≠ c, s'.cpus d = s.cpus d)
    (hc : (s.cpus c).loc ≠ .process p) (hp : (s.slots p).state = .running) :
    ∃ d, (s'.cpus d).loc = .process p := by
  obtain ⟨d, hd⟩ := hs.running p hp
  have hne : d ≠ c := by
    rintro rfl
    exact hc hd
  exact ⟨d, hother d hne ▸ hd⟩

/-- What is bound to a CPU, when one CPU changes. -/
theorem bound_update (hself : s'.cpus c = cpu) (hother : ∀ d ≠ c, s'.cpus d = s.cpus d)
    (hcpu : cpu.proc = cpu.loc.proc ∧ cpu.space = cpu.loc.proc) (d : ℕ) :
    (s'.cpus d).proc = (s'.cpus d).loc.proc ∧ (s'.cpus d).space = (s'.cpus d).loc.proc := by
  rcases eq_or_ne d c with rfl | hne
  · rwa [hself]
  · rw [hother d hne]
    exact hs.bound d

/-- No two CPUs execute one process, when one CPU changes and the process it turns to was on
none. -/
theorem unique_update (hself : s'.cpus c = cpu) (hother : ∀ d ≠ c, s'.cpus d = s.cpus d)
    (hnew : ∀ p, cpu.loc = .process p → ∀ d ≠ c, (s.cpus d).loc ≠ .process p) (d e p : ℕ)
    (hd : (s'.cpus d).loc = .process p) (he : (s'.cpus e).loc = .process p) : d = e := by
  rcases eq_or_ne d c with rfl | hdc
  · by_contra hne
    rw [hself] at hd
    rw [hother e (Ne.symm hne)] at he
    exact hnew p hd e (Ne.symm hne) he
  · rw [hother d hdc] at hd
    rcases eq_or_ne e c with rfl | hec
    · rw [hself] at he
      exact absurd hd (hnew p he d hdc)
    · rw [hother e hec] at he
      exact hs.unique d e p hd he

/-- The scheduler of CPU `c` goes on. -/
theorem sched (hslots : s'.slots = s.slots) (hcpus : s'.cpus = Function.update s.cpus c cpu)
    (hcpu : cpu.proc = none ∧ cpu.space = none) (hfrom : ∀ p, (s.cpus c).loc ≠ .process p)
    (hlock : (cpu.loc = .idle ∧ s.lock = some c ∧ s'.lock = none) ∨
      ((∃ k, cpu.loc = .loop k) ∧ (s.lock = none ∨ s.lock = some c) ∧ s'.lock = some c)) :
    CpuInv s' := by
  have hself : s'.cpus c = cpu := hcpus ▸ Function.update_self ..
  have hother : ∀ d ≠ c, s'.cpus d = s.cpus d := fun d hd => hcpus ▸ Function.update_of_ne hd ..
  have hproc : cpu.loc.proc = none := by
    rcases hlock with ⟨h, -⟩ | ⟨⟨k, h⟩, -⟩ <;> rw [h] <;> rfl
  have hlocks : (s.lock = none ∨ s.lock = some c) ∧ (s'.lock = none ∨ s'.lock = some c) := by
    rcases hlock with ⟨-, h, h'⟩ | ⟨-, h, h'⟩
    · exact ⟨.inr h, .inl h'⟩
    · exact ⟨h, .inr h'⟩
  refine ⟨hs.bound_update hself hother (hproc ▸ hcpu), fun d => ?_,
    hs.unique_update hself hother fun p hp => ?_, fun p hp => ?_, fun p hp => ?_⟩
  · rcases eq_or_ne d c with rfl | hne
    · unfold CpuOk
      rw [hself]
      rcases hlock with ⟨h, -, h'⟩ | ⟨⟨k, h⟩, -, h'⟩ <;> rw [h, h']
      simp
    · refine hs.frame (hother d hne) (lock_iff hne hlocks.1 hlocks.2) fun p _ => ?_
      rw [hslots]
      exact .refl _
  · rw [hp] at hproc
    cases hproc
  · rw [hslots] at hp
    exact hs.running_of_ne hother (hfrom p) hp
  · rw [hslots] at hp ⊢
    exact hs.parked p hp

/-- The scheduler of CPU `c` switches to process `k`. -/
theorem dispatch (hstate : (s.slots k).state = .runnable)
    (hslots : s'.slots = Function.update s.slots k slot)
    (hslot : slot.state = .running ∧ slot.pc = (s.slots k).pc)
    (hcpus : s'.cpus = Function.update s.cpus c ⟨some k, some k, .process k⟩)
    (hfrom : (s.cpus c).loc = .loop k) (hlock : s'.lock = s.lock) : CpuInv s' := by
  have hself : s'.cpus c = ⟨some k, some k, .process k⟩ := hcpus ▸ Function.update_self ..
  have hother : ∀ d ≠ c, s'.cpus d = s.cpus d := fun d hd => hcpus ▸ Function.update_of_ne hd ..
  have hheld := hs.lock_of_loop hfrom
  have hnew : s'.slots k = slot := hslots ▸ Function.update_self ..
  have hold : ∀ q ≠ k, s'.slots q = s.slots q := fun q hq => hslots ▸ Function.update_of_ne hq ..
  -- process `k` is on no CPU: it is not running, and a CPU that is `back` holds the lock
  have hfree : ∀ d ≠ c, (s.cpus d).loc.proc ≠ some k := by
    intro d hne hd
    cases hloc : (s.cpus d).loc with
    | idle | loop j => rw [hloc] at hd; cases hd
    | back r =>
      exact hne (Option.some.inj ((hs.lock_of_back hloc).1.symm.trans hheld))
    | process r =>
      rw [hloc] at hd
      obtain rfl := Option.some.inj hd
      rw [(hs.of_process hloc).1] at hstate
      cases hstate
  refine ⟨hs.bound_update hself hother ⟨rfl, rfl⟩, fun d => ?_,
    hs.unique_update hself hother fun p hp d hne hd => ?_, fun p hp => ?_, fun p hp => ?_⟩
  · rcases eq_or_ne d c with rfl | hne
    · unfold CpuOk
      rw [hself, hlock]
      refine ⟨hnew ▸ hslot.1, iff_of_true hheld ?_⟩
      rw [hnew, hslot.2]
      exact hs.parked k (.inl hstate)
    · refine hs.frame (hother d hne) (by rw [hlock]) fun p hp => ?_
      rw [hold p]
      · exact .refl _
      · rintro rfl
        exact hfree d hne hp
  · obtain rfl := Loc.process.inj hp
    exact hfree d hne (hd ▸ rfl)
  · rcases eq_or_ne p k with rfl | hpk
    · exact ⟨c, hself ▸ rfl⟩
    · rw [hold p hpk] at hp
      exact hs.running_of_ne hother (by simp [hfrom]) hp
  · rcases eq_or_ne p k with rfl | hpk
    · rw [hnew, Slot.Parked, hslot.1] at hp
      rcases hp with hp | hp <;> cases hp
    · rw [hold p hpk] at hp ⊢
      exact hs.parked p hp

/-- Process `p` switches to the scheduler of its CPU. -/
theorem leave (hfrom : (s.cpus c).loc = .process p)
    (hcpus : s'.cpus = Function.update s.cpus c { s.cpus c with loc := .back p })
    (hstate : (s'.slots p).state ≠ .running)
    (hothers : ∀ q ≠ p, (s.slots q).Still (s'.slots q))
    (hparked : ∀ q, (s'.slots q).Parked → (s'.slots q).pc.InSched)
    (hlock : (s.lock = none ∨ s.lock = some c) ∧ s'.lock = some c) : CpuInv s' := by
  have hself : s'.cpus c = { s.cpus c with loc := .back p } := hcpus ▸ Function.update_self ..
  have hother : ∀ d ≠ c, s'.cpus d = s.cpus d := fun d hd => hcpus ▸ Function.update_of_ne hd ..
  have hbound := hs.bound c
  rw [hfrom] at hbound
  refine ⟨hs.bound_update hself hother hbound, fun d => ?_,
    hs.unique_update hself hother fun q hq => ?_, fun q hq => ?_, hparked⟩
  · rcases eq_or_ne d c with rfl | hne
    · unfold CpuOk
      rw [hself]
      exact ⟨hlock.2, hstate⟩
    · exact hs.frame (hother d hne) (lock_iff hne hlock.1 (.inr hlock.2)) fun q hq =>
        hothers q (hs.ne_of_proc hlock.1 hfrom hne hq)
  · cases hq
  · have hne : q ≠ p := by
      rintro rfl
      exact hstate hq
    refine hs.running_of_ne hother ?_ ((hothers q hne).running.mp hq)
    rw [hfrom]
    exact fun h => hne (Loc.process.inj h).symm

/-- The CPUs stay where they are. -/
theorem stay (hcpus : s'.cpus = s.cpus) (hok : ∀ d, CpuOk s' d)
    (hrunning : ∀ q, (s'.slots q).state = .running → (s.slots q).state = .running)
    (hparked : ∀ q, (s'.slots q).Parked → (s'.slots q).pc.InSched) : CpuInv s' := by
  refine ⟨?_, hok, ?_, fun q hq => ?_, hparked⟩
  · rw [hcpus]
    exact hs.bound
  · rw [hcpus]
    exact hs.unique
  · rw [hcpus]
    exact hs.running q (hrunning q hq)

/-- Process `p` releases the lock that it was handed. -/
theorem release (hfrom : (s.cpus c).loc = .process p) (hcpus : s'.cpus = s.cpus)
    (hstate : (s'.slots p).state = .running ∧ ¬ (s'.slots p).pc.InSched)
    (hothers : ∀ q ≠ p, (s.slots q).Still (s'.slots q))
    (hparked : ∀ q, (s'.slots q).Parked → (s'.slots q).pc.InSched)
    (hlock : s.lock = some c ∧ s'.lock = none) : CpuInv s' := by
  refine hs.stay hcpus (fun d => ?_) (fun q hq => ?_) hparked
  · rcases eq_or_ne d c with rfl | hne
    · unfold CpuOk
      rw [hcpus, hfrom, hlock.2]
      exact ⟨hstate.1, iff_of_false (by simp) hstate.2⟩
    · exact hs.frame (hcpus ▸ rfl) (lock_iff hne (.inr hlock.1) (.inl hlock.2)) fun q hq =>
        hothers q (hs.ne_of_proc (.inr hlock.1) hfrom hne hq)
  · rcases eq_or_ne q p with rfl | hne
    · exact (hs.of_process hfrom).1
    · exact (hothers q hne).running.mp hq

/-- The table changes, and no CPU notices. -/
theorem table (hcpus : s'.cpus = s.cpus) (hlock : s'.lock = s.lock)
    (hslots : ∀ q, (s.slots q).Still (s'.slots q))
    (hparked : ∀ q, (s'.slots q).Parked → (s'.slots q).pc.InSched) : CpuInv s' :=
  hs.stay hcpus (fun _ => hs.frame (hcpus ▸ rfl) (hlock ▸ Iff.rfl) fun q _ => hslots q)
    (fun q => (hslots q).running.mp) hparked

end

end CpuInv

/-! ## Processes in the making -/

/-- The slot that a process in `fork` works on. -/
def Spot.forking : Spot → Option ℕ
  | .embryo np | .copied np => some np
  | .user => none

/-- A process that runs, or waits for a CPU. -/
def Slot.Ready (a : Slot) : Prop := a.state = .running ∨ a.state = .runnable

/-- A process in `fork`, preempted there or not, has an embryo to itself, and so has every embryo a
process that makes it. -/
structure ForkInv (s : State) : Prop where
  embryo : ∀ p np, (s.slots p).pc.spot.forking = some np → (s.slots np).state = .embryo
  owner : ∀ p q np, (s.slots p).pc.spot.forking = some np → (s.slots q).pc.spot.forking = some np →
    p = q
  forkret : ∀ p np, (s.slots p).pc.spot = .copied np → (s.slots np).pc = .forkret
  ready : ∀ p np, (s.slots p).pc.spot.forking = some np → (s.slots p).Ready
  maker : ∀ np, (s.slots np).state = .embryo → ∃ p, (s.slots p).pc.spot.forking = some np

/-- A change of a slot that leaves the embryos and their makers alone. -/
structure Slot.Calm (a b : Slot) : Prop where
  embryo : b.state = .embryo ↔ a.state = .embryo
  pc : a.state = .embryo → b.pc = a.pc
  spot : b.pc.spot = a.pc.spot
  ready : a.pc.spot.forking ≠ none → a.Ready → b.Ready

theorem Slot.Calm.refl (a : Slot) : a.Calm a := ⟨Iff.rfl, fun _ => rfl, rfl, fun _ h => h⟩

theorem ForkInv.calm {s s' : State} (hs : ForkInv s) (h : ∀ q, (s.slots q).Calm (s'.slots q)) :
    ForkInv s' where
  embryo p np hp := (h np).embryo.mpr (hs.embryo p np ((h p).spot ▸ hp))
  owner p q np hp hq := hs.owner p q np ((h p).spot ▸ hp) ((h q).spot ▸ hq)
  forkret p np hp := by
    rw [(h p).spot] at hp
    rw [(h np).pc (hs.embryo p np (by rw [hp]; rfl))]
    exact hs.forkret p np hp
  ready p np hp := by
    rw [(h p).spot] at hp
    exact (h p).ready (by simp [hp]) (hs.ready p np hp)
  maker np hnp := by
    obtain ⟨p, hp⟩ := hs.maker np ((h np).embryo.mp hnp)
    exact ⟨p, (h p).spot ▸ hp⟩

/-! ## The steps -/

/-- What holds between any two steps. -/
structure Inv (s : State) : Prop where
  cpu : CpuInv s
  fork : ForkInv s

/-- A change of a slot that neither the CPUs nor a `fork` notice. -/
structure Slot.Quiet (a b : Slot) : Prop where
  still : a.Still b
  calm : a.Calm b
  parked : b.Parked → a.Parked ∧ b.pc = a.pc

/-- The slot of a process that does nothing itself: it may be woken up. -/
structure Slot.Bystander (a b : Slot) : Prop where
  state : b.state = a.state ∨ (a.state = .sleeping ∧ b.state = .runnable)
  pc : b.pc = a.pc

namespace Slot

variable {a b d : Slot}

theorem Bystander.refl (a : Slot) : a.Bystander a := ⟨.inl rfl, rfl⟩

theorem Bystander.trans (h : a.Bystander b) (h' : b.Bystander d) : a.Bystander d := by
  refine ⟨?_, h'.pc.trans h.pc⟩
  rcases h'.state with hd | ⟨hb, hd⟩
  · rw [hd]
    exact h.state
  · rcases h.state with hb' | ⟨-, hb'⟩
    · exact .inr ⟨hb' ▸ hb, hd⟩
    · rw [hb'] at hb
      cases hb

theorem Bystander.quiet (h : a.Bystander b) : a.Quiet b := by
  obtain ⟨hstate, hpc⟩ := h
  rcases hstate with hstate | ⟨ha, hb⟩
  · refine ⟨⟨by rw [hstate], fun _ => by rw [hpc]⟩, ⟨by rw [hstate], fun _ => hpc, by rw [hpc],
      fun _ h => ?_⟩, fun hp => ⟨?_, hpc⟩⟩
    · rwa [Ready, hstate]
    · rwa [Parked, hstate] at hp
  · exact ⟨⟨by simp [ha, hb], fun _ => by rw [hpc]⟩, ⟨by simp [ha, hb], fun _ => hpc, by rw [hpc],
      fun _ _ => .inr hb⟩, fun _ => ⟨.inr ha, hpc⟩⟩

theorem Quiet.refl (a : Slot) : a.Quiet a := (Bystander.refl a).quiet

/-- `wait` clears the slot of an exited child. -/
theorem Quiet.reap (ha : a.state = .zombie) (hb : b.state = .unused) (hpc : b.pc = a.pc) :
    a.Quiet b := by
  refine ⟨⟨by simp [ha, hb], fun _ => by rw [hpc]⟩, ⟨by simp [ha, hb], fun _ => hpc, by rw [hpc],
    fun _ h => ?_⟩, fun h => ?_⟩
  · rw [Ready, ha] at h
    rcases h with h | h <;> cases h
  · rw [Parked, hb] at h
    rcases h with h | h <;> cases h

end Slot

namespace State

theorem wakeup1_bystander (slots : ℕ → Slot) (chan : Chan) (q : ℕ) :
    (slots q).Bystander (wakeup1 slots chan q) := by
  unfold wakeup1
  split
  · next h => exact ⟨.inr ⟨h.1, rfl⟩, rfl⟩
  · exact .refl _

theorem adopt_bystander (slots : ℕ → Slot) (p q : ℕ) :
    (slots q).Bystander (adopt slots p q) := by
  unfold adopt
  split
  · exact ⟨.inl rfl, rfl⟩
  · exact .refl _

theorem reparent_bystander (slots : ℕ → Slot) (p q : ℕ) :
    (slots q).Bystander (reparent slots p q) := by
  unfold reparent
  split
  · exact (adopt_bystander slots p q).trans (wakeup1_bystander _ _ q)
  · exact adopt_bystander slots p q

theorem wakeParent_bystander (slots : ℕ → Slot) (p q : ℕ) :
    (slots q).Bystander (wakeParent slots p q) := by
  unfold wakeParent
  split
  · exact wakeup1_bystander _ _ q
  · exact .refl _

theorem exitSlots_bystander (s : State) (p q : ℕ) :
    (s.slots q).Bystander (s.exitSlots p q) :=
  (wakeParent_bystander s.slots p q).trans (reparent_bystander _ p q)

theorem killSlots_bystander (s : State) (pid : Int32) (q : ℕ) :
    (s.slots q).Bystander ((s.killSlots pid).slots q) := by
  unfold killSlots
  split
  · exact .refl _
  · next j _ =>
    rcases eq_or_ne q j with rfl | hne
    · rw [setSlot_slots_self]
      refine ⟨?_, rfl⟩
      split
      · next h => exact .inr ⟨h, rfl⟩
      · exact .inl rfl
    · rw [setSlot_slots_of_ne _ _ hne]
      exact .refl _

end State

namespace Inv

variable {s s' : State} {c p : ℕ}

section

variable (hs : Inv s)
include hs

theorem parked_of_quiet (h : (s.slots q).Quiet (s'.slots q)) (hq : (s'.slots q).Parked) :
    (s'.slots q).pc.InSched := by
  obtain ⟨hparked, hpc⟩ := h.parked hq
  rw [hpc]
  exact hs.cpu.parked q hparked

/-- The table changes and nobody notices. -/
theorem table (hcpus : s'.cpus = s.cpus) (hlock : s'.lock = s.lock)
    (h : ∀ q, (s.slots q).Quiet (s'.slots q)) : Inv s' :=
  ⟨hs.cpu.table hcpus hlock (fun q => (h q).still) fun q => hs.parked_of_quiet (h q),
    hs.fork.calm fun q => (h q).calm⟩

/-- A process leaves for the scheduler. In the middle of `fork` it does so only to wait for a
CPU. -/
theorem leave (hfrom : (s.cpus c).loc = .process p) (hlock : s.lock = none ∨ s.lock = some c)
    {slots : ℕ → Slot} (hothers : ∀ q ≠ p, (s.slots q).Quiet (slots q))
    (hslot : slot.state ≠ .running ∧ slot.state ≠ .embryo)
    (hparked : slot.Parked → slot.pc.InSched) (hspot : slot.pc.spot = (s.slots p).pc.spot)
    (hready : slot.pc.spot = .user ∨ slot.state = .runnable) :
    Inv ({ s with slots := slots }.swtch c p slot) := by
  set t := { s with slots := slots }.swtch c p slot with ht
  have hself : t.slots p = slot := Function.update_self ..
  have hold : ∀ q ≠ p, t.slots q = slots q := fun q hq => Function.update_of_ne hq ..
  constructor
  · refine hs.cpu.leave hfrom rfl (hself ▸ hslot.1) (fun q hq => ?_) (fun q hq => ?_) ⟨hlock, rfl⟩
    · rw [hold q hq]
      exact (hothers q hq).still
    · rcases eq_or_ne q p with rfl | hne
      · rw [hself] at hq ⊢
        exact hparked hq
      · exact hs.parked_of_quiet (hold q hne ▸ hothers q hne) hq
  · refine hs.fork.calm fun q => ?_
    rcases eq_or_ne q p with rfl | hne
    · have hrun := (hs.cpu.of_process hfrom).1
      rw [hself]
      refine ⟨iff_of_false hslot.2 (by simp [hrun]), by simp [hrun], hspot, fun h _ => ?_⟩
      rcases hready with huser | hready
      · rw [← hspot, huser] at h
        exact absurd rfl h
      · exact .inr hready
    · rw [hold q hne]
      exact (hothers q hne).calm

/-- A process gives back the lock it was handed, and goes on where it was. -/
theorem release (hfrom : (s.cpus c).loc = .process p) (hlock : s.lock = some c)
    (hcpus : s'.cpus = s.cpus) (hlock' : s'.lock = none)
    (hothers : ∀ q ≠ p, (s.slots q).Quiet (s'.slots q)) (hstate : (s'.slots p).state = .running)
    (hpc : (s'.slots p).pc = .code (s.slots p).pc.spot) : Inv s' := by
  constructor
  · refine hs.cpu.release hfrom hcpus ⟨hstate, by simp [hpc, Pc.InSched]⟩
      (fun q hq => (hothers q hq).still) (fun q hq => ?_) ⟨hlock, hlock'⟩
    have hne : q ≠ p := by
      rintro rfl
      rw [Slot.Parked, hstate] at hq
      rcases hq with hq | hq <;> cases hq
    exact hs.parked_of_quiet (hothers q hne) hq
  · refine hs.fork.calm fun q => ?_
    rcases eq_or_ne q p with rfl | hne
    · have hrun := (hs.cpu.of_process hfrom).1
      exact ⟨by simp [hstate, hrun], by simp [hrun], hpc ▸ rfl, fun _ _ => .inl hstate⟩
    · exact (hothers q hne).calm

/-- A process in `fork` and its embryo change. The CPUs only see that the process runs on. -/
theorem forking {a b : Spot} (hfrom : (s.cpus c).loc = .process p) (hcpus : s'.cpus = s.cpus)
    (hlock : s'.lock = s.lock) (hold : ∀ q, q ≠ p → q ≠ np → s'.slots q = s.slots q)
    (hpc : (s.slots p).pc = .code a) (hp : s'.slots p = { s.slots p with pc := .code b })
    (hnp : (s.slots np).state ≠ .running ∧ (s'.slots np).state ≠ .running)
    (hparked : (s'.slots np).Parked → (s'.slots np).pc.InSched) (hfork : ForkInv s') : Inv s' := by
  have hrun := (hs.cpu.of_process hfrom).1
  refine ⟨hs.cpu.table hcpus hlock (fun q => ?_) fun q hq => ?_, hfork⟩
  · rcases eq_or_ne q p with rfl | hqp
    · rw [hp]
      exact ⟨Iff.rfl, fun _ => by rw [hpc]; exact Iff.rfl⟩
    · rcases eq_or_ne q np with rfl | hqn
      · exact ⟨iff_of_false hnp.2 hnp.1, fun h => absurd h hnp.1⟩
      · rw [hold q hqp hqn]
        exact .refl _
  · rcases eq_or_ne q np with rfl | hqn
    · exact hparked hq
    · have hqp : q ≠ p := by
        rintro rfl
        rw [Slot.Parked, hp, hrun] at hq
        rcases hq with hq | hq <;> cases hq
      rw [hold q hqp hqn] at hq ⊢
      exact hs.cpu.parked q hq

theorem fork_step (h : s.fork c = some s') : Inv s' := by
  obtain ⟨p, hfrom, hpc, -, h⟩ := State.enter_eq_some h
  have hrun := (hs.cpu.of_process hfrom).1
  split at h
  · obtain rfl := Option.some.inj h
    exact hs
  · next np hfind =>
    obtain ⟨hunused, hne⟩ := State.unused_of_freeSlot hfind hrun
    have hs' := (Option.some.inj h).symm
    have hslots := congrArg State.slots hs'
    obtain ⟨hp, hnp, hold⟩ := State.slots_of_update_update hne hslots
    refine hs.forking hfrom (hs' ▸ rfl) (hs' ▸ rfl) hold hpc hp ?_ ?_ ?_
    · simp [hnp, hunused]
    · simp [hnp, Slot.Parked]
    · obtain ⟨h1, h2, h3, h4, h5⟩ := hs.fork
      constructor
      all_goals grind [Pc.spot, Spot.forking, Slot.Ready]

/-- The process in `fork` and its embryo are two. -/
theorem ne_of_forking (hfrom : (s.cpus c).loc = .process p)
    (hpc : (s.slots p).pc.spot.forking = some np) :
    (s.slots np).state = .embryo ∧ np ≠ p := by
  have hrun := (hs.cpu.of_process hfrom).1
  have hembryo := hs.fork.embryo p np hpc
  refine ⟨hembryo, ?_⟩
  rintro rfl
  rw [hrun] at hembryo
  cases hembryo

/-- A step of `fork` changes the slots of the two and no other. -/
theorem slots_of_forking {a b : Slot} (hfrom : (s.cpus c).loc = .process p)
    (hpc : (s.slots p).pc.spot.forking = some np)
    (hslots : s'.slots = Function.update (Function.update s.slots np a) p b) :
    (s.slots p).state = .running ∧ (s.slots np).state = .embryo ∧ s'.slots p = b ∧
      s'.slots np = a ∧ ∀ q, q ≠ p → q ≠ np → s'.slots q = s.slots q := by
  obtain ⟨hembryo, hne⟩ := hs.ne_of_forking hfrom hpc
  exact ⟨(hs.cpu.of_process hfrom).1, hembryo, State.slots_of_update_update hne hslots⟩

theorem forkFail_step (h : s.forkFail c = some s') : Inv s' := by
  obtain ⟨p, np, hfrom, hpc, hs'⟩ := State.inFork_eq_some h
  obtain ⟨hrun, hembryo, hp, hnp, hold⟩ :=
    hs.slots_of_forking hfrom (by rw [hpc]; rfl) (congrArg State.slots hs')
  refine hs.forking hfrom (hs' ▸ rfl) (hs' ▸ rfl) hold hpc hp ?_ ?_ ?_
  · simp [hnp, hembryo]
  · simp [hnp, Slot.Parked]
  · obtain ⟨h1, h2, h3, h4, h5⟩ := hs.fork
    constructor
    all_goals grind [Pc.spot, Spot.forking, Slot.Ready]

theorem forkCopy_step (h : s.forkCopy c = some s') : Inv s' := by
  obtain ⟨p, np, hfrom, hpc, hs'⟩ := State.inFork_eq_some h
  obtain ⟨hrun, hembryo, hp, hnp, hold⟩ :=
    hs.slots_of_forking hfrom (by rw [hpc]; rfl) (congrArg State.slots hs')
  refine hs.forking hfrom (hs' ▸ rfl) (hs' ▸ rfl) hold hpc hp ?_ ?_ ?_
  · simp [hnp, hembryo]
  · simp [hnp, hembryo, Slot.Parked]
  · obtain ⟨h1, h2, h3, h4, h5⟩ := hs.fork
    constructor
    all_goals grind [Pc.spot, Spot.forking, Slot.Ready]

theorem forkRun_step (h : s.forkRun c = some s') : Inv s' := by
  obtain ⟨p, np, hfrom, hpc, -, hs'⟩ := State.forkRun_eq_some h
  have hforkret := hs.fork.forkret p np (by rw [hpc]; rfl)
  obtain ⟨hrun, hembryo, hp, hnp, hold⟩ :=
    hs.slots_of_forking hfrom (by rw [hpc]; rfl) (congrArg State.slots hs')
  refine hs.forking hfrom (hs' ▸ rfl) (hs' ▸ rfl) hold hpc hp ?_ ?_ ?_
  · simp [hnp, hembryo]
  · simp [hnp, hforkret, Pc.InSched]
  · obtain ⟨h1, h2, h3, h4, h5⟩ := hs.fork
    constructor
    all_goals grind [Pc.spot, Spot.forking, Slot.Ready]

end

/-! ### The scheduler -/

theorem schedAcquire_step (hs : Inv s) (h : s.schedAcquire c = some s') : Inv s' := by
  unfold State.schedAcquire at h
  split at h
  · next hidle =>
    have hbound := hs.cpu.bound c
    rw [hidle.1] at hbound
    obtain rfl := Option.some.inj h
    exact ⟨hs.cpu.sched rfl rfl hbound (by simp [hidle.1]) (.inr ⟨⟨0, rfl⟩, .inl hidle.2, rfl⟩),
      hs.fork.calm fun q => .refl _⟩
  · cases h

theorem schedTurn_step (hs : Inv s) (h : s.schedTurn c = some s') : Inv s' := by
  unfold State.schedTurn at h
  split at h
  · next k hloop =>
    have hheld := hs.cpu.lock_of_loop hloop
    have hbound := hs.cpu.bound c
    rw [hloop] at hbound
    split at h
    · split at h
      · next hrunnable =>
        have hs' := (Option.some.inj h).symm
        have hslots := congrArg State.slots hs'
        exact ⟨hs.cpu.dispatch hrunnable hslots ⟨rfl, rfl⟩ (hs' ▸ rfl) hloop (hs' ▸ rfl),
          hs.fork.calm (State.rel_of_update .refl hslots
            ⟨by simp [hrunnable], fun _ => rfl, rfl, fun _ _ => .inl rfl⟩)⟩
      · obtain rfl := Option.some.inj h
        exact ⟨hs.cpu.sched rfl rfl hbound (by simp [hloop])
          (.inr ⟨⟨k + 1, rfl⟩, .inr hheld, hheld⟩), hs.fork.calm fun q => .refl _⟩
    · obtain rfl := Option.some.inj h
      exact ⟨hs.cpu.sched rfl rfl hbound (by simp [hloop]) (.inl ⟨rfl, hheld, rfl⟩),
        hs.fork.calm fun q => .refl _⟩
  · cases h

theorem schedBack_step (hs : Inv s) (h : s.schedBack c = some s') : Inv s' := by
  unfold State.schedBack at h
  split at h
  · next p hback =>
    have hheld := (hs.cpu.lock_of_back hback).1
    obtain rfl := Option.some.inj h
    exact ⟨hs.cpu.sched rfl rfl ⟨rfl, rfl⟩ (by simp [hback])
      (.inr ⟨⟨p + 1, rfl⟩, .inr hheld, hheld⟩), hs.fork.calm fun q => .refl _⟩
  · cases h

/-! ### Processes -/

/-- What the scan of `wait` finds. -/
theorem waitScan_reap (h : s.waitScan p = .reap j) :
    j < nProc ∧ (s.slots j).parent = some p ∧ (s.slots j).state = .zombie := by
  unfold State.waitScan at h
  split at h
  · next i hfind =>
    obtain rfl := State.WaitResult.reap.inj h
    have hi := List.find?_some hfind
    simp only [decide_eq_true_eq] at hi
    exact ⟨List.mem_range.mp (List.mem_of_find?_eq_some hfind), hi⟩
  · split at h <;> cases h

/-- It is not the caller itself. -/
theorem waitScan_ne (h : s.waitScan p = .reap j) (hrun : (s.slots p).state = .running) : p ≠ j := by
  rintro rfl
  rw [(waitScan_reap h).2.2] at hrun
  cases hrun

section

variable (hs : Inv s)
include hs

/-- A call ends: the lock was handed over, or taken by the caller itself. -/
theorem return_step (hfrom : (s.cpus c).loc = .process p)
    (hlock : (s.lock = none ∧ (s.slots p).pc = .code .user) ∨ s.lock = some c)
    (hcpus : s'.cpus = s.cpus) (hlock' : s'.lock = none)
    (hp : (s'.slots p).state = (s.slots p).state ∧ (s'.slots p).pc = .code (s.slots p).pc.spot)
    (hothers : ∀ q ≠ p, (s.slots q).Quiet (s'.slots q)) : Inv s' := by
  have hrun := (hs.cpu.of_process hfrom).1
  rcases hlock with ⟨hlock, hpc⟩ | hlock
  · refine hs.table hcpus (hlock'.trans hlock.symm) fun q => ?_
    rcases eq_or_ne q p with rfl | hne
    · exact (Slot.Bystander.mk (.inl hp.1) (by rw [hp.2, hpc]; rfl)).quiet
    · exact hothers q hne
  · exact hs.release hfrom hlock hcpus hlock' hothers (hp.1.trans hrun) hp.2

/-- A turn of `wait`, with the lock just taken or handed over. -/
theorem waitTurn_step (hfrom : (s.cpus c).loc = .process p)
    (hlock : (s.lock = none ∧ (s.slots p).pc = .code .user) ∨ s.lock = some c)
    (hspot : (s.slots p).pc.spot = .user) : Inv (s.waitTurn c p) := by
  have hrun := (hs.cpu.of_process hfrom).1
  generalize ht : s.waitTurn c p = t
  unfold State.waitTurn at ht
  split at ht
  · next j hscan =>
    obtain ⟨-, -, hzombie⟩ := waitScan_reap hscan
    have hne := waitScan_ne hscan hrun
    have hslots := congrArg State.slots ht.symm
    obtain ⟨hj, hp, hold⟩ := State.slots_of_update_update hne hslots
    refine hs.return_step hfrom hlock (ht ▸ rfl) (ht ▸ rfl) (hp ▸ ⟨rfl, hspot ▸ rfl⟩) fun q hq => ?_
    rcases eq_or_ne q j with rfl | hqj
    · exact .reap hzombie (hj ▸ rfl) (hj ▸ rfl)
    · rw [hold q hqj hq]
      exact .refl _
  · have hslots := congrArg State.slots ht.symm
    obtain ⟨hp, hold⟩ := State.slots_of_update hslots
    refine hs.return_step hfrom hlock (ht ▸ rfl) (ht ▸ rfl) (hp ▸ ⟨rfl, hspot ▸ rfl⟩) fun q hq => ?_
    rw [hold q hq]
    exact .refl _
  · rw [← ht]
    exact hs.leave hfrom (hlock.imp_left And.left) (fun q _ => .refl _) ⟨nofun, nofun⟩
      (fun _ => trivial) hspot.symm (.inl rfl)

theorem wait_step (h : s.wait c = some s') : Inv s' := by
  obtain ⟨p, hfrom, hpc, hlock, h⟩ := State.enter_eq_some h
  obtain rfl := Option.some.inj h
  exact hs.waitTurn_step hfrom (.inl ⟨hlock, hpc⟩) (hpc ▸ rfl)

/-- A process that is preempted in `fork` keeps its embryo. -/
theorem yield_step (h : s.yield c = some s') : Inv s' := by
  obtain ⟨p, hfrom, -, hlock, rfl⟩ := State.yield_eq_some h
  exact hs.leave hfrom (.inl hlock) (fun q _ => .refl _) ⟨nofun, nofun⟩ (fun _ => trivial) rfl
    (.inr rfl)

theorem sleep_step (h : s.sleep c chan = some s') : Inv s' := by
  obtain ⟨p, hfrom, hpc, hlock, h⟩ := State.enter_eq_some h
  obtain rfl := Option.some.inj h
  exact hs.leave hfrom (.inl hlock) (fun q _ => .refl _) ⟨nofun, nofun⟩ (fun _ => trivial)
    (hpc ▸ rfl) (.inl rfl)

theorem exit_step (h : s.exit c = some s') : Inv s' := by
  obtain ⟨p, hfrom, hpc, hlock, h⟩ := State.enter_eq_some h
  split at h
  · cases h
  · obtain rfl := Option.some.inj h
    exact hs.leave hfrom (.inl hlock) (fun q _ => (s.exitSlots_bystander p q).quiet)
      ⟨nofun, nofun⟩ nofun (hpc ▸ rfl) (.inl rfl)

theorem wakeup_step (h : s.wakeup chan = some s') : Inv s' := by
  unfold State.wakeup at h
  split at h
  · obtain rfl := Option.some.inj h
    exact hs.table rfl rfl fun q => (State.wakeup1_bystander _ _ q).quiet
  · cases h

theorem kill_step {pid : Int32} (h : s.kill c pid = some s') : Inv s' := by
  obtain ⟨p, -, -, -, h⟩ := State.enter_eq_some h
  obtain rfl := Option.some.inj h
  refine hs.table ?_ ?_ fun q => (s.killSlots_bystander pid q).quiet
  · unfold State.killSlots
    split <;> rfl
  · unfold State.killSlots
    split <;> rfl

/-- `sleep` clears `chan` when it goes on. -/
theorem tidy (p : ℕ) : Inv (s.setSlot p { s.slots p with chan := none }) := by
  have hby : (s.slots p).Bystander { s.slots p with chan := none } := ⟨.inl rfl, rfl⟩
  exact hs.table rfl rfl (State.rel_of_update .refl rfl hby.quiet)

theorem resume_step (h : s.resume c = some s') : Inv s' := by
  obtain ⟨p, hfrom, ⟨hin, chan, hs'⟩ | ⟨hpc, rfl⟩⟩ := State.resume_eq_some h
  · have hslots := congrArg State.slots hs'
    obtain ⟨hp, hold⟩ := State.slots_of_update hslots
    refine hs.return_step hfrom (.inr ((hs.cpu.of_process hfrom).2.mpr hin)) (hs' ▸ rfl) (hs' ▸ rfl)
      (hp ▸ ⟨rfl, rfl⟩) fun q hq => ?_
    rw [hold q hq]
    exact .refl _
  · have hlock := (hs.cpu.of_process hfrom).2.mpr (hpc ▸ trivial)
    refine (hs.tidy p).waitTurn_step hfrom (.inr hlock) ?_
    rw [State.setSlot_slots_self]
    exact hpc ▸ rfl

/-- **The step lemma.** -/
theorem step (h : Sched.step s e = some s') : Inv s' := by
  cases e with
  | schedAcquire c => exact hs.schedAcquire_step h
  | schedTurn c => exact hs.schedTurn_step h
  | schedBack c => exact hs.schedBack_step h
  | resume c => exact hs.resume_step h
  | yield c => exact hs.yield_step h
  | sleep c chan => exact hs.sleep_step h
  | exit c => exact hs.exit_step h
  | fork c => exact hs.fork_step h
  | forkFail c => exact hs.forkFail_step h
  | forkCopy c => exact hs.forkCopy_step h
  | forkRun c => exact hs.forkRun_step h
  | wait c => exact hs.wait_step h
  | wakeup chan => exact hs.wakeup_step h
  | kill c pid => exact hs.kill_step h

end

theorem boot : Inv boot where
  cpu := by
    refine ⟨fun _ => ⟨rfl, rfl⟩, fun _ => nofun, nofun, fun p hp => ?_, fun p hp => ?_⟩
    · unfold Sched.boot at hp
      dsimp only at hp
      split at hp <;> cases hp
    · unfold Sched.boot at hp ⊢
      dsimp only at hp ⊢
      split at hp
      · next h => rw [if_pos h]; trivial
      · rcases hp with hp | hp <;> cases hp
  fork := by
    have hspot : ∀ p, (Sched.boot.slots p).pc.spot.forking = none := by
      intro p
      unfold Sched.boot
      dsimp only
      split <;> rfl
    have hembryo : ∀ p, (Sched.boot.slots p).state ≠ .embryo := by
      intro p
      unfold Sched.boot
      dsimp only
      split <;> nofun
    exact ⟨by simp [hspot], by simp [hspot],
      fun p np hp => absurd (hspot p) (by simp [hp, Spot.forking]), by simp [hspot],
      fun np hnp => absurd hnp (hembryo np)⟩

/-- **The run lemma.** -/
theorem run {es : List Event} (h : Run.exec Sched.step Sched.boot es = some s) : Inv s :=
  Run.exec_invariant (fun _ _ _ hs h => hs.step h) boot h

/-! ### What follows -/

theorem proc_eq (hs : Inv s) (hc : (s.cpus c).proc = some p) :
    (s.cpus c).loc = .process p ∨ (s.cpus c).loc = .back p := by
  rw [(hs.cpu.bound c).1] at hc
  cases hloc : (s.cpus c).loc with
  | idle | loop k => rw [hloc] at hc; cases hc
  | process q =>
    rw [hloc] at hc
    exact .inl (congrArg Loc.process (Option.some.inj hc))
  | back q =>
    rw [hloc] at hc
    exact .inr (congrArg Loc.back (Option.some.inj hc))

/-- A process that a CPU is about to give up does not run on another one. -/
theorem not_back_of_process (hs : Inv s) (hc : (s.cpus c).loc = .process p)
    (hd : (s.cpus d).loc = .back p) : False :=
  (hs.cpu.lock_of_back hd).2 (hs.cpu.of_process hc).1

theorem unique_proc (hs : Inv s) (hc : (s.cpus c).proc = some p) (hd : (s.cpus d).proc = some p) :
    c = d := by
  rcases hs.proc_eq hc with hc | hc <;> rcases hs.proc_eq hd with hd | hd
  · exact hs.cpu.unique c d p hc hd
  · exact (hs.not_back_of_process hc hd).elim
  · exact (hs.not_back_of_process hd hc).elim
  · have hlock := (hs.cpu.lock_of_back hc).1
    exact Option.some.inj (hlock.symm.trans (hs.cpu.lock_of_back hd).1)

/-- With the lock free there is no CPU between two processes. -/
theorem running_iff (hs : Inv s) (hlock : s.lock = none) :
    (s.slots p).state = .running ↔ ∃! c, (s.cpus c).proc = some p := by
  constructor
  · intro hp
    obtain ⟨c, hc⟩ := hs.cpu.running p hp
    have hproc : (s.cpus c).proc = some p := by rw [(hs.cpu.bound c).1, hc]; rfl
    exact ⟨c, hproc, fun d hd => hs.unique_proc hd hproc⟩
  · rintro ⟨c, hc, -⟩
    rcases hs.proc_eq hc with hc | hc
    · exact (hs.cpu.of_process hc).1
    · have hheld := (hs.cpu.lock_of_back hc).1
      rw [hlock] at hheld
      cases hheld

/-- `wait` takes the memory from the child that it returns. -/
theorem waitTurn_mem (hmem : (s.slots j).mem = true)
    (hfreed : ((s.waitTurn c p).slots j).mem = false) : s.waitScan p = .reap j := by
  have hpkeep : ∀ slot : Slot, slot.mem = (s.slots p).mem →
      (Function.update s.slots p slot j).mem = true := by
    intro slot hslot
    rcases eq_or_ne j p with rfl | hne
    · rw [Function.update_self, hslot, hmem]
    · rw [Function.update_of_ne hne, hmem]
  unfold State.waitTurn at hfreed
  split at hfreed
  · next i hscan =>
    rcases eq_or_ne j i with rfl | hne
    · exact hscan
    · have hkept := hpkeep { s.slots p with pc := .code .user } rfl
      rw [← Function.update_of_ne hne _ (Function.update s.slots p _)] at hkept
      exact absurd (hkept.symm.trans hfreed) nofun
  · exact absurd ((hpkeep { s.slots p with pc := .code .user } rfl).symm.trans hfreed) nofun
  · exact absurd ((hpkeep { s.slots p with chan := some (.proc p), state := .sleeping, pc := .wait }
      rfl).symm.trans hfreed) nofun

/-- The child that `wait` takes the memory from is on no CPU. -/
theorem waitTurn_frees (hs : Inv s) (hfrom : (s.cpus c).loc = .process p)
    (hlock : s.lock = none ∨ s.lock = some c) (hmem : (s.slots j).mem = true)
    (hfreed : ((s.waitTurn c p).slots j).mem = false) (d : ℕ) :
    (s.cpus d).loc ≠ .process j ∧ (s.cpus d).space ≠ some j := by
  obtain ⟨-, -, hzombie⟩ := waitScan_reap (waitTurn_mem hmem hfreed)
  have hprocess : (s.cpus d).loc ≠ .process j := by
    intro hd
    rw [(hs.cpu.of_process hd).1] at hzombie
    cases hzombie
  refine ⟨hprocess, fun hspace => ?_⟩
  have hback : (s.cpus d).loc = .back j := by
    refine (hs.proc_eq ?_).resolve_left hprocess
    rw [(hs.cpu.bound d).1, ← (hs.cpu.bound d).2, hspace]
  have hheld := (hs.cpu.lock_of_back hback).1
  rcases hlock with hlock | hlock
  · rw [hlock] at hheld
    cases hheld
  · obtain rfl : c = d := Option.some.inj (hlock.symm.trans hheld)
    rw [hfrom] at hback
    cases hback

/-- `wait` runs when it is called and when its caller is switched to again. -/
theorem wait_frees (hs : Inv s) (he : e = .wait c ∨ e = .resume c) (h : Sched.step s e = some s')
    (hmem : (s.slots j).mem = true) (hfreed : (s'.slots j).mem = false) (d : ℕ) :
    (s.cpus d).loc ≠ .process j ∧ (s.cpus d).space ≠ some j := by
  rcases he with rfl | rfl
  · obtain ⟨p, hfrom, hpc, hlock, h⟩ := State.enter_eq_some h
    obtain rfl := Option.some.inj h
    exact hs.waitTurn_frees hfrom (.inl hlock) hmem hfreed d
  · obtain ⟨p, hfrom, ⟨-, chan, hs'⟩ | ⟨hpc, rfl⟩⟩ := State.resume_eq_some h
    · -- no memory is freed
      have hslots := congrArg State.slots hs'
      obtain ⟨hp, hold⟩ := State.slots_of_update hslots
      rcases eq_or_ne j p with rfl | hne
      · rw [hp] at hfreed
        exact absurd (hmem.symm.trans hfreed) nofun
      · rw [hold j hne] at hfreed
        exact absurd (hmem.symm.trans hfreed) nofun
    · have hlock := (hs.cpu.of_process hfrom).2.mpr (hpc ▸ trivial)
      refine (hs.tidy p).waitTurn_frees hfrom (.inr hlock) ?_ hfreed d
      rcases eq_or_ne j p with rfl | hne
      · rw [State.setSlot_slots_self]
        exact hmem
      · rw [State.setSlot_slots_of_ne _ _ hne]
        exact hmem

end Inv

/-- In every state that the system comes to, a process is on at most one CPU; while the lock is free
the running processes are those on a CPU; and `wait` frees no memory that a CPU works with. -/
theorem one_cpu_run {es : List Event} {s : State} (h : Run.exec step boot es = some s) :
    (∀ c d p, (s.cpus c).proc = some p → (s.cpus d).proc = some p → c = d) ∧
      (s.lock = none → ∀ p, (s.slots p).state = .running ↔ ∃! c, (s.cpus c).proc = some p) ∧
      ∀ e s' c j, (e = .wait c ∨ e = .resume c) → step s e = some s' → (s.slots j).mem = true →
        (s'.slots j).mem = false → ∀ d, (s.cpus d).loc ≠ .process j ∧
        (s.cpus d).space ≠ some j := by
  have hs := Inv.run h
  exact ⟨fun c d p hc hd => hs.unique_proc hc hd, fun hlock p => hs.running_iff hlock,
    fun e s' c j he hstep hmem hfreed => hs.wait_frees he hstep hmem hfreed⟩

/-- init is preempted in the middle of `fork` on CPU 0, and dispatched on CPU 1. -/
def migration : List Event :=
  [.schedAcquire 0, .schedTurn 0, .resume 0, .fork 0, .yield 0, .schedBack 0] ++
    List.replicate nProc (.schedTurn 0) ++ [.schedAcquire 1, .schedTurn 1]

/-- init goes on in `fork` and waits for its child, which exits; then init is dispatched again. -/
def collection : List Event :=
  migration ++ [.resume 1, .forkCopy 1, .forkRun 1, .wait 1, .schedBack 1, .schedTurn 1, .resume 1,
      .exit 1, .schedBack 1] ++
    List.replicate 63 (.schedTurn 1) ++ [.schedAcquire 1, .schedTurn 1]

/-- The next step frees the memory of the child; no CPU has its address space loaded, and init is on
CPU 1 alone, though it was on CPU 0 before. -/
theorem one_cpu_run_collection : ∃ s s', Run.exec step boot collection = some s ∧
    step s (.resume 1) = some s' ∧ (s.slots 1).mem = true ∧ (s'.slots 1).mem = false ∧
    (∀ d, (s.cpus d).space ≠ some 1) ∧ ∀ d, (s.cpus d).proc = some initproc → d = 1 := by
  have hrun : ((Run.exec step boot collection).bind fun s => (step s (.resume 1)).map fun s' =>
      ((s.slots 1).mem, (s'.slots 1).mem, (s.cpus 1).proc)) =
        some (true, false, some initproc) := by
    decide +kernel
  obtain ⟨s, hs, hstep⟩ := Option.bind_eq_some_iff.mp hrun
  obtain ⟨s', hs', heq⟩ := Option.map_eq_some_iff.mp hstep
  obtain ⟨hmem, hfreed, hproc⟩ := by simpa only [Prod.mk.injEq] using heq
  obtain ⟨hunique, -, hfrees⟩ := one_cpu_run hs
  exact ⟨s, s', hs, hs', hmem, hfreed, fun d => (hfrees _ s' 1 1 (.inr rfl) hs' hmem hfreed d).2,
    fun d hd => hunique d 1 initproc hd hproc⟩

/-- **Who holds `ptable.lock`**: a CPU that scans the table or is back from a process, or whose
process is at its `swtch` or in `forkret`; and there every process is that will run again. -/
theorem ptable_lock_run {es : List Event} {s : State} (h : Run.exec step boot es = some s) :
    (∀ c, s.lock = some c ↔ match (s.cpus c).loc with
      | .idle => False
      | .loop _ | .back _ => True
      | .process p => (s.slots p).pc.InSched) ∧
      ∀ p, (s.slots p).Parked → (s.slots p).pc.InSched := by
  have hs := (Inv.run h).cpu
  refine ⟨fun c => ?_, hs.parked⟩
  have hok := hs.ok c
  unfold CpuOk at hok
  cases hloc : (s.cpus c).loc with rw [hloc] at hok
  | idle => exact iff_of_false hok id
  | loop k => exact iff_of_true hok trivial
  | back p => exact iff_of_true hok.1 trivial
  | process p => exact hok.2

/-- init is at its `swtch`, preempted in `fork` and just dispatched: its CPU holds the lock. -/
theorem ptable_lock_run_migration : ∃ s, Run.exec step boot migration = some s ∧
    (s.cpus 1).loc = .process initproc ∧ (s.slots initproc).pc = .yield (.embryo 1) ∧
    s.lock = some 1 := by
  have hrun : ((Run.exec step boot migration).map fun s =>
    ((s.cpus 1).loc, (s.slots initproc).pc)) =
      some (.process initproc, .yield (.embryo 1)) := by
    decide +kernel
  obtain ⟨s, hs, heq⟩ := Option.map_eq_some_iff.mp hrun
  obtain ⟨hloc, hpc⟩ := by simpa only [Prod.mk.injEq] using heq
  refine ⟨s, hs, hloc, hpc, ((ptable_lock_run hs).1 1).mpr ?_⟩
  rw [hloc]
  dsimp only
  rw [hpc]
  trivial

/-- **Embryos**: a process in `fork`, whether it runs or was preempted there, has an embryo of its
own, until it lets it run from `forkret` on; and every embryo has such a process, which runs or
waits for a CPU. So no slot is left half made, whatever interrupts `fork`. -/
theorem embryo_run {es : List Event} {s : State} (h : Run.exec step boot es = some s) : ForkInv s :=
  (Inv.run h).fork

/-- init was preempted in `fork`: it is not running, but its embryo is still its own. -/
theorem embryo_run_yield : ∃ s, Run.exec step boot
      [.schedAcquire 0, .schedTurn 0, .resume 0, .fork 0, .yield 0] = some s ∧
    (s.slots initproc).state = .runnable ∧ (s.slots 1).state = .embryo ∧
    ∃ p, (s.slots p).pc.spot.forking = some 1 := by
  have hrun : Run.exec step boot [.schedAcquire 0, .schedTurn 0, .resume 0, .fork 0, .yield 0] =
    some _ := rfl
  have hembryo := (embryo_run hrun).embryo initproc 1 rfl
  exact ⟨_, hrun, rfl, hembryo, (embryo_run hrun).maker 1 hembryo⟩

end InuOs.Sched
