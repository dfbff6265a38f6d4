import InuOs.Family

/-!
# One slot in one step

Invariants that speak of each slot by itself do not have to know all steps of the system. What a
step can do to the state, the pid and the mark `killed` of a slot is said here once (`Slot.Step`).
-/

namespace InuOs.Sched

/-- What a step `e` from `s` can make of slot `q`. -/
inductive Slot.Step (s : State) (e : Event) (q : ℕ) (b : Slot) : Prop where
  /-- nothing, or something that is not seen in these three -/
  | same (hstate : b.state = (s.slots q).state) (hpid : b.pid = (s.slots q).pid)
      (hkilled : b.killed = (s.slots q).killed)
  /-- its process is dispatched, gives up the CPU, is woken up or exits -/
  | goes (hbefore : (s.slots q).Occupied) (hafter : b.Occupied) (hpid : b.pid = (s.slots q).pid)
      (hkilled : b.killed = (s.slots q).killed)
  /-- `allocproc` takes it -/
  | taken (c : ℕ) (he : e = .fork c) (hunused : (s.slots q).state = .unused)
      (hkilled : b.killed = (s.slots q).killed)
  /-- `fork` is done with it, or fails -/
  | made (hembryo : (s.slots q).state = .embryo) (hpid : b.pid = (s.slots q).pid)
      (hkilled : b.killed = (s.slots q).killed)
  /-- `wait` clears it -/
  | cleared (hunused : b.state = .unused) (hkilled : b.killed = false)
  /-- `kill` comes upon it, and may wake up its process -/
  | killed (c : ℕ) (pid : Int32) (he : e = .kill c pid) (htarget : s.killTarget pid = some q)
      (hby : (s.slots q).Bystander b) (hpid : b.pid = (s.slots q).pid)

namespace Slot.Step

variable {s s' : State} {e : Event} {c p q : ℕ} {b : Slot}

theorem refl (s : State) (e : Event) (q : ℕ) : Step s e q (s.slots q) := .same rfl rfl rfl

theorem of_bystander (h : (s.slots q).Bystander b) (hpid : b.pid = (s.slots q).pid)
    (hkilled : b.killed = (s.slots q).killed) : Step s e q b := by
  rcases (s.slots q).vacant_or_occupied with hvacant | hoccupied
  · refine .same ?_ hpid hkilled
    rcases hvacant with hstate | hstate
    · rw [hstate]
      exact (h.state_iff .unused nofun nofun).mpr hstate
    · rw [hstate]
      exact (h.state_iff .embryo nofun nofun).mpr hstate
  · exact .goes hoccupied (h.occupied.mpr hoccupied) hpid hkilled

theorem of_update {slot : Slot} (hslots : s'.slots = Function.update s.slots p slot)
    (h : Step s e p slot) : ∀ q, Step s e q (s'.slots q) :=
  State.forall_of_update (P := Step s e) (refl s e) hslots h

theorem of_update_update {r : ℕ} {a : Slot} (hne : r ≠ p)
    (hslots : s'.slots = Function.update (Function.update s.slots r a) p b) (ha : Step s e r a)
    (hb : Step s e p b) : ∀ q, Step s e q (s'.slots q) :=
  State.forall_of_update_update (P := Step s e) (refl s e) hne hslots ha hb

/-- A process in `fork` changes its embryo, and itself only in its `pc`. -/
theorem of_forking {np : ℕ} {a : Slot} {pc : Pc} (hs : Inv s) (hfrom : (s.cpus c).loc = .process p)
    (hpc : (s.slots p).pc.spot.forking = some np)
    (hslots : s'.slots =
      Function.update (Function.update s.slots np a) p { s.slots p with pc := pc })
    (ha : a.pid = (s.slots np).pid ∧ a.killed = (s.slots np).killed) :
    ∀ q, Step s e q (s'.slots q) := by
  obtain ⟨hembryo, hne⟩ := hs.ne_of_forking hfrom hpc
  exact of_update_update hne hslots (.made hembryo ha.1 ha.2) (.same rfl rfl rfl)

/-- A turn of `wait`; in `t` the caller has cleared its `chan`, if it was asleep. -/
theorem of_waitTurn {t : State} (hrun : (t.slots p).state = .running)
    (ht : ∀ q, (t.slots q).state = (s.slots q).state ∧ (t.slots q).pid = (s.slots q).pid ∧
      (t.slots q).killed = (s.slots q).killed) (q : ℕ) :
    Step s e q ((t.waitTurn c p).slots q) := by
  obtain ⟨hstate, hpid, hkilled⟩ := ht q
  generalize hu : t.waitTurn c p = u
  unfold State.waitTurn at hu
  split at hu
  · next j hscan =>
    have hslots := congrArg State.slots hu.symm
    obtain ⟨hj, hp, hold⟩ := State.slots_of_update_update (Inv.waitScan_ne hscan hrun) hslots
    rcases eq_or_ne q j with rfl | hqj
    · exact .cleared (hj ▸ rfl) (hj ▸ rfl)
    · rcases eq_or_ne q p with rfl | hqp
      · exact .same (hp ▸ hstate) (hp ▸ hpid) (hp ▸ hkilled)
      · rw [hold q hqj hqp]
        exact .same hstate hpid hkilled
  · obtain ⟨hp, hold⟩ := State.slots_of_update (congrArg State.slots hu.symm)
    rcases eq_or_ne q p with rfl | hqp
    · exact .same (hp ▸ hstate) (hp ▸ hpid) (hp ▸ hkilled)
    · rw [hold q hqp]
      exact .same hstate hpid hkilled
  · obtain ⟨hp, hold⟩ := State.slots_of_update (congrArg State.slots hu.symm)
    rcases eq_or_ne q p with rfl | hqp
    · exact .goes (.inl (.inr (.inr (hstate ▸ hrun)))) (.inl (.inl (hp ▸ rfl))) (hp ▸ hpid)
        (hp ▸ hkilled)
    · rw [hold q hqp]
      exact .same hstate hpid hkilled

/-- `wait` runs when it is called and when its caller is switched to again. -/
theorem of_resume (hs : Inv s) (h : s.resume c = some s') : ∀ q, Step s e q (s'.slots q) := by
  obtain ⟨p, hfrom, ⟨-, chan, rfl⟩ | ⟨-, rfl⟩⟩ := State.resume_eq_some h
  · exact of_update rfl (.same rfl rfl rfl)
  · refine of_waitTurn ?_ (State.rel_of_update (R := fun a b => b.state = a.state ∧ b.pid = a.pid ∧
      b.killed = a.killed) (fun _ => ⟨rfl, rfl, rfl⟩) rfl ⟨rfl, rfl, rfl⟩)
    rw [State.setSlot_slots_self]
    exact (hs.cpu.of_process hfrom).1

theorem of_schedTurn (h : s.schedTurn c = some s') : ∀ q, Step s e q (s'.slots q) := by
  unfold State.schedTurn at h
  repeat' split at h
  · next hrunnable =>
    obtain rfl := Option.some.inj h
    exact of_update rfl (.goes (.inl (.inr (.inl hrunnable))) (.inl (.inr (.inr rfl))) rfl rfl)
  · obtain rfl := Option.some.inj h
    exact refl s e
  · obtain rfl := Option.some.inj h
    exact refl s e
  · cases h

theorem of_exit (hs : Inv s) (h : s.exit c = some s') (q : ℕ) : Step s e q (s'.slots q) := by
  obtain ⟨p, hfrom, -, hexits, -⟩ := State.exit_eq_some h
  obtain ⟨st, parent, pc, hsame⟩ := hexits.same q
  have hpid : (s'.slots q).pid = (s.slots q).pid := by rw [hsame]
  have hkilled : (s'.slots q).killed = (s.slots q).killed := by rw [hsame]
  rcases eq_or_ne q p with rfl | hqp
  · exact .goes (.inl (.inr (.inr (hs.cpu.of_process hfrom).1))) (.inr hexits.self) hpid hkilled
  · exact of_bystander (hexits.others q hqp) hpid hkilled

theorem of_fork (hs : Inv s) (h : s.fork c = some s') :
    ∀ q, Step s (.fork c) q (s'.slots q) := by
  obtain ⟨p, hfrom, -, -, h⟩ := State.enter_eq_some h
  split at h
  · obtain rfl := Option.some.inj h
    exact refl s _
  · next np hfind =>
    obtain ⟨hunused, hne⟩ := State.unused_of_freeSlot hfind (hs.cpu.of_process hfrom).1
    obtain rfl := Option.some.inj h
    exact of_update_update hne rfl (.taken c rfl hunused rfl) (.same rfl rfl rfl)

theorem of_kill {pid : Int32} (h : s.kill c pid = some s') :
    ∀ q, Step s (.kill c pid) q (s'.slots q) := by
  obtain ⟨p, -, -, -, h⟩ := State.enter_eq_some h
  obtain rfl := Option.some.inj h
  have hby := s.killSlots_bystander pid
  unfold State.killSlots at hby ⊢
  split at hby
  · exact refl s _
  · next j htarget =>
    have hj := hby j
    rw [State.setSlot_slots_self] at hj
    exact of_update rfl (.killed c pid rfl htarget hj rfl)

end Slot.Step

variable {s s' : State} {e : Event}

/-- **Every step** does one of these things to a slot. -/
theorem slot_step (hs : Inv s) (h : step s e = some s') :
    ∀ q, Slot.Step s e q (s'.slots q) := by
  cases e with
  | schedAcquire c =>
    simp only [step, State.schedAcquire] at h
    split at h <;> cases h
    exact .refl s _
  | schedTurn c => exact .of_schedTurn h
  | schedBack c =>
    simp only [step, State.schedBack] at h
    split at h <;> cases h
    exact .refl s _
  | resume c => exact .of_resume hs h
  | yield c =>
    obtain ⟨p, hfrom, -, -, rfl⟩ := State.yield_eq_some h
    have hrun := (hs.cpu.of_process hfrom).1
    exact .of_update rfl (.goes (.inl (.inr (.inr hrun))) (.inl (.inr (.inl rfl))) rfl rfl)
  | sleep c chan =>
    obtain ⟨p, hfrom, -, -, h⟩ := State.enter_eq_some h
    obtain rfl := Option.some.inj h
    have hrun := (hs.cpu.of_process hfrom).1
    exact .of_update rfl (.goes (.inl (.inr (.inr hrun))) (.inl (.inl rfl)) rfl rfl)
  | exit c => exact .of_exit hs h
  | fork c => exact .of_fork hs h
  | forkFail c | forkCopy c =>
    obtain ⟨p, np, hfrom, hpc, rfl⟩ := State.inFork_eq_some h
    exact .of_forking hs hfrom (by rw [hpc]; rfl) rfl ⟨rfl, rfl⟩
  | forkRun c =>
    obtain ⟨p, np, hfrom, hpc, -, rfl⟩ := State.forkRun_eq_some h
    exact .of_forking hs hfrom (by rw [hpc]; rfl) rfl ⟨rfl, rfl⟩
  | wait c =>
    obtain ⟨p, hfrom, -, -, h⟩ := State.enter_eq_some h
    obtain rfl := Option.some.inj h
    exact .of_waitTurn (hs.cpu.of_process hfrom).1 (fun _ => ⟨rfl, rfl, rfl⟩)
  | wakeup chan =>
    simp only [step, State.wakeup] at h
    split at h <;> cases h
    intro q
    obtain ⟨st, hst⟩ := State.wakeup1_eq s.slots chan q
    have hpid := congrArg Slot.pid hst
    have hkilled := congrArg Slot.killed hst
    exact .of_bystander (State.wakeup1_bystander s.slots chan q) hpid hkilled
  | kill c pid => exact .of_kill h

end InuOs.Sched
