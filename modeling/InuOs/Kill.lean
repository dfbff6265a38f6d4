import InuOs.SlotStep

/-!
# Who is killed

`kill` compares the pid of every slot of the table, whether there is a process in it or not. The
slots that are not in use have pid 0, or that of a process whose `fork` failed, and nothing clears
`killed` when a slot is taken. So `kill` can reach the next process that will be in such a slot
(`killed_at_birth`).

`KilledInv` says that this has not happened. It holds as long as no `kill` comes upon a slot without
a process (`State.KillsProcess`).
-/

namespace InuOs.Sched

/-- A slot without a process is not marked as killed. -/
def KilledInv (s : State) : Prop := ∀ j, (s.slots j).Vacant → (s.slots j).killed = false

/-- The slot that `kill` finds, if any, has a process in it. -/
def State.KillsProcess (s : State) : Event → Prop
  | .kill _ pid => ∀ j, s.killTarget pid = some j → ¬ (s.slots j).Vacant
  | _ => True

namespace KilledInv

variable {s s' : State}

/-- **The step lemma.** -/
theorem step (hs : KilledInv s) (hinv : Inv s) {e : Event} (hkill : s.KillsProcess e)
    (h : Sched.step s e = some s') : KilledInv s' := by
  intro j hj
  cases slot_step hinv h j with
  | same hstate _ hkilled =>
    rw [Slot.Vacant, hstate] at hj
    rw [hkilled]
    exact hs j hj
  | goes _ hafter => exact absurd hj hafter.not_vacant
  | taken c _ hunused hkilled =>
    rw [hkilled]
    exact hs j (.inl hunused)
  | made hembryo _ hkilled =>
    rw [hkilled]
    exact hs j (.inr hembryo)
  | cleared _ hkilled => exact hkilled
  | killed c pid he htarget hby =>
    subst he
    have hoccupied := (s.slots j).vacant_or_occupied.resolve_left (hkill j htarget)
    exact absurd hj (hby.occupied.mpr hoccupied).not_vacant

theorem boot : KilledInv boot := by
  intro j _
  unfold Sched.boot
  dsimp only
  split <;> rfl

/-- **The run lemma.** -/
theorem run {es : List Event} (hkill : Run.EachStep Sched.step State.KillsProcess Sched.boot es)
    (h : Run.exec Sched.step Sched.boot es = some s) : KilledInv s :=
  (Run.exec_invariant_of_eachStep (I := fun s => Inv s ∧ KilledInv s)
    (fun _ _ _ hs hP h => ⟨hs.1.step h, hs.2.step hs.1 hP h⟩) ⟨Inv.boot, boot⟩ hkill h).2

end KilledInv

namespace State

variable {s s' : State} {c : ℕ} {pid : Int32}

theorem killTarget_eq_some {j : ℕ} (h : s.killTarget pid = some j) :
    j < nProc ∧ (s.slots j).pid = pid :=
  ⟨List.mem_range.mp (List.mem_of_find?_eq_some h), by simpa using List.find?_some h⟩

theorem killTarget_eq_none (h : s.killTarget pid = none) {j : ℕ} (hj : j < nProc) :
    (s.slots j).pid ≠ pid := by
  simpa using List.find?_eq_none.mp h j (List.mem_range.mpr hj)

/-- What `kill` returns, if it does not come upon a slot that is not in use. -/
theorem killReturns_eq_zero_iff (hkill : s.KillsProcess (.kill c pid)) :
    s.killReturns pid = 0 ↔ ∃ j < nProc, (s.slots j).state ≠ .unused ∧ (s.slots j).pid = pid := by
  unfold killReturns
  cases htarget : s.killTarget pid with
  | none =>
    refine iff_of_false nofun ?_
    rintro ⟨j, hj, -, hpid⟩
    exact killTarget_eq_none htarget hj hpid
  | some j =>
    obtain ⟨hj, hpid⟩ := killTarget_eq_some htarget
    exact iff_of_true rfl ⟨j, hj, fun h => hkill j htarget (.inl h), hpid⟩

/-- What `kill` does. -/
theorem kill_effect (hkill : s.KillsProcess (.kill c pid)) (h : s.kill c pid = some s') :
    (s.killReturns pid = 0 ∧ ∃ j, (s.slots j).state ≠ .unused ∧ (s.slots j).pid = pid ∧
        (s'.slots j).killed = true ∧ ∀ i ≠ j, s'.slots i = s.slots i) ∨
      (s.killReturns pid = -1 ∧ s' = s) := by
  obtain ⟨p, -, -, -, h⟩ := enter_eq_some h
  obtain rfl := Option.some.inj h
  unfold killReturns killSlots
  cases htarget : s.killTarget pid with
  | none => exact .inr ⟨rfl, rfl⟩
  | some j =>
    refine .inl ⟨rfl, j, fun h => hkill j htarget (.inl h), (killTarget_eq_some htarget).2, ?_,
      fun i hi => setSlot_slots_of_ne s _ hi⟩
    rw [setSlot_slots_self]

/-- The child takes over the mark of its slot. -/
theorem forkRun_killed (ht : Inv s) (hs : KilledInv s) (h : s.forkRun c = some s') :
    ∃ p np, (s.cpus c).loc = .process p ∧ (s.slots p).pc = .code (.copied np) ∧
      (s'.slots np).state = .runnable ∧ (s'.slots np).killed = false := by
  obtain ⟨p, np, hfrom, hpc, -, hs'⟩ := forkRun_eq_some h
  obtain ⟨-, hembryo, -, hnp, -⟩ :=
    ht.slots_of_forking hfrom (by rw [hpc]; rfl) (congrArg State.slots hs')
  exact ⟨p, np, hfrom, hpc, hnp ▸ rfl, hnp ▸ hs np (.inr hembryo)⟩

end State

/-- In every run in which no `kill` comes upon a slot without a process, no slot that is not in use
is marked as killed, `kill` succeeds exactly for the pids in use and marks one slot with that pid,
and every child that `fork` makes starts unmarked. -/
theorem kill_run {es : List Event} {s : State} (h : Run.exec step boot es = some s)
    (hkill : Run.EachStep step State.KillsProcess boot es) :
    (∀ j, (s.slots j).state = .unused → (s.slots j).killed = false) ∧
      (∀ c pid s', s.KillsProcess (.kill c pid) → s.kill c pid = some s' →
        (s.killReturns pid = 0 ↔ ∃ j < nProc, (s.slots j).state ≠ .unused ∧ (s.slots j).pid = pid) ∧
        ((s.killReturns pid = 0 ∧ ∃ j, (s.slots j).state ≠ .unused ∧ (s.slots j).pid = pid ∧
            (s'.slots j).killed = true ∧ ∀ i ≠ j, s'.slots i = s.slots i) ∨
          (s.killReturns pid = -1 ∧ s' = s))) ∧
      ∀ c s', s.forkRun c = some s' → ∃ p np, (s.cpus c).loc = .process p ∧
        (s.slots p).pc = .code (.copied np) ∧ (s'.slots np).state = .runnable ∧
        (s'.slots np).killed = false := by
  have ht := Inv.run h
  have hs := KilledInv.run hkill h
  exact ⟨fun j hj => hs j (.inl hj),
    fun c pid s' hk hstep => ⟨State.killReturns_eq_zero_iff hk, State.kill_effect hk hstep⟩,
    fun c s' => State.forkRun_killed ht hs⟩

/-- init kills itself, and makes a child. -/
theorem kill_run_init : ∃ s, Run.exec step boot
    [.schedAcquire 0, .schedTurn 0, .resume 0, .kill 0 1,
      .fork 0, .forkCopy 0] = some s ∧
    (s.slots initproc).killed = true ∧
    ∀ s', s.forkRun 0 = some s' → ∃ p np, (s.cpus 0).loc = .process p ∧
      (s.slots p).pc = .code (.copied np) ∧ (s'.slots np).state = .runnable ∧
      (s'.slots np).killed = false := by
  have hrun : Run.exec step boot [.schedAcquire 0, .schedTurn 0, .resume 0, .kill 0 1, .fork 0,
    .forkCopy 0] = some _ := rfl
  refine ⟨_, hrun, rfl, (kill_run hrun ?_).2.2 0⟩
  refine ⟨trivial, ?_⟩
  rintro _ ⟨⟩
  refine ⟨trivial, ?_⟩
  rintro _ ⟨⟩
  refine ⟨trivial, ?_⟩
  rintro _ ⟨⟩
  refine ⟨?_, ?_⟩
  · rintro j ⟨⟩
    exact Slot.Occupied.not_vacant (.inl (.inr (.inr rfl)))
  rintro _ ⟨⟩
  refine ⟨trivial, ?_⟩
  rintro _ ⟨⟩
  refine ⟨trivial, ?_⟩
  rintro _ ⟨⟩
  trivial

/-- `kill` of pid 0 marks a slot that is not in use, and the next child starts with it. -/
theorem killed_at_birth : ∃ s s', Run.exec step boot [.schedAcquire 0, .schedTurn 0, .resume 0] =
      some s ∧
    s.killReturns 0 = 0 ∧ (∀ j < nProc, (s.slots j).pid = 0 → (s.slots j).state = .unused) ∧
    Run.exec step s [.kill 0 0, .fork 0, .forkCopy 0, .forkRun 0] = some s' ∧
    (s'.slots 1).state = .runnable ∧ (s'.slots 1).killed = true ∧
    ∃ s'', Run.exec step s [.kill 0 0] = some s'' ∧
      (s''.slots 1).state = .unused ∧ (s''.slots 1).killed = true := by
  refine ⟨_, _, rfl, rfl, by decide, rfl, rfl, rfl, _, rfl, rfl, rfl⟩

end InuOs.Sched
