import InuOs.Lib.Run
import InuOs.Proc

/-!
# The process table and the scheduler (`proc.c`)

Every CPU runs `scheduler`, processes call into the kernel, and `ptable.lock` makes what they do to
the process table one step after the other. A step here is what happens between taking the lock, or
getting it handed over by `swtch`, and the next `release` or `swtch`.

* The lock belongs to a CPU. `swtch` changes what the CPU executes and keeps the lock: a process
  that was switched to releases the lock which the scheduler took, and the other way around.
* `Pc` says where the kernel thread of a process is. A process that is not running is inside
  `sched`, called from `yield`, `sleep`, `wait` or `exit`, or it is new and will start at `forkret`.
* `fork` is in several steps: only its first and its last change the table under the lock. Between
  them the timer interrupt can call `yield`, as it can in user code, and `yield` goes back to where
  the process was (`Spot`).
* Other locks are left out. `sleep` is called with one that it gives up; a call on a lock that is
  held elsewhere only delays its caller.

`serial`, `forks` and `returned` are not in the source: they number the processes that `fork` made,
so that it can be said which of them `wait` has returned.
-/

namespace InuOs.Sched

/-- The addresses that processes sleep on. `wait` sleeps on the caller's table entry. -/
inductive Chan : Type where
  | proc (p : ℕ)
  | other (addr : ℕ)
  deriving DecidableEq, Repr

/-- Where the timer interrupt can find a process: interrupts are off while `ptable.lock` is held. -/
inductive Spot : Type where
  /-- outside of `fork` -/
  | user
  /-- in `fork`, with `np` taken by `allocproc` -/
  | embryo (np : ℕ)
  /-- in `fork`, with `np` complete but for its state -/
  | copied (np : ℕ)
  deriving DecidableEq, Repr

/-- Where the kernel thread of a process is. -/
inductive Pc : Type where
  /-- it executes its own code, without the lock -/
  | code (spot : Spot)
  /-- `swtch` will return into `forkret` -/
  | forkret
  /-- in `sched`, called by `yield`, which returns to `spot` -/
  | yield (spot : Spot)
  /-- in `sched`, called by `sleep` with a lock other than `ptable.lock` -/
  | sleep
  /-- in `sched`, called by the `sleep` of `wait` -/
  | wait
  /-- in `sched`, called by `exit` -/
  | exit
  deriving DecidableEq, Repr

/-- A kernel thread that is inside `sched`, or new, and comes back with the lock held. -/
def Pc.InSched : Pc → Prop
  | .forkret | .yield _ | .sleep | .wait => True
  | _ => False

/-- Where a process is in `fork`, whether it was preempted there or not. -/
def Pc.spot : Pc → Spot
  | .code spot | .yield spot => spot
  | _ => .user

/-- An entry of the process table, and the kernel thread that belongs to it. -/
structure Slot : Type where
  state : ProcState
  pid : Int32
  parent : Option ℕ
  chan : Option Chan
  killed : Bool
  /-- whether it owns what `kstack` and `pgdir` point to -/
  mem : Bool
  pc : Pc
  serial : ℕ
  deriving DecidableEq, Repr

/-- What a CPU executes. -/
inductive Loc : Type where
  /-- `scheduler`, outside of its loop over the table -/
  | idle
  /-- `scheduler`, about to look at slot `k` -/
  | loop (k : ℕ)
  /-- the kernel thread or the user code of process `p` -/
  | process (p : ℕ)
  /-- `scheduler`, behind the `swtch` to process `p` -/
  | back (p : ℕ)
  deriving DecidableEq, Repr

/-- `struct cpu`, with the address space in `%cr3`; `none` is that of `kpgdir`. -/
structure Cpu : Type where
  proc : Option ℕ
  space : Option ℕ
  loc : Loc
  deriving DecidableEq, Repr

/-- The process table and the CPUs. -/
structure State : Type where
  slots : ℕ → Slot
  nextpid : Int32
  /-- the CPU that holds `ptable.lock` -/
  lock : Option ℕ
  cpus : ℕ → Cpu
  /-- how many processes were made -/
  forks : ℕ
  /-- the processes that `wait` returned, by their number -/
  returned : List ℕ

/-- The slot of `initproc`. -/
def initproc : ℕ := 0

namespace State

/-- Change one slot. -/
def setSlot (s : State) (p : ℕ) (slot : Slot) : State :=
  { s with slots := Function.update s.slots p slot }

@[simp] theorem setSlot_slots_self (s : State) (p : ℕ) (slot : Slot) :
    (s.setSlot p slot).slots p = slot :=
  Function.update_self ..

theorem setSlot_slots_of_ne (s : State) {p q : ℕ} (slot : Slot) (h : q ≠ p) :
    (s.setSlot p slot).slots q = s.slots q :=
  Function.update_of_ne h ..

/-- One slot changes. -/
theorem slots_of_update {s s' : State} {p : ℕ} {a : Slot}
    (h : s'.slots = Function.update s.slots p a) :
    s'.slots p = a ∧ ∀ q ≠ p, s'.slots q = s.slots q := by
  rw [h]
  exact ⟨Function.update_self .., fun q hq => Function.update_of_ne hq ..⟩

/-- What holds of every slot as it was, and of the one that changes, holds of all of them. -/
theorem forall_of_update {P : ℕ → Slot → Prop} {s s' : State} {p : ℕ} {a : Slot}
    (hsame : ∀ q, P q (s.slots q)) (hslots : s'.slots = Function.update s.slots p a) (h : P p a)
    (q : ℕ) : P q (s'.slots q) := by
  obtain ⟨hp, hold⟩ := slots_of_update hslots
  rcases eq_or_ne q p with rfl | hne
  · rwa [hp]
  · rw [hold q hne]
    exact hsame q

/-- A change of one slot, as a relation on all of them. -/
theorem rel_of_update {R : Slot → Slot → Prop} (hrefl : ∀ a, R a a)
    {s s' : State} {p : ℕ} {a : Slot}
    (hslots : s'.slots = Function.update s.slots p a) (h : R (s.slots p) a) (q : ℕ) :
    R (s.slots q) (s'.slots q) :=
  forall_of_update (P := fun q => R (s.slots q)) (fun _ => hrefl _) hslots h q

/-- Two slots change. -/
theorem slots_of_update_update {s s' : State} {p q : ℕ} {a b : Slot} (hne : q ≠ p)
    (h : s'.slots = Function.update (Function.update s.slots q a) p b) :
    s'.slots p = b ∧ s'.slots q = a ∧ ∀ r, r ≠ p → r ≠ q → s'.slots r = s.slots r := by
  rw [h]
  refine ⟨Function.update_self .., ?_, fun r hrp hrq => ?_⟩
  · rw [Function.update_of_ne hne, Function.update_self]
  · rw [Function.update_of_ne hrp, Function.update_of_ne hrq]

theorem forall_of_update_update {P : ℕ → Slot → Prop} {s s' : State} {p r : ℕ} {a b : Slot}
    (hsame : ∀ q, P q (s.slots q)) (hne : r ≠ p)
    (hslots : s'.slots = Function.update (Function.update s.slots r a) p b) (ha : P r a)
    (hb : P p b) (q : ℕ) : P q (s'.slots q) := by
  obtain ⟨hp, hr, hold⟩ := slots_of_update_update hne hslots
  rcases eq_or_ne q p with rfl | hqp
  · rwa [hp]
  · rcases eq_or_ne q r with rfl | hqr
    · rwa [hr]
    · rw [hold q hqp hqr]
      exact hsame q

/-- Change one CPU. -/
def setCpu (s : State) (c : ℕ) (cpu : Cpu) : State :=
  { s with cpus := Function.update s.cpus c cpu }

/-! ## Parts of the critical sections -/

/-- `wakeup1`. -/
def wakeup1 (slots : ℕ → Slot) (chan : Chan) (p : ℕ) : Slot :=
  if (slots p).state = .sleeping ∧ (slots p).chan = some chan then
    { slots p with state := .runnable }
  else slots p

/-- The slot of a child of `p` that passes to init. -/
def adopt (slots : ℕ → Slot) (p j : ℕ) : Slot :=
  if (slots j).parent = some p then { slots j with parent := some initproc } else slots j

/-- The loop of `exit` that passes the children of `p` to init. -/
def reparent (slots : ℕ → Slot) (p j : ℕ) : Slot :=
  if (List.range nProc).any fun j => (slots j).parent = some p ∧ (slots j).state = .zombie then
    wakeup1 (adopt slots p) (.proc initproc) j
  else adopt slots p j

/-- `wakeup1` for the parent of `p`. -/
def wakeParent (slots : ℕ → Slot) (p j : ℕ) : Slot :=
  match (slots p).parent with
  | some q => wakeup1 slots (.proc q) j
  | none => slots j

/-- `swtch` from process `p`, whose slot has changed, to the scheduler of its CPU. The lock stays
with the CPU. -/
def swtch (s : State) (c p : ℕ) (slot : Slot) : State :=
  { s.setSlot p slot with
    lock := some c
    cpus := Function.update s.cpus c { s.cpus c with loc := .back p } }

/-- What one turn of the loop of `wait` comes to. -/
inductive WaitResult : Type where
  /-- the exited child in this slot is returned -/
  | reap (j : ℕ)
  /-- `-1` -/
  | fail
  /-- wait for children to exit -/
  | sleep
  deriving DecidableEq, Repr

/-- The scan of `wait`, called by `p`. -/
def waitScan (s : State) (p : ℕ) : WaitResult :=
  match (List.range nProc).find? fun j =>
      (s.slots j).parent = some p ∧ (s.slots j).state = .zombie with
  | some j => .reap j
  | none =>
    if ((List.range nProc).any fun j => (s.slots j).parent = some p) = false ∨
        (s.slots p).killed then .fail
    else .sleep

/-- One turn of the loop of `wait`, with the lock held. -/
def waitTurn (s : State) (c p : ℕ) : State :=
  match s.waitScan p with
  | .reap j =>
    { (s.setSlot p { s.slots p with pc := .code .user }).setSlot j
        { s.slots j with
          mem := false, pid := 0, parent := none, killed := false, state := .unused } with
      lock := none
      returned := s.returned ++ [(s.slots j).serial] }
  | .fail => { s.setSlot p { s.slots p with pc := .code .user } with lock := none }
  | .sleep =>
    s.swtch c p { s.slots p with chan := some (.proc p), state := .sleeping, pc := .wait }

/-- The process that CPU `c` executes, if it is at a point where it can make a call. -/
def caller (s : State) (c : ℕ) : Option ℕ :=
  match (s.cpus c).loc with
  | .process p => if (s.slots p).pc = .code .user then some p else none
  | _ => none

/-- The process on CPU `c` takes the lock; `f` says what it does then. -/
def enter (s : State) (c : ℕ) (f : ℕ → Option State) : Option State :=
  match s.caller c, s.lock with
  | some p, none => f p
  | _, _ => none

/-- The process on CPU `c` is in `fork`, before it knows whether it has the memory. -/
def inFork (s : State) (c : ℕ) (f : ℕ → ℕ → State) : Option State :=
  match (s.cpus c).loc with
  | .process p =>
    match (s.slots p).pc with
    | .code (.embryo np) => some (f p np)
    | _ => none
  | _ => none

/-- The slot that `kill` finds. -/
def killTarget (s : State) (pid : Int32) : Option ℕ :=
  (List.range nProc).find? fun j => (s.slots j).pid = pid

/-- The slot that `allocproc` finds. -/
def freeSlot (s : State) : Option ℕ :=
  (List.range nProc).find? fun j => (s.slots j).state = .unused

/-! ## Steps -/

/-- `scheduler`: `acquire` and the beginning of the loop. -/
def schedAcquire (s : State) (c : ℕ) : Option State :=
  if (s.cpus c).loc = .idle ∧ s.lock = none then
    some { s.setCpu c { s.cpus c with loc := .loop 0 } with lock := some c }
  else none

/-- `scheduler`: one turn of the loop up to `swtch`, or its end and `release`. -/
def schedTurn (s : State) (c : ℕ) : Option State :=
  match (s.cpus c).loc with
  | .loop k =>
    if k < nProc then
      if (s.slots k).state = .runnable then
        some ((s.setSlot k { s.slots k with state := .running }).setCpu c
          { proc := some k, space := some k, loc := .process k })
      else some (s.setCpu c { s.cpus c with loc := .loop (k + 1) })
    else some { s.setCpu c { s.cpus c with loc := .idle } with lock := none }
  | _ => none

/-- `scheduler`: the rest of the turn, behind `swtch`. -/
def schedBack (s : State) (c : ℕ) : Option State :=
  match (s.cpus c).loc with
  | .back p => some (s.setCpu c { proc := none, space := none, loc := .loop (p + 1) })
  | _ => none

/-- A process behind its `swtch`, with the lock handed over: the rest of `forkret`, `yield`,
`sleep`, or one more turn of `wait`. -/
def resume (s : State) (c : ℕ) : Option State :=
  match (s.cpus c).loc with
  | .process p =>
    match (s.slots p).pc with
    | .forkret => some { s.setSlot p { s.slots p with pc := .code .user } with lock := none }
    | .yield spot => some { s.setSlot p { s.slots p with pc := .code spot } with lock := none }
    | .sleep =>
      some { s.setSlot p { s.slots p with chan := none, pc := .code .user } with lock := none }
    | .wait => some ((s.setSlot p { s.slots p with chan := none }).waitTurn c p)
    | _ => none
  | _ => none

/-- `yield`, called for the timer interrupt wherever the process is. -/
def yield (s : State) (c : ℕ) : Option State :=
  match (s.cpus c).loc, s.lock with
  | .process p, none =>
    match (s.slots p).pc with
    | .code spot =>
      some (s.swtch c p { s.slots p with state := .runnable, pc := .yield spot })
    | _ => none
  | _, _ => none

/-- `sleep`, with a lock other than `ptable.lock`. -/
def sleep (s : State) (c : ℕ) (chan : Chan) : Option State :=
  s.enter c fun p =>
    some (s.swtch c p { s.slots p with chan := some chan, state := .sleeping, pc := .sleep })

/-- The table when `exit` has called `wakeup1` for the parent and passed the children to init. -/
def exitSlots (s : State) (p : ℕ) : ℕ → Slot := reparent (wakeParent s.slots p) p

/-- `exit`, behind the closing of files. -/
def exit (s : State) (c : ℕ) : Option State :=
  s.enter c fun p =>
    -- "init exiting"
    if p = initproc then none
    else
      some ({ s with slots := s.exitSlots p }.swtch c p
        { s.exitSlots p p with state := .zombie, pc := .exit })

/-- `fork`, the critical section of `allocproc`. -/
def fork (s : State) (c : ℕ) : Option State :=
  s.enter c fun p =>
    match s.freeSlot with
    | none => some s
    | some np =>
      some { (s.setSlot np { s.slots np with state := .embryo, pid := s.nextpid }).setSlot p
          { s.slots p with pc := .code (.embryo np) } with nextpid := s.nextpid + 1 }

/-- `fork` without a page for the kernel stack, or without memory for the copy. -/
def forkFail (s : State) (c : ℕ) : Option State :=
  s.inFork c fun p np =>
    (s.setSlot np { s.slots np with mem := false, state := .unused }).setSlot p
      { s.slots p with pc := .code .user }

/-- `fork`, from the copy of the address space to the last `acquire`. -/
def forkCopy (s : State) (c : ℕ) : Option State :=
  s.inFork c fun p np =>
    (s.setSlot np { s.slots np with mem := true, parent := some p, pc := .forkret }).setSlot p
      { s.slots p with pc := .code (.copied np) }

/-- `fork`, the last critical section. -/
def forkRun (s : State) (c : ℕ) : Option State :=
  match (s.cpus c).loc, s.lock with
  | .process p, none =>
    match (s.slots p).pc with
    | .code (.copied np) =>
      some { (s.setSlot np { s.slots np with state := .runnable, serial := s.forks }).setSlot p
          { s.slots p with pc := .code .user } with forks := s.forks + 1 }
    | _ => none
  | _, _ => none

/-- `wait`, from its `acquire` on. -/
def wait (s : State) (c : ℕ) : Option State := s.enter c fun p => some (s.waitTurn c p)

/-- `wakeup`, called by a process or an interrupt handler on any CPU. -/
def wakeup (s : State) (chan : Chan) : Option State :=
  match s.lock with
  | none => some { s with slots := wakeup1 s.slots chan }
  | some _ => none

/-- `kill`, once the lock is taken. -/
def killSlots (s : State) (pid : Int32) : State :=
  match s.killTarget pid with
  | none => s
  | some j =>
    let p := s.slots j
    s.setSlot j
      { p with killed := true, state := if p.state = .sleeping then .runnable else p.state }

/-- What `kill` returns. -/
def killReturns (s : State) (pid : Int32) : ℤ := if (s.killTarget pid).isSome then 0 else -1

/-- `kill`. -/
def kill (s : State) (c : ℕ) (pid : Int32) : Option State :=
  s.enter c fun _ => some (s.killSlots pid)

/-! ## Inversion -/

variable {s s' : State} {c p : ℕ}

/-- The slot that `allocproc` finds is unused, so it is not that of a running process. -/
theorem unused_of_freeSlot {np : ℕ} (hfind : s.freeSlot = some np)
    (hrun : (s.slots p).state = .running) : (s.slots np).state = .unused ∧ np ≠ p := by
  have hunused : (s.slots np).state = .unused := by simpa using List.find?_some hfind
  refine ⟨hunused, ?_⟩
  rintro rfl
  rw [hrun] at hunused
  cases hunused

theorem caller_eq_some (h : s.caller c = some p) :
    (s.cpus c).loc = .process p ∧ (s.slots p).pc = .code .user := by
  unfold caller at h
  split at h
  · next q hq =>
    split at h
    · next hpc =>
      obtain rfl := Option.some.inj h
      exact ⟨hq, hpc⟩
    · cases h
  · cases h

theorem enter_eq_some {f : ℕ → Option State} (h : s.enter c f = some s') :
    ∃ p, (s.cpus c).loc = .process p ∧ (s.slots p).pc = .code .user ∧ s.lock = none ∧
      f p = some s' := by
  unfold enter at h
  split at h
  · next p hp hlock =>
    obtain ⟨hloc, hpc⟩ := caller_eq_some hp
    exact ⟨p, hloc, hpc, hlock, h⟩
  · cases h

theorem inFork_eq_some {f : ℕ → ℕ → State} (h : s.inFork c f = some s') :
    ∃ p np, (s.cpus c).loc = .process p ∧ (s.slots p).pc = .code (.embryo np) ∧ s' = f p np := by
  unfold inFork at h
  split at h
  · next p hp =>
    split at h
    · next np hpc => exact ⟨p, np, hp, hpc, (Option.some.inj h).symm⟩
    · cases h
  · cases h

/-- A process that is switched to goes on where it was, or with the next turn of `wait`. -/
theorem resume_eq_some (h : s.resume c = some s') : ∃ p, (s.cpus c).loc = .process p ∧
    (((s.slots p).pc.InSched ∧ ∃ chan, s' = { s.setSlot p
          { s.slots p with chan := chan, pc := .code (s.slots p).pc.spot } with lock := none }) ∨
      ((s.slots p).pc = .wait ∧
        s' = (s.setSlot p { s.slots p with chan := none }).waitTurn c p)) := by
  unfold resume at h
  split at h
  · next p hfrom =>
    refine ⟨p, hfrom, ?_⟩
    split at h
    · next hpc =>
      rw [hpc]
      exact .inl ⟨trivial, _, (Option.some.inj h).symm⟩
    · next hpc =>
      rw [hpc]
      exact .inl ⟨trivial, _, (Option.some.inj h).symm⟩
    · next hpc =>
      rw [hpc]
      exact .inl ⟨trivial, none, (Option.some.inj h).symm⟩
    · next hpc => exact .inr ⟨hpc, (Option.some.inj h).symm⟩
    · cases h
  · cases h

theorem yield_eq_some (h : s.yield c = some s') :
    ∃ p, (s.cpus c).loc = .process p ∧ (s.slots p).pc = .code (s.slots p).pc.spot ∧ s.lock = none ∧
      s' = s.swtch c p { s.slots p with state := .runnable, pc := .yield (s.slots p).pc.spot } := by
  unfold yield at h
  split at h
  · next p hp hlock =>
    split at h
    · next spot hpc =>
      obtain rfl : (s.slots p).pc.spot = spot := by rw [hpc]; rfl
      exact ⟨p, hp, hpc, hlock, (Option.some.inj h).symm⟩
    · cases h
  · cases h

theorem forkRun_eq_some (h : s.forkRun c = some s') :
    ∃ p np, (s.cpus c).loc = .process p ∧ (s.slots p).pc = .code (.copied np) ∧ s.lock = none ∧
      s' = { (s.setSlot np { s.slots np with state := .runnable, serial := s.forks }).setSlot p
          { s.slots p with pc := .code .user } with forks := s.forks + 1 } := by
  unfold forkRun at h
  split at h
  · next p hp hlock =>
    split at h
    · next np hpc => exact ⟨p, np, hp, hpc, hlock, (Option.some.inj h).symm⟩
    · cases h
  · cases h

end State

/-- The steps of the system; `c` is the CPU. -/
inductive Event : Type where
  | schedAcquire (c : ℕ)
  | schedTurn (c : ℕ)
  | schedBack (c : ℕ)
  | resume (c : ℕ)
  | yield (c : ℕ)
  | sleep (c : ℕ) (chan : Chan)
  | exit (c : ℕ)
  | fork (c : ℕ)
  | forkFail (c : ℕ)
  | forkCopy (c : ℕ)
  | forkRun (c : ℕ)
  | wait (c : ℕ)
  | wakeup (chan : Chan)
  | kill (c : ℕ) (pid : Int32)
  deriving DecidableEq, Repr

/-- One step. -/
def step (s : State) : Event → Option State
  | .schedAcquire c => s.schedAcquire c
  | .schedTurn c => s.schedTurn c
  | .schedBack c => s.schedBack c
  | .resume c => s.resume c
  | .yield c => s.yield c
  | .sleep c chan => s.sleep c chan
  | .exit c => s.exit c
  | .fork c => s.fork c
  | .forkFail c => s.forkFail c
  | .forkCopy c => s.forkCopy c
  | .forkRun c => s.forkRun c
  | .wait c => s.wait c
  | .wakeup chan => s.wakeup chan
  | .kill c pid => s.kill c pid

/-- A slot of the zeroed table. -/
def Slot.zero : Slot := ⟨.unused, 0, none, none, false, false, .code .user, 0⟩

/-- The state behind `userinit`, when the CPUs enter `scheduler`. -/
def boot : State where
  slots := fun p =>
    if p = initproc then
      { Slot.zero with state := .runnable, pid := 1, mem := true, pc := .forkret }
    else Slot.zero
  nextpid := 2
  lock := none
  cpus := fun _ => ⟨none, none, .idle⟩
  forks := 1
  returned := []

end InuOs.Sched
