import InuOs.Lib.Lock
import InuOs.Lib.Run
import InuOs.Proc

/-!
# Sleeping and waking up, statement by statement (`proc.c`)

`InuOs.Sched` takes a critical section of `ptable.lock` for one step. Here a step is one `acquire`,
one `release`, one assignment to `p->state` or `p->chan`, or one `swtch`, and any number of kernel
threads take turns:

* processes, one scheduler for each CPU, and interrupt handlers. A handler is a thread of its own:
  it delays the thread that it interrupts, and nothing else;
* one channel `chan`, one spinlock `lk` and one condition `cond` are followed. `lk` is a lock of its
  own, or it is `ptable.lock` (`Config.same`), where `sleep` leaves out the hand-over between the
  two and `wakeup1` is called for `wakeup`;
* whoever has `lk` may do anything to `cond`, call `wakeup` for any channel, and go to sleep on any
  channel. It keeps to three rules (`State.CanLeave`, `State.CanSleep`): it gives up `lk` after
  making `cond` true only if it has called `wakeup(chan)` since it got `lk`, and goes to sleep on
  `chan` only while `cond` is false. A thread without `lk` does not go to sleep on `chan`.

`made` and `woke` are not in the source. They say what the thread with `lk` has done since it got
it.
-/

namespace InuOs.Wakeup

/-- The threads of the kernel. -/
inductive Thread : Type where
  /-- the scheduler of a CPU -/
  | sched (c : ℕ)
  | proc (p : ℕ)
  /-- an interrupt handler -/
  | intr (i : ℕ)
  deriving DecidableEq, Repr

/-- Where a process left its CPU. -/
inductive Parking : Type where
  /-- it is new, or in `yield` -/
  | yield
  /-- in `sleep`; `own` says that it gave up `lk` and not another lock -/
  | sleep (own : Bool)
  deriving DecidableEq, Repr

/-- Where a thread is: the next thing it does. -/
inductive Pc : Type where
  /-- anything that does not matter here -/
  | out
  /-- anything, with `lk` held -/
  | crit
  /-- `wakeup`: `acquire`; `held` says that the caller has `lk` -/
  | wakeAcquire (ch : ℕ) (held : Bool)
  /-- `wakeup1`: slot `k` -/
  | wakeLoop (ch : ℕ) (held : Bool) (k : ℕ)
  /-- `wakeup`: `release` -/
  | wakeRelease (held : Bool)
  /-- `kill`: `acquire`; the pid is that of slot `q`, or of none -/
  | killAcquire (q : Option ℕ)
  /-- `kill`: the change of the slot -/
  | killState (q : Option ℕ)
  /-- `kill`: `release` -/
  | killRelease
  /-- `yield`: `acquire` -/
  | yieldAcquire
  /-- `yield`: `state = RUNNABLE` -/
  | yieldState
  /-- `sched`, called by `yield` -/
  | yieldSched
  /-- `yield` or `forkret`: `release` -/
  | yieldRelease
  /-- `sleep`: `acquire(&ptable.lock)` -/
  | sleepAcquire (ch : ℕ) (own : Bool)
  /-- `sleep`: `release(lk)` -/
  | sleepRelease (ch : ℕ)
  /-- `sleep`: `p->chan = chan` -/
  | sleepChan (ch : ℕ) (own : Bool)
  /-- `sleep`: `p->state = SLEEPING` -/
  | sleepState (ch : ℕ) (own : Bool)
  /-- `sched`, called by `sleep` -/
  | sleepSched (own : Bool)
  /-- `sleep`: `p->chan = 0` -/
  | sleepTidy (own : Bool)
  /-- `sleep`: `release(&ptable.lock)` -/
  | sleepRelease2 (own : Bool)
  /-- `sleep`: `acquire(lk)` -/
  | sleepAcquire2
  /-- not on a CPU -/
  | parked (r : Parking)
  /-- `scheduler`: `acquire` -/
  | schedAcquire
  /-- `scheduler`: slot `k` -/
  | schedLoop (k : ℕ)
  /-- `scheduler`, switched to process `p` -/
  | schedAway (p : ℕ)
  /-- `scheduler`, switched back to from process `p` -/
  | schedBack (p : ℕ)
  deriving DecidableEq, Repr

/-- An entry of the process table. -/
structure Slot : Type where
  state : ProcState
  chan : Option ℕ
  deriving DecidableEq, Repr

/-- The process table, the locks and the threads. -/
structure State : Type where
  slots : ℕ → Slot
  pc : Thread → Pc
  /-- the CPU that a process was switched to on -/
  cpu : ℕ → ℕ
  ptable : Option Thread
  /-- the owner of `lk`, if that is not `ptable.lock` -/
  lk : Option Thread
  cond : Bool
  made : Bool
  woke : Bool

/-- What the statements below are about. -/
structure Config : Type where
  /-- the size of the process table -/
  n : ℕ
  chan : ℕ
  /-- whether `lk` is `ptable.lock` -/
  same : Bool
  deriving DecidableEq, Repr

/-- What a thread does where it has a choice. -/
inductive Act : Type where
  /-- the next statement -/
  | go
  /-- `acquire(lk)` -/
  | acquire
  /-- an assignment after which `cond` is `b` -/
  | assign (b : Bool)
  /-- `release(lk)` -/
  | release
  | wakeup (ch : ℕ)
  /-- `sleep(ch, lk)` -/
  | sleep (ch : ℕ)
  /-- `sleep` with another lock -/
  | sleepOther (ch : ℕ)
  | kill (q : Option ℕ)
  | yield
  /-- `state = ZOMBIE` and `sched` at the end of `exit`, where `lk` is `ptable.lock` -/
  | exit
  deriving DecidableEq, Repr

/-- Where a process goes on that is switched to. -/
def Parking.resume : Parking → Pc
  | .yield => .yieldRelease
  | .sleep own => .sleepTidy own

namespace State

/-- `p->state = state`. -/
def setState (s : State) (p : ℕ) (state : ProcState) : State :=
  { s with slots := Function.update s.slots p { s.slots p with state := state } }

/-- `p->chan = chan`. -/
def setChan (s : State) (p : ℕ) (chan : Option ℕ) : State :=
  { s with slots := Function.update s.slots p { s.slots p with chan := chan } }

@[simp] theorem setState_slots_self (s : State) (p : ℕ) (state : ProcState) :
    (s.setState p state).slots p = { s.slots p with state := state } :=
  Function.update_self ..

theorem setState_slots_of_ne (s : State) {p q : ℕ} (state : ProcState) (h : q ≠ p) :
    (s.setState p state).slots q = s.slots q :=
  Function.update_of_ne h ..

/-- `wakeup1`, for one slot. -/
def wake (s : State) (ch k : ℕ) : State :=
  if (s.slots k).state = .sleeping ∧ (s.slots k).chan = some ch then s.setState k .runnable else s

/-- `kill`, for the slot with the pid. -/
def rouse (s : State) (k : ℕ) : State :=
  if (s.slots k).state = .sleeping then s.setState k .runnable else s

/-- A slot that a step of another thread may have woken up. -/
def Woken (a b : Slot) : Prop :=
  b = a ∨ (a.state = .sleeping ∧ b = { a with state := .runnable })

theorem setState_woken (s : State) {k : ℕ} (h : (s.slots k).state = .sleeping) (q : ℕ) :
    Woken (s.slots q) ((s.setState k .runnable).slots q) := by
  rcases eq_or_ne q k with rfl | hne
  · exact .inr ⟨h, s.setState_slots_self q .runnable⟩
  · exact .inl (s.setState_slots_of_ne .runnable hne)

theorem wake_woken (s : State) (ch k q : ℕ) : Woken (s.slots q) ((s.wake ch k).slots q) := by
  unfold wake
  split
  · next h => exact s.setState_woken h.1 q
  · exact .inl rfl

theorem rouse_woken (s : State) (k q : ℕ) : Woken (s.slots q) ((s.rouse k).slots q) := by
  unfold rouse
  split
  · next h => exact s.setState_woken h q
  · exact .inl rfl

/-- Behind `wakeup1`, the slot does not sleep on the channel. -/
theorem not_sleeping_wake (s : State) (ch k : ℕ) :
    ¬ (((s.wake ch k).slots k).state = .sleeping ∧ ((s.wake ch k).slots k).chan = some ch) := by
  unfold wake
  split
  · rw [setState_slots_self]
    exact fun h => nomatch h.1
  · assumption

/-- `wakeup1` and `kill` change nothing but slots. -/
theorem wake_eq (s : State) (ch k : ℕ) : ∃ slots, s.wake ch k = { s with slots := slots } := by
  unfold wake
  split
  · exact ⟨_, rfl⟩
  · exact ⟨s.slots, rfl⟩

theorem rouse_eq (s : State) (k : ℕ) : ∃ slots, s.rouse k = { s with slots := slots } := by
  unfold rouse
  split
  · exact ⟨_, rfl⟩
  · exact ⟨s.slots, rfl⟩

/-- Thread `t` goes on to `b`. -/
def goto (s : State) (t : Thread) (b : Pc) : State := { s with pc := Function.update s.pc t b }

@[simp] theorem goto_pc_self (s : State) (t : Thread) (b : Pc) : (s.goto t b).pc t = b :=
  Function.update_self ..

theorem goto_pc_of_ne (s : State) {t u : Thread} (b : Pc) (h : u ≠ t) :
    (s.goto t b).pc u = s.pc u :=
  Function.update_of_ne h ..

/-- `acquire(&ptable.lock)`. -/
def take (s : State) (t : Thread) (b : Pc) : Option State :=
  if s.ptable = none then some { s.goto t b with ptable := some t } else none

/-- `release(&ptable.lock)`. -/
def drop (s : State) (t : Thread) (b : Pc) : State := { s.goto t b with ptable := none }

/-- `acquire(lk)`. -/
def takeLk (C : Config) (s : State) (t : Thread) (b : Pc) : Option State :=
  if C.same then s.take t b
  else if s.lk = none then some { s.goto t b with lk := some t }
  else none

/-- `release(lk)`. -/
def dropLk (C : Config) (s : State) (t : Thread) (b : Pc) : State :=
  if C.same then s.drop t b else { s.goto t b with lk := none }

/-- `swtch` from process `p` to the scheduler of its CPU. `ptable.lock` goes with it. -/
def swtch (s : State) (p : ℕ) (r : Parking) : State :=
  { s with
    pc := Function.update (Function.update s.pc (.proc p) (.parked r))
      (.sched (s.cpu p)) (.schedBack p)
    ptable := some (.sched (s.cpu p)) }

/-- `scheduler`: process `k` is made `RUNNING` and switched to. -/
def dispatch (s : State) (c k : ℕ) : Option State :=
  match s.pc (.proc k) with
  | .parked r =>
    some { s.setState k .running with
      pc := Function.update (Function.update s.pc (.sched c) (.schedAway k)) (.proc k) r.resume
      cpu := Function.update s.cpu k c
      ptable := some (.proc k) }
  | _ => none

/-- The thread with `lk` may give it up. -/
def CanLeave (s : State) : Prop := s.made = true → s.woke = true

/-- The thread with `lk` may go to sleep on `ch`. -/
def CanSleep (C : Config) (s : State) (ch : ℕ) : Prop :=
  s.CanLeave ∧ (ch = C.chan → s.cond = false)

instance (s : State) : Decidable s.CanLeave := inferInstanceAs (Decidable (_ → _))

instance (C : Config) (s : State) (ch : ℕ) : Decidable (s.CanSleep C ch) :=
  inferInstanceAs (Decidable (_ ∧ _))

/-- The next thread gets `lk` with a clean slate. -/
def forget (s : State) : State := { s with made := false, woke := false }

end State

open State in
/-- One step of thread `t`. -/
def step (C : Config) (s : State) : Thread × Act → Option State
  | ⟨t, a⟩ =>
    match t, s.pc t, a with
    | t, .out, .acquire => s.takeLk C t .crit
    | t, .out, .wakeup ch => some (s.goto t (.wakeAcquire ch false))
    | t, .out, .kill q => some (s.goto t (.killAcquire q))
    | .proc p, .out, .yield => some (s.goto (.proc p) .yieldAcquire)
    | .proc p, .out, .sleepOther ch =>
      if ch ≠ C.chan then some (s.goto (.proc p) (.sleepAcquire ch false)) else none
    | _, .crit, .assign b => some { s with cond := b, made := s.made || b }
    | t, .crit, .release => if s.CanLeave then some (s.forget.dropLk C t .out) else none
    | t, .crit, .wakeup ch =>
      some (s.goto t (if C.same then .wakeLoop ch true 0 else .wakeAcquire ch true))
    | .proc p, .crit, .sleep ch =>
      if s.CanSleep C ch then
        some (s.forget.goto (.proc p)
          (if C.same then .sleepChan ch true else .sleepAcquire ch true))
      else none
    | .proc p, .crit, .exit =>
      if C.same ∧ s.CanLeave then
        some ((s.forget.setState p .zombie).goto (.proc p) .yieldSched)
      else none
    | t, .wakeAcquire ch held, .go => s.take t (.wakeLoop ch held 0)
    | t, .wakeLoop ch held k, .go =>
      if k < C.n then some ((s.wake ch k).goto t (.wakeLoop ch held (k + 1)))
      else
        some { s.goto t (if held && C.same then .crit else .wakeRelease held) with
          woke := s.woke || (held && ch == C.chan) }
    | t, .wakeRelease held, .go => some (s.drop t (if held then .crit else .out))
    | t, .killAcquire q, .go => s.take t (.killState q)
    | t, .killState (some q), .go => some ((s.rouse q).goto t .killRelease)
    | t, .killState none, .go => some (s.goto t .killRelease)
    | t, .killRelease, .go => some (s.drop t .out)
    | t, .yieldAcquire, .go => s.take t .yieldState
    | .proc p, .yieldState, .go => some ((s.setState p .runnable).goto (.proc p) .yieldSched)
    | .proc p, .yieldSched, .go => some (s.swtch p .yield)
    | t, .yieldRelease, .go => some (s.drop t .out)
    | t, .sleepAcquire ch own, .go =>
      s.take t (if own then .sleepRelease ch else .sleepChan ch false)
    | t, .sleepRelease ch, .go => some { s.goto t (.sleepChan ch true) with lk := none }
    | .proc p, .sleepChan ch own, .go =>
      some ((s.setChan p (some ch)).goto (.proc p) (.sleepState ch own))
    | .proc p, .sleepState _ own, .go =>
      some ((s.setState p .sleeping).goto (.proc p) (.sleepSched own))
    | .proc p, .sleepSched own, .go => some (s.swtch p (.sleep own))
    | .proc p, .sleepTidy own, .go =>
      some ((s.setChan p none).goto (.proc p)
        (if own && C.same then .crit else .sleepRelease2 own))
    | t, .sleepRelease2 own, .go => some (s.drop t (if own then .sleepAcquire2 else .out))
    | t, .sleepAcquire2, .go => s.takeLk C t .crit
    | t, .schedAcquire, .go => s.take t (.schedLoop 0)
    | .sched c, .schedLoop k, .go =>
      if k < C.n then
        if (s.slots k).state = .runnable then s.dispatch c k
        else some (s.goto (.sched c) (.schedLoop (k + 1)))
      else some (s.drop (.sched c) .schedAcquire)
    | t, .schedBack k, .go => some (s.goto t (.schedLoop (k + 1)))
    | _, _, _ => none

/-- The start: the processes of `live` are new, everything else is at rest. -/
def start (C : Config) (live : ℕ → Bool) (cond : Bool) : State where
  slots p := ⟨if p < C.n ∧ live p then .runnable else .unused, none⟩
  pc
    | .sched _ => .schedAcquire
    | .proc _ => .parked .yield
    | .intr _ => .out
  cpu _ := 0
  ptable := none
  lk := none
  cond := cond
  made := false
  woke := false

end InuOs.Wakeup
