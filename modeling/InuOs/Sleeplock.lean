import InuOs.Lib.Lock
import InuOs.Lib.Run

/-!
# Sleep-locks (`sleeplock.c`)

Any number of processes use one sleep-lock, statement by statement: a step is one `acquire` or
`release` of the spinlock `lk->lk`, one test or assignment of `lk->locked` or `lk->pid`, one `sleep`
or `wakeup`.

* `bwrite` and `iderw` ask `holdingsleep` and panic if the answer is 0 (`Use.check`); `brelse` and
  `iunlock` ask, panic if the answer is 0 and release the lock otherwise (`Use.release`). Any
  process may call them at any time. `iput` releases without asking, and it holds the lock then.
* `holdingsleep` returns `lk->locked` and does not look at `lk->pid`. Its answer is right if and
  only if no other process holds the lock (`holdingsleep_right_iff`). As long as that is so, the
  lock is exclusive; once it is not, `brelse` and `iunlock` let go a lock that is not the caller's
  (`two_holders`).
-/

namespace InuOs.Sleeplock

open Run

/-- What a caller of `holdingsleep` does with the answer. -/
inductive Use : Type where
  | ask
  /-- `bwrite`, `iderw` -/
  | check
  /-- `brelse`, `iunlock` -/
  | release
  deriving DecidableEq, Repr

/-- Where a process is: the next thing it does. `mine` says that the process holds the
sleep-lock. -/
inductive Pc : Type where
  /-- anything else, without the lock -/
  | out
  /-- anything else, between `acquiresleep` and `releasesleep` -/
  | held
  /-- `acquiresleep`: `acquire`, also behind `sleep` -/
  | acquire
  /-- `acquiresleep`: `while (lk->locked)` -/
  | test
  /-- in `sleep` -/
  | asleep
  /-- `acquiresleep`: `lk->locked = 1` -/
  | setLocked
  /-- `acquiresleep`: `lk->pid = myproc()->pid` -/
  | setPid
  /-- `acquiresleep`: `release` -/
  | leave
  /-- `releasesleep`: `acquire` -/
  | relAcquire
  /-- `releasesleep`: `lk->locked = 0` -/
  | relLocked
  /-- `releasesleep`: `lk->pid = 0` -/
  | relPid
  /-- `releasesleep`: `wakeup` -/
  | relWakeup
  /-- `releasesleep`: `release` -/
  | relRelease
  /-- `holdingsleep`: `acquire` -/
  | askAcquire (mine : Bool) (use : Use)
  /-- `holdingsleep`: `r = lk->locked` -/
  | askRead (mine : Bool) (use : Use)
  /-- `holdingsleep`: `release`, with the answer -/
  | askRelease (mine : Bool) (use : Use) (r : Bool)
  | panicked
  deriving DecidableEq, Repr

namespace Pc

/-- The process has `lk->lk`. -/
def InSection : Pc → Prop
  | .test | .setLocked | .setPid | .leave | .relLocked | .relPid | .relWakeup | .relRelease => True
  | .askRead _ _ | .askRelease _ _ _ => True
  | _ => False

/-- The process has set `lk->locked` and not cleared it yet. -/
def Holds : Pc → Prop
  | .held | .setPid | .leave | .relAcquire | .relLocked => True
  | .askAcquire mine _ | .askRead mine _ | .askRelease mine _ _ => mine = true
  | _ => False

/-- The process holds the lock, and `lk->pid` is set as well. -/
def Signed (pc : Pc) : Prop := pc.Holds ∧ pc ≠ .setPid

/-- Where the caller of `holdingsleep` goes on. -/
def answered (mine : Bool) : Use → Bool → Pc
  | .ask, _ | .check, true => if mine then .held else .out
  | .release, true => .relAcquire
  | .check, false | .release, false => .panicked

end Pc

/-- `struct sleeplock`, and where the processes are. -/
structure State : Type where
  /-- the process that has `lk->lk` -/
  spin : Option ℕ
  locked : Bool
  pid : ℕ
  pc : ℕ → Pc

/-- What a process does where it has a choice. -/
inductive Act : Type where
  /-- the next statement -/
  | go
  | acquiresleep
  | releasesleep
  | holdingsleep (use : Use)
  /-- another process calls `kill`, which ends `sleep` -/
  | kill
  deriving DecidableEq, Repr

variable {q : ℕ} {mine : Bool} {use : Use}

namespace State

/-- Process `p` goes on to `b`. -/
def goto (s : State) (p : ℕ) (b : Pc) : State := { s with pc := Function.update s.pc p b }

@[simp] theorem goto_pc_self (s : State) (p : ℕ) (b : Pc) : (s.goto p b).pc p = b :=
  Function.update_self ..

theorem goto_pc_of_ne (s : State) {p : ℕ} (b : Pc) (h : q ≠ p) : (s.goto p b).pc q = s.pc q :=
  Function.update_of_ne h ..

/-- `acquire(&lk->lk)`. -/
def take (s : State) (p : ℕ) (b : Pc) : Option State :=
  if s.spin = none then some { s.goto p b with spin := some p } else none

/-- `release(&lk->lk)`. -/
def drop (s : State) (p : ℕ) (b : Pc) : State := { s.goto p b with spin := none }

/-- `wakeup(lk)`. -/
def wakeup (s : State) : State :=
  { s with pc := fun q => if s.pc q = .asleep then .acquire else s.pc q }

end State

open State in
/-- One step of process `p`. -/
def step (pidOf : ℕ → ℕ) (s : State) : ℕ × Act → Option State
  | ⟨p, a⟩ =>
    match s.pc p, a with
    | .out, .acquiresleep => some (s.goto p .acquire)
    | .out, .holdingsleep use => some (s.goto p (.askAcquire false use))
    | .held, .holdingsleep use => some (s.goto p (.askAcquire true use))
    | .held, .releasesleep => some (s.goto p .relAcquire)
    | .acquire, .go => s.take p .test
    | .test, .go => some (if s.locked then s.drop p .asleep else s.goto p .setLocked)
    | .asleep, .kill => some (s.goto p .acquire)
    | .setLocked, .go => some ({ s with locked := true }.goto p .setPid)
    | .setPid, .go => some ({ s with pid := pidOf p }.goto p .leave)
    | .leave, .go => some (s.drop p .held)
    | .relAcquire, .go => s.take p .relLocked
    | .relLocked, .go => some ({ s with locked := false }.goto p .relPid)
    | .relPid, .go => some ({ s with pid := 0 }.goto p .relWakeup)
    | .relWakeup, .go => some (s.wakeup.goto p .relRelease)
    | .relRelease, .go => some (s.drop p .out)
    | .askAcquire mine use, .go => s.take p (.askRead mine use)
    | .askRead mine use, .go => some (s.goto p (.askRelease mine use s.locked))
    | .askRelease mine use r, .go => some (s.drop p (.answered mine use r))
    | _, _ => none

/-- `initsleeplock`. -/
def start : State := ⟨none, false, 0, fun _ => .out⟩

/-- If this step is the answer of `holdingsleep`, then the answer is right. -/
def Right (s : State) (e : ℕ × Act) : Prop :=
  ∀ mine use, s.pc e.1 = .askRead mine use → (s.locked = true ↔ mine = true)

/-- If this step is the answer of `holdingsleep`, then no other process holds the lock. -/
def Alone (s : State) (e : ℕ × Act) : Prop :=
  ∀ mine use, s.pc e.1 = .askRead mine use → ∀ q ≠ e.1, ¬ (s.pc q).Holds

/-- At most one process holds the lock, and the lock describes it. -/
structure Exclusive (pidOf : ℕ → ℕ) (s : State) : Prop where
  unique : ∀ p q, (s.pc p).Holds → (s.pc q).Holds → p = q
  locked : ∀ p, (s.pc p).Holds → s.locked = true
  pid : ∀ p, (s.pc p).Signed → s.pid = pidOf p
  /-- a lock that nobody holds is clear, but for the section that clears it -/
  free : (∀ p, ¬ (s.pc p).Holds) → s.locked = false ∧ (s.spin = none → s.pid = 0)

/-- What holds in every state, as long as every answer is right. -/
structure Inv (pidOf : ℕ → ℕ) (s : State) : Prop where
  guards : Lock.Guards Pc.InSection s.pc s.spin
  unique : ∀ p q, (s.pc p).Holds → (s.pc q).Holds → p = q
  locked : s.locked = true ↔ ∃ p, (s.pc p).Holds
  pid : ∀ p, (s.pc p).Signed → s.pid = pidOf p
  clear : s.locked = false → s.pid = 0 ∨ ∃ p, s.pc p = .relPid
  /-- who is about to set `lk->locked` has found it clear, and who is about to clear `lk->pid` has
  cleared it -/
  found : ∀ p, s.pc p = .setLocked ∨ s.pc p = .relPid → s.locked = false
  answer : ∀ p mine use r, s.pc p = .askRelease mine use r → r = mine

variable {pidOf : ℕ → ℕ} {s s' : State} {p : ℕ} {b : Pc}

namespace Inv

section

variable (hs : Inv pidOf s)
include hs

/-- A step of `p` that leaves the lock as it is. -/
theorem move (hpc : s'.pc = Function.update s.pc p b)
    (hturn : Lock.Turn p (s.pc p).InSection b.InSection s.spin s'.spin)
    (hsame : s'.locked = s.locked ∧ s'.pid = s.pid) (hholds : b.Holds ↔ (s.pc p).Holds)
    (hsigned : s.pc p ≠ .setPid) (hrel : s.pc p ≠ .relPid)
    (hfound : b = .setLocked ∨ b = .relPid → s.locked = false)
    (hanswer : ∀ mine use r, b = .askRelease mine use r → r = mine) : Inv pidOf s' := by
  have hself : s'.pc p = b := by rw [hpc, Function.update_self]
  have hother {q : ℕ} (hq : q ≠ p) : s'.pc q = s.pc q := by rw [hpc, Function.update_of_ne hq]
  have hiff (q : ℕ) : (s'.pc q).Holds ↔ (s.pc q).Holds := by
    rcases eq_or_ne q p with rfl | hne
    · rw [hself, hholds]
    · rw [hother hne]
  refine ⟨hs.guards.turn hpc hturn, fun q r hq hr => ?_, ?_, fun q hq => ?_,
    fun h => ?_, fun q hq => ?_, fun q mine use r hq => ?_⟩
  · exact hs.unique q r ((hiff q).mp hq) ((hiff r).mp hr)
  · rw [hsame.1, hs.locked]
    exact exists_congr fun q => (hiff q).symm
  · rw [hsame.2]
    rcases eq_or_ne q p with rfl | hne
    · exact hs.pid q ⟨(hiff q).mp hq.1, hsigned⟩
    · exact hs.pid q (hother hne ▸ hq)
  · rw [hsame.2]
    refine (hs.clear (hsame.1 ▸ h)).imp id fun ⟨q, hq⟩ => ⟨q, ?_⟩
    rcases eq_or_ne q p with rfl | hne
    · exact absurd hq hrel
    · rw [hother hne, hq]
  · rw [hsame.1]
    rcases eq_or_ne q p with rfl | hne
    · exact hfound (hself ▸ hq)
    · exact hs.found q (hother hne ▸ hq)
  · rcases eq_or_ne q p with rfl | hne
    · exact hanswer mine use r (hself ▸ hq)
    · exact hs.answer q mine use r (hother hne ▸ hq)

/-- Nobody else is in a section of `lk->lk`. -/
theorem alone_in_section (hp : (s.pc p).InSection) (hq : q ≠ p) : ¬ (s.pc q).InSection :=
  fun h => hq (hs.guards.unique h hp)

theorem not_holds (h : s.locked = false) (q : ℕ) : ¬ (s.pc q).Holds := by
  intro hq
  rw [hs.locked.mpr ⟨q, hq⟩] at h
  cases h

theorem not_holds_of_ne (hp : (s.pc p).Holds) (hq : q ≠ p) : ¬ (s.pc q).Holds :=
  fun h => hq (hs.unique q p h hp)

theorem answer_update {r : Bool} (hq : Function.update s.pc p b q = .askRelease mine use r)
    (hb : b ≠ .askRelease mine use r) : r = mine := by
  rcases eq_or_ne q p with rfl | hne
  · rw [Function.update_self] at hq
    exact absurd hq hb
  · rw [Function.update_of_ne hne] at hq
    exact hs.answer q mine use r hq

/-- `lk->locked = 1`. -/
theorem setLocked_step (hp : s.pc p = .setLocked) :
    Inv pidOf ({ s with locked := true }.goto p .setPid) := by
  have hfree := hs.not_holds (hs.found p (.inl hp))
  have hsection : (s.pc p).InSection := by rw [hp]; trivial
  have honly {q : ℕ} (hq : (Function.update s.pc p .setPid q).Holds) : q = p := by
    by_contra hne
    rw [Function.update_of_ne hne] at hq
    exact hfree q hq
  refine ⟨hs.guards.turn rfl (.keep _ fun _ => hsection), fun q r hq hr => ?_, ?_, fun q hq => ?_,
    nofun, fun q hq => ?_, fun q mine use r hq => ?_⟩
  · rw [honly hq, honly hr]
  · refine ⟨fun _ => ⟨p, ?_⟩, fun _ => rfl⟩
    rw [State.goto_pc_self]
    trivial
  · obtain rfl := honly hq.1
    exact absurd (Function.update_self ..) hq.2
  · rcases eq_or_ne q p with rfl | hne
    · simp at hq
    · rw [State.goto_pc_of_ne _ _ hne] at hq
      refine absurd ?_ (hs.alone_in_section hsection hne)
      rcases hq with hq | hq
      all_goals
        rw [hq]
        trivial
  · exact hs.answer_update hq nofun

/-- `lk->pid = myproc()->pid`. -/
theorem setPid_step (hp : s.pc p = .setPid) :
    Inv pidOf ({ s with pid := pidOf p }.goto p .leave) := by
  have hholds : (s.pc p).Holds := by rw [hp]; trivial
  have hlocked : s.locked = true := hs.locked.mpr ⟨p, hholds⟩
  have hiff (q : ℕ) : (Function.update s.pc p .leave q).Holds ↔ (s.pc q).Holds := by
    rcases eq_or_ne q p with rfl | hne
    · rw [Function.update_self, hp]
      exact Iff.rfl
    · rw [Function.update_of_ne hne]
  refine ⟨hs.guards.turn rfl (.keep _ fun _ => by rw [hp]; trivial), fun q r hq hr => ?_, ?_,
    fun q hq => ?_, fun h => ?_, fun q hq => ?_, fun q mine use r hq => ?_⟩
  · exact hs.unique q r ((hiff q).mp hq) ((hiff r).mp hr)
  · exact hs.locked.trans (exists_congr fun q => (hiff q).symm)
  · rw [hs.unique q p ((hiff q).mp hq.1) hholds]
    rfl
  · exact absurd (hlocked.symm.trans h) nofun
  · rcases eq_or_ne q p with rfl | hne
    · simp at hq
    · rw [State.goto_pc_of_ne _ _ hne] at hq
      exact hs.found q hq
  · exact hs.answer_update hq nofun

/-- `lk->locked = 0`. -/
theorem relLocked_step (hp : s.pc p = .relLocked) :
    Inv pidOf ({ s with locked := false }.goto p .relPid) := by
  have hholds : (s.pc p).Holds := by rw [hp]; trivial
  have hnone (q : ℕ) : ¬ (Function.update s.pc p .relPid q).Holds := by
    rcases eq_or_ne q p with rfl | hne
    · rw [Function.update_self]
      exact id
    · rw [Function.update_of_ne hne]
      exact hs.not_holds_of_ne hholds hne
  refine ⟨hs.guards.turn rfl (.keep _ fun _ => by rw [hp]; trivial),
    fun q r hq => absurd hq (hnone q), ?_,
    fun q hq => absurd hq.1 (hnone q), fun _ => .inr ⟨p, Function.update_self ..⟩, fun _ _ => rfl,
    fun q mine use r hq => ?_⟩
  · exact ⟨nofun, fun ⟨q, hq⟩ => absurd hq (hnone q)⟩
  · exact hs.answer_update hq nofun

/-- `lk->pid = 0`. -/
theorem relPid_step (hp : s.pc p = .relPid) :
    Inv pidOf ({ s with pid := 0 }.goto p .relWakeup) := by
  have hfree := hs.not_holds (hs.found p (.inr hp))
  have hnone (q : ℕ) : ¬ (Function.update s.pc p .relWakeup q).Holds := by
    rcases eq_or_ne q p with rfl | hne
    · rw [Function.update_self]
      exact id
    · rw [Function.update_of_ne hne]
      exact hfree q
  refine ⟨hs.guards.turn rfl (.keep _ fun _ => by rw [hp]; trivial),
    fun q r hq => absurd hq (hnone q), ?_,
    fun q hq => absurd hq.1 (hnone q), fun _ => .inl rfl, fun _ _ => hs.found p (.inr hp),
    fun q mine use r hq => ?_⟩
  · exact ⟨fun h => absurd (hs.locked.mp h) fun ⟨q, hq⟩ => hfree q hq, fun ⟨q, hq⟩ =>
      absurd hq (hnone q)⟩
  · exact hs.answer_update hq nofun

/-- `wakeup` moves sleepers only. -/
theorem wakeup : Inv pidOf s.wakeup := by
  have hkeep {f : Pc → Prop} (hf : ¬ f .acquire) {q : ℕ} (hq : f (s.wakeup.pc q)) : f (s.pc q) := by
    rw [State.wakeup] at hq
    dsimp only at hq
    split at hq
    · exact absurd hq hf
    · exact hq
  have hstay {q : ℕ} (hq : s.pc q ≠ .asleep) : s.wakeup.pc q = s.pc q := if_neg hq
  refine ⟨fun q hq => hs.guards q (hkeep id hq),
    fun q r hq hr => hs.unique q r (hkeep id hq) (hkeep id hr),
    ?_, fun q hq => ?_, fun h => ?_, fun q hq => ?_, fun q mine use r hq => ?_⟩
  · refine hs.locked.trans ⟨fun ⟨q, hq⟩ => ⟨q, ?_⟩, fun ⟨q, hq⟩ => ⟨q, hkeep id hq⟩⟩
    rw [hstay]
    · exact hq
    · intro hsleep
      rw [hsleep] at hq
      exact hq
  · exact hs.pid q (hkeep (f := Pc.Signed) (fun h => h.1) hq)
  · refine (hs.clear h).imp id fun ⟨q, hq⟩ => ⟨q, ?_⟩
    rw [hstay (by rw [hq]; nofun), hq]
  · exact hs.found q (hkeep (f := fun pc => pc = .setLocked ∨ pc = .relPid) (by simp) hq)
  · exact hs.answer q mine use r (hkeep (f := fun pc => pc = .askRelease mine use r) nofun hq)

end

end Inv

/-- The step from `a` to `b` has nothing to do with `lk->locked` and `lk->pid`. -/
structure Pc.Plain (a b : Pc) : Prop where
  holds : b.Holds ↔ a.Holds
  setPid : a ≠ .setPid := by nofun
  relPid : a ≠ .relPid := by nofun
  found : ¬ (b = .setLocked ∨ b = .relPid) := by simp
  answer : ∀ mine use r, b = .askRelease mine use r → r = mine := by nofun

namespace Inv

variable {a : Pc}

theorem plain (hs : Inv pidOf s) (hp : s.pc p = a) (hplain : a.Plain b)
    (hpc : s'.pc = Function.update s.pc p b) (hsame : s'.locked = s.locked ∧ s'.pid = s.pid)
    (hturn : Lock.Turn p a.InSection b.InSection s.spin s'.spin) : Inv pidOf s' := by
  subst hp
  exact hs.move hpc hturn hsame hplain.holds hplain.setPid hplain.relPid
    (fun h => absurd h hplain.found) hplain.answer

theorem goto (hs : Inv pidOf s) (hp : s.pc p = a) (hplain : a.Plain b)
    (hsection : b.InSection → a.InSection) : Inv pidOf (s.goto p b) :=
  hs.plain hp hplain rfl ⟨rfl, rfl⟩ (.keep _ hsection)

theorem take (hs : Inv pidOf s) (h : s.take p b = some s') (hp : s.pc p = a) (hplain : a.Plain b) :
    Inv pidOf s' := by
  unfold State.take at h
  split at h
  · next hfree =>
    cases h
    refine hs.plain hp hplain rfl ⟨rfl, rfl⟩ ?_
    rw [hfree]
    exact .acquire
  · cases h

theorem drop (hs : Inv pidOf s) (hp : s.pc p = a) (hplain : a.Plain b) (ha : a.InSection)
    (hb : ¬ b.InSection) : Inv pidOf (s.drop p b) :=
  hs.plain hp hplain rfl ⟨rfl, rfl⟩ (.release _ ha hb)

/-- `while (lk->locked)`. -/
theorem test_step (hs : Inv pidOf s) (hp : s.pc p = .test) :
    Inv pidOf (if s.locked then s.drop p .asleep else s.goto p .setLocked) := by
  split
  · exact hs.drop hp { holds := Iff.rfl } trivial id
  · next hfree =>
    refine hs.move rfl (.keep _ fun _ => by rw [hp]; trivial) ⟨rfl, rfl⟩ ?_ ?_ ?_
      (fun _ => by simpa using hfree) nofun
    all_goals
      rw [hp]
      first
        | exact Iff.rfl
        | nofun

/-- `holdingsleep` answers while nobody else holds the lock. -/
theorem askRead_step (hs : Inv pidOf s) (hp : s.pc p = .askRead mine use)
    (hanswer : s.locked = mine) : Inv pidOf (s.goto p (.askRelease mine use s.locked)) := by
  refine hs.goto hp ⟨Iff.rfl, nofun, nofun, by simp, ?_⟩ fun _ => trivial
  rintro _ _ _ ⟨⟩
  exact hanswer

theorem plain_answered (mine : Bool) (use : Use) :
    (Pc.askRelease mine use mine).Plain (.answered mine use mine) := by
  refine ⟨?_, nofun, nofun, ?_, ?_⟩
  all_goals cases mine <;> cases use <;> simp [Pc.answered, Pc.Holds]

/-- The answer of `holdingsleep`, in terms of who holds the lock. -/
theorem locked_iff (hs : Inv pidOf s) (hp : s.pc p = .askRead mine use) :
    (s.locked = true ↔ mine = true) ↔ ∀ q ≠ p, ¬ (s.pc q).Holds := by
  have hmine : (s.pc p).Holds ↔ mine = true := by
    rw [hp]
    exact Iff.rfl
  rw [hs.locked, ← hmine]
  constructor
  · intro h q hq hholds
    exact hq (hs.unique q p hholds (h.mp ⟨q, hholds⟩))
  · intro h
    refine ⟨fun ⟨q, hq⟩ => ?_, fun hp => ⟨p, hp⟩⟩
    by_contra hp
    exact h q (fun heq => hp (heq ▸ hq)) hq

/-- **One step** keeps the invariant if no answer is given while another process holds the lock. -/
theorem step (hs : Inv pidOf s) {e : ℕ × Act} (halone : Alone s e)
    (h : Sleeplock.step pidOf s e = some s') : Inv pidOf s' := by
  obtain ⟨p, act⟩ := e
  simp only [Sleeplock.step] at h
  split at h
  · next hpc =>
    cases h
    exact hs.goto hpc { holds := Iff.rfl } nofun
  · next hpc =>
    cases h
    exact hs.goto hpc { holds := by simp [Pc.Holds] } nofun
  · next hpc =>
    cases h
    exact hs.goto hpc { holds := by simp [Pc.Holds] } nofun
  · next hpc =>
    cases h
    exact hs.goto hpc { holds := Iff.rfl } nofun
  · next hpc => exact hs.take h hpc { holds := Iff.rfl }
  · next hpc =>
    cases h
    exact hs.test_step hpc
  · next hpc =>
    cases h
    exact hs.goto hpc { holds := Iff.rfl } nofun
  · next hpc =>
    cases h
    exact hs.setLocked_step hpc
  · next hpc =>
    cases h
    exact hs.setPid_step hpc
  · next hpc =>
    cases h
    exact hs.drop hpc { holds := Iff.rfl } trivial id
  · next hpc => exact hs.take h hpc { holds := Iff.rfl }
  · next hpc =>
    cases h
    exact hs.relLocked_step hpc
  · next hpc =>
    cases h
    exact hs.relPid_step hpc
  · next hpc =>
    cases h
    have hwoken : s.wakeup.pc p = .relWakeup := (if_neg (by rw [hpc]; nofun)).trans hpc
    exact hs.wakeup.goto hwoken { holds := Iff.rfl } fun _ => trivial
  · next hpc =>
    cases h
    exact hs.drop hpc { holds := Iff.rfl } trivial id
  · next hpc => exact hs.take h hpc { holds := Iff.rfl }
  · next mine use hpc =>
    cases h
    exact hs.askRead_step hpc (Bool.eq_iff_iff.mpr ((hs.locked_iff hpc).mpr (halone mine use hpc)))
  · next mine use r hpc =>
    cases h
    obtain rfl := hs.answer p mine use r hpc
    refine hs.drop hpc (plain_answered r use) trivial ?_
    cases r <;> cases use <;> exact id
  · cases h

theorem start (pidOf : ℕ → ℕ) : Inv pidOf start :=
  ⟨nofun, nofun, by simp [Sleeplock.start, Pc.Holds], fun _ h => h.1.elim, fun _ => .inl rfl,
    by simp [Sleeplock.start], nofun⟩

theorem exclusive (hs : Inv pidOf s) : Exclusive pidOf s := { hs with
  locked p hp := hs.locked.mpr ⟨p, hp⟩
  free hnone := by
    have hlocked : s.locked = false := by
      by_contra h
      obtain ⟨p, hp⟩ := hs.locked.mp (by simpa using h)
      exact hnone p hp
    refine ⟨hlocked, fun hfree => (hs.clear hlocked).elim id fun ⟨p, hp⟩ => ?_⟩
    have hsection := hs.guards p (by rw [hp]; trivial)
    rw [hfree] at hsection
    cases hsection }

end Inv

/-! ## Runs -/

/-- **Sleep-locks.** In every run, all answers of `holdingsleep` are right if and only if none is
given while another process holds the lock. In such a run at most one process holds the lock in
every state, and `lk->locked` and `lk->pid` describe it. -/
theorem holdingsleep_right_iff (pidOf : ℕ → ℕ) (es : List (ℕ × Act)) (s : State)
    (h : exec (step pidOf) start es = some s) :
    (EachStep (step pidOf) Right start es ↔ EachStep (step pidOf) Alone start es) ∧
      (EachStep (step pidOf) Alone start es → Exclusive pidOf s) := by
  have hiff {t : State} (ht : Inv pidOf t) (e : ℕ × Act) : Right t e ↔ Alone t e :=
    forall₃_congr fun _ _ hp => ht.locked_iff hp
  refine ⟨eachStep_congr (I := Inv pidOf) (fun t e _ ht _ => hiff ht e)
    (fun t e t' ht hstep halone => ht.step halone hstep) (.start pidOf) h, fun halone => ?_⟩
  exact (exec_invariant_of_eachStep (I := Inv pidOf) (fun t e t' ht he hstep => ht.step he hstep)
    (.start pidOf) halone h).exclusive

/-- `acquiresleep`, where the lock is free. -/
def acquires (p : ℕ) : List (ℕ × Act) :=
  (p, .acquiresleep) :: List.replicate 5 (p, .go)

/-- The owner asks, and is told that it holds the lock. -/
theorem holdingsleep_right_iff_owner :
    ∃ s, exec (step (· + 1)) start
        (acquires 0 ++ [(0, .holdingsleep .ask), (0, .go), (0, .go)]) = some s ∧
      s.pc 0 = .askRelease true .ask true ∧
      EachStep (step (· + 1)) Alone start
        (acquires 0 ++ [(0, .holdingsleep .ask), (0, .go), (0, .go)]) ∧ Exclusive (· + 1) s := by
  have hright : EachStep (step (· + 1)) Right start
      (acquires 0 ++ [(0, .holdingsleep .ask), (0, .go), (0, .go)]) := by
    iterate 8 refine .cons rfl (by rintro mine use ⟨⟩) ?_
    refine .cons rfl ?_ trivial
    rintro mine use ⟨⟩
    exact Iff.rfl
  have hiff := holdingsleep_right_iff (· + 1) _ _ (show exec (step (· + 1)) start
    (acquires 0 ++ [(0, .holdingsleep .ask), (0, .go), (0, .go)]) = some _ from rfl)
  exact ⟨_, rfl, rfl, hiff.1.mp hright, hiff.2 (hiff.1.mp hright)⟩

/-- Process 0 holds the lock. `holdingsleep` tells process 1 that it does, so that its `brelse` lets
the lock go; process 2 gets it while process 0 still holds it. -/
theorem two_holders :
    (∃ s, exec (step (· + 1)) start (acquires 0 ++ [(1, .holdingsleep .release), (1, .go)]) =
      some s ∧ s.pc 1 = .askRead false .release ∧ s.locked = true) ∧
    ∃ s, exec (step (· + 1)) start (acquires 0 ++ (1, .holdingsleep .release) ::
      List.replicate 8 (1, .go) ++ acquires 2) = some s ∧ s.pc 0 = .held ∧ s.pc 2 = .held :=
  ⟨⟨_, rfl, rfl, rfl⟩, _, rfl, rfl, rfl⟩

end InuOs.Sleeplock
