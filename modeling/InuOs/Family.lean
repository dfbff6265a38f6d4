import InuOs.SchedInv

/-!
# Parents and children

Two more invariants of the process table, over the steps of `InuOs.Sched`:

* `FamilyInv`: a process other than init has a living parent, and nobody sleeps in `wait` who has a
  child to collect;
* `SerialInv`: a process that `fork` made is in one slot until `wait` returns it, and in none after
  that.

Most steps change no family (`Slot.Kin`).
-/

namespace InuOs.Sched

/-- A process that has not exited. -/
def Slot.Alive (a : Slot) : Prop :=
  a.state = .sleeping ∨ a.state = .runnable ∨ a.state = .running

/-- A slot with a process in it. -/
def Slot.Occupied (a : Slot) : Prop := a.Alive ∨ a.state = .zombie

/-- A slot with no process in it, or not yet. -/
def Slot.Vacant (a : Slot) : Prop := a.state = .unused ∨ a.state = .embryo

/-- What holds of parents and children between any two steps. -/
structure FamilyInv (s : State) : Prop where
  table : ∀ j, nProc ≤ j → (s.slots j).state = .unused
  init : (s.slots initproc).Alive ∧ (s.slots initproc).parent = none
  parent : ∀ j, (s.slots j).Occupied → j ≠ initproc →
    ∃ q, (s.slots j).parent = some q ∧ (s.slots q).Alive ∧ q ≠ j
  unused : ∀ j, (s.slots j).state = .unused → (s.slots j).parent = none
  embryo : ∀ j q, (s.slots j).state = .embryo → (s.slots j).parent = some q →
    (s.slots q).Alive ∧ (s.slots q).pc.spot = .copied j
  copied : ∀ j q, (s.slots q).Alive → (s.slots q).pc.spot = .copied j → (s.slots j).parent = some q
  wait : ∀ p, (s.slots p).state = .sleeping → (s.slots p).pc = .wait →
    (s.slots p).chan = some (.proc p) ∧
      ∀ j, (s.slots j).parent = some p → (s.slots j).state ≠ .zombie

/-- What holds of the processes that were made and those that were returned. -/
structure SerialInv (s : State) : Prop where
  fresh : ∀ j, (s.slots j).Occupied → (s.slots j).serial < s.forks ∧ (s.slots j).serial ∉ s.returned
  inj : ∀ i j, (s.slots i).Occupied → (s.slots j).Occupied →
    (s.slots i).serial = (s.slots j).serial → i = j
  bound : ∀ n ∈ s.returned, n < s.forks
  nodup : s.returned.Nodup

/-- A change of a slot that touches no family. -/
structure Slot.Kin (a b : Slot) : Prop where
  parent : b.parent = a.parent
  serial : b.serial = a.serial
  alive : b.Alive ↔ a.Alive
  zombie : b.state = .zombie ↔ a.state = .zombie
  vacant : a.Vacant → b.state = a.state
  copied : ∀ j, b.pc.spot = .copied j ↔ a.pc.spot = .copied j
  wait : b.state = .sleeping → b.pc = .wait → a.state = .sleeping ∧ a.pc = .wait ∧ b.chan = a.chan

namespace Slot

variable {a b : Slot}

theorem Kin.refl (a : Slot) : a.Kin a :=
  ⟨rfl, rfl, Iff.rfl, Iff.rfl, fun _ => rfl, fun _ => Iff.rfl, fun h h' => ⟨h, h', rfl⟩⟩

/-- The five kinds of slots exclude each other. -/
theorem vacant_or_occupied (a : Slot) : a.Vacant ∨ a.Occupied := by
  unfold Vacant Occupied Alive
  cases a.state <;> simp

theorem Occupied.not_vacant (h : a.Occupied) : ¬ a.Vacant := by
  unfold Occupied Alive Vacant at *
  cases ha : a.state <;> simp_all

theorem Kin.occupied (h : a.Kin b) : b.Occupied ↔ a.Occupied := or_congr h.alive h.zombie

/-- A slot that is vacant after the change was so before. -/
theorem Kin.state_of_vacant (h : a.Kin b) (hb : b.Vacant) : a.state = b.state := by
  rcases a.vacant_or_occupied with ha | ha
  · exact (h.vacant ha).symm
  · exact absurd hb (h.occupied.mpr ha).not_vacant

/-- A process goes on, stops or starts, but not in the middle of `wait`, and makes no child. -/
theorem Kin.of_alive (ha : a.Alive) (hb : b.Alive) (hparent : b.parent = a.parent)
    (hserial : b.serial = a.serial) (hcopied : ∀ j, b.pc.spot = .copied j ↔ a.pc.spot = .copied j)
    (hwait : b.state = .sleeping → b.pc ≠ .wait) : a.Kin b where
  parent := hparent
  serial := hserial
  alive := iff_of_true hb ha
  zombie := by
    unfold Alive at ha hb
    constructor <;> intro h <;> simp [h] at ha hb
  vacant h := absurd h (Occupied.not_vacant (.inl ha))
  copied := hcopied
  wait h h' := absurd h' (hwait h)

theorem Bystander.alive (h : a.Bystander b) : b.Alive ↔ a.Alive := by
  rcases h.state with h | ⟨h, h'⟩
  · rw [Alive, Alive, h]
  · simp [Alive, h, h']

theorem Bystander.state_iff (h : a.Bystander b) (st : ProcState) (hst : st ≠ .sleeping)
    (hst' : st ≠ .runnable) : b.state = st ↔ a.state = st := by
  rcases h.state with h | ⟨h, h'⟩
  · rw [h]
  · rw [h, h']
    exact iff_of_false (Ne.symm hst') (Ne.symm hst)

theorem Bystander.occupied (h : a.Bystander b) : b.Occupied ↔ a.Occupied :=
  or_congr h.alive (h.state_iff .zombie nofun nofun)

theorem Bystander.sleeping (h : a.Bystander b) (hb : b.state = .sleeping) :
    a.state = .sleeping := by
  rcases h.state with h | ⟨h, -⟩
  · exact h ▸ hb
  · exact h

/-- A process may be woken up, or be marked as killed. -/
theorem Kin.of_bystander (h : a.Bystander b) (hparent : b.parent = a.parent)
    (hserial : b.serial = a.serial) (hchan : b.chan = a.chan) : a.Kin b where
  parent := hparent
  serial := hserial
  alive := h.alive
  zombie := h.state_iff .zombie nofun nofun
  vacant ha := by
    rcases ha with ha | ha
    · rw [ha]
      exact (h.state_iff .unused nofun nofun).mpr ha
    · rw [ha]
      exact (h.state_iff .embryo nofun nofun).mpr ha
  copied j := by rw [h.pc]
  wait hb hpc := ⟨h.sleeping hb, h.pc ▸ hpc, hchan⟩

end Slot

variable {chan : Chan} {q np j : ℕ} {e : Event}

namespace State

/-- `wakeup1` changes nothing but states. -/
theorem wakeup1_eq (slots : ℕ → Slot) (chan : Chan) (q : ℕ) :
    ∃ st, wakeup1 slots chan q = { slots q with state := st } := by
  unfold wakeup1
  split
  · exact ⟨_, rfl⟩
  · exact ⟨(slots q).state, rfl⟩

theorem wakeup1_kin (slots : ℕ → Slot) (chan : Chan) (q : ℕ) :
    (slots q).Kin (wakeup1 slots chan q) := by
  obtain ⟨st, h⟩ := wakeup1_eq slots chan q
  exact .of_bystander (wakeup1_bystander slots chan q) (h ▸ rfl) (h ▸ rfl) (h ▸ rfl)

/-- Nobody sleeps on `chan` behind `wakeup1`. -/
theorem chan_ne_of_wakeup1 {slots : ℕ → Slot} (h : (wakeup1 slots chan q).state = .sleeping) :
    (slots q).chan ≠ some chan := by
  unfold wakeup1 at h
  split at h
  · cases h
  · next hne => exact fun hchan => hne ⟨h, hchan⟩

theorem wakeParent_eq (slots : ℕ → Slot) (p q : ℕ) :
    ∃ st, wakeParent slots p q = { slots q with state := st } := by
  unfold wakeParent
  split
  · exact wakeup1_eq _ _ q
  · exact ⟨(slots q).state, rfl⟩

theorem adopt_eq (slots : ℕ → Slot) (p q : ℕ) : adopt slots p q =
    { slots q with
      parent := if (slots q).parent = some p then some initproc else (slots q).parent } := by
  unfold adopt
  split <;> rfl

/-- `exit` changes states, and the children go to init. -/
theorem exitSlots_eq (s : State) (p q : ℕ) : ∃ st, s.exitSlots p q =
    { s.slots q with
      state := st
      parent := if (s.slots q).parent = some p then some initproc else (s.slots q).parent } := by
  obtain ⟨st, hst⟩ := wakeParent_eq s.slots p q
  have hadopt := adopt_eq (wakeParent s.slots p) p q
  rw [hst] at hadopt
  unfold exitSlots reparent
  split
  · obtain ⟨st', hst'⟩ := wakeup1_eq (adopt (wakeParent s.slots p) p) (.proc initproc) q
    rw [hst', hadopt]
    exact ⟨st', rfl⟩
  · exact ⟨st, hadopt⟩

/-- `exit` wakes up the parent, and init if a child that it gets has exited before. -/
theorem exitSlots_sleeping {s : State} {p : ℕ} (h : (s.exitSlots p q).state = .sleeping) :
    (∀ r, (s.slots p).parent = some r → (s.slots q).chan ≠ some (.proc r)) ∧
      ∀ j < nProc, (s.slots j).parent = some p → (s.slots j).state = .zombie →
        (s.slots q).chan ≠ some (.proc initproc) := by
  unfold exitSlots reparent at h
  constructor
  · intro r hr
    have hwoken : (adopt (wakeParent s.slots p) p q).state = .sleeping := by
      split at h
      · exact (wakeup1_bystander _ _ q).sleeping h
      · exact h
    rw [adopt_eq, wakeParent, hr] at hwoken
    exact chan_ne_of_wakeup1 hwoken
  · intro j hj hjp hzombie
    rw [if_pos] at h
    · have hne := chan_ne_of_wakeup1 h
      obtain ⟨st, hst⟩ := wakeParent_eq s.slots p q
      rwa [adopt_eq, hst] at hne
    · refine List.any_eq_true.mpr ⟨j, List.mem_range.mpr hj, decide_eq_true ⟨?_, ?_⟩⟩
      · obtain ⟨st, hst⟩ := wakeParent_eq s.slots p j
        rw [hst]
        exact hjp
      · exact ((wakeParent_bystander s.slots p j).state_iff .zombie nofun nofun).mpr hzombie

/-- What the `exit` of `p` does to the table. -/
structure Exits (s s' : State) (p : ℕ) : Prop where
  init : p ≠ initproc
  self : (s'.slots p).state = .zombie
  others : ∀ q ≠ p, (s.slots q).Bystander (s'.slots q)
  same : ∀ q, ∃ st parent pc,
    s'.slots q = { s.slots q with state := st, parent := parent, pc := pc }
  parent : ∀ q, (s'.slots q).parent =
    if (s.slots q).parent = some p then some initproc else (s.slots q).parent
  woken : ∀ q ≠ p, (s'.slots q).state = .sleeping →
    (∀ r, (s.slots p).parent = some r → (s.slots q).chan ≠ some (.proc r)) ∧
      ∀ j < nProc, (s.slots j).parent = some p → (s.slots j).state = .zombie →
        (s.slots q).chan ≠ some (.proc initproc)

theorem exit_eq_some {s s' : State} {c : ℕ} (h : s.exit c = some s') :
    ∃ p, (s.cpus c).loc = .process p ∧ (s.slots p).pc = .code .user ∧ s.Exits s' p ∧
      s'.forks = s.forks ∧ s'.returned = s.returned := by
  obtain ⟨p, hfrom, hpc, -, h⟩ := enter_eq_some h
  split at h
  · cases h
  · next hinit =>
    have hs' := (Option.some.inj h).symm
    have hp : s'.slots p = { s.exitSlots p p with state := .zombie, pc := .exit } :=
      hs' ▸ Function.update_self ..
    have hold : ∀ q ≠ p, s'.slots q = s.exitSlots p q := fun q hq =>
      hs' ▸ Function.update_of_ne hq ..
    refine ⟨p, hfrom, hpc, ⟨hinit, hp ▸ rfl, fun q hq => hold q hq ▸ s.exitSlots_bystander p q,
      fun q => ?_, fun q => ?_, fun q hq hasleep => exitSlots_sleeping (hold q hq ▸ hasleep)⟩,
      hs' ▸ rfl, hs' ▸ rfl⟩
    all_goals
      obtain ⟨st, hst⟩ := s.exitSlots_eq p q
      rcases eq_or_ne q p with rfl | hqp
    · rw [hp, hst]
      exact ⟨_, _, _, rfl⟩
    · rw [hold q hqp, hst]
      exact ⟨_, _, _, rfl⟩
    · rw [hp, hst]
    · rw [hold q hqp, hst]

theorem Exits.ne_of_state {s s' : State} {p : ℕ} (he : s.Exits s' p)
    (hq : (s'.slots q).state ≠ .zombie) : q ≠ p := by
  rintro rfl
  exact hq he.self

theorem Exits.occupied {s s' : State} {p : ℕ} (he : s.Exits s' p)
    (hrun : (s.slots p).state = .running) (hq : (s'.slots q).Occupied) : (s.slots q).Occupied := by
  rcases eq_or_ne q p with rfl | hqp
  · exact .inl (.inr (.inr hrun))
  · exact (he.others q hqp).occupied.mp hq

theorem killSlots_kin (s : State) (pid : Int32) (q : ℕ) :
    (s.slots q).Kin ((s.killSlots pid).slots q) := by
  have hkeep : ((s.killSlots pid).slots q).parent = (s.slots q).parent ∧
      ((s.killSlots pid).slots q).serial = (s.slots q).serial ∧
      ((s.killSlots pid).slots q).chan = (s.slots q).chan := by
    unfold killSlots
    split
    · exact ⟨rfl, rfl, rfl⟩
    · next j _ =>
      rcases eq_or_ne q j with rfl | hne
      · rw [setSlot_slots_self]
        exact ⟨rfl, rfl, rfl⟩
      · rw [setSlot_slots_of_ne _ _ hne]
        exact ⟨rfl, rfl, rfl⟩
  exact .of_bystander (s.killSlots_bystander pid q) hkeep.1 hkeep.2.1 hkeep.2.2

end State

namespace FamilyInv

variable {s s' : State} {c p : ℕ}

theorem kin (hs : FamilyInv s) (h : ∀ q, (s.slots q).Kin (s'.slots q)) : FamilyInv s' where
  table j hj := by
    have hunused := hs.table j hj
    rw [(h j).vacant (.inl hunused), hunused]
  init := ⟨(h initproc).alive.mpr hs.init.1, (h initproc).parent.trans hs.init.2⟩
  parent j hj hne := by
    obtain ⟨q, hparent, halive, hq⟩ := hs.parent j ((h j).occupied.mp hj) hne
    exact ⟨q, (h j).parent.trans hparent, (h q).alive.mpr halive, hq⟩
  unused j hj := by
    rw [(h j).parent]
    exact hs.unused j (((h j).state_of_vacant (.inl hj)).trans hj)
  embryo j q hj hparent := by
    rw [(h j).parent] at hparent
    obtain ⟨halive, hspot⟩ := hs.embryo j q (((h j).state_of_vacant (.inr hj)).trans hj) hparent
    exact ⟨(h q).alive.mpr halive, ((h q).copied j).mpr hspot⟩
  copied j q halive hspot := by
    rw [(h j).parent]
    exact hs.copied j q ((h q).alive.mp halive) (((h q).copied j).mp hspot)
  wait p hp hpc := by
    obtain ⟨hp', hpc', hchan⟩ := (h p).wait hp hpc
    obtain ⟨hself, hchildren⟩ := hs.wait p hp' hpc'
    refine ⟨hchan.trans hself, fun j hj hzombie => ?_⟩
    exact hchildren j ((h j).parent ▸ hj) ((h j).zombie.mp hzombie)

/-- A slot that is in use is one of the table. -/
theorem lt_of_used (hs : FamilyInv s) (h : (s.slots j).state ≠ .unused) : j < nProc := by
  by_contra hle
  exact h (hs.table j (by omega))

/-- A vacant slot stays vacant, and everything else as it was. -/
theorem vacant (hs : FamilyInv s) (hnp : np < nProc) (hbefore : (s.slots np).Vacant)
    (hafter : (s'.slots np).Vacant) (hparent : (s'.slots np).parent = none)
    (hmaker : ∀ q, (s.slots q).Alive → (s.slots q).pc.spot ≠ .copied np)
    (h : ∀ q ≠ np, (s.slots q).Kin (s'.slots q)) : FamilyInv s' := by
  -- occupied slots are among the others
  have hne : ∀ {j}, (s.slots j).Occupied → j ≠ np := by
    rintro j hj rfl
    exact hj.not_vacant hbefore
  have hne' : ∀ {j}, (s'.slots j).Occupied → j ≠ np := by
    rintro j hj rfl
    exact hj.not_vacant hafter
  refine ⟨fun j hj => ?_, ?_, fun j hj hinit => ?_, fun j hj => ?_, fun j q hj hjq => ?_,
    fun j q hq hpc => ?_, fun p hp hpc => ?_⟩
  · have hunused := hs.table j hj
    rw [(h j (by omega)).vacant (.inl hunused), hunused]
  · have hkin := h initproc (hne (.inl hs.init.1))
    exact ⟨hkin.alive.mpr hs.init.1, hkin.parent.trans hs.init.2⟩
  · have hkin := h j (hne' hj)
    obtain ⟨q, hjq, halive, hq⟩ := hs.parent j (hkin.occupied.mp hj) hinit
    exact ⟨q, hkin.parent.trans hjq, (h q (hne (.inl halive))).alive.mpr halive, hq⟩
  · rcases eq_or_ne j np with rfl | hjn
    · exact hparent
    · rw [(h j hjn).parent]
      exact hs.unused j (((h j hjn).state_of_vacant (.inl hj)).trans hj)
  · have hjn : j ≠ np := by
      rintro rfl
      rw [hparent] at hjq
      cases hjq
    rw [(h j hjn).parent] at hjq
    obtain ⟨halive, hspot⟩ := hs.embryo j q (((h j hjn).state_of_vacant (.inr hj)).trans hj) hjq
    have hkin := h q (hne (.inl halive))
    exact ⟨hkin.alive.mpr halive, (hkin.copied j).mpr hspot⟩
  · have hkin := h q (hne' (.inl hq))
    have halive := hkin.alive.mp hq
    have hspot := (hkin.copied j).mp hpc
    have hjn : j ≠ np := by
      rintro rfl
      exact hmaker q halive hspot
    rw [(h j hjn).parent]
    exact hs.copied j q halive hspot
  · obtain ⟨hp, hpc, hchan⟩ := (h p (hne' (.inl (.inl hp)))).wait hp hpc
    obtain ⟨hself, hchildren⟩ := hs.wait p hp hpc
    refine ⟨hchan.trans hself, fun j hj hzombie => ?_⟩
    have hkin := h j (hne' (.inr hzombie))
    exact hchildren j (hkin.parent ▸ hj) (hkin.zombie.mp hzombie)

section

variable (hs : FamilyInv s) (hrun : (s.slots p).state = .running)
  (hspot : (s.slots p).pc.spot = .user) (he : s.Exits s' p)
include hs hrun he

/-- The children of a process that exits have init as their parent, the others the one they had. -/
theorem exits_parent (hj : (s'.slots j).Occupied) (hinit : j ≠ initproc) :
    ∃ q, (s'.slots j).parent = some q ∧ (s'.slots q).Alive ∧ q ≠ j := by
  obtain ⟨q, hjq, halive, hq⟩ := hs.parent j (he.occupied hrun hj) hinit
  rw [he.parent j]
  split
  · exact ⟨initproc, rfl, (he.others initproc (Ne.symm he.init)).alive.mpr hs.init.1, Ne.symm hinit⟩
  · next hne =>
    refine ⟨q, hjq, (he.others q ?_).alive.mpr halive, hq⟩
    rintro rfl
    exact hne hjq

include hspot in
/-- An embryo stays with its maker, since a process does not exit in the middle of `fork`. -/
theorem exits_embryo (hj : (s'.slots j).state = .embryo) (hjq : (s'.slots j).parent = some q) :
    (s'.slots q).Alive ∧ (s'.slots q).pc.spot = .copied j := by
  have hjp := he.ne_of_state (q := j) (by simp [hj])
  have hembryo := ((he.others j hjp).state_iff .embryo nofun nofun).mp hj
  rw [he.parent] at hjq
  split at hjq
  · next hmine =>
    have hmaker := (hs.embryo j p hembryo hmine).2
    rw [hspot] at hmaker
    cases hmaker
  · next hne =>
    obtain ⟨halive, hcopied⟩ := hs.embryo j q hembryo hjq
    have hqp : q ≠ p := by
      rintro rfl
      exact hne hjq
    exact ⟨(he.others q hqp).alive.mpr halive, (he.others q hqp).pc ▸ hcopied⟩

/-- Nobody sleeps on in `wait` who has got a child to collect: neither the parent of the process
that exits, nor init, if a child that passes to it has exited before. -/
theorem exits_wait (hq : (s'.slots q).state = .sleeping) (hqpc : (s'.slots q).pc = .wait) :
    (s'.slots q).chan = some (.proc q) ∧
      ∀ j, (s'.slots j).parent = some q → (s'.slots j).state ≠ .zombie := by
  have hqp := he.ne_of_state (q := q) (by simp [hq])
  have hby := he.others q hqp
  obtain ⟨hchan, hchildren⟩ := hs.wait q (hby.sleeping hq) (hby.pc.symm.trans hqpc)
  obtain ⟨hnotParent, hnotInit⟩ := he.woken q hqp hq
  obtain ⟨st, parent, pc, hsame⟩ := he.same q
  refine ⟨hsame ▸ hchan, fun j hj hzombie => ?_⟩
  rw [he.parent] at hj
  split at hj
  · next hmine =>
    obtain rfl := Option.some.inj hj
    have hjp : j ≠ p := by
      rintro rfl
      obtain ⟨r, hr, -, hne⟩ := hs.parent j (.inl (.inr (.inr hrun))) he.init
      exact hne (Option.some.inj (hr.symm.trans hmine))
    have hzombie := ((he.others j hjp).state_iff .zombie nofun nofun).mp hzombie
    exact hnotInit j (hs.lt_of_used (by simp [hzombie])) hmine hzombie hchan
  · rcases eq_or_ne j p with rfl | hjp
    · exact hnotParent q hj hchan
    · exact hchildren j hj (((he.others j hjp).state_iff .zombie nofun nofun).mp hzombie)

include hspot in
theorem exits : FamilyInv s' where
  table j hj := by
    have hunused := hs.table j hj
    have hjp : j ≠ p := by
      rintro rfl
      rw [hrun] at hunused
      cases hunused
    exact ((he.others j hjp).state_iff .unused nofun nofun).mpr hunused
  init :=
    ⟨(he.others initproc (Ne.symm he.init)).alive.mpr hs.init.1, by simp [he.parent, hs.init.2]⟩
  parent j := hs.exits_parent hrun he
  unused j hj := by
    have hjp := he.ne_of_state (q := j) (by simp [hj])
    have hunused := ((he.others j hjp).state_iff .unused nofun nofun).mp hj
    simp [he.parent, hs.unused j hunused]
  embryo j q := hs.exits_embryo hrun hspot he
  copied j q halive hcopied := by
    have hqp : q ≠ p := by
      rintro rfl
      simp [Slot.Alive, he.self] at halive
    have hby := he.others q hqp
    have hmade := hs.copied j q (hby.alive.mp halive) (hby.pc ▸ hcopied)
    rw [he.parent, hmade, if_neg fun h => hqp (Option.some.inj h)]
  wait q := hs.exits_wait hrun he

end

end FamilyInv

/-- No process comes or goes. -/
theorem SerialInv.same {s s' : State} (hs : SerialInv s) (h : ∀ j, (s'.slots j).Occupied →
      (s.slots j).Occupied ∧ (s'.slots j).serial = (s.slots j).serial)
    (hforks : s'.forks = s.forks) (hreturned : s'.returned = s.returned) : SerialInv s' where
  fresh j hj := by
    obtain ⟨hj, hserial⟩ := h j hj
    rw [hforks, hreturned, hserial]
    exact hs.fresh j hj
  inj i j hi hj heq := by
    obtain ⟨hi, hiserial⟩ := h i hi
    obtain ⟨hj, hjserial⟩ := h j hj
    rw [hiserial, hjserial] at heq
    exact hs.inj i j hi hj heq
  bound := by
    rw [hforks, hreturned]
    exact hs.bound
  nodup := hreturned ▸ hs.nodup

/-- All invariants of the table. -/
structure TableInv (s : State) : Prop extends Inv s where
  family : FamilyInv s
  serial : SerialInv s

namespace TableInv

variable {s s' : State} {c p : ℕ}

section

variable (hs : TableInv s) (hinv : Inv s')
include hs hinv

theorem kin (h : ∀ q, (s.slots q).Kin (s'.slots q))
    (hforks : s'.forks = s.forks) (hreturned : s'.returned = s.returned) : TableInv s' :=
  ⟨hinv, hs.family.kin h,
    hs.serial.same (fun j hj => ⟨(h j).occupied.mp hj, (h j).serial⟩) hforks hreturned⟩

/-- A vacant slot stays vacant and without a parent; nothing else happens to families. -/
theorem vacant (hnp : np < nProc) (hbefore : (s.slots np).Vacant)
    (hafter : (s'.slots np).Vacant) (hparent : (s'.slots np).parent = none)
    (hmaker : ∀ q, (s.slots q).Alive → (s.slots q).pc.spot ≠ .copied np)
    (h : ∀ q ≠ np, (s.slots q).Kin (s'.slots q)) (hforks : s'.forks = s.forks)
    (hreturned : s'.returned = s.returned) : TableInv s' := by
  refine ⟨hinv, hs.family.vacant hnp hbefore hafter hparent hmaker h,
    hs.serial.same (fun j hj => ?_) hforks hreturned⟩
  have hkin := h j fun heq => hj.not_vacant (heq ▸ hafter)
  exact ⟨hkin.occupied.mp hj, hkin.serial⟩

/-- Only the slot of process `p` changes. -/
theorem kin_update {slot : Slot}
    (hslots : s'.slots = Function.update s.slots p slot) (h : (s.slots p).Kin slot)
    (hforks : s'.forks = s.forks) (hreturned : s'.returned = s.returned) : TableInv s' := by
  exact hs.kin hinv (State.rel_of_update .refl hslots h) hforks hreturned

omit hinv in
/-- A process that makes a call runs. -/
theorem alive_of_process (hfrom : (s.cpus c).loc = .process p) :
    (s.slots p).Alive :=
  .inr (.inr (hs.cpu.of_process hfrom).1)

theorem schedAcquire_step (h : s.schedAcquire c = some s') : TableInv s' := by
  unfold State.schedAcquire at h
  split at h
  · obtain rfl := Option.some.inj h
    exact hs.kin hinv (fun q => .refl _) rfl rfl
  · cases h

theorem schedTurn_step (h : s.schedTurn c = some s') : TableInv s' := by
  unfold State.schedTurn at h
  split at h
  · next k _ =>
    split at h
    · split at h
      · next hrunnable =>
        obtain rfl := Option.some.inj h
        exact hs.kin_update hinv rfl (.of_alive (.inr (.inl hrunnable)) (.inr (.inr rfl)) rfl rfl
          (fun _ => Iff.rfl) nofun) rfl rfl
      · obtain rfl := Option.some.inj h
        exact hs.kin hinv (fun q => .refl _) rfl rfl
    · obtain rfl := Option.some.inj h
      exact hs.kin hinv (fun q => .refl _) rfl rfl
  · cases h

theorem schedBack_step (h : s.schedBack c = some s') : TableInv s' := by
  unfold State.schedBack at h
  split at h
  · obtain rfl := Option.some.inj h
    exact hs.kin hinv (fun q => .refl _) rfl rfl
  · cases h

theorem yield_step (h : s.yield c = some s') : TableInv s' := by
  obtain ⟨p, hfrom, -, -, rfl⟩ := State.yield_eq_some h
  exact hs.kin_update hinv rfl (.of_alive (hs.alive_of_process hfrom) (.inr (.inl rfl)) rfl rfl
    (fun _ => Iff.rfl) nofun) rfl rfl

theorem sleep_step (h : s.sleep c chan = some s') : TableInv s' := by
  obtain ⟨p, hfrom, hpc, -, h⟩ := State.enter_eq_some h
  obtain rfl := Option.some.inj h
  exact hs.kin_update hinv rfl (.of_alive (hs.alive_of_process hfrom) (.inl rfl) rfl rfl
    (by simp [hpc, Pc.spot]) nofun) rfl rfl

theorem wakeup_step (h : s.wakeup chan = some s') : TableInv s' := by
  unfold State.wakeup at h
  split at h
  · obtain rfl := Option.some.inj h
    exact hs.kin hinv (State.wakeup1_kin s.slots chan) rfl rfl
  · cases h

theorem kill_step {pid : Int32} (h : s.kill c pid = some s') : TableInv s' := by
  obtain ⟨p, -, -, -, h⟩ := State.enter_eq_some h
  obtain rfl := Option.some.inj h
  refine hs.kin hinv (s.killSlots_kin pid) ?_ ?_
  · unfold State.killSlots
    split <;> rfl
  · unfold State.killSlots
    split <;> rfl

omit hinv in
/-- A process in `fork` goes on, seen from everyone but its embryo. -/
theorem kin_of_forking {np : ℕ} {pc : Pc} (hfrom : (s.cpus c).loc = .process p)
    (hp : s'.slots p = { s.slots p with pc := pc })
    (hcopied : ∀ j, pc.spot = .copied j ↔ (s.slots p).pc.spot = .copied j)
    (hold : ∀ q, q ≠ p → q ≠ np → s'.slots q = s.slots q) (q : ℕ) (hq : q ≠ np) :
    (s.slots q).Kin (s'.slots q) := by
  have hrun := (hs.cpu.of_process hfrom).1
  rcases eq_or_ne q p with rfl | hqp
  · rw [hp]
    exact .of_alive (hs.alive_of_process hfrom) (.inr (.inr hrun)) rfl rfl hcopied (by simp [hrun])
  · rw [hold q hqp hq]
    exact .refl _

theorem fork_step (h : s.fork c = some s') : TableInv s' := by
  obtain ⟨p, hfrom, hpc, -, h⟩ := State.enter_eq_some h
  have hrun := (hs.cpu.of_process hfrom).1
  split at h
  · obtain rfl := Option.some.inj h
    exact hs
  · next np hfind =>
    obtain ⟨hunused, hne⟩ := State.unused_of_freeSlot hfind hrun
    have hnp : np < nProc := List.mem_range.mp (List.mem_of_find?_eq_some hfind)
    have hs' := (Option.some.inj h).symm
    have hslots := congrArg State.slots hs'
    obtain ⟨hp', hnp', hold⟩ := State.slots_of_update_update hne hslots
    have hkin := hs.kin_of_forking hfrom hp' (by simp [hpc, Pc.spot]) hold
    have hnone : (s.slots np).parent = none := hs.family.unused np hunused
    refine hs.vacant hinv hnp (.inl hunused) (.inr (hnp' ▸ rfl)) (hnp' ▸ hnone)
      (fun q hq hqpc => ?_) hkin (hs' ▸ rfl) (hs' ▸ rfl)
    have hmade := hs.family.copied np q hq hqpc
    rw [hnone] at hmade
    cases hmade

omit hinv in
/-- The embryo of a process that has not copied itself yet belongs to nobody else. -/
theorem not_copied (hpc : (s.slots p).pc.spot = .embryo np) (q : ℕ) :
    (s.slots q).pc.spot ≠ .copied np := by
  intro hqpc
  obtain rfl := hs.fork.owner p q np (by rw [hpc]; rfl) (by rw [hqpc]; rfl)
  rw [hpc] at hqpc
  cases hqpc

omit hinv in
theorem parent_of_embryo (hpc : (s.slots p).pc.spot = .embryo np) : (s.slots np).parent = none := by
  have hembryo := hs.fork.embryo p np (by rw [hpc]; rfl)
  cases hparent : (s.slots np).parent with
  | none => rfl
  | some q => exact absurd (hs.family.embryo np q hembryo hparent).2 (hs.not_copied hpc q)

theorem forkFail_step (h : s.forkFail c = some s') : TableInv s' := by
  obtain ⟨p, np, hfrom, hpc, hs'⟩ := State.inFork_eq_some h
  have hspot : (s.slots p).pc.spot = .embryo np := by
    rw [hpc]
    rfl
  obtain ⟨-, hembryo, hp', hnp', hold⟩ :=
    hs.slots_of_forking hfrom (by rw [hspot]; rfl) (congrArg State.slots hs')
  have hkin := hs.kin_of_forking hfrom hp' (by simp [hpc, Pc.spot]) hold
  have hnone := hs.parent_of_embryo hspot
  exact hs.vacant hinv (hs.family.lt_of_used (by simp [hembryo])) (.inr hembryo) (.inl (hnp' ▸ rfl))
    (hnp' ▸ hnone) (fun q _ => hs.not_copied hspot q) hkin (hs' ▸ rfl) (hs' ▸ rfl)

theorem forkCopy_step (h : s.forkCopy c = some s') : TableInv s' := by
  obtain ⟨p, np, hfrom, hpc, hs'⟩ := State.inFork_eq_some h
  have hspot : (s.slots p).pc.spot = .embryo np := by
    rw [hpc]
    rfl
  obtain ⟨hrun, hembryo, hp', hnp', hold⟩ :=
    hs.slots_of_forking hfrom (by rw [hspot]; rfl) (congrArg State.slots hs')
  have hmaker := hs.not_copied hspot
  obtain ⟨h1, h2, h3, h4, h5, h6, h7⟩ := hs.family
  refine ⟨hinv, ?_, hs.serial.same (fun j hj => ?_) (hs' ▸ rfl) (hs' ▸ rfl)⟩
  · clear hs' h hs hinv
    constructor
    all_goals grind [Slot.Occupied, Slot.Alive, Pc.spot]
  · clear hs' h hs hinv
    grind [Slot.Occupied, Slot.Alive]

theorem forkRun_step (h : s.forkRun c = some s') : TableInv s' := by
  obtain ⟨p, np, hfrom, hpc, -, hs'⟩ := State.forkRun_eq_some h
  have hforkret := hs.fork.forkret p np (by rw [hpc]; rfl)
  obtain ⟨hrun, hembryo, hp', hnp', hold⟩ :=
    hs.slots_of_forking hfrom (by rw [hpc]; rfl) (congrArg State.slots hs')
  have hforks : s'.forks = s.forks + 1 := hs' ▸ rfl
  have hreturned : s'.returned = s.returned := hs' ▸ rfl
  refine ⟨hinv, ?_, ?_⟩
  · obtain ⟨h1, h2, h3, h4, h5, h6, h7⟩ := hs.family
    clear hs' h hs hinv
    constructor
    all_goals grind [Slot.Occupied, Slot.Alive, Pc.spot]
  · obtain ⟨h1, h2, h3, h4⟩ := hs.serial
    clear hs' h hs hinv
    constructor
    all_goals grind [Slot.Occupied, Slot.Alive]

theorem exit_step (h : s.exit c = some s') : TableInv s' := by
  obtain ⟨p, hfrom, hpc, hexits, hforks, hreturned⟩ := State.exit_eq_some h
  have hrun := (hs.cpu.of_process hfrom).1
  refine ⟨hinv, hs.family.exits hrun (by rw [hpc]; rfl) hexits,
    hs.serial.same (fun j hj => ⟨hexits.occupied hrun hj, ?_⟩) hforks hreturned⟩
  obtain ⟨st, parent, pc, hj'⟩ := hexits.same j
  rw [hj']

omit hinv in
/-- A `wait` that does not return a child has looked at all of them. -/
theorem waitScan_ne_reap (h : ∀ j, s.waitScan p ≠ .reap j) (hj : (s.slots j).parent = some p) :
    (s.slots j).state ≠ .zombie := by
  intro hzombie
  have hlt := hs.family.lt_of_used (j := j) (by simp [hzombie])
  unfold State.waitScan at h
  split at h
  · next i _ => exact h i rfl
  · next hfind =>
    have hno := List.find?_eq_none.mp hfind j (List.mem_range.mpr hlt)
    simp [hj, hzombie] at hno

/-- `wait` returns the child in slot `j`. -/
theorem reap_step {j : ℕ} (hrun : (s.slots p).state = .running)
    (hspot : (s.slots p).pc.spot = .user) (hzombie : (s.slots j).state = .zombie)
    (hp' : s'.slots p = { s.slots p with pc := .code .user })
    (hj' : (s'.slots j).state = .unused ∧ (s'.slots j).parent = none)
    (hold : ∀ q, q ≠ j → q ≠ p → s'.slots q = s.slots q) (hforks : s'.forks = s.forks)
    (hreturned : s'.returned = s.returned ++ [(s.slots j).serial]) : TableInv s' := by
  have hmaker : ∀ q, (s.slots q).pc.spot ≠ .copied j := by
    intro q hqpc
    rw [hs.fork.embryo q j (by rw [hqpc]; rfl)] at hzombie
    cases hzombie
  refine ⟨hinv, ?_, ?_⟩
  · obtain ⟨h1, h2, h3, h4, h5, h6, h7⟩ := hs.family
    clear hs hinv hforks hreturned
    constructor
    case parent =>
      intro i hi hinit
      have hij : i ≠ j := by
        rintro rfl
        exact hi.not_vacant (.inl hj'.1)
      have hsame : (s'.slots i).state = (s.slots i).state ∧
          (s'.slots i).parent = (s.slots i).parent := by
        grind
      obtain ⟨q, hiq, halive, hq⟩ := h3 i (by rwa [Slot.Occupied, Slot.Alive, ← hsame.1]) hinit
      -- a living parent is not the child that is gone
      exact ⟨q, hsame.2.trans hiq, by grind [Slot.Alive], hq⟩
    all_goals clear h3; grind [Slot.Occupied, Slot.Alive, Pc.spot]
  · obtain ⟨h1, h2, h3, h4⟩ := hs.serial
    clear hs hinv
    constructor
    all_goals grind [Slot.Occupied, Slot.Alive]

/-- A process goes to sleep in `wait`: it has no child to collect. -/
theorem waitSleep_step (hrun : (s.slots p).state = .running)
    (hspot : (s.slots p).pc.spot = .user)
    (hp' : s'.slots p = { s.slots p with chan := some (.proc p), state := .sleeping, pc := .wait })
    (hold : ∀ q ≠ p, s'.slots q = s.slots q) (hforks : s'.forks = s.forks)
    (hreturned : s'.returned = s.returned)
    (hchildren : ∀ j, (s.slots j).parent = some p → (s.slots j).state ≠ .zombie) :
    TableInv s' := by
  refine ⟨hinv, ?_, ?_⟩
  · obtain ⟨h1, h2, h3, h4, h5, h6, h7⟩ := hs.family
    clear hs hinv hforks hreturned
    constructor
    all_goals grind [Slot.Occupied, Slot.Alive, Pc.spot]
  · refine hs.serial.same (fun j hj => ?_) hforks hreturned
    clear hs hinv hforks hreturned
    grind [Slot.Occupied, Slot.Alive]

omit hinv in
/-- A turn of `wait`, with the lock just taken or handed over. -/
theorem waitTurn_step (hfrom : (s.cpus c).loc = .process p)
    (hlock : (s.lock = none ∧ (s.slots p).pc = .code .user) ∨ s.lock = some c)
    (hspot : (s.slots p).pc.spot = .user) : TableInv (s.waitTurn c p) := by
  have hinv := hs.toInv.waitTurn_step hfrom hlock hspot
  have hrun := (hs.cpu.of_process hfrom).1
  generalize ht : s.waitTurn c p = t at hinv ⊢
  unfold State.waitTurn at ht
  split at ht
  · next j hscan =>
    obtain ⟨-, -, hzombie⟩ := Inv.waitScan_reap hscan
    have hne := Inv.waitScan_ne hscan hrun
    have hslots := congrArg State.slots ht.symm
    obtain ⟨hj, hp, hold⟩ := State.slots_of_update_update hne hslots
    exact hs.reap_step hinv hrun hspot hzombie hp (hj ▸ ⟨rfl, rfl⟩) hold (ht ▸ rfl) (ht ▸ rfl)
  · subst ht
    exact hs.kin_update hinv rfl (.of_alive (hs.alive_of_process hfrom) (.inr (.inr hrun)) rfl rfl
      (fun _ => by rw [hspot]; exact Iff.rfl) (by simp [hrun])) rfl rfl
  · next hscan =>
    have hslots := congrArg State.slots ht.symm
    obtain ⟨hp, hold⟩ := State.slots_of_update hslots
    exact hs.waitSleep_step hinv hrun hspot hp hold (ht ▸ rfl) (ht ▸ rfl) fun j =>
      hs.waitScan_ne_reap (by simp [hscan])

omit hinv in
theorem wait_step (h : s.wait c = some s') : TableInv s' := by
  obtain ⟨p, hfrom, hpc, hlock, h⟩ := State.enter_eq_some h
  obtain rfl := Option.some.inj h
  exact hs.waitTurn_step hfrom (.inl ⟨hlock, hpc⟩) (hpc ▸ rfl)

omit hinv in
/-- `sleep` clears `chan` when it goes on. -/
theorem tidied (hfrom : (s.cpus c).loc = .process p) :
    TableInv (s.setSlot p { s.slots p with chan := none }) := by
  have hrun := (hs.cpu.of_process hfrom).1
  exact hs.kin_update (hs.tidy p) rfl (.of_alive (hs.alive_of_process hfrom) (.inr (.inr hrun)) rfl
    rfl (fun _ => Iff.rfl) (by simp [hrun])) rfl rfl

theorem resume_step (h : s.resume c = some s') : TableInv s' := by
  obtain ⟨p, hfrom, ⟨-, chan, rfl⟩ | ⟨hpc, rfl⟩⟩ := State.resume_eq_some h
  · have hrun := (hs.cpu.of_process hfrom).1
    exact hs.kin_update hinv rfl (.of_alive (hs.alive_of_process hfrom) (.inr (.inr hrun)) rfl rfl
      (fun _ => Iff.rfl) (by simp [hrun])) rfl rfl
  · have hlock := (hs.cpu.of_process hfrom).2.mpr (hpc ▸ trivial)
    refine (hs.tidied hfrom).waitTurn_step hfrom (.inr hlock) ?_
    rw [State.setSlot_slots_self]
    exact hpc ▸ rfl

omit hinv in
/-- **The step lemma.** -/
theorem step (h : Sched.step s e = some s') : TableInv s' := by
  have hinv := hs.toInv.step h
  cases e with
  | schedAcquire c => exact hs.schedAcquire_step hinv h
  | schedTurn c => exact hs.schedTurn_step hinv h
  | schedBack c => exact hs.schedBack_step hinv h
  | resume c => exact hs.resume_step hinv h
  | yield c => exact hs.yield_step hinv h
  | sleep c chan => exact hs.sleep_step hinv h
  | exit c => exact hs.exit_step hinv h
  | fork c => exact hs.fork_step hinv h
  | forkFail c => exact hs.forkFail_step hinv h
  | forkCopy c => exact hs.forkCopy_step hinv h
  | forkRun c => exact hs.forkRun_step hinv h
  | wait c => exact hs.wait_step h
  | wakeup chan => exact hs.wakeup_step hinv h
  | kill c pid => exact hs.kill_step hinv h

end

/-- A slot of the table behind `userinit`. -/
theorem boot_slots (hj : j ≠ initproc) : Sched.boot.slots j = Slot.zero := if_neg hj

theorem boot_occupied (hj : (Sched.boot.slots j).Occupied) : j = initproc := by
  by_contra hne
  rw [boot_slots hne] at hj
  exact hj.not_vacant (.inl rfl)

theorem boot : TableInv boot := by
  have hnone : ∀ j, (Sched.boot.slots j).parent = none := by
    intro j
    unfold Sched.boot
    dsimp only
    split <;> rfl
  have hcalm : ∀ j, (Sched.boot.slots j).pc.spot = .user ∧
      (Sched.boot.slots j).state ≠ .sleeping := by
    intro j
    unfold Sched.boot
    dsimp only
    split <;> exact ⟨rfl, nofun⟩
  refine ⟨Inv.boot, ⟨fun j hj => ?_, ⟨.inr (.inl rfl), hnone _⟩, fun j hj hne => ?_,
    fun j _ => hnone j,
    fun j q _ hj => ?_, fun j q _ hq => ?_, fun q hq => ?_⟩, ⟨fun j hj => ?_, fun i j hi hj _ => ?_,
    nofun, .nil⟩⟩
  · have hne : j ≠ initproc := by
      rintro rfl
      cases hj
    rw [boot_slots hne]
    rfl
  · exact absurd (boot_occupied hj) hne
  · rw [hnone] at hj
    cases hj
  · rw [(hcalm q).1] at hq
    cases hq
  · exact absurd hq (hcalm q).2
  · obtain rfl := boot_occupied hj
    exact ⟨Nat.one_pos, nofun⟩
  · rw [boot_occupied hi, boot_occupied hj]

/-- **The run lemma.** -/
theorem run {es : List Event} (h : Run.exec Sched.step Sched.boot es = some s) : TableInv s :=
  Run.exec_invariant (fun _ _ _ hs h => hs.step h) boot h

end TableInv

/-! ## What `wait` returns -/

/-- The process that is in `wait` in this step, and what its turn comes to. -/
def State.waitCall (s : State) : Event → Option (ℕ × State.WaitResult)
  | .wait c => (s.caller c).map fun p => (p, s.waitScan p)
  | .resume c =>
    match (s.cpus c).loc with
    | .process p => if (s.slots p).pc = .wait then some (p, s.waitScan p) else none
    | _ => none
  | _ => none

namespace State

variable {s s' : State} {c p : ℕ}

theorem waitCall_eq_some {r : WaitResult} (h : s.waitCall e = some (p, r)) : s.waitScan p = r := by
  unfold waitCall at h
  split at h
  · obtain ⟨q, -, hq⟩ := Option.map_eq_some_iff.mp h
    obtain ⟨rfl, rfl⟩ := Prod.mk.inj hq
    rfl
  · split at h
    · split at h
      · obtain ⟨rfl, rfl⟩ := Prod.mk.inj (Option.some.inj h)
        rfl
      · cases h
    · cases h
  · cases h

/-- Clearing `chan` is nothing to the scan of `wait`. -/
theorem waitScan_tidied (s : State) (p : ℕ) :
    (s.setSlot p { s.slots p with chan := none }).waitScan p = s.waitScan p := by
  have hparent : ∀ j, ((s.setSlot p { s.slots p with chan := none }).slots j).parent =
      (s.slots j).parent := by
    intro j
    rcases eq_or_ne j p with rfl | hne
    · rw [setSlot_slots_self]
    · rw [setSlot_slots_of_ne _ _ hne]
  have hstate : ∀ j, ((s.setSlot p { s.slots p with chan := none }).slots j).state =
      (s.slots j).state := by
    intro j
    rcases eq_or_ne j p with rfl | hne
    · rw [setSlot_slots_self]
    · rw [setSlot_slots_of_ne _ _ hne]
  simp [waitScan, hparent, hstate]

theorem waitTurn_counters (s : State) (c p : ℕ) :
    (s.waitTurn c p).nextpid = s.nextpid ∧ ((s.waitTurn c p).returned = s.returned ∨
      ∃ j, s.waitScan p = .reap j ∧ (s.waitTurn c p).returned =
      s.returned ++ [(s.slots j).serial]) := by
  unfold waitTurn
  split
  · next j hscan => exact ⟨rfl, .inr ⟨j, hscan, rfl⟩⟩
  · exact ⟨rfl, .inl rfl⟩
  · exact ⟨rfl, .inl rfl⟩

/-- Only `allocproc` takes a number, and only `wait` returns children. -/
structure Counted (s : State) (e : Event) (s' : State) : Prop where
  nextpid : (∀ c, e ≠ .fork c) → s'.nextpid = s.nextpid
  returned : s'.returned = s.returned ∨
    ∃ p j, s.waitCall e = some (p, .reap j) ∧ s'.returned = s.returned ++ [(s.slots j).serial]

theorem Counted.same (hnextpid : s'.nextpid = s.nextpid) (hreturned : s'.returned = s.returned) :
    s.Counted e s' :=
  ⟨fun _ => hnextpid, .inl hreturned⟩

theorem counted_step (h : step s e = some s') : s.Counted e s' := by
  cases e with
  | wait c =>
    obtain ⟨p, hloc, hpc, -, h⟩ := enter_eq_some h
    obtain rfl := Option.some.inj h
    obtain ⟨hnextpid, hreturned⟩ := s.waitTurn_counters c p
    refine ⟨fun _ => hnextpid, hreturned.imp_right ?_⟩
    rintro ⟨j, hscan, hreturned⟩
    exact ⟨p, j, by simp [waitCall, caller, hloc, hpc, hscan], hreturned⟩
  | resume c =>
    obtain ⟨p, hloc, ⟨-, chan, rfl⟩ | ⟨hpc, rfl⟩⟩ := resume_eq_some h
    · exact .same rfl rfl
    · obtain ⟨hnextpid, hreturned⟩ := waitTurn_counters _ c p
      refine ⟨fun _ => hnextpid, hreturned.imp_right ?_⟩
      rintro ⟨j, hscan, hreturned⟩
      rw [waitScan_tidied] at hscan
      refine ⟨p, j, by simp [waitCall, hloc, hpc, hscan], hreturned.trans ?_⟩
      rcases eq_or_ne j p with rfl | hne
      · rw [setSlot_slots_self]
        rfl
      · rw [setSlot_slots_of_ne _ _ hne]
        rfl
  | schedAcquire c | schedTurn c | schedBack c | wakeup chan =>
    simp only [step, schedAcquire, schedTurn, schedBack, wakeup] at h
    repeat' split at h
    all_goals cases h
    all_goals exact .same rfl rfl
  | yield c =>
    obtain ⟨p, -, -, -, rfl⟩ := yield_eq_some h
    exact .same rfl rfl
  | sleep c chan | exit c =>
    obtain ⟨p, -, -, -, h⟩ := enter_eq_some h
    repeat' split at h
    all_goals cases h
    all_goals exact .same rfl rfl
  | fork c =>
    obtain ⟨p, -, -, -, h⟩ := enter_eq_some h
    refine ⟨fun he => absurd rfl (he c), ?_⟩
    split at h <;> cases h <;> exact .inl rfl
  | forkFail c | forkCopy c =>
    obtain ⟨p, np, -, -, rfl⟩ := inFork_eq_some h
    exact .same rfl rfl
  | forkRun c =>
    obtain ⟨p, np, -, -, -, rfl⟩ := forkRun_eq_some h
    exact .same rfl rfl
  | kill c pid =>
    obtain ⟨p, -, -, -, h⟩ := enter_eq_some h
    cases h
    unfold killSlots
    split <;> exact .same rfl rfl

/-- `wait` fails for a process without children, and for one that was killed. -/
theorem waitScan_fail (h : s.waitScan p = .fail) :
    (∀ j < nProc, (s.slots j).parent ≠ some p) ∨ (s.slots p).killed = true := by
  unfold waitScan at h
  split at h
  · cases h
  · split at h
    · next hno =>
      refine hno.imp (fun hany j hj hparent => ?_) id
      have hj := List.any_eq_false.mp hany j (List.mem_range.mpr hj)
      simp [hparent] at hj
    · cases h

end State

/-- In every state that the system comes to, a process other than init has a living parent, nobody
sleeps in `wait` with a child that has exited, and no process was returned twice. In the next step,
a process is returned by the `wait` of its parent only, and `wait` fails only for a process without
children or one that was killed. -/
theorem exit_wait_run {es : List Event} {s : State} (h : Run.exec step boot es = some s) :
    (∀ j, (s.slots j).Occupied → j ≠ initproc → ∃ q, (s.slots j).parent = some q ∧
        (s.slots q).state ≠ .unused ∧ (s.slots q).state ≠ .zombie) ∧
      (∀ p, (s.slots p).state = .sleeping → (s.slots p).pc = .wait →
        ∀ j, (s.slots j).parent = some p → (s.slots j).state ≠ .zombie) ∧
      s.returned.Nodup ∧ (∀ j, (s.slots j).Occupied → (s.slots j).serial ∉ s.returned) ∧
      ∀ e s', step s e = some s' →
        (s'.returned = s.returned ∨ ∃ p j, s.waitCall e = some (p, .reap j) ∧
          (s.slots j).Occupied ∧ (s.slots j).parent = some p ∧
          s'.returned = s.returned ++ [(s.slots j).serial]) ∧
        ∀ p, s.waitCall e = some (p, .fail) →
          (∀ j, (s.slots j).parent ≠ some p) ∨ (s.slots p).killed = true := by
  have hs := TableInv.run h
  refine ⟨fun j hj hinit => ?_, fun p hp hpc => (hs.family.wait p hp hpc).2, hs.serial.nodup,
    fun j hj => (hs.serial.fresh j hj).2, fun e s' hstep => ⟨?_, fun p hcall => ?_⟩⟩
  · obtain ⟨q, hparent, halive, -⟩ := hs.family.parent j hj hinit
    refine ⟨q, hparent, fun hunused => ?_, fun hzombie => ?_⟩
    · exact Slot.Occupied.not_vacant (.inl halive) (.inl hunused)
    · simp [Slot.Alive, hzombie] at halive
  · refine (State.counted_step hstep).returned.imp_right ?_
    rintro ⟨p, j, hcall, hreturned⟩
    obtain ⟨-, hparent, hzombie⟩ := Inv.waitScan_reap (State.waitCall_eq_some hcall)
    exact ⟨p, j, hcall, .inr hzombie, hparent, hreturned⟩
  · refine (State.waitScan_fail (State.waitCall_eq_some hcall)).imp_left fun hno j => ?_
    rcases lt_or_ge j nProc with hj | hj
    · exact hno j hj
    · simp [hs.family.unused j (hs.family.table j hj)]

/-- init waits for the child that it has made. -/
theorem exit_wait_run_init : ∃ s, Run.exec step boot [.schedAcquire 0, .schedTurn 0, .resume 0,
      .fork 0, .forkCopy 0, .forkRun 0, .wait 0] = some s ∧
    (s.slots initproc).state = .sleeping ∧
    ∃ q, (s.slots 1).parent = some q ∧ (s.slots q).state ≠ .unused ∧ (s.slots q).state ≠ .zombie :=
  ⟨_, rfl, rfl, (exit_wait_run (rfl : Run.exec step boot [.schedAcquire 0, .schedTurn 0, .resume 0,
    .fork 0, .forkCopy 0, .forkRun 0, .wait 0] = some _)).1 1 (.inl (.inr (.inl rfl))) nofun⟩

end InuOs.Sched
