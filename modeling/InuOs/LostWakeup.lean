import InuOs.Wakeup

/-!
# No wakeup is lost

A process is *on its way* (`State.OnWay`) when it sleeps on `chan`, or is inside `sleep(chan, lk)`,
behind the `release` of `lk`. Such a process holds `ptable.lock` until it sleeps. So a thread that
has `lk` and gets through `wakeup(chan)` finds everyone who is on its way asleep, and nobody can set
out before it gives up `lk` again.
-/

namespace InuOs.Wakeup

open InuOs.Lock

variable {pc : Pc} {chan k p ch c : ℕ} {same held : Bool} {r : Parking}

namespace Pc

/-- The points at which a thread has `ptable.lock`. -/
def HasTable (same : Bool) : Pc → Prop
  | .crit => same = true
  | .wakeAcquire _ held => same = true ∧ held = true
  | .sleepAcquire _ own => same = true ∧ own = true
  | .wakeLoop .. | .wakeRelease _ | .killState _ | .killRelease | .yieldState | .yieldSched
  | .yieldRelease | .sleepRelease _ | .sleepChan .. | .sleepState .. | .sleepSched _ | .sleepTidy _
  | .sleepRelease2 _ | .schedLoop _ | .schedBack _ => True
  | _ => False

/-- The points at which a thread has `lk`, if that is not `ptable.lock`. -/
def HasLk (same : Bool) : Pc → Prop
  | .crit => same = false
  | .wakeAcquire _ held | .wakeLoop _ held _ | .wakeRelease held => same = false ∧ held = true
  | .sleepAcquire _ own => own = true
  | .sleepRelease _ => True
  | _ => False

/-- The points at which a thread that has `lk` may come to change `cond`. -/
def InSection : Pc → Prop
  | .crit => True
  | .wakeAcquire _ held | .wakeLoop _ held _ | .wakeRelease held => held = true
  | _ => False

/-- The points inside `sleep(chan, lk)` before `lk` is given up. -/
def Asks (chan : ℕ) : Pc → Prop
  | .sleepAcquire ch own => ch = chan ∧ own = true
  | .sleepRelease ch => ch = chan
  | _ => False

/-- The points inside `sleep(chan, lk)` between giving up `lk` and being asleep. -/
def SetsOut (chan : ℕ) : Pc → Prop
  | .sleepChan ch _ | .sleepState ch _ => ch = chan
  | _ => False

/-- The slot that the `wakeup(chan)` of a thread with `lk` has come to. -/
def scan (chan : ℕ) : Pc → Option ℕ
  | .wakeLoop ch held k => if ch = chan ∧ held = true then some k else none
  | _ => none

theorem scan_eq_some (h : pc.scan chan = some k) : pc = .wakeLoop chan true k := by
  unfold scan at h
  split at h
  · split at h
    · next hscan =>
      obtain ⟨rfl, rfl⟩ := hscan
      obtain rfl := Option.some.inj h
      rfl
    · cases h
  · cases h

@[simp] theorem scan_wakeLoop (chan k : ℕ) : (wakeLoop chan true k).scan chan = some k :=
  if_pos ⟨rfl, rfl⟩

/-- The points at which a process is not on a CPU. -/
def IsParked : Pc → Prop
  | .parked _ => True
  | _ => False

/-- The points at which a process is not `RUNNING`, or need not be. -/
def Gone : Pc → Prop
  | .parked _ | .yieldSched | .sleepSched _ => True
  | _ => False

/-- The points at which a scheduler has switched to a process. -/
def IsAway : Pc → Prop
  | .schedAway _ => True
  | _ => False

theorem Gone.hasTable (h : pc.Gone) (hp : ¬ pc.IsParked) : pc.HasTable same := by
  cases pc <;> simp_all [Gone, IsParked, HasTable]

theorem Gone.not_inSection (h : pc.Gone) : ¬ pc.InSection := by
  cases pc <;> simp_all [Gone, InSection]

theorem IsParked.gone (h : pc.IsParked) : pc.Gone := by
  cases pc <;> simp_all [Gone, IsParked]

/-- The points that have to do neither with `lk` nor with going to sleep. -/
def Aside : Pc → Prop
  | .out | .killAcquire _ | .killState _ | .killRelease | .yieldAcquire | .yieldState
  | .yieldRelease | .sleepRelease2 _ | .sleepAcquire2 | .schedAcquire | .schedLoop _
  | .schedBack _ => True
  | _ => False

/-- The points that are reached: nobody goes to sleep on `chan` without `lk`, and `wakeup1` is
called for `wakeup` where `lk` is `ptable.lock`. -/
def Fits (C : Config) : Pc → Prop
  | .sleepAcquire ch own => own = false → ch ≠ C.chan
  | .wakeRelease held => held = true → C.same = false
  | _ => True

/-- `lk` or `ptable.lock`, whichever `lk` is. -/
def HasOwn (same : Bool) (pc : Pc) : Prop := if same then pc.HasTable same else pc.HasLk same

theorem InSection.hasOwn (h : pc.InSection) : pc.HasOwn same := by
  cases same <;> cases pc <;> simp_all [InSection, HasOwn, HasTable, HasLk]

theorem Asks.hasOwn (h : pc.Asks chan) : pc.HasOwn same := by
  cases same <;> cases pc <;> simp_all [Asks, HasOwn, HasTable, HasLk]

theorem SetsOut.hasTable (h : pc.SetsOut chan) : pc.HasTable same := by
  cases pc <;> simp_all [SetsOut, HasTable]

theorem Aside.not_hasLk (h : pc.Aside) : ¬ pc.HasLk same := by
  cases pc <;> simp_all [Aside, HasLk]

theorem Aside.scan_ne (h : pc.Aside) : pc.scan chan ≠ some k := by
  cases pc <;> simp_all [Aside, scan]

end Pc

/-- Process `p` sleeps on `chan`, or is about to. -/
def State.OnWay (C : Config) (s : State) (p : ℕ) : Prop :=
  ((s.slots p).state = .sleeping ∧ (s.slots p).chan = some C.chan) ∨
    (s.pc (.proc p)).SetsOut C.chan

/-- What holds of the threads, the table and the locks between any two steps. -/
structure Base (C : Config) (s : State) : Prop where
  ptable : Guards (Pc.HasTable C.same) s.pc s.ptable
  lk : Guards (Pc.HasLk C.same) s.pc s.lk
  fits : ∀ t, (s.pc t).Fits C
  chan : ∀ p ch own, s.pc (.proc p) = .sleepState ch own → (s.slots p).chan = some ch
  table : ∀ p, C.n ≤ p → (s.slots p).state = .unused ∧ (s.pc (.proc p)).IsParked
  running : ∀ p, ¬ (s.pc (.proc p)).Gone → (s.slots p).state = .running
  away : ∀ p, ¬ (s.pc (.proc p)).IsParked → s.pc (.sched (s.cpu p)) = .schedAway p

/-- What holds of `cond` and `wakeup` between any two steps. -/
structure Inv (C : Config) (s : State) : Prop extends Base C s where
  /-- a thread that owes a `wakeup`, or has made one, is still at it -/
  holder : s.made = true ∨ s.woke = true → ∃ t, (s.pc t).InSection
  scan : ∀ t k, (s.pc t).scan C.chan = some k → ∀ p, s.OnWay C p → k ≤ p
  woke : s.woke = true → ∀ p, ¬ s.OnWay C p
  owed : ∀ p, s.OnWay C p → s.cond = true → s.made = true
  asks : ∀ t, (s.pc t).Asks C.chan → s.cond = false

variable {C : Config} {s s' : State} {t u : Thread} {a b : Pc}

/-- A step of thread `t` changes no slot but its own, other than from `SLEEPING` to `RUNNABLE`. -/
def SlotsTurn (t : Thread) (s s' : State) : Prop :=
  ∀ q, State.Woken (s.slots q) (s'.slots q) ∨ t = .proc q

theorem SlotsTurn.of_eq (h : s'.slots = s.slots) : SlotsTurn t s s' :=
  fun _ => .inl (.inl (h ▸ rfl))

/-- One thread goes on and its process, if it has one, stays on its CPU. -/
structure Goes (C : Config) (t : Thread) (a b : Pc) (s s' : State) : Prop where
  before : s.pc t = a
  after : s'.pc = Function.update s.pc t b
  cpu : s'.cpu = s.cpu
  stays : ¬ a.Gone ∧ ¬ a.IsAway ∧ ¬ b.IsParked
  ptable : Turn t (a.HasTable C.same) (b.HasTable C.same) s.ptable s'.ptable
  lk : Turn t (a.HasLk C.same) (b.HasLk C.same) s.lk s'.lk
  slots : SlotsTurn t s s'
  state : ∀ p, t = .proc p → ¬ b.Gone → (s'.slots p).state = (s.slots p).state
  chan : ∀ p ch own, t = .proc p → b = .sleepState ch own → (s'.slots p).chan = some ch
  fits : b.Fits C

namespace Goes

theorem pc_self (h : Goes C t a b s s') : s'.pc t = b := h.after ▸ Function.update_self ..

theorem pc_of_ne (h : Goes C t a b s s') (hne : u ≠ t) : s'.pc u = s.pc u :=
  h.after ▸ Function.update_of_ne hne ..

end Goes

namespace Base

theorem goes (hs : Base C s) (h : Goes C t a b s s') : Base C s' where
  ptable := hs.ptable.turn h.after (h.before ▸ h.ptable)
  lk := hs.lk.turn h.after (h.before ▸ h.lk)
  fits u := by
    rcases eq_or_ne u t with rfl | hne
    · exact h.pc_self ▸ h.fits
    · exact h.pc_of_ne hne ▸ hs.fits u
  chan p ch own hp := by
    rcases eq_or_ne (.proc p) t with rfl | hne
    · exact h.chan p ch own rfl (h.pc_self ▸ hp)
    · have hchan := hs.chan p ch own (h.pc_of_ne hne ▸ hp)
      rcases h.slots p with (hp | ⟨-, hp⟩) | hp
      · rw [hp, hchan]
      · rw [hp, hchan]
      · exact absurd hp.symm hne
  table p hp := by
    obtain ⟨hunused, hparked⟩ := hs.table p hp
    have hne : .proc p ≠ t := by
      rintro rfl
      exact h.stays.1 (h.before ▸ hparked.gone)
    refine ⟨?_, h.pc_of_ne hne ▸ hparked⟩
    rcases h.slots p with (hp | ⟨hsleep, -⟩) | hp
    · rw [hp, hunused]
    · rw [hunused] at hsleep
      cases hsleep
    · exact absurd hp.symm hne
  running p hp := by
    rcases eq_or_ne (.proc p) t with rfl | hne
    · rw [h.state p rfl (h.pc_self ▸ hp)]
      exact hs.running p (h.before ▸ h.stays.1)
    · have hrun := hs.running p (h.pc_of_ne hne ▸ hp)
      rcases h.slots p with (hp | ⟨hsleep, -⟩) | hp
      · rw [hp, hrun]
      · rw [hrun] at hsleep
        cases hsleep
      · exact absurd hp.symm hne
  away p hp := by
    have hbefore : ¬ (s.pc (.proc p)).IsParked := by
      rcases eq_or_ne (.proc p) t with rfl | hne
      · exact fun hparked => h.stays.1 (h.before ▸ hparked.gone)
      · exact h.pc_of_ne hne ▸ hp
    have haway := hs.away p hbefore
    rw [h.cpu, h.pc_of_ne, haway]
    rintro rfl
    exact h.stays.2.1 (h.before ▸ haway ▸ trivial)

end Base

namespace Inv

/-- Only a process that goes on itself can come on its way. -/
theorem onWay_of_goes (h : Goes C t a b s s') (hp : t ≠ .proc p) (hway : s'.OnWay C p) :
    s.OnWay C p := by
  rcases hway with ⟨hstate, hchan⟩ | hsets
  · rcases h.slots p with (heq | ⟨-, heq⟩) | heq
    · exact .inl (heq ▸ ⟨hstate, hchan⟩)
    · rw [heq] at hstate
      cases hstate
    · exact absurd heq hp
  · exact .inr (h.pc_of_ne (Ne.symm hp) ▸ hsets)

/-- Nothing happens to `cond`, and nobody sets out. -/
theorem frame (hs : Inv C s) (hbase : Base C s') (hcond : s'.cond = s.cond)
    (hmade : s'.made = s.made) (hwoke : s'.woke = s.woke)
    (hway : ∀ p, s'.OnWay C p → s.OnWay C p)
    (hpc : ∀ t, s'.pc t = s.pc t ∨ (((s.pc t).InSection → (s'.pc t).InSection) ∧
      (∀ k, (s'.pc t).scan C.chan = some k → ∀ p, s.OnWay C p → s'.OnWay C p → k ≤ p) ∧
      ((s'.pc t).Asks C.chan → s.cond = false))) : Inv C s' where
  toBase := hbase
  holder h := by
    rw [hmade, hwoke] at h
    obtain ⟨t, ht⟩ := hs.holder h
    rcases hpc t with heq | ⟨hsection, -⟩
    · exact ⟨t, heq ▸ ht⟩
    · exact ⟨t, hsection ht⟩
  scan t k hk p hp := by
    rcases hpc t with heq | ⟨-, hscan, -⟩
    · exact hs.scan t k (heq ▸ hk) p (hway p hp)
    · exact hscan k hk p (hway p hp) hp
  woke h p hp := hs.woke (hwoke ▸ h) p (hway p hp)
  owed p hp h := by
    rw [hmade]
    exact hs.owed p (hway p hp) (hcond ▸ h)
  asks t ht := by
    rw [hcond]
    rcases hpc t with heq | ⟨-, -, hasks⟩
    · exact hs.asks t (heq ▸ ht)
    · exact hasks ht

/-- A thread goes on, nothing happens to `cond`, and nobody sets out. -/
theorem goes (hs : Inv C s) (h : Goes C t a b s s') (hcond : s'.cond = s.cond)
    (hmade : s'.made = s.made) (hwoke : s'.woke = s.woke)
    (hway : ∀ p, t = .proc p → s'.OnWay C p → s.OnWay C p) (hsection : a.InSection → b.InSection)
    (hscan : ∀ k, b.scan C.chan = some k → ∀ p, s.OnWay C p → s'.OnWay C p → k ≤ p)
    (hasks : b.Asks C.chan → s.cond = false) : Inv C s' := by
  refine hs.frame (hs.toBase.goes h) hcond hmade hwoke (fun p hp => ?_) fun u => ?_
  · by_cases ht : t = .proc p
    · exact hway p ht hp
    · exact onWay_of_goes h ht hp
  · rcases eq_or_ne u t with rfl | hne
    · rw [h.pc_self, h.before]
      exact .inr ⟨hsection, hscan, hasks⟩
    · exact .inl (h.pc_of_ne hne)

end Inv

/-- The way from `a` to `b` is none into `sleep`, out of it, or out of the section. -/
structure Pc.Plain (C : Config) (a b : Pc) : Prop where
  stays : ¬ a.Gone ∧ ¬ a.IsAway ∧ ¬ b.IsParked := by exact ⟨nofun, nofun, nofun⟩
  inSection : a.InSection → b.InSection := by nofun
  asks : b.Asks C.chan → a.Asks C.chan := by nofun
  setsOut : b.SetsOut C.chan → a.SetsOut C.chan := by nofun
  noState : ∀ ch own, b ≠ .sleepState ch own := by nofun
  fits : b.Fits C := by trivial

theorem Pc.Aside.to (ha : a.Aside) (hgone : ¬ b.Gone) (hasks : ¬ b.Asks C.chan)
    (hsets : ¬ b.SetsOut C.chan) (hstate : ∀ ch own, b ≠ .sleepState ch own) (hfits : b.Fits C) :
    a.Plain C b := by
  have hout : ¬ a.Gone ∧ ¬ a.IsAway ∧ ¬ a.InSection := by
    cases a <;> simp_all [Aside, Gone, IsAway, InSection]
  exact ⟨⟨hout.1, hout.2.1, fun h => hgone h.gone⟩, fun h => absurd h hout.2.2,
    fun h => absurd h hasks, fun h => absurd h hsets, hstate, hfits⟩

theorem Pc.Aside.plain (ha : a.Aside) (hb : b.Aside) : a.Plain C b := by
  have hout : ¬ b.Gone ∧ ¬ b.Asks C.chan ∧ ¬ b.SetsOut C.chan ∧ (∀ ch own, b ≠ .sleepState ch own) ∧
      b.Fits C := by
    cases b <;> simp_all [Aside, Gone, Asks, SetsOut, Fits]
  exact ha.to hout.1 hout.2.1 hout.2.2.1 hout.2.2.2.1 hout.2.2.2.2

namespace Inv

/-- A thread goes on, and at most wakes up processes. -/
theorem plain (hs : Inv C s) (hplain : a.Plain C b) (hbefore : s.pc t = a)
    (hafter : s'.pc = Function.update s.pc t b) (hcpu : s'.cpu = s.cpu)
    (hptable : Turn t (a.HasTable C.same) (b.HasTable C.same) s.ptable s'.ptable)
    (hlk : Turn t (a.HasLk C.same) (b.HasLk C.same) s.lk s'.lk)
    (hslots : ∀ q, State.Woken (s.slots q) (s'.slots q))
    (hcond : s'.cond = s.cond) (hmade : s'.made = s.made) (hwoke : s'.woke = s.woke)
    (hscan : ∀ k, b.scan C.chan = some k → ∀ p, s.OnWay C p → s'.OnWay C p → k ≤ p) :
    Inv C s' := by
  have hgoes : Goes C t a b s s' := by
    refine ⟨hbefore, hafter, hcpu, hplain.stays, hptable, hlk, fun q => .inl (hslots q),
      fun p hp _ => ?_, fun p ch own _ hb => absurd hb (hplain.noState ch own), hplain.fits⟩
    rcases hslots p with h | ⟨hsleep, -⟩
    · rw [h]
    · subst hp
      rw [hs.running p (hbefore ▸ hplain.stays.1)] at hsleep
      cases hsleep
  refine hs.goes hgoes hcond hmade hwoke (fun p hp hway => ?_) hplain.inSection hscan
    fun hb => hs.asks t (hbefore ▸ hplain.asks hb)
  subst hp
  rcases hway with ⟨hstate, hchan⟩ | hsets
  · rcases hslots p with h | ⟨-, h⟩
    · exact .inl (h ▸ ⟨hstate, hchan⟩)
    · rw [h] at hstate
      cases hstate
  · rw [hgoes.pc_self] at hsets
    exact .inr (hbefore ▸ hplain.setsOut hsets)

/-- A thread goes on, and that is all. -/
theorem goto (hs : Inv C s) (hplain : a.Plain C b) (hbefore : s.pc t = a)
    (hptable : b.HasTable C.same → a.HasTable C.same) (hlk : b.HasLk C.same → a.HasLk C.same)
    (hscan : ∀ k, b.scan C.chan = some k → k = 0) : Inv C (s.goto t b) :=
  hs.plain hplain hbefore rfl rfl (.keep _ hptable) (.keep _ hlk) (fun _ => .inl rfl) rfl rfl rfl
    fun k hk p _ _ => by rw [hscan k hk]; exact Nat.zero_le p

/-- A thread takes `ptable.lock`. -/
theorem take (hs : Inv C s) (h : s.take t b = some s') (hplain : a.Plain C b)
    (hbefore : s.pc t = a) (hlk : b.HasLk C.same → a.HasLk C.same)
    (hscan : ∀ k, b.scan C.chan = some k → k = 0) : Inv C s' := by
  unfold State.take at h
  split at h
  · next hfree =>
    obtain rfl := Option.some.inj h
    exact hs.plain hplain hbefore rfl rfl (hfree ▸ .acquire) (.keep _ hlk)
      (fun _ => .inl rfl) rfl rfl
      rfl fun k hk p _ _ => by rw [hscan k hk]; exact Nat.zero_le p
  · cases h

/-- A thread gives `ptable.lock` back. -/
theorem drop (hs : Inv C s) (hplain : a.Plain C b) (hbefore : s.pc t = a)
    (hhas : a.HasTable C.same) (hnot : ¬ b.HasTable C.same) (hlk : b.HasLk C.same → a.HasLk C.same)
    (hscan : ∀ k, b.scan C.chan ≠ some k) : Inv C (s.drop t b) :=
  hs.plain hplain hbefore rfl rfl (.release _ hhas hnot) (.keep _ hlk)
  (fun _ => .inl rfl) rfl rfl rfl
    fun k hk => absurd hk (hscan k)

/-- A thread takes `lk`. -/
theorem takeLk (hs : Inv C s) (hbefore : s.pc t = a) (ha : a.Aside)
    (h : s.takeLk C t .crit = some s') : Inv C s' := by
  have hplain : a.Plain C .crit := ha.to nofun nofun nofun nofun trivial
  unfold State.takeLk at h
  split at h
  · next hsame => exact hs.take h hplain hbefore (by simp [Pc.HasLk, hsame]) nofun
  · next hsame =>
    split at h
    · next hfree =>
      obtain rfl := Option.some.inj h
      exact hs.plain hplain hbefore rfl rfl (.keep _ (by simp [Pc.HasTable, hsame]))
        (hfree ▸ .acquire) (fun _ => .inl rfl) rfl rfl rfl nofun
    · cases h

section Aside

variable (hs : Inv C s) (hpc : s.pc t = a) (ha : a.Aside)
include hs hpc ha

/-- A thread goes from one point to another, and neither concerns `lk` or `chan`. -/
theorem goto_aside (hb : b.Aside) (hptable : b.HasTable C.same → a.HasTable C.same) :
    Inv C (s.goto t b) :=
  hs.goto (ha.plain hb) hpc hptable (fun h => absurd h hb.not_hasLk) fun _ hk =>
  absurd hk hb.scan_ne

theorem take_aside (h : s.take t b = some s') (hb : b.Aside) : Inv C s' :=
  hs.take h (ha.plain hb) hpc (fun h => absurd h hb.not_hasLk) fun _ hk => absurd hk hb.scan_ne

theorem drop_aside (hb : b.Aside) (hhas : a.HasTable C.same) (hnot : ¬ b.HasTable C.same) :
    Inv C (s.drop t b) :=
  hs.drop (ha.plain hb) hpc hhas hnot (fun h => absurd h hb.not_hasLk) fun _ => hb.scan_ne

end Aside

/-- The lock that `lk` is has one owner. -/
theorem own_unique (hs : Base C s) (ht : (s.pc t).HasOwn C.same) (hu : (s.pc u).HasOwn C.same) :
    t = u := by
  unfold Pc.HasOwn at ht hu
  split at ht
  · next hsame =>
    rw [if_pos hsame] at hu
    exact hs.ptable.unique ht hu
  · next hsame =>
    rw [if_neg hsame] at hu
    exact hs.lk.unique ht hu

/-- A thread with `lk` changes `cond`. -/
theorem assign (hs : Inv C s) (hcrit : s.pc t = .crit) (v : Bool) :
    Inv C { s with cond := v, made := s.made || v } := { hs with
  toBase := ⟨hs.ptable, hs.lk, hs.fits, hs.chan, hs.table, hs.running, hs.away⟩
  holder _ := ⟨t, hcrit ▸ trivial⟩
  owed p _ h := by simp [show v = true from h]
  asks u hu := by
    -- whoever asks has `lk` as well
    have hsection : (s.pc t).InSection := hcrit ▸ trivial
    obtain rfl := own_unique hs.toBase hsection.hasOwn (Pc.Asks.hasOwn hu)
    rw [hcrit] at hu
    exact hu.elim }

/-- A thread that may give up `lk` leaves nobody behind. -/
theorem not_cond (hs : Inv C s) (hleave : s.CanLeave) (hway : s.OnWay C p) : s.cond = false := by
  by_contra hcond
  have hmade := hs.owed p hway (by simpa using hcond)
  exact hs.woke (hleave hmade) p hway

/-- A thread with `lk` is going to give it up. -/
theorem leave (hs : Inv C s) (h : Goes C t .crit b s s') (hleave : s.CanLeave)
    (hcond : s'.cond = s.cond) (hmade : s'.made = false) (hwoke : s'.woke = false)
    (hway : ∀ p, t = .proc p → s'.OnWay C p → s.OnWay C p ∨ s.cond = false)
    (hscan : ∀ k, b.scan C.chan ≠ some k) (hasks : b.Asks C.chan → s.cond = false) : Inv C s' where
  toBase := hs.toBase.goes h
  holder hflags := by simp [hmade, hwoke] at hflags
  scan u k hk p hp := by
    rcases eq_or_ne u t with rfl | hne
    · exact absurd (h.pc_self ▸ hk) (hscan k)
    · rw [h.pc_of_ne hne] at hk
      -- a thread in `wakeup` that has `lk` is no other
      have hu : (s.pc u).InSection := by
        rw [Pc.scan_eq_some hk]
        rfl
      have ht : (s.pc t).InSection := h.before ▸ trivial
      exact absurd (own_unique hs.toBase hu.hasOwn ht.hasOwn) hne
  woke hflag := by
    rw [hwoke] at hflag
    cases hflag
  owed p hp htrue := by
    rw [hcond] at htrue
    have hfalse : s.cond = false := by
      by_cases ht : t = .proc p
      · rcases hway p ht hp with hp | hfalse
        · exact hs.not_cond hleave hp
        · exact hfalse
      · exact hs.not_cond hleave (onWay_of_goes h ht hp)
    rw [hfalse] at htrue
    cases htrue
  asks u hu := by
    rw [hcond]
    rcases eq_or_ne u t with rfl | hne
    · exact hasks (h.pc_self ▸ hu)
    · exact hs.asks u (h.pc_of_ne hne ▸ hu)

theorem release_step (hs : Inv C s) (hcrit : s.pc t = .crit) (hleave : s.CanLeave) :
    Inv C (s.forget.dropLk C t .out) := by
  have hgoes : Goes C t .crit .out s (s.forget.dropLk C t .out) := by
    unfold State.dropLk
    split
    · next hsame =>
      exact ⟨hcrit, rfl, rfl, ⟨nofun, nofun, nofun⟩, .release _ hsame nofun,
        .keep _ nofun, .of_eq rfl, fun _ _ _ => rfl, nofun, trivial⟩
    · next hsame =>
      exact ⟨hcrit, rfl, rfl, ⟨nofun, nofun, nofun⟩, .keep _ nofun,
        .release _ (by simpa [Pc.HasLk] using hsame) nofun, .of_eq rfl,
        fun _ _ _ => rfl, nofun, trivial⟩
  refine hs.leave hgoes hleave ?_ ?_ ?_ (fun p hp hway => .inl ?_) nofun nofun
  · unfold State.dropLk
    split <;> rfl
  · unfold State.dropLk
    split <;> rfl
  · unfold State.dropLk
    split <;> rfl
  · subst hp
    rcases hway with hway | hsets
    · refine .inl ?_
      unfold State.dropLk at hway
      split at hway <;> exact hway
    · rw [hgoes.pc_self] at hsets
      exact hsets.elim

theorem sleep_step (hs : Inv C s) (hcrit : s.pc (.proc p) = .crit) (hsleep : s.CanSleep C ch) :
    Inv C (s.forget.goto (.proc p)
      (if C.same then .sleepChan ch true else .sleepAcquire ch true)) := by
  split
  · next hsame =>
    have hgoes : Goes C (.proc p) .crit (.sleepChan ch true) s
        (s.forget.goto (.proc p) (.sleepChan ch true)) :=
      ⟨hcrit, rfl, rfl, ⟨nofun, nofun, nofun⟩, .keep _ fun _ => hsame, .keep _ nofun, .of_eq rfl,
        fun _ _ _ => rfl, nofun, trivial⟩
    refine hs.leave hgoes hsleep.1 rfl rfl rfl (fun q hq hway => ?_) nofun nofun
    obtain rfl := Thread.proc.inj hq
    rcases hway with hway | hsets
    · exact .inl (.inl hway)
    · rw [hgoes.pc_self] at hsets
      exact .inr (hsleep.2 hsets)
  · next hsame =>
    have hnot : C.same = false := by simpa using hsame
    have hgoes : Goes C (.proc p) .crit (.sleepAcquire ch true) s
        (s.forget.goto (.proc p) (.sleepAcquire ch true)) :=
      ⟨hcrit, rfl, rfl, ⟨nofun, nofun, nofun⟩, .keep _ fun h => h.1, .keep _ fun _ =>
        hnot, .of_eq rfl, fun _ _ _ => rfl, nofun, nofun⟩
    refine hs.leave hgoes hsleep.1 rfl rfl rfl (fun q hq hway => ?_) nofun fun hasks =>
      hsleep.2 hasks.1
    obtain rfl := Thread.proc.inj hq
    rcases hway with hway | hsets
    · exact .inl (.inl hway)
    · rw [hgoes.pc_self] at hsets
      exact hsets.elim

theorem exit_step (hs : Inv C s) (hcrit : s.pc (.proc p) = .crit) (hsame : C.same = true)
    (hleave : s.CanLeave) : Inv C ((s.forget.setState p .zombie).goto (.proc p) .yieldSched) := by
  have hgoes : Goes C (.proc p) .crit .yieldSched s
      ((s.forget.setState p .zombie).goto (.proc p) .yieldSched) := by
    refine ⟨hcrit, rfl, rfl, ⟨nofun, nofun, nofun⟩, .keep _ fun _ => hsame, .keep _ nofun,
      fun q => ?_, fun _ _ h => absurd trivial h, nofun, trivial⟩
    rcases eq_or_ne q p with rfl | hne
    · exact .inr rfl
    · exact .inl (.inl (Function.update_of_ne hne ..))
  refine hs.leave hgoes hleave rfl rfl rfl (fun q hq hway => ?_) nofun nofun
  obtain rfl := Thread.proc.inj hq
  rcases hway with ⟨hstate, -⟩ | hsets
  · have hzombie := congrArg Slot.state (s.forget.setState_slots_self p .zombie)
    exact absurd (hstate.symm.trans hzombie) nofun
  · rw [hgoes.pc_self] at hsets
    exact hsets.elim

/-! ## `wakeup` and `kill` -/

theorem wakeLoop_step (hs : Inv C s) (hpc : s.pc t = .wakeLoop ch held k) :
    Inv C ((s.wake ch k).goto t (.wakeLoop ch held (k + 1))) := by
  obtain ⟨slots, heq⟩ := s.wake_eq ch k
  have hwoken := s.wake_woken ch k
  have hout := s.not_sleeping_wake ch k
  rw [heq] at hwoken hout ⊢
  have hplain : (Pc.wakeLoop ch held k).Plain C (.wakeLoop ch held (k + 1)) := { inSection := id }
  refine hs.plain hplain hpc rfl rfl (.keep _ id) (.keep _ id) hwoken rfl rfl rfl
    fun i hi p hp hp' => ?_
  obtain ⟨rfl, rfl, rfl⟩ := Pc.wakeLoop.inj (Pc.scan_eq_some hi)
  have hle := hs.scan t k (by rw [hpc, Pc.scan_wakeLoop]) p hp
  refine lt_of_le_of_ne hle ?_
  -- the slot that was just looked at: its process does not sleep, nor does it set out
  rintro rfl
  rcases hp' with hsleep | hsets
  · exact hout hsleep
  · rcases eq_or_ne (.proc k) t with rfl | hne
    · rw [State.goto_pc_self] at hsets
      exact hsets.elim
    · rw [State.goto_pc_of_ne _ _ hne] at hsets
      exact hne (hs.ptable.unique hsets.hasTable (hpc ▸ trivial))

/-- The thread with `lk` has called `wakeup(chan)`. -/
theorem setWoke (hs : Inv C s) {v : Bool}
    (h : v = true → (∃ t, (s.pc t).InSection) ∧ ∀ p, ¬ s.OnWay C p) :
    Inv C { s with woke := s.woke || v } := { hs with
  toBase := ⟨hs.ptable, hs.lk, hs.fits, hs.chan, hs.table, hs.running, hs.away⟩
  holder hflags := by
    cases v with
    | true => exact (h rfl).1
    | false => exact hs.holder (by simpa using hflags)
  woke hflag := by
    cases v with
    | true => exact (h rfl).2
    | false => exact hs.woke (by simpa using hflag) }

/-- There is nobody on its way outside of the table. -/
theorem lt_of_onWay (hs : Inv C s) (hp : s.OnWay C p) : p < C.n := by
  by_contra hle
  obtain ⟨hunused, hparked⟩ := hs.table p (by omega)
  rcases hp with ⟨hsleep, -⟩ | hsets
  · rw [hunused] at hsleep
    cases hsleep
  · cases hpc : s.pc (.proc p) <;> rw [hpc] at hsets hparked <;>
      first | exact hsets.elim | exact hparked.elim

/-- `wakeup1` has been through the table. -/
theorem wakeDone_step (hs : Inv C s) (hpc : s.pc t = .wakeLoop ch held k) (hk : C.n ≤ k) :
    Inv C { s.goto t (if held && C.same then .crit else .wakeRelease held) with
      woke := s.woke || (held && ch == C.chan) } := by
  set b : Pc := if held && C.same then .crit else .wakeRelease held with hb
  have hcases : (b = .crit ∧ held = true ∧ C.same = true) ∨
      (b = .wakeRelease held ∧ (held = true → C.same = false)) := by
    rw [hb]
    split
    · next h => exact .inl ⟨rfl, by simpa using h⟩
    · next h => exact .inr ⟨rfl, by simpa using h⟩
  have hsection : (Pc.wakeLoop ch held k).InSection → b.InSection := by
    rcases hcases with ⟨h, -⟩ | ⟨h, -⟩ <;> rw [h]
    · exact fun _ => trivial
    · exact id
  have hplain : (Pc.wakeLoop ch held k).Plain C b := by
    rcases hcases with ⟨h, -, -⟩ | ⟨h, hfits⟩
    · rw [h] at hsection ⊢
      exact { inSection := hsection }
    · rw [h] at hsection ⊢
      exact { inSection := hsection, fits := hfits }
  have hmid : Inv C (s.goto t b) := by
    refine hs.goto hplain hpc (fun _ => trivial) ?_ ?_
    · rcases hcases with ⟨h, -, hsame⟩ | ⟨h, -⟩ <;> rw [h]
      · simp [Pc.HasLk, hsame]
      · exact id
    · rcases hcases with ⟨h, -⟩ | ⟨h, -⟩ <;> rw [h] <;> exact nofun
  refine hmid.setWoke fun hv => ?_
  obtain ⟨rfl, rfl⟩ : held = true ∧ ch = C.chan := by simpa using hv
  refine ⟨⟨t, ?_⟩, fun p hp => ?_⟩
  · rw [State.goto_pc_self]
    exact hsection rfl
  · have hway : s.OnWay C p := by
      refine hp.imp_right fun hsets => ?_
      rcases eq_or_ne (.proc p) t with rfl | hne
      · rw [State.goto_pc_self] at hsets
        exact hpc ▸ hplain.setsOut hsets
      · rwa [State.goto_pc_of_ne _ _ hne] at hsets
    have hle := hs.scan t k (by rw [hpc, Pc.scan_wakeLoop]) p hway
    exact absurd (hs.lt_of_onWay hway) (by omega)

theorem kill_step (hs : Inv C s) (hpc : s.pc t = .killState (some k)) :
    Inv C ((s.rouse k).goto t .killRelease) := by
  obtain ⟨slots, heq⟩ := s.rouse_eq k
  have hwoken := s.rouse_woken k
  rw [heq] at hwoken ⊢
  have hplain : (Pc.killState (some k)).Plain C .killRelease := Pc.Aside.plain trivial trivial
  exact hs.plain hplain hpc rfl rfl (.keep _ fun _ => trivial)
    (.keep _ nofun) hwoken rfl rfl rfl nofun

/-! ## Processes that come and go -/

/-- A process changes its own slot. -/
theorem own (hs : Inv C s) {slot : Slot} (hpc : s.pc (.proc p) = a)
    (hstays : ¬ a.Gone ∧ ¬ a.IsAway ∧ ¬ b.IsParked)
    (hptable : b.HasTable C.same → a.HasTable C.same)
    (hlk : b.HasLk C.same → a.HasLk C.same) (hstate : ¬ b.Gone → slot.state = (s.slots p).state)
    (hchan : ∀ ch own, b = .sleepState ch own → slot.chan = some ch) (hfits : b.Fits C)
    (hsection : a.InSection → b.InSection) (hscan : ∀ k, b.scan C.chan ≠ some k)
    (hasks : ¬ b.Asks C.chan)
    (hway : (slot.state = .sleeping ∧ slot.chan = some C.chan) ∨ b.SetsOut C.chan → s.OnWay C p) :
    Inv C ({ s with slots := Function.update s.slots p slot }.goto (.proc p) b) := by
  set t := { s with slots := Function.update s.slots p slot }.goto (.proc p) b with ht
  have hself : t.slots p = slot := Function.update_self ..
  have hgoes : Goes C (.proc p) a b s t := by
    refine ⟨hpc, rfl, rfl, hstays, .keep _ hptable, .keep _ hlk, fun q => ?_, fun q hq hb => ?_,
      fun q ch own hq hb => ?_, hfits⟩
    · rcases eq_or_ne q p with rfl | hne
      · exact .inr rfl
      · exact .inl (.inl (Function.update_of_ne hne ..))
    · obtain rfl := Thread.proc.inj hq
      rw [hself, hstate hb]
    · obtain rfl := Thread.proc.inj hq
      rw [hself, hchan ch own hb]
  refine hs.goes hgoes rfl rfl rfl (fun q hq hq' => ?_) hsection (fun k hk => absurd hk (hscan k))
    fun h => absurd h hasks
  obtain rfl := Thread.proc.inj hq
  rw [State.OnWay, hself, hgoes.pc_self] at hq'
  exact hway hq'

theorem yieldState_step (hs : Inv C s) (hpc : s.pc (.proc p) = .yieldState) :
    Inv C ((s.setState p .runnable).goto (.proc p) .yieldSched) := by
  refine hs.own hpc ⟨nofun, nofun, nofun⟩ id id
    (fun h => absurd trivial h) nofun trivial nofun nofun nofun ?_
  rintro (⟨h, -⟩ | h)
  · cases h
  · exact h.elim

theorem sleepChan_step (hs : Inv C s) {own : Bool} (hpc : s.pc (.proc p) = .sleepChan ch own) :
    Inv C ((s.setChan p (some ch)).goto (.proc p) (.sleepState ch own)) := by
  refine hs.own hpc ⟨nofun, nofun, nofun⟩ id id (fun _ => rfl) (fun _ _ h => ?_) trivial nofun nofun
    nofun ?_
  · obtain ⟨rfl, -⟩ := Pc.sleepState.inj h
    rfl
  · rintro (⟨-, h⟩ | h)
    · exact .inr (hpc ▸ Option.some.inj h)
    · exact .inr (hpc ▸ h)

theorem sleepState_step (hs : Inv C s) {own : Bool} (hpc : s.pc (.proc p) = .sleepState ch own) :
    Inv C ((s.setState p .sleeping).goto (.proc p) (.sleepSched own)) := by
  refine hs.own hpc ⟨nofun, nofun, nofun⟩ id id
    (fun h => absurd trivial h) nofun trivial nofun nofun nofun ?_
  rintro (⟨-, h⟩ | h)
  · exact .inr (hpc ▸ Option.some.inj ((hs.chan p ch own hpc).symm.trans h))
  · exact h.elim

theorem sleepTidy_step (hs : Inv C s) {own : Bool} (hpc : s.pc (.proc p) = .sleepTidy own) :
    Inv C ((s.setChan p none).goto (.proc p)
      (if own && C.same then .crit else .sleepRelease2 own)) := by
  have hway : ∀ P : Prop, ((s.slots p).state = .sleeping ∧ none = some C.chan) ∨ False → P := by
    rintro P (⟨-, h⟩ | h)
    · cases h
    · exact h.elim
  split
  · next h =>
    have hsame : C.same = true := by
      simpa using And.right (by simpa using h : own = true ∧ C.same = true)
    exact hs.own hpc ⟨nofun, nofun, nofun⟩ (fun _ => trivial) (by simp [Pc.HasLk, hsame])
      (fun _ => rfl) nofun trivial nofun nofun nofun (hway _)
  · exact hs.own hpc ⟨nofun, nofun, nofun⟩ id id
      (fun _ => rfl) nofun trivial nofun nofun nofun (hway _)

theorem sleepRelease_step (hs : Inv C s) (hpc : s.pc t = .sleepRelease ch) :
    Inv C { s.goto t (.sleepChan ch true) with lk := none } := by
  have hgoes : Goes C t (.sleepRelease ch) (.sleepChan ch true) s
      { s.goto t (.sleepChan ch true) with lk := none } :=
    ⟨hpc, rfl, rfl, ⟨nofun, nofun, nofun⟩, .keep _ id, .release _ trivial nofun, .of_eq rfl,
      fun _ _ _ => rfl, nofun, trivial⟩
  -- nobody is in the section, where it would have `lk` too
  have hout : ∀ u, ¬ (s.pc u).InSection := by
    intro u hu
    have hask : (s.pc t).Asks ch := hpc ▸ rfl
    obtain rfl := own_unique hs.toBase hu.hasOwn hask.hasOwn
    rw [hpc] at hu
    exact hu
  refine ⟨hs.toBase.goes hgoes, fun h => ?_, fun u k hk => ?_, fun h => ?_, fun p hp hcond => ?_,
    fun u hu => ?_⟩
  · obtain ⟨u, hu⟩ := hs.holder h
    exact absurd hu (hout u)
  · have hloop := Pc.scan_eq_some hk
    rcases eq_or_ne u t with rfl | hne
    · rw [hgoes.pc_self] at hloop
      cases hloop
    · rw [hgoes.pc_of_ne hne] at hloop
      exact absurd (hloop ▸ rfl) (hout u)
  · obtain ⟨u, hu⟩ := hs.holder (.inr h)
    exact absurd hu (hout u)
  · by_cases ht : t = .proc p
    · subst ht
      rcases hp with hp | hsets
      · exact hs.owed p (.inl hp) hcond
      · rw [hgoes.pc_self] at hsets
        have hfalse := hs.asks (.proc p) (hpc ▸ hsets)
        exact absurd (hfalse.symm.trans hcond) nofun
    · exact hs.owed p (onWay_of_goes hgoes ht hp) hcond
  · rcases eq_or_ne u t with rfl | hne
    · rw [hgoes.pc_self] at hu
      exact hu.elim
    · exact hs.asks u (hgoes.pc_of_ne hne ▸ hu)

end Inv

/-! ## `swtch` -/

/-- The threads behind `swtch` from process `p`. -/
theorem State.swtch_pc (s : State) (p : ℕ) (r : Parking) (t : Thread) :
    (t = .proc p ∧ (s.swtch p r).pc t = .parked r) ∨
      (t = .sched (s.cpu p) ∧ (s.swtch p r).pc t = .schedBack p) ∨
      (t ≠ .proc p ∧ t ≠ .sched (s.cpu p) ∧ (s.swtch p r).pc t = s.pc t) := by
  unfold swtch
  dsimp only
  rcases eq_or_ne t (.sched (s.cpu p)) with rfl | hsched
  · exact .inr (.inl ⟨rfl, Function.update_self ..⟩)
  · rw [Function.update_of_ne hsched]
    rcases eq_or_ne t (.proc p) with rfl | hproc
    · exact .inl ⟨rfl, Function.update_self ..⟩
    · exact .inr (.inr ⟨hproc, hsched, Function.update_of_ne hproc ..⟩)

theorem Base.swtch_step (hs : Base C s) (hgone : (s.pc (.proc p)).Gone)
    (hparked : ¬ (s.pc (.proc p)).IsParked) : Base C (s.swtch p r) := by
  have hproc : ∀ q, (s.swtch p r).pc (.proc q) = .parked r ∧ q = p ∨
      q ≠ p ∧ (s.swtch p r).pc (.proc q) = s.pc (.proc q) := by
    intro q
    rcases s.swtch_pc p r (.proc q) with ⟨h, hpc⟩ | ⟨h, -⟩ | ⟨h, -, hpc⟩
    · exact .inl ⟨hpc, Thread.proc.inj h⟩
    · cases h
    · exact .inr ⟨fun heq => h (heq ▸ rfl), hpc⟩
  refine ⟨hs.ptable.pass (hgone.hasTable hparked) (a := .parked r) id rfl,
    hs.lk.skip (a := .parked r) (b := .schedBack p) id id rfl, fun t => ?_, fun q ch own hq => ?_,
    fun q hq => ?_, fun q hq => ?_, fun q hq => ?_⟩
  · rcases s.swtch_pc p r t with ⟨-, hpc⟩ | ⟨-, hpc⟩ | ⟨-, -, hpc⟩
    · rw [hpc]
      trivial
    · rw [hpc]
      trivial
    · rw [hpc]
      exact hs.fits t
  · rcases hproc q with ⟨hpc, -⟩ | ⟨-, hpc⟩
    · rw [hpc] at hq
      cases hq
    · exact hs.chan q ch own (hpc ▸ hq)
  · refine ⟨(hs.table q hq).1, ?_⟩
    rcases hproc q with ⟨hpc, -⟩ | ⟨-, hpc⟩
    · rw [hpc]
      trivial
    · rw [hpc]
      exact (hs.table q hq).2
  · rcases hproc q with ⟨hpc, -⟩ | ⟨-, hpc⟩
    · rw [hpc] at hq
      exact absurd trivial hq
    · exact hs.running q (hpc ▸ hq)
  · rcases hproc q with ⟨hpc, -⟩ | ⟨hne, hpc⟩
    · rw [hpc] at hq
      exact absurd trivial hq
    · have haway := hs.away q (hpc ▸ hq)
      have hcpu : Thread.sched (s.cpu q) ≠ .sched (s.cpu p) := by
        intro heq
        rw [heq, hs.away p hparked] at haway
        exact hne (Pc.schedAway.inj haway).symm
      rcases s.swtch_pc p r (.sched (s.cpu q)) with ⟨h, -⟩ | ⟨h, -⟩ | ⟨-, -, hsched⟩
      · cases h
      · exact absurd h hcpu
      · exact hsched.trans haway

theorem Inv.swtch_step (hs : Inv C s) (hgone : (s.pc (.proc p)).Gone)
    (hparked : ¬ (s.pc (.proc p)).IsParked) : Inv C (s.swtch p r) := by
  have haway := hs.away p hparked
  refine hs.frame (hs.toBase.swtch_step hgone hparked) rfl rfl rfl (fun q hq => ?_) fun t => ?_
  · refine hq.imp_right fun hsets => ?_
    rcases s.swtch_pc p r (.proc q) with ⟨-, hpc⟩ | ⟨-, hpc⟩ | ⟨-, -, hpc⟩
    · rw [hpc] at hsets
      exact hsets.elim
    · rw [hpc] at hsets
      exact hsets.elim
    · rwa [hpc] at hsets
  · rcases s.swtch_pc p r t with ⟨rfl, hpc⟩ | ⟨rfl, hpc⟩ | ⟨-, -, hpc⟩
    · rw [hpc]
      exact .inr ⟨fun h => absurd h hgone.not_inSection, nofun, nofun⟩
    · rw [hpc, haway]
      exact .inr ⟨nofun, nofun, nofun⟩
    · exact .inl hpc

theorem State.dispatch_eq_some (h : s.dispatch c k = some s') :
    ∃ r, s.pc (.proc k) = .parked r ∧ s' = { s.setState k .running with
      pc := Function.update (Function.update s.pc (.sched c) (.schedAway k)) (.proc k) r.resume
      cpu := Function.update s.cpu k c
      ptable := some (.proc k) } := by
  unfold dispatch at h
  split at h
  · next r hr => exact ⟨r, hr, (Option.some.inj h).symm⟩
  · cases h

/-- The threads behind the dispatch of process `k` by CPU `c`. -/
theorem dispatch_pc
    (hpc : s'.pc = Function.update (Function.update s.pc (.sched c) (.schedAway k))
      (.proc k) r.resume)
    (t : Thread) :
    (t = .proc k ∧ s'.pc t = r.resume) ∨ (t = .sched c ∧ s'.pc t = .schedAway k) ∨
      (t ≠ .proc k ∧ t ≠ .sched c ∧ s'.pc t = s.pc t) := by
  rw [hpc]
  rcases eq_or_ne t (.proc k) with rfl | hproc
  · exact .inl ⟨rfl, Function.update_self ..⟩
  · rw [Function.update_of_ne hproc]
    rcases eq_or_ne t (.sched c) with rfl | hsched
    · exact .inr (.inl ⟨rfl, Function.update_self ..⟩)
    · exact .inr (.inr ⟨hproc, hsched, Function.update_of_ne hsched ..⟩)

theorem Base.dispatch_step (hs : Base C s) (hpc : s.pc (.sched c) = .schedLoop k) (hk : k < C.n)
    (h : s.dispatch c k = some s') : Base C s' := by
  obtain ⟨r, hr, hs'⟩ := State.dispatch_eq_some h
  have hpcs := dispatch_pc (congrArg State.pc hs')
  have hself : s'.slots k = { s.slots k with state := .running } :=
    hs' ▸ s.setState_slots_self k .running
  have hold : ∀ q ≠ k, s'.slots q = s.slots q := fun q hq => hs' ▸ s.setState_slots_of_ne _ hq
  have hcpu : s'.cpu = Function.update s.cpu k c := hs' ▸ rfl
  have hproc : ∀ q ≠ k, s'.pc (.proc q) = s.pc (.proc q) := by
    intro q hq
    rcases hpcs (.proc q) with ⟨h, -⟩ | ⟨h, -⟩ | ⟨-, -, h⟩
    · exact absurd (Thread.proc.inj h) hq
    · cases h
    · exact h
  have hkpc : s'.pc (.proc k) = r.resume := by
    rcases hpcs (.proc k) with ⟨-, h⟩ | ⟨h, -⟩ | ⟨h, -⟩
    · exact h
    · cases h
    · exact absurd rfl h
  refine ⟨?_, ?_, fun t => ?_, fun q ch own hq => ?_, fun q hq => ?_, fun q hq => ?_,
    fun q hq => ?_⟩
  · rw [hs']
    exact hs.ptable.pass (t := .sched c) (a := .schedAway k) (hpc ▸ trivial) id rfl
  · rw [hs']
    exact hs.lk.skip (a := .schedAway k) (b := r.resume) id (by cases r <;> exact id) rfl
  · rcases hpcs t with ⟨-, h⟩ | ⟨-, h⟩ | ⟨-, -, h⟩
    · rw [h]
      cases r <;> trivial
    · rw [h]
      trivial
    · rw [h]
      exact hs.fits t
  · rcases eq_or_ne q k with rfl | hne
    · rw [hkpc] at hq
      cases r <;> cases hq
    · rw [hold q hne]
      exact hs.chan q ch own (hproc q hne ▸ hq)
  · have hne : q ≠ k := by omega
    rw [hold q hne, hproc q hne]
    exact hs.table q hq
  · rcases eq_or_ne q k with rfl | hne
    · rw [hself]
    · rw [hold q hne]
      exact hs.running q (hproc q hne ▸ hq)
  · rcases eq_or_ne q k with rfl | hne
    · rw [hcpu, Function.update_self]
      rcases hpcs (.sched c) with ⟨h, -⟩ | ⟨-, h⟩ | ⟨-, h, -⟩
      · cases h
      · exact h
      · exact absurd rfl h
    · rw [hcpu, Function.update_of_ne hne]
      have haway := hs.away q (hproc q hne ▸ hq)
      rcases hpcs (.sched (s.cpu q)) with ⟨h, -⟩ | ⟨h, -⟩ | ⟨-, -, h⟩
      · cases h
      · rw [h, hpc] at haway
        cases haway
      · exact h.trans haway

theorem Inv.dispatch_step (hs : Inv C s) (hpc : s.pc (.sched c) = .schedLoop k) (hk : k < C.n)
    (h : s.dispatch c k = some s') : Inv C s' := by
  have hbase := hs.toBase.dispatch_step hpc hk h
  obtain ⟨r, hr, hs'⟩ := State.dispatch_eq_some h
  have hpcs := dispatch_pc (congrArg State.pc hs')
  refine hs.frame hbase (hs' ▸ rfl) (hs' ▸ rfl) (hs' ▸ rfl) (fun q hq => ?_) fun t => ?_
  · have hsleep : (s'.slots q).state = .sleeping → s'.slots q = s.slots q := by
      intro hsleep
      rw [hs'] at hsleep ⊢
      rcases eq_or_ne q k with rfl | hne
      · exact absurd (hsleep.symm.trans (congrArg Slot.state (s.setState_slots_self q .running)))
          nofun
      · exact s.setState_slots_of_ne _ hne
    rcases hq with ⟨hstate, hchan⟩ | hsets
    · exact .inl (hsleep hstate ▸ ⟨hstate, hchan⟩)
    · rcases hpcs (.proc q) with ⟨-, h⟩ | ⟨-, h⟩ | ⟨-, -, h⟩
      · rw [h] at hsets
        cases r <;> exact hsets.elim
      · rw [h] at hsets
        exact hsets.elim
      · exact .inr (h ▸ hsets)
  · rcases hpcs t with ⟨rfl, h⟩ | ⟨rfl, h⟩ | ⟨-, -, h⟩
    · rw [h, hr]
      cases r <;> exact .inr ⟨nofun, nofun, nofun⟩
    · rw [h, hpc]
      exact .inr ⟨nofun, nofun, nofun⟩
    · exact .inl h

/-! ## Every step -/

namespace Inv

theorem wakeup_step (hs : Inv C s) (hpc : s.pc t = .crit) :
    Inv C (s.goto t (if C.same then .wakeLoop ch true 0 else .wakeAcquire ch true)) := by
  split
  · next hsame =>
    have hplain : Pc.crit.Plain C (.wakeLoop ch true 0) := { inSection := fun _ => rfl }
    refine hs.goto hplain hpc (fun _ => hsame) (fun h => h.1) fun k hk => ?_
    exact (Pc.wakeLoop.inj (Pc.scan_eq_some hk)).2.2.symm
  · have hplain : Pc.crit.Plain C (.wakeAcquire ch true) := { inSection := fun _ => rfl }
    exact hs.goto hplain hpc (fun h => h.1) (fun h => h.1) nofun

theorem sleepAcquire_step (hs : Inv C s) {own : Bool} (hpc : s.pc t = .sleepAcquire ch own)
    (h : s.take t (if own then .sleepRelease ch else .sleepChan ch false) = some s') :
    Inv C s' := by
  cases own with
  | true =>
    have hplain : (Pc.sleepAcquire ch true).Plain C (.sleepRelease ch) :=
      { asks := fun h => ⟨h, rfl⟩ }
    exact hs.take h hplain hpc (fun _ => rfl) nofun
  | false =>
    have hfits := hs.fits t
    rw [hpc] at hfits
    have hplain : (Pc.sleepAcquire ch false).Plain C (.sleepChan ch false) :=
      { setsOut := fun h => absurd h (hfits rfl) }
    exact hs.take h hplain hpc nofun nofun

theorem wakeRelease_step (hs : Inv C s) (hpc : s.pc t = .wakeRelease held) :
    Inv C (s.drop t (if held then .crit else .out)) := by
  cases held with
  | true =>
    have hfits := hs.fits t
    rw [hpc] at hfits
    have hsame := hfits rfl
    have hplain : (Pc.wakeRelease true).Plain C .crit := { inSection := fun _ => trivial }
    exact hs.drop hplain hpc trivial (by simp [Pc.HasTable, hsame]) (fun h => ⟨h, rfl⟩) nofun
  | false =>
    have hplain : (Pc.wakeRelease false).Plain C .out := {}
    exact hs.drop hplain hpc trivial id nofun nofun

theorem sleepRelease2_step (hs : Inv C s) {own : Bool} (hpc : s.pc t = .sleepRelease2 own) :
    Inv C (s.drop t (if own then .sleepAcquire2 else .out)) := by
  cases own with
  | true => exact hs.drop_aside hpc trivial trivial trivial id
  | false => exact hs.drop_aside hpc trivial trivial trivial id

theorem schedLoop_step (hs : Inv C s) (hpc : s.pc (.sched c) = .schedLoop k)
    (h : (if k < C.n then
        if (s.slots k).state = .runnable then s.dispatch c k
        else some (s.goto (.sched c) (.schedLoop (k + 1)))
      else some (s.drop (.sched c) .schedAcquire)) = some s') : Inv C s' := by
  split at h
  · next hk =>
    split at h
    · exact hs.dispatch_step hpc hk h
    · cases h
      exact hs.goto_aside hpc trivial trivial id
  · cases h
    exact hs.drop_aside hpc trivial trivial trivial id

end Inv

/-- **The step lemma.** A thread that goes from one `Aside` point to another concerns only the lock;
each of the other transitions has a lemma above. -/
theorem Inv.step (hs : Inv C s) {e : Thread × Act} (h : Wakeup.step C s e = some s') :
    Inv C s' := by
  obtain ⟨t, act⟩ := e
  simp only [Wakeup.step] at h
  split at h
  -- outside: a thread takes `lk` or calls one of the functions
  · next hpc => exact hs.takeLk hpc trivial h
  · next hpc =>
    cases h
    have hout : Pc.out.Aside := trivial
    exact hs.goto (hout.to nofun nofun nofun nofun trivial) hpc (fun h => nomatch h.2)
      (fun h => nomatch h.2) nofun
  · next hpc =>
    cases h
    exact hs.goto_aside hpc trivial trivial id
  · next hpc =>
    cases h
    exact hs.goto_aside hpc trivial trivial id
  · next ch hpc =>
    split at h
    · next hne =>
      cases h
      have hout : Pc.out.Aside := trivial
      exact hs.goto (hout.to nofun (fun h => nomatch h.2) nofun nofun fun _ => hne) hpc
        (fun h => nomatch h.2) nofun nofun
    · cases h
  -- with `lk`: it may be given up only if every change of `cond` was followed by a `wakeup`
  · next hpc =>
    cases h
    exact hs.assign hpc _
  · next hpc =>
    split at h
    · next hleave =>
      cases h
      exact hs.release_step hpc hleave
    · cases h
  · next hpc =>
    cases h
    exact hs.wakeup_step hpc
  · next hpc =>
    split at h
    · next hsleep =>
      cases h
      exact hs.sleep_step hpc hsleep
    · cases h
  · next hpc =>
    split at h
    · next hexit =>
      cases h
      exact hs.exit_step hpc hexit.1 hexit.2
    · cases h
  -- `wakeup` and `wakeup1`
  · next ch held hpc =>
    have hplain : (Pc.wakeAcquire ch held).Plain C (.wakeLoop ch held 0) := { inSection := id }
    refine hs.take h hplain hpc id fun k hk => ?_
    exact (Pc.wakeLoop.inj (Pc.scan_eq_some hk)).2.2.symm
  · next hpc =>
    split at h
    · cases h
      exact hs.wakeLoop_step hpc
    · next hk =>
      cases h
      exact hs.wakeDone_step hpc (by omega)
  · next hpc =>
    cases h
    exact hs.wakeRelease_step hpc
  -- `kill`
  · next hpc => exact hs.take_aside hpc trivial h trivial
  · next hpc =>
    cases h
    exact hs.kill_step hpc
  · next hpc =>
    cases h
    exact hs.goto_aside hpc trivial trivial id
  · next hpc =>
    cases h
    exact hs.drop_aside hpc trivial trivial trivial id
  -- `yield`
  · next hpc => exact hs.take_aside hpc trivial h trivial
  · next hpc =>
    cases h
    exact hs.yieldState_step hpc
  · next hpc =>
    cases h
    exact hs.swtch_step (hpc ▸ trivial) (hpc ▸ id)
  · next hpc =>
    cases h
    exact hs.drop_aside hpc trivial trivial trivial id
  -- `sleep`: from the `release` of `lk` on the process has `ptable.lock`
  · next hpc => exact hs.sleepAcquire_step hpc h
  · next hpc =>
    cases h
    exact hs.sleepRelease_step hpc
  · next hpc =>
    cases h
    exact hs.sleepChan_step hpc
  · next hpc =>
    cases h
    exact hs.sleepState_step hpc
  · next hpc =>
    cases h
    exact hs.swtch_step (hpc ▸ trivial) (hpc ▸ id)
  · next hpc =>
    cases h
    exact hs.sleepTidy_step hpc
  · next hpc =>
    cases h
    exact hs.sleepRelease2_step hpc
  · next hpc => exact hs.takeLk hpc trivial h
  -- the scheduler
  · next hpc => exact hs.take_aside hpc trivial h trivial
  · next hpc => exact hs.schedLoop_step hpc h
  · next hpc =>
    cases h
    exact hs.goto_aside hpc trivial trivial id
  · cases h

theorem Inv.start (C : Config) (live : ℕ → Bool) (cond : Bool) : Inv C (start C live cond) := by
  have hidle : ∀ t, (Wakeup.start C live cond).pc t = .schedAcquire ∨
      (Wakeup.start C live cond).pc t = .parked .yield ∨
      (Wakeup.start C live cond).pc t = .out := by
    rintro (c | p | i)
    · exact .inl rfl
    · exact .inr (.inl rfl)
    · exact .inr (.inr rfl)
  have hway : ∀ p, ¬ (Wakeup.start C live cond).OnWay C p := by
    rintro p (⟨-, h⟩ | h)
    · cases h
    · exact h
  refine ⟨⟨fun t ht => ?_, fun t ht => ?_, fun t => ?_, fun p ch own hp => ?_,
    fun p hp => ⟨?_, trivial⟩,
    fun p hp => absurd trivial hp, fun p hp => absurd trivial hp⟩, ?_, fun t k hk p hp => ?_, nofun,
    fun p hp => absurd hp (hway p), fun t ht => ?_⟩
  · rcases hidle t with h | h | h <;> rw [h] at ht <;> exact ht.elim
  · rcases hidle t with h | h | h <;> rw [h] at ht <;> exact ht.elim
  · rcases hidle t with h | h | h <;> rw [h] <;> trivial
  · cases hp
  · exact if_neg fun h => absurd h.1 (by omega)
  · rintro (h | h) <;> cases h
  · exact absurd hp (hway p)
  · rcases hidle t with h | h | h <;> rw [h] at ht <;> exact ht.elim

/-- **The run lemma.** -/
theorem Inv.run {live : ℕ → Bool} {cond : Bool} {es : List (Thread × Act)}
    (h : Run.exec (Wakeup.step C) (Wakeup.start C live cond) es = some s) : Inv C s :=
  Run.exec_invariant (fun _ _ _ hs h => hs.step h) (Inv.start C live cond) h

/-- Whenever neither lock is held, no process sleeps on the channel while the condition holds: for
every size of the table, every set of processes, and `lk` a lock of its own or `ptable.lock`. -/
theorem no_lost_wakeup {C : Config} {live : ℕ → Bool} {cond : Bool} {es : List (Thread × Act)}
    {s : State} (h : Run.exec (step C) (start C live cond) es = some s) (hlk : s.lk = none)
    (hptable : s.ptable = none) (p : ℕ) :
    ¬ ((s.slots p).state = .sleeping ∧ (s.slots p).chan = some C.chan ∧ s.cond = true) := by
  rintro ⟨hsleep, hchan, hcond⟩
  have hs := Inv.run h
  obtain ⟨t, ht⟩ := hs.holder (.inl (hs.owed p (.inl ⟨hsleep, hchan⟩) hcond))
  -- that thread would have the lock
  have hown : (s.pc t).HasOwn C.same := ht.hasOwn
  unfold Pc.HasOwn at hown
  split at hown
  · exact absurd ((hs.ptable t hown).symm.trans hptable) nofun
  · exact absurd ((hs.lk t hown).symm.trans hlk) nofun

/-- One process has gone to sleep, and its scheduler has given up `ptable.lock`. -/
theorem no_lost_wakeup_sleeper :
    ∃ s, Run.exec (step ⟨1, 7, false⟩) (start ⟨1, 7, false⟩ (fun _ => true) false)
        [(.sched 0, .go), (.sched 0, .go), (.proc 0, .go), (.proc 0, .acquire), (.proc 0, .sleep 7),
          (.proc 0, .go), (.proc 0, .go), (.proc 0, .go), (.proc 0, .go), (.proc 0, .go),
          (.sched 0, .go), (.sched 0, .go)] = some s ∧
      s.lk = none ∧ s.ptable = none ∧ (s.slots 0).state = .sleeping ∧ (s.slots 0).chan = some 7 ∧
      ¬ ((s.slots 0).state = .sleeping ∧ (s.slots 0).chan = some 7 ∧ s.cond = true) := by
  have hrun : Run.exec (step ⟨1, 7, false⟩) (start ⟨1, 7, false⟩ (fun _ => true) false)
      [(.sched 0, .go), (.sched 0, .go), (.proc 0, .go), (.proc 0, .acquire), (.proc 0, .sleep 7),
        (.proc 0, .go), (.proc 0, .go), (.proc 0, .go), (.proc 0, .go), (.proc 0, .go),
        (.sched 0, .go), (.sched 0, .go)] = some _ := rfl
  exact ⟨_, hrun, rfl, rfl, rfl, rfl, no_lost_wakeup hrun rfl rfl 0⟩

end InuOs.Wakeup
