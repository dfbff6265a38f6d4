import InuOs.Ide

/-!
# Commands that fail (`idewait(1)` in `ideintr`)

The driver of `InuOs.Ide` with a disk that reports errors. When a command is done, the status
register has any value; with `IDE_DF` or `IDE_ERR` in it a read has transferred nothing and a write
has left anything on its block. `ideintr` asks for the status when it is about to fetch data, and
only then: a failed write is not noticed, and what follows — setting `B_VALID` — does not look at
the answer.

`bread`, `bwrite` and `log_write` are here in the steps that they consist of. A process gets a
buffer from `bget`, which finds it for its block or gives it to a new one and clears the flags; the
data of the old block stays where it is. The devices that `bget` is called for are not 0, as `binit`
leaves the buffers with that number, and no two of them are on one disk.

`origin` is not in the source: where the data of a buffer has come from since it was given to its
block. `genuine_run_iff` is the main result. There are two ways to a valid buffer with the wrong
data: a read that fails, and a write that fails for a buffer which was marked dirty but never stored
to.
-/

namespace InuOs.Ide

open Bio Chain Run

/-! ## The model -/

/-- `IDE_DF` -/
def ideDf : ℕ := 0x20

/-- `IDE_ERR` -/
def ideErr : ℕ := 0x01

/-- `idewait`, where `r` is the status register once the disk is ready. -/
def idewait (checkerr : Bool) (r : ℕ) : ℤ :=
  if checkerr ∧ r &&& (ideDf ||| ideErr) ≠ 0 then -1 else 0

/-- Where the data of a buffer comes from. -/
inductive Origin (α : Type) : Type where
  /-- `insl` has fetched it from the disk -/
  | insl
  /-- the kernel has stored it -/
  | kernel (x : α)
  deriving DecidableEq, Repr

/-- The driver and its users, with the status register. -/
structure Faulty (ι α : Type) : Type extends State ι α where
  status : ℕ
  origin : Node → Option (Origin α)

/-- What happens. -/
inductive FaultEvent (ι α : Type) : Type where
  /-- `bget(k.1, k.2)`, which takes buffer `b` -/
  | bget (p : ι) (b : Node) (k : ℕ × ℕ)
  /-- `brelse(b)` -/
  | brelse (p : ι) (b : Node)
  /-- process `p` stores `x` into `b->data` -/
  | store (p : ι) (b : Node) (x : α)
  /-- `b->flags |= B_DIRTY`, by `bwrite` or `log_write`, on a buffer that `bread` has returned -/
  | setDirty (p : ι) (b : Node)
  /-- `iderw(b)` -/
  | iderw (p : ι) (b : Node)
  /-- process `p` is woken up and looks at the flags of its buffer -/
  | resume (p : ι)
  /-- the disk is done with a command; a write that has failed leaves `x` on the block -/
  | finish (r : ℕ) (x : α)
  /-- a processor takes the interrupt -/
  | intr

variable {ι α : Type}

variable {t : State ι α} {o : Option (Origin α)} {r : ℕ} {x : α}

namespace Faulty

/-- No buffer is for block `k`. -/
def NotCached (s : Faulty ι α) (k : ℕ × ℕ) : Prop :=
  ∀ b, (s.bufs b).dev ≠ 0 → place (s.bufs b).key ≠ place k

instance (s : Faulty ι α) (k : ℕ × ℕ) : Decidable (s.NotCached k) :=
  inferInstanceAs (Decidable (∀ _, _ → _))

/-- `bget` and the `acquiresleep` at its end. -/
def bget (s : Faulty ι α) (p : ι) (b : Node) (k : ℕ × ℕ) : Option (Faulty ι α) :=
  let lock := Function.update s.lock b (some p)
  if (s.bufs b).key = k then some { s with lock := lock }
  else if (s.bufs b).dirty = false ∧ s.NotCached k then
    let buf := { s.bufs b with
      dev := k.1, blockno := k.2, valid := false, dirty := false, refcnt := 1 }
    some { s with
      toState := { s.toState.setBuf b buf with lock := lock }
      origin := Function.update s.origin b none }
  else none

/-- The disk does a command. -/
def finish (s : Faulty ι α) (regs : Regs) (out : Option α) (r : ℕ) (x : α) : Faulty ι α :=
  if 0 ≤ idewait true r then { s with toState := s.toState.complete regs out, status := r }
  else if regs.cmd = cmdRead then { s with device := .done none, status := r }
  else { s with device := .done none, disk := Function.update s.disk regs.place x, status := r }

/-- `ideintr`: data is fetched for a read, if `idewait(1) >= 0`. -/
def ideintr (s : Faulty ι α) (input : Option α) : Option (Faulty ι α) :=
  let fetched := if 0 ≤ idewait true s.status then input else none
  let origin :=
    match s.queue.head with
    | some b =>
      Function.update s.origin b
        (if (s.bufs b).dirty = false ∧ 0 ≤ idewait true s.status then some .insl else s.origin b)
    | none => s.origin
  (s.toState.ideintr fetched).map fun s' => { s with toState := s', origin := origin }

/-- One step. -/
def step [DecidableEq ι] (s : Faulty ι α) : FaultEvent ι α → Option (Faulty ι α)
  | .bget p b k =>
    if s.pc p = .out ∧ s.lock b = none ∧ k.1 ≠ 0 then s.bget p b k else none
  | .brelse p b =>
    if s.pc p = .out ∧ s.lock b = some p then
      some { s with lock := Function.update s.lock b none }
    else none
  | .store p b x =>
    if s.pc p = .out ∧ s.lock b = some p then
      some { s with
        toState := s.toState.setBuf b { s.bufs b with data := x }
        origin := Function.update s.origin b (some (.kernel x)) }
    else none
  | .setDirty p b =>
    if s.pc p = .out ∧ s.lock b = some p ∧ (s.bufs b).valid = true then
      some { s with toState := s.toState.setBuf b { s.bufs b with dirty := true } }
    else none
  | .iderw p b =>
    if s.pc p = .out ∧ s.lock b = some p then
      (s.toState.iderw p b).map fun s' => { s with toState := s' }
    else none
  | .resume p =>
    match s.pc p with
    | .out => none
    | .waits b _ =>
      if Synced (s.bufs b) then some { s with pc := Function.update s.pc p .out } else some s
  | .finish r x =>
    match s.device with
    | .busy regs out => some (s.finish regs out r x)
    | _ => none
  | .intr =>
    match s.device with
    | .done input => { s with device := .idle }.ideintr input
    | _ => none

/-- The data of a buffer is what its disk block contains, or what the kernel has stored into it. -/
def Genuine (s : Faulty ι α) (b : Node) : Prop :=
  s.origin b = some .insl ∧ (s.bufs b).data = s.disk (place (s.bufs b).key) ∨
    s.origin b = some (.kernel (s.bufs b).data)

/-- What a step must not do: the interrupt does not come for a read that has failed, unless the
kernel has stored into the buffer; and a write that fails leaves what was sent, unless the kernel
has stored it. -/
def Fits (s : Faulty ι α) : FaultEvent ι α → Prop
  | .intr => ∀ b, s.queue.head = some b → (s.bufs b).dirty = false → s.origin b = none →
    0 ≤ idewait true s.status
  | .finish r x => ∀ b, s.queue.head = some b → (s.bufs b).dirty = true → s.origin b = some .insl →
    0 ≤ idewait true r ∨ x = (s.bufs b).data
  | _ => True

instance [DecidableEq α] (s : Faulty ι α) : ∀ e, Decidable (s.Fits e)
  | .intr | .finish _ _ => inferInstanceAs (Decidable (∀ _, _))
  | .bget _ _ _ | .brelse _ _ | .store _ _ _ | .setDirty _ _ | .iderw _ _ | .resume _ =>
    isTrue trivial

/-- The system behind `binit` and `ideinit`. -/
structure Booted (s : Faulty ι α) : Prop where
  ready : Ready s.toState
  lock : ∀ b, s.lock b = none
  flags : ∀ b, (s.bufs b).valid = false ∧ (s.bufs b).dirty = false
  dev : ∀ b, (s.bufs b).dev = 0
  origin : ∀ b, s.origin b = none

/-! ## The invariant -/

/-- The disk works on the first request, or is done with it; data that was asked for is there, if no
error was reported. -/
def Working (s : Faulty ι α) : List Node → Prop
  | [] => s.device = .idle
  | b :: _ => (s.bufs b).blockno < fsSize ∧
    (s.device = .busy (regs (s.bufs b)) (outsl (s.bufs b)) ∨
      ∃ input, s.device = .done input ∧ ((s.bufs b).dirty = false → 0 ≤ idewait true s.status →
        input = some (s.disk (place (s.bufs b).key))))

/-- What `origin` says of a buffer is so, and it says something if the buffer is valid. -/
structure BufOk (disk : ℕ × ℕ → α) (buf : Buf α) (o : Option (Origin α)) : Prop where
  insl : o = some .insl → buf.dev ≠ 0 ∧ buf.valid = true ∧ buf.data = disk (place buf.key)
  kernel : ∀ x, o = some (.kernel x) → buf.data = x
  valid : buf.valid = true → o ≠ none
  dirty : buf.dirty = true → buf.valid = true

/-- The buffers: those with a lock are for a block, no block is in two, and each is as `origin`
says. -/
structure Cached (s : Faulty ι α) : Prop where
  locked : ∀ b p, s.lock b = some p → (s.bufs b).dev ≠ 0
  apart : ∀ b b', (s.bufs b).dev ≠ 0 → (s.bufs b').dev ≠ 0 →
    place (s.bufs b).key = place (s.bufs b').key → b = b'
  ok : ∀ b, BufOk s.disk (s.bufs b) (s.origin b)

/-- The invariant of runs whose steps all fit. -/
structure Inv (s : Faulty ι α) (q : List Node) : Prop extends Cached s where
  queued : Queued s.toState q
  working : s.Working q

variable {s s' : Faulty ι α} {q rest : List Node} {p : ι} {b : Node} {buf : Buf α}

/-- A buffer whose origin is known is genuine. -/
theorem BufOk.genuine (h : BufOk s.disk (s.bufs b) (s.origin b))
    (hvalid : (s.bufs b).valid = true) : s.Genuine b := by
  cases ho : s.origin b with
  | none => exact absurd ho (h.valid hvalid)
  | some o =>
    cases o with
    | insl => exact .inl ⟨ho, (h.insl ho).2.2⟩
    | kernel x => exact .inr (by rw [ho, h.kernel x ho])

/-- Nothing happens to the buffers, their locks and the disks. -/
theorem Cached.congr (h : Cached s) (hbufs : t.bufs = s.bufs) (hlock : t.lock = s.lock)
    (hdisk : t.disk = s.disk) : Cached { s with toState := t } where
  locked := by
    rw [hbufs, hlock]
    exact h.locked
  apart := by
    rw [hbufs]
    exact h.apart
  ok := by
    rw [hbufs, hdisk]
    exact h.ok

/-- `idestart` on the first request. -/
theorem Cached.idestart {t' : State ι α} {q' : List Node} (h : Cached s) (hbufs : t.bufs = s.bufs)
    (hlock : t.lock = s.lock) (hdisk : t.disk = s.disk) (hqueued : Queued t (b :: q'))
    (ht : t.idestart b = some t') : Inv { s with toState := t' } (b :: q') := by
  rw [State.idestart] at ht
  split at ht
  · cases ht
  · rename_i hblock
    obtain rfl := Option.some.inj ht
    exact { h.congr hbufs hlock hdisk with
      queued := { hqueued with }, working := ⟨not_le.mp hblock, .inl rfl⟩ }

/-- A buffer gets new contents, and they are from `o`. -/
abbrev put (s : Faulty ι α) (b : Node) (buf : Buf α) (o : Option (Origin α)) : Faulty ι α :=
  { s with toState := s.toState.setBuf b buf, origin := Function.update s.origin b o }

theorem Cached.put (h : Cached s) (hdev : buf.dev ≠ 0)
    (hapart : ∀ x ≠ b, (s.bufs x).dev ≠ 0 → place (s.bufs x).key ≠ place buf.key)
    (hok : BufOk s.disk buf o) : Cached (s.put b buf o) where
  locked := by
    intro x p' hx
    rcases eq_or_ne x b with rfl | hne
    · rw [State.setBuf_self]
      exact hdev
    · rw [State.setBuf_of_ne _ hne]
      exact h.locked x p' hx
  apart := by
    intro x y hx hy hxy
    by_cases hxb : x = b <;> by_cases hyb : y = b
    · rw [hxb, hyb]
    · rw [State.setBuf_of_ne _ hyb] at hy hxy
      rw [hxb, State.setBuf_self] at hxy
      exact absurd hxy.symm (hapart y hyb hy)
    · rw [State.setBuf_of_ne _ hxb] at hx hxy
      rw [hyb, State.setBuf_self] at hxy
      exact absurd hxy (hapart x hxb hx)
    · rw [State.setBuf_of_ne _ hxb] at hx hxy
      rw [State.setBuf_of_ne _ hyb] at hy hxy
      exact h.apart x y hx hy hxy
  ok := by
    intro x
    dsimp only
    rcases eq_or_ne x b with rfl | hne
    · rw [State.setBuf_self, Function.update_self]
      exact hok
    · rw [State.setBuf_of_ne _ hne, Function.update_of_ne hne]
      exact h.ok x

/-- A buffer stays with its block. -/
theorem Cached.setData (h : Cached s) (hb : (s.bufs b).dev ≠ 0) (hkey : buf.key = (s.bufs b).key)
    (hok : BufOk s.disk buf o) : Cached (s.put b buf o) := by
  have hdev : buf.dev = (s.bufs b).dev := congrArg Prod.fst hkey
  refine h.put (hdev ▸ hb) ?_ hok
  intro x hne hx e
  rw [hkey] at e
  exact hne (h.apart x b hx hb e)

namespace Inv

/-- A request in the queue is for a buffer that `bget` has given to a block. -/
theorem dev_of_mem (h : Inv s q) (hb : b ∈ q) : (s.bufs b).dev ≠ 0 := by
  obtain ⟨p, i, hp, -⟩ := h.queued.waited b hb
  exact h.locked b p (h.queued.waits p b i hp).1

/-- A buffer that is not in `iderw` gets new contents. -/
theorem put {o : Option (Origin α)} (h : Inv s q) (hp : s.pc p = .out)
    (hlock : s.lock b = none ∨ s.lock b = some p) (hcached : Cached (s.put b buf o)) :
    Inv (s.put b buf o) q where
  toCached := hcached
  queued := h.queued.setBuf hp hlock
  working := by
    have hb := h.queued.notMem hp hlock
    have hwork := h.working
    cases q with
    | nil => exact hwork
    | cons x q =>
      have hx : x ≠ b := fun e => hb (e ▸ List.mem_cons_self)
      rw [Working]
      rw [State.setBuf_of_ne _ hx]
      exact hwork

theorem lock (h : Inv s q) (hlock : s.lock b = none) (hdev : (s.bufs b).dev ≠ 0) :
    Inv { s with lock := Function.update s.lock b (some p) } q := { h with
  queued := h.queued.lock hlock
  locked := by
    intro x p' hx
    rcases eq_or_ne x b with rfl | hne
    · exact hdev
    · dsimp only at hx
      rw [Function.update_of_ne hne] at hx
      exact h.locked x p' hx }

theorem unlock (h : Inv s q) (hp : s.pc p = .out) (hlock : s.lock b = some p) :
    Inv { s with lock := Function.update s.lock b none } q := { h with
  queued := h.queued.unlock hp hlock
  locked := by
    intro x p' hx
    dsimp only at hx
    rcases eq_or_ne x b with rfl | hne
    · rw [Function.update_self] at hx
      cases hx
    · rw [Function.update_of_ne hne] at hx
      exact h.locked x p' hx }

/-- A block is given to a buffer that nobody has, or found in it. -/
theorem bget {k : ℕ × ℕ} (h : Inv s q) (hp : s.pc p = .out) (hlock : s.lock b = none)
    (hk : k.1 ≠ 0) (hs : s.bget p b k = some s') : Inv s' q := by
  rw [Faulty.bget] at hs
  split at hs
  · rename_i hkey
    obtain rfl := Option.some.inj hs
    refine h.lock hlock ?_
    rw [← hkey] at hk
    exact hk
  · obtain ⟨⟨-, hnot⟩, ⟨⟩⟩ := Option.ite_none_right_eq_some.mp hs
    have hset : Cached (s.put b { s.bufs b with
        dev := k.1, blockno := k.2, valid := false, dirty := false, refcnt := 1 } none) :=
      h.toCached.put hk (fun x _ hx => hnot x hx) ⟨nofun, nofun, nofun, nofun⟩
    refine (h.put hp (.inl hlock) hset).lock hlock ?_
    rw [State.setBuf_self]
    exact hk

/-- The disk is done with a read. -/
theorem finishRead {input : Option α} (h : Inv s (b :: rest)) (hblock : (s.bufs b).blockno < fsSize)
    (hinput : 0 ≤ idewait true r → input = some (s.disk (place (s.bufs b).key))) :
    Inv { s with device := .done input, status := r } (b :: rest) := { h with
  queued := { h.queued with }
  working := ⟨hblock, .inr ⟨_, rfl, fun _ => hinput⟩⟩ }

/-- The disk is done with a write. No other buffer is for the block, whatever is on it now. -/
theorem finishWrite (h : Inv s (b :: rest)) (hblock : (s.bufs b).blockno < fsSize)
    (hdirty : (s.bufs b).dirty = true) (hx : s.origin b = some .insl → x = (s.bufs b).data) :
    Inv { s with
      device := .done none, disk := Function.update s.disk (place (s.bufs b).key) x, status := r }
      (b :: rest) := { h with
  queued := { h.queued with }
  working := by
    refine ⟨hblock, .inr ⟨_, rfl, fun hclean => ?_⟩⟩
    rw [hdirty] at hclean
    cases hclean
  ok := by
    intro y
    refine { h.ok y with insl := fun hinsl => ?_ }
    obtain ⟨hdev, hvalid, hdata⟩ := (h.ok y).insl hinsl
    refine ⟨hdev, hvalid, ?_⟩
    dsimp only
    rcases eq_or_ne y b with rfl | hne
    · rw [Function.update_self, hx hinsl]
    · rw [Function.update_of_ne]
      · exact hdata
      · exact fun e => hne (h.apart y b hdev (h.dev_of_mem List.mem_cons_self) e) }

/-- A busy device works on the first buffer of the queue. -/
theorem of_busy {rs : Regs} {out : Option α} (h : Inv s q) (hdev : s.device = .busy rs out) :
    ∃ b rest, q = b :: rest ∧ (s.bufs b).blockno < fsSize ∧ rs = regs (s.bufs b) ∧
      out = outsl (s.bufs b) := by
  have hwork := h.working
  cases q with
  | nil =>
    rw [Working, hdev] at hwork
    cases hwork
  | cons b rest =>
    obtain ⟨hblock, hbusy | ⟨input, hdone, -⟩⟩ := hwork
    · injection hdev.symm.trans hbusy with hrs hout
      exact ⟨b, rest, rfl, hblock, hrs, hout⟩
    · cases hdev.symm.trans hdone

theorem finish {rs : Regs} {out : Option α} (h : Inv s q) (hdev : s.device = .busy rs out)
    (hok : s.Fits (.finish r x)) : Inv (s.finish rs out r x) q := by
  obtain ⟨b, rest, rfl, hblock, rfl, rfl⟩ := h.of_busy hdev
  rw [Faulty.finish, complete_request _ hblock, regs_place hblock]
  cases hdirty : (s.bufs b).dirty with
  | false =>
    have hcmd : (regs (s.bufs b)).cmd = cmdRead := by simp [regs, hdirty]
    split
    · rw [answer, written, if_neg (by simp [hdirty]), if_neg (by simp [hdirty])]
      exact h.finishRead hblock fun _ => rfl
    · exact h.finishRead hblock fun hr => absurd hr ‹_›
  | true =>
    have hcmd : (regs (s.bufs b)).cmd ≠ cmdRead := by simp [regs, hdirty, cmdWrite, cmdRead]
    rw [if_neg hcmd, answer, written, if_pos hdirty, if_pos hdirty]
    split
    · exact h.finishWrite hblock hdirty fun _ => rfl
    · exact h.finishWrite hblock hdirty fun hinsl =>
        (hok b h.queued.holds.head hdirty hinsl).resolve_left ‹_›

/-- A failed write of data that only `insl` has put there leaves a valid buffer that is not
genuine. -/
theorem fits_finish {rs : Regs} {out : Option α} (h : Inv s q) (hdev : s.device = .busy rs out)
    (hgenuine : ∀ b, ((s.finish rs out r x).bufs b).valid = true →
      (s.finish rs out r x).Genuine b) :
    s.Fits (.finish r x) := by
  intro b hhead hdirty hinsl
  rw [or_iff_not_imp_left]
  intro hr
  obtain ⟨b', rest, rfl, hblock, rfl, rfl⟩ := h.of_busy hdev
  obtain rfl := Option.some.inj (hhead.symm.trans h.queued.holds.head)
  have hcmd : (regs (s.bufs b)).cmd ≠ cmdRead := by simp [regs, hdirty, cmdWrite, cmdRead]
  rw [Faulty.finish, if_neg hr, if_neg hcmd, regs_place hblock] at hgenuine
  rcases hgenuine b ((h.ok b).dirty hdirty) with ⟨-, hdata⟩ | hkernel
  · dsimp only at hdata
    rw [Function.update_self] at hdata
    exact hdata.symm
  · cases hinsl.symm.trans hkernel

theorem iderw [DecidableEq ι] (h : Inv s q) (hp : s.pc p = .out) (hlock : s.lock b = some p)
    (ht : s.toState.iderw p b = some t) : Inv { s with toState := t } (q ++ [b]) := by
  rw [State.iderw] at ht
  split at ht
  · cases ht
  · rename_i hguard
    have hpush := h.queued.push hp hlock fun hsync => hguard (.inl hsync)
    have hhead := hpush.holds.head
    cases q with
    | nil =>
      rw [if_pos (show (s.queue.push nBuf b).head = some b from hhead)] at ht
      exact h.toCached.idestart (by rfl) (by rfl) (by rfl) hpush ht
    | cons x q =>
      have hne : (s.queue.push nBuf b).head ≠ some b := by
        rw [hhead]
        intro e
        obtain rfl := Option.some.inj e
        exact h.queued.notMem hp (.inr hlock) List.mem_cons_self
      rw [if_neg hne] at ht
      obtain rfl := Option.some.inj ht
      exact { h.toCached.congr rfl rfl rfl with queued := hpush, working := h.working }

/-- `ideintr` marks the first buffer as valid in any case. -/
theorem ideintr_head {input : Option α} (hhead : s.queue.head = some b)
    (hs : { s with device := .idle }.ideintr input = some s') :
    (s'.bufs b).valid = true ∧
      s'.origin b = if (s.bufs b).dirty = false ∧ 0 ≤ idewait true s.status then some .insl
        else s.origin b := by
  obtain ⟨t, ht, rfl⟩ := Option.map_eq_some_iff.mp hs
  rw [State.ideintr] at ht
  rw [hhead] at ht ⊢
  dsimp only at ht ⊢
  refine ⟨?_, Function.update_self ..⟩
  cases hnext : (s.queue.pop b).head with rw [hnext] at ht
  | none =>
    obtain rfl := Option.some.inj ht
    rw [State.setBuf_self]
  | some b' =>
    dsimp only [State.idestart] at ht
    obtain ⟨-, hsome⟩ := Option.ite_none_left_eq_some.mp ht
    obtain rfl := Option.some.inj hsome
    rw [State.setBuf_self]

/-- A failed read of a buffer with nothing in it leaves a valid buffer that is not genuine. -/
theorem fits_intr {input : Option α} (hs : { s with device := .idle }.ideintr input = some s')
    (hgenuine : ∀ b, (s'.bufs b).valid = true → s'.Genuine b) : s.Fits .intr := by
  intro b hhead _ hnone
  by_contra hr
  obtain ⟨hvalid, horigin⟩ := ideintr_head hhead hs
  rw [if_neg fun h => hr h.2, hnone] at horigin
  rcases hgenuine b hvalid with ⟨hinsl, -⟩ | hkernel
  · cases horigin.symm.trans hinsl
  · cases horigin.symm.trans hkernel

/-- **The interrupt.** For a read the data is there, or the kernel has stored some before; for a
write the buffer keeps what it had. -/
theorem intr {input : Option α} (h : Inv s q) (hok : s.Fits .intr) (hdev : s.device = .done input)
    (hs : { s with device := .idle }.ideintr input = some s') : ∃ rest, Inv s' rest := by
  have hwork := h.working
  cases q with
  | nil =>
    rw [Working, hdev] at hwork
    cases hwork
  | cons b rest =>
    obtain ⟨-, hbusy | ⟨input', hdone, hread⟩⟩ := hwork
    · rw [hdev] at hbusy
      cases hbusy
    · rw [hdev] at hdone
      obtain rfl := Device.done.inj hdone
      have hhead : s.queue.head = some b := h.queued.holds.head
      obtain ⟨t, ht, rfl⟩ := Option.map_eq_some_iff.mp hs
      rw [State.ideintr] at ht
      rw [hhead] at ht ⊢
      dsimp only at ht ⊢
      generalize hbuf : Buf.mk true false (s.bufs b).dev (s.bufs b).blockno (s.bufs b).refcnt
        (if (s.bufs b).dirty = true then (s.bufs b).data
          else (if 0 ≤ idewait true s.status then input else none).getD (s.bufs b).data) = buf at ht
      generalize ho : (if (s.bufs b).dirty = false ∧ 0 ≤ idewait true s.status then some Origin.insl
        else s.origin b) = o
      have hsync : Synced buf := by rw [← hbuf]; exact ⟨rfl, rfl⟩
      have hbufOk : BufOk s.disk buf o := by
        subst hbuf ho
        by_cases hfetch : (s.bufs b).dirty = false ∧ 0 ≤ idewait true s.status
        · obtain rfl := hread hfetch.1 hfetch.2
          rw [if_pos hfetch, if_neg (by simp [hfetch.1]), if_pos hfetch.2]
          exact ⟨fun _ => ⟨h.dev_of_mem List.mem_cons_self, rfl, rfl⟩, by simp, by simp, by simp⟩
        · -- nothing is fetched, so the data stays as it was
          have hdata : (if (s.bufs b).dirty = true then (s.bufs b).data
              else (if 0 ≤ idewait true s.status then input else none).getD (s.bufs b).data) =
              (s.bufs b).data := by
            split_ifs with hdirty hr
            · rfl
            · exact absurd ⟨by simpa using hdirty, hr⟩ hfetch
            · rfl
          rw [if_neg hfetch, hdata]
          refine ⟨fun hinsl => ⟨h.dev_of_mem List.mem_cons_self, rfl, ((h.ok b).insl hinsl).2.2⟩,
            (h.ok b).kernel, fun _ hnone => ?_, by simp⟩
          cases hdirty : (s.bufs b).dirty with
          | false => exact hfetch ⟨hdirty, hok b hhead hdirty hnone⟩
          | true => exact (h.ok b).valid ((h.ok b).dirty hdirty) hnone
      have hcached : Cached (s.put b buf o) := by
        refine h.toCached.setData (h.dev_of_mem List.mem_cons_self) ?_ hbufOk
        rw [← hbuf]
        rfl
      have hpop := h.queued.pop hsync
      have hnext : (s.queue.pop b).head = rest.head? := hpop.holds.head
      rw [hnext] at ht
      cases rest with
      | nil =>
        obtain rfl := Option.some.inj ht
        exact ⟨[], { hcached.congr (by rfl) (by rfl) (by rfl) with queued := hpop, working := rfl }⟩
      | cons b' rest =>
        exact ⟨b' :: rest, hcached.idestart (by rfl) (by rfl) (by rfl) hpop ht⟩

/-- **A step** keeps the invariant, if it fits. -/
theorem step [DecidableEq ι] {e : FaultEvent ι α} (h : Inv s q) (hok : s.Fits e)
    (hs : s.step e = some s') : ∃ q', Inv s' q' := by
  cases e with
  | bget p b k =>
    obtain ⟨⟨hp, hlock, hk⟩, hs⟩ := Option.ite_none_right_eq_some.mp hs
    exact ⟨q, h.bget hp hlock hk hs⟩
  | brelse p b =>
    obtain ⟨⟨hp, hlock⟩, ⟨⟩⟩ := Option.ite_none_right_eq_some.mp hs
    exact ⟨q, h.unlock hp hlock⟩
  | store p b x =>
    obtain ⟨⟨hp, hlock⟩, ⟨⟩⟩ := Option.ite_none_right_eq_some.mp hs
    refine ⟨q, h.put hp (.inr hlock) ?_⟩
    refine h.toCached.setData (h.locked b p hlock) rfl
      ⟨nofun, fun y hy => ?_, nofun, (h.ok b).dirty⟩
    exact Origin.kernel.inj (Option.some.inj hy)
  | setDirty p b =>
    obtain ⟨⟨hp, hlock, hvalid⟩, ⟨⟩⟩ := Option.ite_none_right_eq_some.mp hs
    have hok : BufOk s.disk { s.bufs b with dirty := true } (s.origin b) :=
      { h.ok b with dirty := fun _ => hvalid }
    have hset := h.put hp (.inr hlock) (h.toCached.setData (h.locked b p hlock) (by rfl) hok)
    rw [Faulty.put, Function.update_eq_self] at hset
    exact ⟨q, hset⟩
  | iderw p b =>
    obtain ⟨⟨hp, hlock⟩, hs⟩ := Option.ite_none_right_eq_some.mp hs
    obtain ⟨t, ht, rfl⟩ := Option.map_eq_some_iff.mp hs
    exact ⟨_, h.iderw hp hlock ht⟩
  | resume p =>
    rw [Faulty.step] at hs
    split at hs
    · cases hs
    · rename_i b i hp
      split at hs
      · obtain rfl := Option.some.inj hs
        exact ⟨q, { h.toCached.congr rfl rfl rfl with
          queued := h.queued.returns hp ‹_›, working := h.working }⟩
      · obtain rfl := Option.some.inj hs
        exact ⟨q, h⟩
  | finish r x =>
    rw [Faulty.step] at hs
    split at hs
    · rename_i rs out hdev
      obtain rfl := Option.some.inj hs
      exact ⟨q, h.finish hdev hok⟩
    · cases hs
  | intr =>
    rw [Faulty.step] at hs
    split at hs
    · exact h.intr hok ‹_› hs
    · cases hs

end Inv

theorem Booted.inv (h : Booted s) : Inv s [] where
  queued := h.ready.inv.toQueued
  working := h.ready.device
  locked := by
    intro b p hlock
    rw [h.lock b] at hlock
    cases hlock
  apart := fun b _ hb => absurd (h.dev b) hb
  ok := by
    intro b
    obtain ⟨hvalid, hdirty⟩ := h.flags b
    rw [h.origin b]
    refine ⟨nofun, nofun, ?_, ?_⟩
    · rw [hvalid]
      exact nofun
    · rw [hdirty]
      exact nofun

/-- Every valid buffer is genuine behind the step. -/
def GenuineAfter [DecidableEq ι] (s : Faulty ι α) (e : FaultEvent ι α) : Prop :=
  ∀ s', s.step e = some s' → ∀ b, (s'.bufs b).valid = true → s'.Genuine b

theorem Inv.genuineAfter_iff [DecidableEq ι] {e : FaultEvent ι α} (h : Inv s q)
    (hs : s.step e = some s') : s.GenuineAfter e ↔ s.Fits e := by
  constructor
  · intro hgenuine
    have hafter := hgenuine s' hs
    cases e with
    | finish r x =>
      rw [Faulty.step] at hs
      split at hs
      · obtain rfl := Option.some.inj hs
        exact h.fits_finish ‹_› hafter
      · cases hs
    | intr =>
      rw [Faulty.step] at hs
      split at hs
      · exact fits_intr hs hafter
      · cases hs
    | _ => trivial
  · intro hok t ht b hvalid
    obtain ⟨q', h'⟩ := h.step hok ht
    exact (h'.ok b).genuine hvalid

/-- **Valid buffers are genuine**, in every state of a run, if and only if every step fits. A buffer
with `B_VALID` then has the contents of its disk block, fetched by `insl`, or what the kernel has
stored into it; this goes in particular for the buffers that `bread` returns. -/
theorem genuine_run_iff [DecidableEq ι] {s₀ s : Faulty ι α} {es : List (FaultEvent ι α)}
    (h₀ : Booted s₀) (h : exec step s₀ es = some s) :
    EachStep step GenuineAfter s₀ es ↔ EachStep step Fits s₀ es := by
  refine eachStep_congr (I := fun s => ∃ q, Inv s q) ?_ ?_ ⟨[], h₀.inv⟩ h
  · rintro s e s' ⟨q, hInv⟩ hs
    exact hInv.genuineAfter_iff hs
  · rintro s e s' ⟨q, hInv⟩ hs hok
    exact hInv.step hok hs

/-- The system at first, with old bytes in the buffers. -/
def boot : Faulty Bool ℕ where
  bufs _ := { valid := false, dirty := false, dev := 0, blockno := 0, refcnt := 0, data := 9 }
  queue := ⟨none, fun _ => none⟩
  lock _ := none
  pc _ := .out
  havedisk1 := true
  device := .idle
  disk _ := 7
  arrived := []
  started := []
  finished := 0
  status := 0x40
  origin _ := none

/-- `bread(1, 5)`, where the disk reports the status `r`. -/
def breadFive (r : ℕ) : List (FaultEvent Bool ℕ) :=
  [.bget true 0 (1, 5), .iderw true 0, .finish r 0, .intr, .resume true]

/-- A block is read, and then a write of new data for it fails. -/
def failedWrite : List (FaultEvent Bool ℕ) :=
  breadFive 0x40 ++ [.store true 0 3, .setDirty true 0, .iderw true 0, .finish 0x41 1, .intr]

/-- Every step of this run fits, though the disk reports an error: what the buffer has in the end
was stored by the kernel. -/
theorem genuine_run_iff_failedWrite :
    ∃ s, exec step boot failedWrite = some s ∧ EachStep step GenuineAfter boot failedWrite := by
  obtain ⟨s, hs⟩ : ∃ s, exec step boot failedWrite = some s :=
    Option.isSome_iff_exists.mp (by decide +kernel)
  have h₀ : Booted boot :=
    ⟨⟨rfl, rfl, fun _ => rfl, rfl, rfl, rfl⟩, fun _ => rfl, fun _ => ⟨rfl, rfl⟩, fun _ => rfl,
      fun _ => rfl⟩
  exact ⟨s, hs, (genuine_run_iff h₀ hs).mpr (by decide +kernel)⟩

/-- `bread` returns a buffer with `B_VALID` whose data is neither what the block contains nor
anything that the kernel has stored: the disk has reported `IDE_ERR` and `insl` was not called. -/
theorem bread_after_error :
    ∃ s, exec step boot (breadFive 0x41) = some s ∧ s.pc true = .out ∧ s.lock 0 = some true ∧
      (s.bufs 0).valid = true ∧ s.origin 0 = none ∧
      (s.bufs 0).data ≠ s.disk (place (s.bufs 0).key) ∧ ¬ s.Genuine 0 := by
  obtain ⟨s, hs⟩ : ∃ s, exec step boot (breadFive 0x41) = some s :=
    Option.isSome_iff_exists.mp (by decide +kernel)
  have hend : ∀ s ∈ exec step boot (breadFive 0x41), s.pc true = .out ∧ s.lock 0 = some true ∧
      (s.bufs 0).valid = true ∧ s.origin 0 = none ∧
      (s.bufs 0).data ≠ s.disk (place (s.bufs 0).key) := by
    decide +kernel
  obtain ⟨hpc, hlock, hvalid, horigin, hdata⟩ := hend s hs
  refine ⟨s, hs, hpc, hlock, hvalid, horigin, hdata, ?_⟩
  rintro (⟨hinsl, -⟩ | hkernel)
  · rw [horigin] at hinsl
    cases hinsl
  · rw [horigin] at hkernel
    cases hkernel

end Faulty

end InuOs.Ide
