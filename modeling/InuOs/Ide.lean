import InuOs.Bio
import InuOs.Lib.Chain
import InuOs.Lib.Run
import Mathlib.Data.Fintype.Card

/-!
# The disk drivers (`ide.c` and `memide.c`)

Any number of processes call `iderw` on buffers that they have locked, and the disk answers with
interrupts. A step is a critical section of `idelock` — the one of `iderw` up to `sleep`, one more
turn of its `while` loop, that of `ideintr` —, something that happens in the disk, or something that
a process does with a buffer outside of `iderw`.

* The queue is the linked list of the source: `idequeue` and the `qnext` of the buffers. It is *not*
  a list of the model; that it holds the requests in their order is a theorem.
* `idestart` writes the registers of the disk; the disk goes by what the registers say. It does the
  command and then raises an interrupt, once; commands do not fail. A command that came while the
  disk is busy would replace the one that it works on.
* `memide.c` keeps the blocks of disk 1 in memory and does each request at once. `Mem` calls its
  `iderw` for one request after the other, in the order of the queue, each at the time of the
  interrupt.

`arrived`, `started` and `finished` are not in the source: the buffers for which `iderw` and
`idestart` were called, in order, and how many interrupts were handled. The request of a call of
`iderw` is its position in `arrived`. `driver_run` is the main result.
-/

namespace InuOs.Ide

open Bio Chain Run

/-! ## The disk -/

/-- The buffers of the cache. -/
abbrev Node : Type := Fin nBuf

instance : NeZero nBuf := ⟨by decide⟩

/-- `SECTOR_SIZE` -/
def sectorSize : ℕ := 512

/-- `sector_per_block` -/
def sectorPerBlock : ℕ := bSize / sectorSize

/-- `IDE_CMD_READ` -/
def cmdRead : ℕ := 0x20

/-- `IDE_CMD_WRITE` -/
def cmdWrite : ℕ := 0x30

/-- What was written to the ports `0x1f2`, …, `0x1f7`. -/
structure Regs : Type where
  count : ℕ
  low : ℕ
  mid : ℕ
  high : ℕ
  drive : ℕ
  cmd : ℕ
  deriving DecidableEq, Repr

/-- The disk and the sector on it that the registers select. -/
def Regs.place (r : Regs) : ℕ × ℕ :=
  ((r.drive >>> 4) &&& 1, r.low + r.mid * 2 ^ 8 + r.high * 2 ^ 16 + (r.drive &&& 0x0f) * 2 ^ 24)

/-- The IDE controller. -/
inductive Device (α : Type) : Type where
  | idle
  /-- a command is being done; `out` is the data that was sent along -/
  | busy (r : Regs) (out : Option α)
  /-- the command is done and the interrupt is raised; `input` is the data to be fetched -/
  | done (input : Option α)
  deriving DecidableEq, Repr

/-! ## The driver -/

/-- Where a process is. -/
inductive Pc : Type where
  /-- not in `iderw` -/
  | out
  /-- in the `while` loop of `iderw(b)`; its request is `arrived[i]` -/
  | waits (b : Node) (i : ℕ)
  deriving DecidableEq, Repr

/-- The driver, the processes and the disks. -/
structure State (ι α : Type) : Type where
  bufs : Node → Buf α
  /-- `idequeue` and the `qnext` of all buffers -/
  queue : Queue Node
  /-- the process that has the sleep-lock of a buffer -/
  lock : Node → Option ι
  pc : ι → Pc
  havedisk1 : Bool
  device : Device α
  /-- the blocks of the two IDE disks -/
  disk : ℕ × ℕ → α
  arrived : List Node
  started : List Node
  finished : ℕ

/-- `(b->flags & (B_VALID|B_DIRTY)) == B_VALID` -/
def Synced {α : Type} (b : Buf α) : Prop := b.valid = true ∧ b.dirty = false

instance {α : Type} (b : Buf α) : Decidable (Synced b) :=
  inferInstanceAs (Decidable (_ ∧ _))

/-- The registers that `idestart` writes. -/
def regs {α : Type} (b : Buf α) : Regs :=
  let sector := b.blockno * sectorPerBlock
  { count := sectorPerBlock
    low := sector &&& 0xff
    mid := (sector >>> 8) &&& 0xff
    high := (sector >>> 16) &&& 0xff
    drive := 0xe0 ||| ((b.dev &&& 1) <<< 4) ||| ((sector >>> 24) &&& 0x0f)
    cmd := if b.dirty then cmdWrite else cmdRead }

/-- The data that `idestart` sends with the command. -/
def outsl {α : Type} (b : Buf α) : Option α := if b.dirty then some b.data else none

variable {ι α : Type}

namespace State

/-- Change one buffer. -/
def setBuf (s : State ι α) (b : Node) (buf : Buf α) : State ι α :=
  { s with bufs := Function.update s.bufs b buf }

@[simp] theorem setBuf_self (s : State ι α) (b : Node) (buf : Buf α) :
    (s.setBuf b buf).bufs b = buf := by
  simp [setBuf]

theorem setBuf_of_ne (s : State ι α) {b x : Node} (h : x ≠ b) (buf : Buf α) :
    (s.setBuf b buf).bufs x = s.bufs x := by
  simp [setBuf, h]

/-- `idestart`. Where it panics there is no next state. -/
def idestart (s : State ι α) (b : Node) : Option (State ι α) :=
  -- "incorrect blockno"
  if fsSize ≤ (s.bufs b).blockno then none
  else some { s with
    device := .busy (regs (s.bufs b)) (outsl (s.bufs b)), started := s.started ++ [b] }

/-- `ideintr`; `input` is what the disk has for `insl`. -/
def ideintr (s : State ι α) (input : Option α) : Option (State ι α) :=
  match s.queue.head with
  | none => some s
  | some b =>
    let buf := s.bufs b
    let data := if buf.dirty then buf.data else input.getD buf.data
    let s' := { s.setBuf b { buf with data := data, valid := true, dirty := false } with
      queue := s.queue.pop b, finished := s.finished + 1 }
    match s'.queue.head with
    | none => some s'
    | some b' => s'.idestart b'

/-- `iderw`, called by process `p`, up to the `while` loop. -/
def iderw [DecidableEq ι] (s : State ι α) (p : ι) (b : Node) : Option (State ι α) :=
  let buf := s.bufs b
  -- "iderw: nothing to do", "iderw: ide disk 1 not present"
  if Synced buf ∨ (buf.dev ≠ 0 ∧ s.havedisk1 = false) then none
  else
    let s' := { s with
      queue := s.queue.push nBuf b
      pc := Function.update s.pc p (.waits b s.arrived.length)
      arrived := s.arrived ++ [b] }
    if s'.queue.head = some b then s'.idestart b else some s'

/-- The disk does a command. -/
def complete (s : State ι α) (r : Regs) (out : Option α) : State ι α :=
  if r.cmd = cmdRead then { s with device := .done (some (s.disk r.place)) }
  else
    match out with
    | some data => { s with device := .done none, disk := Function.update s.disk r.place data }
    | none => { s with device := .done none }

end State

/-- What happens. -/
inductive Event (ι α : Type) : Type where
  /-- `acquiresleep(&b->lock)` -/
  | lock (p : ι) (b : Node)
  /-- `releasesleep(&b->lock)` -/
  | unlock (p : ι) (b : Node)
  /-- a change to a buffer by the process that has locked it, or by `bget` to one that nobody has -/
  | change (p : ι) (b : Node) (buf : Buf α)
  /-- `iderw(b)` -/
  | iderw (p : ι) (b : Node)
  /-- process `p` is woken up, for whatever reason, and looks at the flags of its buffer -/
  | resume (p : ι)
  /-- the disk is done with a command and raises its interrupt -/
  | complete
  /-- a processor takes the interrupt -/
  | intr

/-- One step. -/
def step [DecidableEq ι] (s : State ι α) : Event ι α → Option (State ι α)
  | .lock p b =>
    if s.pc p = .out ∧ s.lock b = none then
      some { s with lock := Function.update s.lock b (some p) }
    else none
  | .unlock p b =>
    if s.pc p = .out ∧ s.lock b = some p then
      some { s with lock := Function.update s.lock b none }
    else none
  | .change p b buf =>
    if s.pc p = .out ∧ (s.lock b = none ∨ s.lock b = some p) then some (s.setBuf b buf) else none
  | .iderw p b => if s.pc p = .out ∧ s.lock b = some p then s.iderw p b else none
  | .resume p =>
    match s.pc p with
    | .out => none
    | .waits b _ =>
      if Synced (s.bufs b) then some { s with pc := Function.update s.pc p .out } else some s
  | .complete =>
    match s.device with
    | .busy r out => some (s.complete r out)
    | _ => none
  | .intr =>
    match s.device with
    | .done input => { s with device := .idle }.ideintr input
    | _ => none

/-! ## The driver in memory -/

/-- `iderw` of `memide.c`, on a disk of `disksize` blocks. Where it panics there is no result. -/
def memIderw (disksize : ℕ) (memdisk : ℕ → α) (b : Buf α) : Option ((ℕ → α) × Buf α) :=
  -- "iderw: nothing to do", "iderw: request not for disk 1", "iderw: block out of range"
  if Synced b ∨ b.dev ≠ 1 ∨ disksize ≤ b.blockno then none
  else if b.dirty then
    some (Function.update memdisk b.blockno b.data, { b with dirty := false, valid := true })
  else some (memdisk, { b with data := memdisk b.blockno, valid := true })

/-- The buffers, the disk in memory, and the requests that are still to be done. -/
structure Mem (α : Type) : Type where
  bufs : Node → Buf α
  memdisk : ℕ → α
  waiting : List Node

/-- Requests are done one at a time: the oldest one when the interrupt driver takes an interrupt. -/
def Mem.step (disksize : ℕ) (t : Mem α) : Event ι α → Option (Mem α)
  | .change _ b buf => some { t with bufs := Function.update t.bufs b buf }
  | .iderw _ b => some { t with waiting := t.waiting ++ [b] }
  | .intr =>
    match t.waiting with
    | [] => some t
    | b :: rest =>
      (memIderw disksize t.memdisk (t.bufs b)).map fun r =>
        { bufs := Function.update t.bufs b r.2, memdisk := r.1, waiting := rest }
  | .lock _ _ | .unlock _ _ | .resume _ | .complete => some t

/-- The same buffers and the same disk 1, and no requests. -/
def Mem.of (s : State ι α) : Mem α :=
  { bufs := s.bufs, memdisk := fun k => s.disk (1, k), waiting := [] }

/-! ## The registers -/

/-- The registers select the disk and the block that the buffer is for. -/
theorem regs_place {b : Buf α} (h : b.blockno < fsSize) : (regs b).place = place b.key := by
  have hsector : b.blockno * sectorPerBlock = b.blockno := by
    rw [show sectorPerBlock = 1 from rfl, Nat.mul_one]
  have hb : b.blockno < 1000 := h
  have hlow : b.blockno &&& 0xff = b.blockno % 2 ^ 8 := Nat.and_two_pow_sub_one_eq_mod _ 8
  have hmid : (b.blockno >>> 8) &&& 0xff = b.blockno / 2 ^ 8 := by
    rw [Nat.shiftRight_eq_div_pow, show (0xff : ℕ) = 2 ^ 8 - 1 from rfl,
      Nat.and_two_pow_sub_one_eq_mod]
    omega
  have hhigh : b.blockno >>> 16 = 0 := by rw [Nat.shiftRight_eq_div_pow]; omega
  have htop : b.blockno >>> 24 = 0 := by rw [Nat.shiftRight_eq_div_pow]; omega
  have hdrive : b.dev &&& 1 = b.dev % 2 := Nat.and_one_is_mod b.dev
  rw [regs, Regs.place, place, Buf.key]
  rw [hsector, hlow, hmid, hhigh, htop, hdrive]
  rcases Nat.mod_two_eq_zero_or_one b.dev with hdev | hdev
  · rw [hdev]
    refine Prod.ext (by simp) ?_
    simp
    omega
  · rw [hdev]
    refine Prod.ext (by simp) ?_
    simp
    omega

/-! ## The queue and the disk -/

/-- What the disk has for `insl` when it is done with the request for a buffer. -/
def answer (disk : ℕ × ℕ → α) (b : Buf α) : Option α :=
  if b.dirty then none else some (disk (place b.key))

/-- The disks after the request for a buffer. -/
def written (disk : ℕ × ℕ → α) (b : Buf α) : ℕ × ℕ → α :=
  if b.dirty then Function.update disk (place b.key) b.data else disk

/-- The buffer after its request. -/
def served (disk : ℕ × ℕ → α) (b : Buf α) : Buf α :=
  { b with
    data := if b.dirty then b.data else disk (place b.key)
    valid := true
    dirty := false }

/-- What `ideintr` makes of the buffer, with the answer of the disk. -/
theorem served_answer (disk : ℕ × ℕ → α) (b : Buf α) :
    { b with
      data := if b.dirty then b.data else (answer disk b).getD b.data
      valid := true
      dirty := false } = served disk b := by
  rw [served, answer]
  split <;> rfl

theorem served_synced (disk : ℕ × ℕ → α) (b : Buf α) : Synced (served disk b) := ⟨rfl, rfl⟩

/-- The disk does what `idestart` has asked for. -/
theorem complete_request (s : State ι α) {b : Buf α} (h : b.blockno < fsSize) :
    s.complete (regs b) (outsl b) =
      { s with device := .done (answer s.disk b), disk := written s.disk b } := by
  have hplace := regs_place h
  cases hdirty : b.dirty with
  | true =>
    have hcmd : (regs b).cmd ≠ cmdRead := by simp [regs, hdirty, cmdWrite, cmdRead]
    simp [State.complete, hcmd, outsl, answer, written, hdirty, hplace]
  | false =>
    have hcmd : (regs b).cmd = cmdRead := by simp [regs, hdirty]
    simp [State.complete, hcmd, answer, written, hdirty, hplace]

/-- The disk works on the first request, or is done with it and has raised the interrupt. -/
def InProgress (s : State ι α) : List Node → Prop
  | [] => s.device = .idle
  | b :: _ => (s.bufs b).blockno < fsSize ∧
    (s.device = .busy (regs (s.bufs b)) (outsl (s.bufs b)) ∨
      s.device = .done (answer s.disk (s.bufs b)) ∧
        ((s.bufs b).dirty = true → s.disk (place (s.bufs b).key) = (s.bufs b).data))

/-- `q` is what the queue holds. -/
structure Queued (s : State ι α) (q : List Node) : Prop where
  holds : s.queue.Holds q
  order : q = s.arrived.drop s.finished
  count : s.finished ≤ s.arrived.length
  /-- a process in `iderw` has locked its buffer, and its request is done when the flags say so -/
  waits : ∀ p b i, s.pc p = .waits b i →
    s.lock b = some p ∧ s.arrived[i]? = some b ∧ (Synced (s.bufs b) ↔ i < s.finished)
  /-- for each request in the queue there is a process in `iderw` -/
  waited : ∀ b ∈ q, ∃ p i, s.pc p = .waits b i ∧ s.finished ≤ i

/-- The invariant. -/
structure Inv (s : State ι α) (q : List Node) : Prop extends Queued s q where
  inProgress : InProgress s q
  started : s.started = s.arrived.take s.finished ++ q.head?.toList

variable {s s' : State ι α} {q rest : List Node} {p : ι} {b : Node} {buf : Buf α}

namespace Queued

theorem not_synced (h : Queued s q) (hb : b ∈ q) : ¬ Synced (s.bufs b) := by
  obtain ⟨p, i, hp, hi⟩ := h.waited b hb
  intro hsync
  have := (h.waits p b i hp).2.2.mp hsync
  omega

/-- Nobody in `iderw` waits for a buffer that is nobody's, or of a process outside of `iderw`. -/
theorem not_waits (h : Queued s q) (hp : s.pc p = .out)
    (hlock : s.lock b = none ∨ s.lock b = some p) (p' : ι) (i : ℕ) : s.pc p' ≠ .waits b i := by
  intro hp'
  have hlock' := (h.waits p' b i hp').1
  rcases hlock with hlock | hlock
  · rw [hlock] at hlock'
    exact nomatch hlock'
  · rw [hlock] at hlock'
    obtain rfl := Option.some.inj hlock'
    rw [hp] at hp'
    exact nomatch hp'

/-- Such a buffer is not in the queue. -/
theorem notMem (h : Queued s q) (hp : s.pc p = .out)
    (hlock : s.lock b = none ∨ s.lock b = some p) : b ∉ q := by
  intro hb
  obtain ⟨p', i, hp', -⟩ := h.waited b hb
  exact h.not_waits hp hlock p' i hp'

/-- The first request in the queue is the oldest one that is not done. -/
theorem arrived_finished (h : Queued s (b :: rest)) : s.arrived[s.finished]? = some b := by
  have hget : (s.arrived.drop s.finished)[0]? = some b := by rw [← h.order]; rfl
  rwa [List.getElem?_drop, Nat.add_zero] at hget

theorem setBuf (h : Queued s q) (hp : s.pc p = .out)
    (hlock : s.lock b = none ∨ s.lock b = some p) : Queued (s.setBuf b buf) q := { h with
  waits := by
    intro p' b' i hp'
    have hb' : b' ≠ b := by
      rintro rfl
      exact h.not_waits hp hlock p' i hp'
    rw [State.setBuf_of_ne s hb']
    exact h.waits p' b' i hp' }

theorem lock (h : Queued s q) (hlock : s.lock b = none) :
    Queued { s with lock := Function.update s.lock b (some p) } q := { h with
  waits := by
    intro p' b' i hp'
    obtain ⟨hlock', hrest⟩ := h.waits p' b' i hp'
    refine ⟨?_, hrest⟩
    dsimp only
    rw [Function.update_of_ne]
    · exact hlock'
    · rintro rfl
      rw [hlock] at hlock'
      exact nomatch hlock' }

theorem unlock (h : Queued s q) (hp : s.pc p = .out) (hlock : s.lock b = some p) :
    Queued { s with lock := Function.update s.lock b none } q := { h with
  waits := by
    intro p' b' i hp'
    obtain ⟨hlock', hrest⟩ := h.waits p' b' i hp'
    refine ⟨?_, hrest⟩
    dsimp only
    rw [Function.update_of_ne]
    · exact hlock'
    · rintro rfl
      exact h.not_waits hp (.inr hlock) p' i hp' }

/-- `iderw` returns. -/
theorem returns [DecidableEq ι] {i : ℕ} (h : Queued s q) (hp : s.pc p = .waits b i)
    (hsync : Synced (s.bufs b)) : Queued { s with pc := Function.update s.pc p .out } q := { h with
  waits := by
    intro p' b' i' hp'
    dsimp only at hp'
    rw [Function.update_apply] at hp'
    split at hp'
    · exact nomatch hp'
    · exact h.waits p' b' i' hp'
  waited := by
    intro b' hb'
    obtain ⟨p', i', hp', hi'⟩ := h.waited b' hb'
    refine ⟨p', i', ?_, hi'⟩
    dsimp only
    rw [Function.update_of_ne]
    · exact hp'
    · rintro rfl
      rw [hp] at hp'
      injection hp' with hbb
      exact h.not_synced hb' (hbb ▸ hsync) }

/-- A new request comes last. -/
theorem push [DecidableEq ι] (h : Queued s q) (hp : s.pc p = .out) (hlock : s.lock b = some p)
    (hsync : ¬ Synced (s.bufs b)) :
    Queued { s with
      queue := s.queue.push nBuf b
      pc := Function.update s.pc p (.waits b s.arrived.length)
      arrived := s.arrived ++ [b] } (q ++ [b]) where
  holds := by
    refine h.holds.push (h.notMem hp (.inr hlock)) ?_
    have hcard := h.holds.nodup.length_le_card
    rwa [Fintype.card_fin] at hcard
  order := by
    rw [List.drop_append_of_le_length h.count, ← h.order]
  count := h.count.trans (by rw [List.length_append]; exact Nat.le_add_right _ _)
  waits := by
    intro p' b' i hp'
    dsimp only at hp' ⊢
    rcases eq_or_ne p' p with rfl | hne
    · rw [Function.update_self] at hp'
      injection hp' with hbb hi
      subst hbb hi
      refine ⟨hlock, List.getElem?_concat_length, ?_⟩
      have := h.count
      exact ⟨fun hs => absurd hs hsync, fun hi => by omega⟩
    · rw [Function.update_of_ne hne] at hp'
      obtain ⟨hlock', hget, hiff⟩ := h.waits p' b' i hp'
      refine ⟨hlock', ?_, hiff⟩
      rw [List.getElem?_append_left (List.getElem?_eq_some_iff.mp hget).1, hget]
  waited := by
    intro b' hb'
    dsimp only
    rcases List.mem_append.mp hb' with hb' | hb'
    · obtain ⟨p', i, hp', hi⟩ := h.waited b' hb'
      refine ⟨p', i, ?_, hi⟩
      rw [Function.update_of_ne]
      · exact hp'
      · rintro rfl
        rw [hp] at hp'
        exact nomatch hp'
    · obtain rfl := List.mem_singleton.mp hb'
      exact ⟨p, s.arrived.length, Function.update_self _ _ _, h.count⟩

/-- The first request is done. -/
theorem pop (h : Queued s (b :: rest)) (hsync : Synced buf) :
    Queued { s.setBuf b buf with
      queue := s.queue.pop b, device := .idle, finished := s.finished + 1 } rest where
  holds := h.holds.pop
  order := by
    have htail := congrArg List.tail h.order
    rwa [List.tail_cons, List.tail_drop] at htail
  count := (List.getElem?_eq_some_iff.mp h.arrived_finished).1
  waits := by
    intro p' b' i hp'
    obtain ⟨hlock, hget, hiff⟩ := h.waits p' b' i hp'
    refine ⟨hlock, hget, ?_⟩
    dsimp only
    rcases eq_or_ne b' b with rfl | hne
    · rw [State.setBuf_self]
      -- the request of the process is the one that the queue starts with, as no buffer is in it
      -- twice
      have hi : ¬ i < s.finished := fun hi => h.not_synced List.mem_cons_self (hiff.mpr hi)
      have hlast : i = s.finished := by
        obtain ⟨k, rfl⟩ : ∃ k, i = s.finished + k := ⟨i - s.finished, by omega⟩
        rw [← List.getElem?_drop, ← h.order] at hget
        cases k with
        | zero => rfl
        | succ k =>
          rw [List.getElem?_cons_succ] at hget
          exact absurd (List.mem_of_getElem? hget) (List.nodup_cons.mp h.holds.nodup).1
      exact ⟨fun _ => by omega, fun _ => hsync⟩
    · rw [State.setBuf_of_ne s hne, hiff]
      have hi : i ≠ s.finished := by
        rintro rfl
        rw [h.arrived_finished] at hget
        exact hne (Option.some.inj hget).symm
      omega
  waited := by
    intro b' hb'
    obtain ⟨p', i, hp', hi⟩ := h.waited b' (List.mem_cons_of_mem b hb')
    refine ⟨p', i, hp', ?_⟩
    have hne : i ≠ s.finished := by
      rintro rfl
      have hget := (h.waits p' b' s.finished hp').2.1
      rw [h.arrived_finished] at hget
      exact (List.nodup_cons.mp h.holds.nodup).1 (Option.some.inj hget ▸ hb')
    dsimp only
    omega

end Queued

/-- `idestart` on the first buffer in the queue. -/
theorem idestart_spec (h : Queued s (b :: rest)) (hstarted : s.started = s.arrived.take s.finished)
    (hs : s.idestart b = some s') :
    Inv s' (b :: rest) ∧ s'.bufs = s.bufs ∧ s'.disk = s.disk ∧ ∀ input,
      s'.device ≠ .done input := by
  rw [State.idestart] at hs
  split at hs
  · exact nomatch hs
  · rename_i hblock
    obtain rfl := Option.some.inj hs
    refine ⟨{ h with inProgress := ⟨not_le.mp hblock, .inl rfl⟩, started := ?_ }, rfl, rfl, nofun⟩
    rw [hstarted]
    rfl

namespace Inv

theorem setBuf (h : Inv s q) (hp : s.pc p = .out) (hlock : s.lock b = none ∨ s.lock b = some p) :
    Inv (s.setBuf b buf) q where
  toQueued := h.toQueued.setBuf hp hlock
  inProgress := by
    have hb := h.notMem hp hlock
    have hdev := h.inProgress
    cases q with
    | nil => exact hdev
    | cons x q =>
      have hx : x ≠ b := fun e => hb (e ▸ List.mem_cons_self)
      rw [InProgress, State.setBuf_of_ne s hx]
      exact hdev
  started := h.started

/-- The disk is done with the first request. -/
theorem complete {r : Regs} {out : Option α} (h : Inv s q) (hdev : s.device = .busy r out) :
    ∃ b rest, q = b :: rest ∧ Inv (s.complete r out) q ∧ s.complete r out =
      { s with device := .done (answer s.disk (s.bufs b)), disk := written s.disk (s.bufs b) } := by
  have hprog := h.inProgress
  cases q with
  | nil =>
    rw [InProgress, hdev] at hprog
    exact nomatch hprog
  | cons b q =>
    obtain ⟨hblock, hbusy | ⟨hdone, -⟩⟩ := hprog
    · rw [hdev] at hbusy
      injection hbusy with hr hout
      subst hr hout
      refine ⟨b, q, rfl, ?_, complete_request s hblock⟩
      rw [complete_request s hblock]
      refine { h with inProgress := ⟨hblock, .inr ⟨?_, fun hdirty => ?_⟩⟩ }
      · rw [answer, answer]
        split
        · rfl
        · rw [written, if_neg ‹_›]
      · rw [written, if_pos hdirty]
        exact Function.update_self _ _ _
    · rw [hdev] at hdone
      exact nomatch hdone

/-- `iderw`, up to the loop. -/
theorem iderw [DecidableEq ι] (h : Inv s q) (hp : s.pc p = .out) (hlock : s.lock b = some p)
    (hs : s.iderw p b = some s') :
    Inv s' (q ++ [b]) ∧ s'.bufs = s.bufs ∧ s'.disk = s.disk ∧
      (q = [] → ∀ input, s'.device ≠ .done input) ∧ (q ≠ [] → s'.device = s.device) := by
  rw [State.iderw] at hs
  split at hs
  · exact nomatch hs
  · rename_i hguard
    have hpush := h.toQueued.push hp hlock fun hsync => hguard (.inl hsync)
    have hhead := hpush.holds.head
    have htake : s.started = (s.arrived ++ [b]).take s.finished ++ q.head?.toList := by
      rw [List.take_append_of_le_length h.count]
      exact h.started
    cases q with
    | nil =>
      rw [if_pos (show (s.queue.push nBuf b).head = some b from hhead)] at hs
      rw [List.head?_nil, Option.toList_none, List.append_nil] at htake
      obtain ⟨hInv, hbufs, hdisk, hdone⟩ := idestart_spec hpush htake hs
      exact ⟨hInv, hbufs, hdisk, fun _ => hdone, fun hne => absurd rfl hne⟩
    | cons x q =>
      have hne : (s.queue.push nBuf b).head ≠ some b := by
        rw [hhead]
        intro e
        obtain rfl := Option.some.inj e
        exact h.notMem hp (.inr hlock) List.mem_cons_self
      rw [if_neg hne] at hs
      obtain rfl := Option.some.inj hs
      exact ⟨{ hpush with inProgress := h.inProgress, started := htake }, rfl, rfl, nofun,
        fun _ => rfl⟩

/-- The interrupt handler, for an interrupt of the disk. -/
theorem intr {input : Option α} (h : Inv s q) (hdev : s.device = .done input)
    (hs : { s with device := .idle }.ideintr input = some s') :
    ∃ b rest, q = b :: rest ∧ Inv s' rest ∧
      s'.bufs = Function.update s.bufs b (served s.disk (s.bufs b)) ∧ s'.disk = s.disk ∧
      ∀ input, s'.device ≠ .done input := by
  have hprog := h.inProgress
  cases q with
  | nil =>
    rw [InProgress, hdev] at hprog
    exact nomatch hprog
  | cons b rest =>
    refine ⟨b, rest, rfl, ?_⟩
    obtain ⟨-, hbusy | ⟨hdone, -⟩⟩ := hprog
    · rw [hdev] at hbusy
      exact nomatch hbusy
    · rw [hdev] at hdone
      obtain rfl := Device.done.inj hdone
      have hpop := h.toQueued.pop (served_synced s.disk (s.bufs b))
      have hstarted : s.started = s.arrived.take (s.finished + 1) := by
        rw [h.started, List.take_add_one, h.arrived_finished]
        rfl
      have hhead : s.queue.head = some b := h.holds.head
      rw [State.ideintr] at hs
      rw [hhead] at hs
      dsimp only at hs
      rw [served_answer] at hs
      have hnext : (s.queue.pop b).head = rest.head? := hpop.holds.head
      cases rest with
      | nil =>
        rw [hnext] at hs
        obtain rfl := Option.some.inj hs
        refine ⟨{ hpop with inProgress := rfl, started := ?_ }, rfl, rfl, nofun⟩
        rw [List.head?_nil, Option.toList_none, List.append_nil]
        exact hstarted
      | cons b' rest =>
        rw [hnext] at hs
        exact idestart_spec hpop hstarted hs

end Inv

/-! ## The same requests on the driver in memory -/

/-- The request is one that `memide.c` takes: for disk 1 and a block that is there. -/
def ForMemide (disksize : ℕ) (s : State ι α) : Event ι α → Prop
  | .iderw _ b => (s.bufs b).dev = 1 ∧ (s.bufs b).blockno < disksize
  | _ => True

instance (disksize : ℕ) (s : State ι α) : ∀ e, Decidable (ForMemide disksize s e)
  | .iderw _ _ => inferInstanceAs (Decidable (_ ∧ _))
  | .lock _ _ | .unlock _ _ | .change _ _ _ | .resume _ | .complete | .intr => isTrue trivial

/-- `m`, with the data of a request that the disk has done and whose interrupt was not taken yet. -/
def State.landed (s : State ι α) (m : ℕ → α) : ℕ → α :=
  match s.device, s.queue.head with
  | .done _, some b =>
    if (s.bufs b).dirty then Function.update m (s.bufs b).blockno (s.bufs b).data else m
  | _, _ => m

theorem landed_of_ne_done (h : ∀ input, s.device ≠ .done input) (m : ℕ → α) : s.landed m = m := by
  rw [State.landed]
  split
  · exact absurd ‹_› (h _)
  · rfl

theorem place_of_disk1 (h : buf.dev = 1) : place buf.key = (1, buf.blockno) := by
  simp [place, Buf.key, h]

/-- `t` is as far as `s`, with the requests of `q` still to be done. -/
structure Refines (disksize : ℕ) (s : State ι α) (q : List Node) (t : Mem α) : Prop where
  waiting : t.waiting = q
  bufs : t.bufs = s.bufs
  disk : ∀ k, s.disk (1, k) = s.landed t.memdisk k
  accepted : ∀ b ∈ q, (s.bufs b).dev = 1 ∧ (s.bufs b).blockno < disksize

variable {disksize : ℕ} {t : Mem α}

theorem Refines.setBuf (h : Refines disksize s q t) (hhead : s.queue.head = q.head?) (hb : b ∉ q) :
    Refines disksize (s.setBuf b buf) q { t with bufs := Function.update t.bufs b buf } where
  waiting := h.waiting
  bufs := by rw [h.bufs]; rfl
  disk := by
    intro k
    have hlanded : (s.setBuf b buf).landed t.memdisk = s.landed t.memdisk := by
      cases q with
      | nil =>
        have hnone : s.queue.head = none := hhead
        cases hdev : s.device <;> simp [State.landed, State.setBuf, hnone, hdev]
      | cons x q =>
        have hx : x ≠ b := fun e => hb (e ▸ List.mem_cons_self)
        have hsome : s.queue.head = some x := hhead
        cases hdev : s.device <;> simp [State.landed, State.setBuf, hsome, hdev, hx]
    rw [hlanded]
    exact h.disk k
  accepted := by
    intro x hx
    have hne : x ≠ b := fun e => hb (e ▸ hx)
    rw [State.setBuf_of_ne s hne]
    exact h.accepted x hx

/-- The disk is done with the first request: its data has landed. -/
theorem Refines.complete (h : Refines disksize s (b :: rest) t) (hhead : s.queue.head = some b)
    (hdev : ∀ input, s.device ≠ .done input) :
    Refines disksize { s with
      device := .done (answer s.disk (s.bufs b)), disk := written s.disk (s.bufs b) }
      (b :: rest) t := { h with
  disk := by
    intro k
    have hplace := place_of_disk1 (h.accepted b List.mem_cons_self).1
    have hdisk : s.disk (1, k) = t.memdisk k := by rw [h.disk k, landed_of_ne_done hdev]
    rw [State.landed]
    rw [hhead, written, hplace]
    dsimp only
    split
    · rcases eq_or_ne k (s.bufs b).blockno with rfl | hne
      · rw [Function.update_self, Function.update_self]
      · rw [Function.update_of_ne hne, Function.update_of_ne fun e =>
          hne (congrArg Prod.snd e), hdisk]
    · exact hdisk }

/-- A new request waits. -/
theorem Refines.iderw (h : Refines disksize s q t) (hhead : s.queue.head = q.head?)
    (hprog : InProgress s q) (hhead' : s'.queue.head = (q ++ [b]).head?) (hbufs : s'.bufs = s.bufs)
    (hdisk : s'.disk = s.disk) (hnil : q = [] → ∀ input, s'.device ≠ .done input)
    (hne : q ≠ [] → s'.device = s.device)
    (hb : (s.bufs b).dev = 1 ∧ (s.bufs b).blockno < disksize) :
    Refines disksize s' (q ++ [b]) { t with waiting := t.waiting ++ [b] } where
  waiting := by rw [h.waiting]
  bufs := by rw [hbufs, ← h.bufs]
  disk := by
    intro k
    have hlanded : s'.landed t.memdisk = s.landed t.memdisk := by
      cases q with
      | nil =>
        have hidle : s.device = .idle := hprog
        rw [landed_of_ne_done (hnil rfl), landed_of_ne_done]
        rw [hidle]
        exact nofun
      | cons x q =>
        rw [State.landed, State.landed, hne (List.cons_ne_nil x q), hhead', hhead, hbufs]
        rfl
    rw [hlanded, hdisk]
    exact h.disk k
  accepted := by
    intro x hx
    rw [hbufs]
    rcases List.mem_append.mp hx with hx | hx
    · exact h.accepted x hx
    · rw [List.mem_singleton.mp hx]
      exact hb

/-- `memide.c` does at once what the disk has done. -/
theorem Refines.memIderw {input : Option α} (h : Refines disksize s (b :: rest) t)
    (hhead : s.queue.head = some b) (hdev : s.device = .done input)
    (hsync : ¬ Synced (s.bufs b)) :
    memIderw disksize t.memdisk (t.bufs b) =
      some (s.landed t.memdisk, served s.disk (s.bufs b)) := by
  obtain ⟨hdisk1, hsize⟩ := h.accepted b List.mem_cons_self
  have hplace := place_of_disk1 hdisk1
  have hguard : ¬ (Synced (s.bufs b) ∨ (s.bufs b).dev ≠ 1 ∨ disksize ≤ (s.bufs b).blockno) := by
    rintro (hs | hs | hs)
    · exact hsync hs
    · exact hs hdisk1
    · omega
  have hlanded : s.landed t.memdisk = if (s.bufs b).dirty then
      Function.update t.memdisk (s.bufs b).blockno (s.bufs b).data else t.memdisk := by
    rw [State.landed, hdev, hhead]
  have hdisk := h.disk (s.bufs b).blockno
  rw [hlanded] at hdisk
  rw [Ide.memIderw, h.bufs, if_neg hguard, hlanded, served, hplace]
  split
  · rfl
  · rename_i hdirty
    rw [if_neg hdirty] at hdisk
    rw [Bool.not_eq_true] at hdirty
    rw [hdisk, hdirty]

/-! ## Runs -/

/-- **A step** keeps the invariant, and the driver in memory follows it. -/
theorem Inv.step [DecidableEq ι] {e : Event ι α} (h : Inv s q) (hs : step s e = some s') :
    ∃ q', Inv s' q' ∧ ∀ disksize t, Refines disksize s q t → ForMemide disksize s e →
      ∃ t', t.step disksize e = some t' ∧ Refines disksize s' q' t' := by
  cases e with
  | lock p b =>
    obtain ⟨⟨-, hlock⟩, ⟨⟩⟩ := Option.ite_none_right_eq_some.mp hs
    exact ⟨q, ⟨h.toQueued.lock hlock, h.inProgress, h.started⟩, fun disksize t hR _ =>
      ⟨t, rfl, { hR with }⟩⟩
  | unlock p b =>
    obtain ⟨⟨hp, hlock⟩, ⟨⟩⟩ := Option.ite_none_right_eq_some.mp hs
    exact ⟨q, ⟨h.toQueued.unlock hp hlock, h.inProgress, h.started⟩,
      fun disksize t hR _ => ⟨t, rfl, { hR with }⟩⟩
  | change p b buf =>
    obtain ⟨⟨hp, hlock⟩, ⟨⟩⟩ := Option.ite_none_right_eq_some.mp hs
    exact ⟨q, h.setBuf hp hlock,
      fun disksize t hR _ => ⟨_, rfl, hR.setBuf h.holds.head (h.notMem hp hlock)⟩⟩
  | iderw p b =>
    obtain ⟨⟨hp, hlock⟩, hs⟩ := Option.ite_none_right_eq_some.mp hs
    obtain ⟨hInv, hbufs, hdisk, hnil, hne⟩ := h.iderw hp hlock hs
    refine ⟨q ++ [b], hInv, fun disksize t hR hfor => ⟨_, rfl, ?_⟩⟩
    exact hR.iderw h.holds.head h.inProgress hInv.holds.head hbufs hdisk hnil hne hfor
  | resume p =>
    rw [Ide.step] at hs
    split at hs
    · exact nomatch hs
    · rename_i b i hp
      split at hs
      · obtain rfl := Option.some.inj hs
        exact ⟨q, ⟨h.toQueued.returns hp ‹_›, h.inProgress, h.started⟩,
          fun disksize t hR _ => ⟨t, rfl, { hR with }⟩⟩
      · obtain rfl := Option.some.inj hs
        exact ⟨q, h, fun disksize t hR _ => ⟨t, rfl, hR⟩⟩
  | complete =>
    rw [Ide.step] at hs
    split at hs
    · rename_i r out hdev
      obtain rfl := Option.some.inj hs
      obtain ⟨b, rest, rfl, hInv, heq⟩ := h.complete hdev
      refine ⟨b :: rest, hInv, fun disksize t hR _ => ⟨t, rfl, ?_⟩⟩
      rw [heq]
      exact hR.complete h.holds.head fun input hdone => nomatch hdev.symm.trans hdone
    · exact nomatch hs
  | intr =>
    rw [Ide.step] at hs
    split at hs
    · rename_i input hdev
      obtain ⟨b, rest, rfl, hInv, hbufs, hdisk, hdone⟩ := h.intr hdev hs
      refine ⟨rest, hInv, fun disksize t hR _ => ?_⟩
      have hmem := hR.memIderw h.holds.head hdev (h.not_synced List.mem_cons_self)
      refine ⟨_, by rw [Mem.step, hR.waiting]; dsimp only; rw [hmem]; rfl, rfl, ?_, ?_, ?_⟩
      · dsimp only
        rw [hbufs, hR.bufs]
      · intro k
        rw [landed_of_ne_done hdone, hdisk]
        exact hR.disk k
      · intro x hx
        have hne : x ≠ b := by
          rintro rfl
          exact (List.nodup_cons.mp h.holds.nodup).1 hx
        rw [hbufs, Function.update_of_ne hne]
        exact hR.accepted x (List.mem_cons_of_mem b hx)
    · exact nomatch hs

/-- The driver behind `ideinit`: no requests, and the processes have not called `iderw`. -/
structure Ready (s : State ι α) : Prop where
  queue : s.queue.head = none
  device : s.device = .idle
  pc : ∀ p, s.pc p = .out
  arrived : s.arrived = []
  started : s.started = []
  finished : s.finished = 0

theorem Ready.inv (h : Ready s) : Inv s [] where
  holds := ⟨h.queue, List.nodup_nil⟩
  order := by rw [h.arrived, List.drop_nil]
  count := by rw [h.finished]; exact Nat.zero_le _
  waits := by
    intro p b i hp
    rw [h.pc p] at hp
    exact nomatch hp
  waited := nofun
  inProgress := h.device
  started := by rw [h.started, h.finished]; rfl

theorem Ready.refines (h : Ready s) (disksize : ℕ) : Refines disksize s [] (Mem.of s) where
  waiting := rfl
  bufs := rfl
  disk := by
    intro k
    rw [landed_of_ne_done]
    · rfl
    · rw [h.device]
      exact nofun
  accepted := nofun

/-- **The interrupt-driven driver refines the one in memory.** In every state that is reached, the
queue holds the requests that are not done, in the order of the calls and none of them twice; the
disk works on the first of them or has just done it; `idestart` was called once for each request
that is done and for the one in progress, in order; and a process comes out of `iderw` once its own
request is done, not before. If `memide.c` takes the requests, then doing them in memory, one at a
time in that order, leads to the same buffers and the same disk. -/
theorem driver_run [DecidableEq ι] {s₀ s : State ι α} {es : List (Event ι α)} (h₀ : Ready s₀)
    (h : exec step s₀ es = some s) :
    ∃ q, s.queue.Holds q ∧ q = s.arrived.drop s.finished ∧ InProgress s q ∧
      s.started = s.arrived.take s.finished ++ q.head?.toList ∧
      (∀ p b i, s.pc p = .waits b i →
        s.arrived[i]? = some b ∧ (Synced (s.bufs b) ↔ i < s.finished)) ∧
      ∀ disksize, EachStep step (ForMemide disksize) s₀ es →
        ∃ t, exec (Mem.step disksize) (Mem.of s₀) es = some t ∧ t.waiting = q ∧ t.bufs = s.bufs ∧
          ∀ k, s.disk (1, k) = s.landed t.memdisk k := by
  obtain ⟨q, hInv⟩ : ∃ q, Inv s q := by
    refine exec_invariant (I := fun s => ∃ q, Inv s q) ?_ ⟨[], h₀.inv⟩ h
    rintro s e s' ⟨q, hInv⟩ hs
    obtain ⟨q', hInv', -⟩ := hInv.step hs
    exact ⟨q', hInv'⟩
  refine ⟨q, hInv.holds, hInv.order, hInv.inProgress, hInv.started,
    fun p b i hp => (hInv.waits p b i hp).2, fun disksize hfor => ?_⟩
  have hsim : ∀ (s : State ι α) t e s', (∃ q, Inv s q ∧ Refines disksize s q t) →
      ForMemide disksize s e → step s e = some s' →
      ∃ t', Mem.step disksize t e = some t' ∧ ∃ q, Inv s' q ∧ Refines disksize s' q t' := by
    rintro s t e s' ⟨q, hInv, hR⟩ hfor hs
    obtain ⟨q', hInv', hmem⟩ := hInv.step hs
    obtain ⟨t', ht', hR'⟩ := hmem disksize t hR hfor
    exact ⟨t', ht', q', hInv', hR'⟩
  obtain ⟨t, ht, q', hInv', hR⟩ :=
    exec_simulation_of_eachStep hsim ⟨[], h₀.inv, h₀.refines disksize⟩ hfor h
  have hq : q' = q := hInv'.order.trans hInv.order.symm
  exact ⟨t, ht, hR.waiting.trans hq, hR.bufs, hR.disk⟩

/-- Two processes and two buffers for block 5: one with new data for it, one that is to be read. -/
def twoUsers : State Bool ℕ where
  bufs b := ⟨b = 0, b = 0, 1, 5, 1, if b = 0 then 7 else 0⟩
  queue := ⟨none, fun _ => none⟩
  lock _ := none
  pc _ := .out
  havedisk1 := true
  device := .idle
  disk _ := 0
  arrived := []
  started := []
  finished := 0

/-- The second request comes while the first one is in progress, and its process is woken up
early. -/
def writeThenRead : List (Event Bool ℕ) :=
  [.lock false 0, .lock true 1, .iderw false 0, .iderw true 1, .complete, .resume true, .intr,
    .complete, .resume false, .intr, .resume true]

theorem driver_run_writeThenRead :
    ∃ s t, exec step twoUsers writeThenRead = some s ∧ (s.bufs 1).data = 7 ∧
      exec (Mem.step fsSize) (Mem.of twoUsers) writeThenRead = some t ∧ t.bufs = s.bufs := by
  obtain ⟨s, hs⟩ : ∃ s, exec step twoUsers writeThenRead = some s :=
    Option.isSome_iff_exists.mp (by decide +kernel)
  have hdata : (exec step twoUsers writeThenRead).map (fun s => (s.bufs 1).data) = some 7 := by
    decide +kernel
  rw [hs] at hdata
  obtain ⟨q, -, -, -, -, -, hmem⟩ := driver_run ⟨rfl, rfl, fun _ => rfl, rfl, rfl, rfl⟩ hs
  obtain ⟨t, ht, -, hbufs, -⟩ := hmem fsSize (by decide +kernel)
  exact ⟨s, t, hs, Option.some.inj hdata, ht, hbufs⟩

end InuOs.Ide
