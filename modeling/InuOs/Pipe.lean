import InuOs.Lib.Ring
import InuOs.Lib.Run

/-!
# Pipes (`pipe.c`)

Calls of `pipewrite`, `piperead` and `pipeclose` on one pipe, interleaved where they take the lock
of the pipe and where they sleep. A step is what a call does from the point where it gets the lock
to the point where it returns or goes to sleep.

* A call that sleeps may go on at any time: `wakeup` and `kill` decide when, and what is shown here
  holds whenever they do. `killed` is read once in each step, and may be anything.
* The bytes of the caller are given as a function; `n` is any integer.
* `pipeclose` may come at any time. When both ends are closed the page of the pipe is freed, and
  nothing happens on it any more: a call holds a reference to the end that it works on.

`stored` and `returned` are not in the source: the bytes that `pipewrite` has put into the pipe,
each with the number of the call that did so, and the bytes that `piperead` has taken out.
-/

namespace InuOs.Pipes

open InuOs.Ring

/-- `PIPESIZE` -/
def pipeSize : ℕ := 512

instance : NeZero pipeSize := ⟨by decide⟩

/-- `struct pipe`, without its lock. -/
structure Pipe : Type where
  data : Fin pipeSize → UInt8
  nread : UInt32
  nwrite : UInt32
  readopen : Bool
  writeopen : Bool
  stored : List (ℕ × UInt8)
  returned : List UInt8

namespace Pipe

/-- `p->data[p->nwrite++ % PIPESIZE] = b`, by call `id`. -/
def put (p : Pipe) (id : ℕ) (b : UInt8) : Pipe :=
  { p with
    data := Function.update p.data (Fin.ofNat pipeSize p.nwrite.toNat) b
    nwrite := p.nwrite + 1
    stored := p.stored ++ [(id, b)] }

/-- The byte `p->data[p->nread % PIPESIZE]`. -/
def front (p : Pipe) : UInt8 := p.data (Fin.ofNat pipeSize p.nread.toNat)

/-- `p->nread++`, with the byte taken out. -/
def take (p : Pipe) : Pipe :=
  { p with nread := p.nread + 1, returned := p.returned ++ [p.front] }

/-- How a step of `pipewrite` ends. -/
inductive Stop : Type where
  /-- `return n` -/
  | done
  /-- `return -1` -/
  | fail
  /-- in `sleep` -/
  | sleep
  deriving DecidableEq, Repr

/-- The loop of `pipewrite`, from byte `i` on with `k` bytes to go. -/
def writeLoop (id : ℕ) (addr : ℕ → UInt8) (killed : Bool) : ℕ → ℕ → Pipe → Pipe × ℕ × Stop
  | 0, i, p => (p, i, .done)
  | k + 1, i, p =>
    if p.nwrite = p.nread + 512 then
      if p.readopen = false ∨ killed then (p, i, .fail) else (p, i, .sleep)
    else writeLoop id addr killed k (i + 1) (p.put id (addr i))

/-- The second loop of `piperead`, with at most `k` bytes to go: the bytes it copies. -/
def readLoop : ℕ → Pipe → Pipe × List UInt8
  | 0, p => (p, [])
  | k + 1, p =>
    if p.nread = p.nwrite then (p, [])
    else
      let (p', bytes) := readLoop k p.take
      (p', p.front :: bytes)

end Pipe

/-- A call that sleeps. -/
inductive Call : Type where
  /-- `pipewrite(p, addr, n)` before byte `i` -/
  | write (addr : ℕ → UInt8) (n : ℤ) (i : ℕ)
  /-- `piperead(p, addr, n)` -/
  | read (n : ℤ)

/-- A pipe and the calls on it. -/
structure State : Type where
  pipe : Pipe
  /-- whether `kfree` was called for it -/
  freed : Bool
  calls : ℕ → Option Call
  /-- the number of the next call -/
  next : ℕ

/-- What a step comes to. -/
inductive Output : Type where
  | sleeps
  /-- call `id` of `pipewrite(p, addr, n)` returns `value` -/
  | wrote (id : ℕ) (addr : ℕ → UInt8) (n value : ℤ)
  /-- a call of `piperead(p, addr, n)` returns `value`, with `bytes` copied -/
  | read (n value : ℤ) (bytes : List UInt8)
  | closed

inductive Event : Type where
  | write (addr : ℕ → UInt8) (n : ℤ) (killed : Bool)
  | read (n : ℤ) (killed : Bool)
  | resume (id : ℕ) (killed : Bool)
  | close (writable : Bool)

namespace State

/-- Call `id` of `pipewrite` gets the lock, before byte `i`. -/
def writeTurn (s : State) (id : ℕ) (addr : ℕ → UInt8) (n : ℤ) (killed : Bool) (i : ℕ) :
    State × Output :=
  match s.pipe.writeLoop id addr killed (n.toNat - i) i with
  | (p, _, .done) => ({ s with pipe := p, calls := Function.update s.calls id none },
      .wrote id addr n n)
  | (p, _, .fail) => ({ s with pipe := p, calls := Function.update s.calls id none },
      .wrote id addr n (-1))
  | (p, j, .sleep) =>
    ({ s with pipe := p, calls := Function.update s.calls id (some (.write addr n j)) },
      .sleeps)

/-- Call `id` of `piperead` gets the lock. -/
def readTurn (s : State) (id : ℕ) (n : ℤ) (killed : Bool) : State × Output :=
  if s.pipe.nread = s.pipe.nwrite ∧ s.pipe.writeopen = true then
    if killed then ({ s with calls := Function.update s.calls id none }, .read n (-1) [])
    else ({ s with calls := Function.update s.calls id (some (.read n)) }, .sleeps)
  else
    let (p, bytes) := s.pipe.readLoop n.toNat
    ({ s with pipe := p, calls := Function.update s.calls id none }, .read n bytes.length bytes)

/-- `pipeclose`. -/
def close (s : State) (writable : Bool) : State :=
  let p :=
    if writable then { s.pipe with writeopen := false } else { s.pipe with readopen := false }
  { s with pipe := p, freed := !p.readopen && !p.writeopen }

/-- One step. -/
def act (s : State) (e : Event) : Option (State × Output) :=
  if s.freed then none
  else
    match e with
    | .write addr n killed => some ({ s with next := s.next + 1 }.writeTurn s.next addr n killed 0)
    | .read n killed => some ({ s with next := s.next + 1 }.readTurn s.next n killed)
    | .resume id killed =>
      match s.calls id with
      | some (.write addr n i) => some (s.writeTurn id addr n killed i)
      | some (.read n) => some (s.readTurn id n killed)
      | none => none
    | .close writable => some (s.close writable, .closed)

/-- One step, without what it comes to. -/
def step (s : State) (e : Event) : Option State := (s.act e).map Prod.fst

/-- The state behind `pipealloc`: a page with anything in it. -/
def alloc (page : Fin pipeSize → UInt8) : State where
  pipe := ⟨page, 0, 0, true, true, [], []⟩
  freed := false
  calls _ := none
  next := 0

end State

/-! ## The bytes in the pipe -/

variable {j i k : ℕ} {addr : ℕ → UInt8}

namespace Pipe

/-- The pipe holds what was stored and has not been returned. -/
structure Fifo (p : Pipe) (q : List UInt8) : Prop where
  holds : Holds p.data (2 ^ 32) p.nread.toNat p.nwrite.toNat q
  order : p.stored.map Prod.snd = p.returned ++ q

/-- The bytes that call `id` has stored. -/
def bytesOf (p : Pipe) (id : ℕ) : List UInt8 := (p.stored.filter (·.1 = id)).map Prod.snd

variable {p : Pipe} {q : List UInt8} {id : ℕ} {b : UInt8}

theorem pipeSize_dvd : pipeSize ∣ 2 ^ 32 := by decide

theorem pipeSize_lt : pipeSize < 2 ^ 32 := by decide

theorem toNat_succ (x : UInt32) : (x + 1).toNat = (x.toNat + 1) % 2 ^ 32 := UInt32.toNat_add x 1

theorem Fifo.empty_iff (h : p.Fifo q) : p.nread = p.nwrite ↔ q = [] := by
  rw [← h.holds.counter_eq_iff pipeSize_lt p.nread.toNat_lt, UInt32.toNat_inj]

theorem Fifo.full_iff (h : p.Fifo q) : p.nwrite = p.nread + 512 ↔ q.length = pipeSize := by
  rw [← h.holds.full_iff pipeSize_lt, ← UInt32.toNat_inj, UInt32.toNat_add]
  rfl

theorem Fifo.put (h : p.Fifo q) (hfull : p.nwrite ≠ p.nread + 512) (id : ℕ) (b : UInt8) :
    (p.put id b).Fifo (q ++ [b]) := by
  have hlen : q.length < pipeSize :=
    lt_of_le_of_ne h.holds.length_le fun heq => hfull (h.full_iff.mpr heq)
  refine ⟨?_, ?_⟩
  · have hpush := h.holds.push pipeSize_dvd hlen b
    rwa [← toNat_succ] at hpush
  · rw [Pipe.put, List.map_append, h.order, List.append_assoc]
    rfl

theorem Fifo.take (h : p.Fifo (b :: q)) : p.front = b ∧ p.take.Fifo q := by
  obtain ⟨hfront, hpop⟩ := h.holds.pop pipeSize_dvd
  refine ⟨hfront, ?_, ?_⟩
  · rwa [← toNat_succ] at hpop
  · rw [Pipe.take, h.order, List.append_assoc, Pipe.front, hfront]
    rfl

theorem bytesOf_put_self (p : Pipe) (id : ℕ) (b : UInt8) :
    (p.put id b).bytesOf id = p.bytesOf id ++ [b] := by
  simp [bytesOf, put]

theorem bytesOf_put_of_ne (p : Pipe) {id : ℕ} (b : UInt8) (h : j ≠ id) :
    (p.put id b).bytesOf j = p.bytesOf j := by
  simp [bytesOf, put, Ne.symm h]

/-- What the loop of `pipewrite` keeps, at byte `i` of call `id`. -/
structure Writing (id : ℕ) (addr : ℕ → UInt8) (i : ℕ) (p : Pipe) : Prop where
  fifo : ∃ q, p.Fifo q
  bytes : p.bytesOf id = (List.range i).map addr

theorem Writing.put (h : p.Writing id addr i) (hfull : p.nwrite ≠ p.nread + 512) :
    (p.put id (addr i)).Writing id addr (i + 1) := by
  obtain ⟨q, hq⟩ := h.fifo
  refine ⟨⟨_, hq.put hfull id (addr i)⟩, ?_⟩
  rw [bytesOf_put_self, h.bytes, List.range_succ, List.map_append]
  rfl

/-- What the loop of `pipewrite` comes to. -/
theorem writeLoop_spec {killed : Bool} {p p' : Pipe} {stop : Stop} (h : p.Writing id addr i)
    (hloop : p.writeLoop id addr killed k i = (p', j, stop)) :
    p'.Writing id addr j ∧ (∀ m ≠ id, p'.bytesOf m = p.bytesOf m) ∧ p'.returned = p.returned ∧
      j ≤ i + k ∧ (stop = .done → j = i + k) ∧ (stop = .fail → 0 < k) := by
  induction k generalizing i p with
  | zero =>
    obtain ⟨rfl, rfl, rfl⟩ : p = p' ∧ i = j ∧ Stop.done = stop := by simpa [writeLoop] using hloop
    exact ⟨h, fun _ _ => rfl, rfl, le_rfl, fun _ => rfl, nofun⟩
  | succ k ih =>
    unfold writeLoop at hloop
    split at hloop
    · -- the pipe is full
      have hstop : p = p' ∧ i = j ∧ stop ≠ .done := by
        split at hloop
        · obtain ⟨rfl, rfl, rfl⟩ : p = p' ∧ i = j ∧ Stop.fail = stop := by simpa using hloop
          exact ⟨rfl, rfl, nofun⟩
        · obtain ⟨rfl, rfl, rfl⟩ : p = p' ∧ i = j ∧ Stop.sleep = stop := by simpa using hloop
          exact ⟨rfl, rfl, nofun⟩
      obtain ⟨rfl, rfl, hnot⟩ := hstop
      exact ⟨h, fun _ _ => rfl, rfl, Nat.le_add_right _ _, fun hdone => absurd hdone hnot,
        fun _ => Nat.succ_pos k⟩
    · next hfull =>
      obtain ⟨hw, hothers, hreturned, hle, hdone, -⟩ := ih (h.put hfull) hloop
      refine ⟨hw, fun m hm => ?_, hreturned, by omega, fun hstop => ?_, fun _ => Nat.succ_pos k⟩
      · rw [hothers m hm, bytesOf_put_of_ne p (addr i) hm]
      · rw [hdone hstop]
        omega

/-- What the loop of `piperead` comes to. -/
theorem readLoop_spec {p p' : Pipe} {q bytes : List UInt8} (h : p.Fifo q)
    (hloop : p.readLoop k = (p', bytes)) :
    (∃ q', p'.Fifo q') ∧ p'.returned = p.returned ++ bytes ∧ (∀ m, p'.bytesOf m = p.bytesOf m) ∧
      (bytes = [] → 0 < k → q = []) := by
  induction k generalizing p q bytes with
  | zero =>
    obtain ⟨rfl, rfl⟩ : p = p' ∧ [] = bytes := by simpa [readLoop] using hloop
    exact ⟨⟨q, h⟩, (List.append_nil _).symm, fun _ => rfl, fun _ hk => absurd hk (lt_irrefl 0)⟩
  | succ k ih =>
    unfold readLoop at hloop
    split at hloop
    · next hempty =>
      obtain ⟨rfl, rfl⟩ : p = p' ∧ [] = bytes := by simpa using hloop
      exact ⟨⟨q, h⟩, (List.append_nil _).symm, fun _ => rfl, fun _ _ => h.empty_iff.mp hempty⟩
    · next hnonempty =>
      obtain ⟨b, q, rfl⟩ : ∃ b q', q = b :: q' :=
        List.exists_cons_of_ne_nil fun hq => hnonempty (h.empty_iff.mpr hq)
      obtain ⟨hfront, htake⟩ := h.take
      rcases hrest : p.take.readLoop k with ⟨p'', rest⟩
      rw [hrest] at hloop
      obtain ⟨rfl, rfl⟩ : p'' = p' ∧ p.front :: rest = bytes := by simpa using hloop
      obtain ⟨hfifo, hreturned, hbytes, -⟩ := ih htake hrest
      refine ⟨hfifo, ?_, fun m => hbytes m, nofun⟩
      rw [hreturned, take, List.append_assoc]
      rfl

end Pipe

/-! ## Runs -/

/-- The bytes that a step hands to a reader. -/
def Output.bytes : Output → List UInt8
  | .read _ _ bytes => bytes
  | _ => []

namespace State

/-- What holds of a pipe and the calls on it between any two steps. -/
structure Inv (s : State) : Prop where
  fifo : ∃ q, s.pipe.Fifo q
  calls : ∀ id addr n i, s.calls id = some (.write addr n i) →
    s.pipe.bytesOf id = (List.range i).map addr ∧ i ≤ n.toNat
  fresh : ∀ id, s.next ≤ id → s.calls id = none ∧ s.pipe.bytesOf id = []

/-- What a step may come to. -/
structure StepOk (s s' : State) (out : Output) : Prop where
  returned : s'.pipe.returned = s.pipe.returned ++ out.bytes
  read : ∀ n bytes, out = .read n 0 bytes → 0 < n →
    s.pipe.nread = s.pipe.nwrite ∧ s.pipe.writeopen = false
  wrote : ∀ id addr n, out = .wrote id addr n n →
    s'.pipe.bytesOf id = (List.range n.toNat).map addr

variable {s s' : State} {out : Output} {id : ℕ} {n : ℤ} {killed : Bool}

/-- Call `id` has had its turn. -/
theorem Inv.settle (hs : s.Inv) (hid : id < s.next) {p : Pipe} {call : Option Call}
    (hfifo : ∃ q, p.Fifo q) (hothers : ∀ m ≠ id, p.bytesOf m = s.pipe.bytesOf m)
    (hcall : ∀ addr n i, call = some (.write addr n i) →
      p.bytesOf id = (List.range i).map addr ∧ i ≤ n.toNat) :
    Inv { s with pipe := p, calls := Function.update s.calls id call } := by
  have hkeep : ∀ m ≠ id, Function.update s.calls id call m = s.calls m := fun m hm =>
    Function.update_of_ne hm ..
  refine ⟨hfifo, fun m addr n i hm => ?_, fun m hm => ?_⟩
  · rcases eq_or_ne m id with rfl | hne
    · exact hcall addr n i (by simpa using hm)
    · obtain ⟨hbytes, hi⟩ := hs.calls m addr n i ((hkeep m hne).symm.trans hm)
      exact ⟨(hothers m hne).trans hbytes, hi⟩
  · have hne : m ≠ id := by
      rintro rfl
      exact absurd hid (not_lt.mpr hm)
    obtain ⟨hnone, hbytes⟩ := hs.fresh m hm
    exact ⟨(hkeep m hne).trans hnone, (hothers m hne).trans hbytes⟩

theorem Inv.writeTurn (hs : s.Inv) (hid : id < s.next)
    (hbytes : s.pipe.bytesOf id = (List.range i).map addr) (hi : i ≤ n.toNat)
    (h : s.writeTurn id addr n killed i = (s', out)) : s'.Inv ∧ StepOk s s' out := by
  rcases hloop : s.pipe.writeLoop id addr killed (n.toNat - i) i with ⟨p, j, stop⟩
  obtain ⟨hw, hothers, hreturned, hle, hdone, hfail⟩ := Pipe.writeLoop_spec ⟨hs.fifo, hbytes⟩ hloop
  unfold State.writeTurn at h
  rw [hloop] at h
  cases stop with
  | done =>
    obtain ⟨rfl, rfl⟩ := Prod.mk.inj h
    refine ⟨hs.settle hid hw.fifo hothers nofun, by simp [Output.bytes, hreturned], nofun,
      fun id' addr' n' heq => ?_⟩
    obtain ⟨rfl, rfl, rfl, -⟩ := Output.wrote.inj heq
    have hj : j = n.toNat := by
      rw [hdone rfl]
      omega
    rw [← hj]
    exact hw.bytes
  | fail =>
    obtain ⟨rfl, rfl⟩ := Prod.mk.inj h
    refine ⟨hs.settle hid hw.fifo hothers nofun, by simp [Output.bytes, hreturned], nofun,
      fun id' addr' n' heq => ?_⟩
    -- a call that fails had bytes to write
    obtain ⟨-, -, rfl, hvalue⟩ := Output.wrote.inj heq
    have := hfail rfl
    omega
  | sleep =>
    obtain ⟨rfl, rfl⟩ := Prod.mk.inj h
    refine ⟨hs.settle hid hw.fifo hothers fun addr' n' i' heq => ?_,
      by simp [Output.bytes, hreturned], nofun, nofun⟩
    obtain ⟨rfl, rfl, rfl⟩ := Call.write.inj (Option.some.inj heq)
    exact ⟨hw.bytes, by omega⟩

theorem Inv.readTurn (hs : s.Inv) (hid : id < s.next)
    (h : s.readTurn id n killed = (s', out)) : s'.Inv ∧ StepOk s s' out := by
  unfold State.readTurn at h
  split at h
  · split at h
    · obtain ⟨rfl, rfl⟩ := Prod.mk.inj h
      refine ⟨hs.settle hid hs.fifo (fun _ _ => rfl) nofun, (List.append_nil _).symm,
        fun n' bytes heq => ?_, nofun⟩
      obtain ⟨-, hvalue, -⟩ := Output.read.inj heq
      cases hvalue
    · obtain ⟨rfl, rfl⟩ := Prod.mk.inj h
      exact ⟨hs.settle hid hs.fifo (fun _ _ => rfl) nofun, (List.append_nil _).symm, nofun, nofun⟩
  · next hwait =>
    obtain ⟨q, hq⟩ := hs.fifo
    rcases hloop : s.pipe.readLoop n.toNat with ⟨p, bytes⟩
    rw [hloop] at h
    obtain ⟨rfl, rfl⟩ := Prod.mk.inj h
    obtain ⟨hfifo, hreturned, hbytes, hnone⟩ := Pipe.readLoop_spec hq hloop
    refine ⟨hs.settle hid hfifo (fun m _ => hbytes m) nofun, hreturned,
      fun n' bytes' heq hpos => ?_, nofun⟩
    obtain ⟨rfl, hvalue, -⟩ := Output.read.inj heq
    have hnil : bytes = [] := List.length_eq_zero_iff.mp (by omega)
    have hempty := hq.empty_iff.mpr (hnone hnil (by omega))
    refine ⟨hempty, ?_⟩
    simpa [hempty] using hwait

/-- A new call gets a number that was not used before. -/
theorem Inv.call (hs : s.Inv) : Inv { s with next := s.next + 1 } :=
  ⟨hs.fifo, hs.calls, fun id hid => hs.fresh id (Nat.le_of_succ_le hid)⟩

theorem Inv.close (hs : s.Inv) (writable : Bool) : (s.close writable).Inv := by
  obtain ⟨⟨q, hq⟩, hcalls, hfresh⟩ := hs
  cases writable with
  | true => exact ⟨⟨q, hq.holds, hq.order⟩, hcalls, hfresh⟩
  | false => exact ⟨⟨q, hq.holds, hq.order⟩, hcalls, hfresh⟩

theorem close_returned (s : State) (writable : Bool) :
    (s.close writable).pipe.returned = s.pipe.returned := by
  cases writable <;> rfl

/-- **The step lemma.** -/
theorem Inv.act (hs : s.Inv) {e : Event} (h : s.act e = some (s', out)) :
    s'.Inv ∧ StepOk s s' out := by
  unfold State.act at h
  split at h
  · cases h
  · cases e with
    | write addr n killed =>
      have hnone : s.pipe.bytesOf s.next = (List.range 0).map addr := (hs.fresh s.next le_rfl).2
      obtain ⟨hinv, hok⟩ := hs.call.writeTurn (Nat.lt_succ_self s.next) hnone (Nat.zero_le _)
        (Option.some.inj h)
      exact ⟨hinv, hok.returned, hok.read, hok.wrote⟩
    | read n killed =>
      obtain ⟨hinv, hok⟩ := hs.call.readTurn (Nat.lt_succ_self s.next) (Option.some.inj h)
      exact ⟨hinv, hok.returned, hok.read, hok.wrote⟩
    | resume id killed =>
      have hid : s.calls id ≠ none → id < s.next := by
        intro hcall
        by_contra hle
        exact hcall (hs.fresh id (not_lt.mp hle)).1
      dsimp only at h
      split at h
      · next hcall =>
        obtain ⟨hbytes, hi⟩ := hs.calls id _ _ _ hcall
        exact hs.writeTurn (hid (by simp [hcall])) hbytes hi (Option.some.inj h)
      · next hcall => exact hs.readTurn (hid (by simp [hcall])) (Option.some.inj h)
      · cases h
    | close writable =>
      obtain ⟨rfl, rfl⟩ := Prod.mk.inj (Option.some.inj h)
      exact ⟨hs.close writable, by simp [Output.bytes, close_returned], nofun, nofun⟩

theorem Inv.alloc (page : Fin pipeSize → UInt8) : (alloc page).Inv :=
  ⟨⟨[], .nil (UInt32.toNat_lt 0), rfl⟩, nofun, fun _ _ => ⟨rfl, rfl⟩⟩

/-- **The run lemma.** -/
theorem Inv.run {page : Fin pipeSize → UInt8} {es : List Event}
    (h : Run.exec step (State.alloc page) es = some s) : s.Inv := by
  refine Run.exec_invariant (fun t e t' ht hstep => ?_) (Inv.alloc page) h
  obtain ⟨⟨t'', out⟩, hact, rfl⟩ := Option.map_eq_some_iff.mp hstep
  exact (ht.act hact).1

end State

/-- Pipes are lossless queues. In every state that calls on a pipe come to, the counters are at most
`PIPESIZE` apart modulo 2³², and what was returned is the beginning of what was stored. In the next
step, the bytes that a reader gets are added to what was returned; `piperead` returns 0 for `n > 0`
only from an empty pipe whose write end is closed; and `pipewrite` returns `n` only if all its bytes
were stored, in their order. -/
theorem pipe_run {page : Fin pipeSize → UInt8} {es : List Event} {s : State}
    (h : Run.exec State.step (.alloc page) es = some s) :
    (s.pipe.nwrite - s.pipe.nread).toNat ≤ pipeSize ∧
      s.pipe.returned <+: s.pipe.stored.map Prod.snd ∧
      ∀ e s' out, s.act e = some (s', out) →
        s'.pipe.returned = s.pipe.returned ++ out.bytes ∧
        (∀ n bytes, out = .read n 0 bytes → 0 < n →
          s.pipe.nread = s.pipe.nwrite ∧ s.pipe.writeopen = false) ∧
        ∀ id addr n, out = .wrote id addr n n →
          s'.pipe.bytesOf id = (List.range n.toNat).map addr := by
  have hs := State.Inv.run h
  obtain ⟨q, hq⟩ := hs.fifo
  refine ⟨?_, ⟨q, hq.order.symm⟩, fun e s' out hact => ?_⟩
  · have hlt := s.pipe.nread.toNat_lt
    rw [UInt32.toNat_sub, hq.holds.sub_mod Pipe.pipeSize_lt hlt]
    exact hq.holds.length_le
  · obtain ⟨-, hok⟩ := hs.act hact
    exact ⟨hok.returned, hok.read, hok.wrote⟩

/-- Three bytes are written, and two are read. -/
theorem pipe_run_abc : ∃ s, Run.exec State.step (.alloc fun _ => 0)
      [.write (fun i => 97 + UInt8.ofNat i) 3 false, .read 2 false] = some s ∧
    s.pipe.returned = [97, 98] ∧ s.pipe.returned <+: s.pipe.stored.map Prod.snd := by
  have hrun : Run.exec State.step (.alloc fun _ => 0)
    [.write (fun i => 97 + UInt8.ofNat i) 3 false, .read 2 false] = some _ := rfl
  exact ⟨_, hrun, by decide, (pipe_run hrun).2.1⟩

end InuOs.Pipes
