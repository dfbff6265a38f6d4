import InuOs.Lib.Lock
import InuOs.Lib.Run
import InuOs.ReadWrite

/-!
# Writes through a shared descriptor

Processes that share a `struct file`, after `fork` or `dup`, share its offset. `filewrite` reads
`f->off` and advances it while it holds the inode lock, once for each chunk of at most `maxChunk`
bytes; between two chunks of one call other calls get their turn. The model has one such file and
any number of processes, and every statement of the loop that touches shared data is a step:

* `chunks` lists what `writei` has stored, in the order of the lock sections, with the offset it was
  given;
* `Appended` says of that list that each chunk begins where the one before ended, and that the file
  is the old one with all of them written over it, one after the other;
* `Ledger` says of each call that its chunks are the `pieces` of its data, from the first on.

The first holds because the offset is behind the file only inside of a lock section (`behind`),
the second because a call is in one process only.
-/

namespace InuOs.FileWrite

open Run Lock Flat

/-! ## The model -/

/-- `max` in `filewrite`: what fits into one transaction. -/
def maxChunk : ℕ := (maxOpBlocks - 1 - 1 - 2) / 2 * 512

theorem maxChunk_ne_zero : maxChunk ≠ 0 := by decide

/-- A call of `filewrite`: which one it is, and the `n` bytes at `addr`. -/
structure Call : Type where
  id : ℕ
  data : List UInt8
  deriving DecidableEq, Repr

/-- The `n1` bytes at `addr + i`. -/
def Call.piece (c : Call) (i : ℕ) : List UInt8 := (c.data.drop i).take maxChunk

/-- Where a process is: the next thing it does. -/
inductive Pc : Type where
  /-- anything but `filewrite` -/
  | out
  /-- `while(i < n)`, `begin_op` and `ilock` -/
  | loop (c : Call) (i : ℕ)
  /-- `writei` -/
  | locked (c : Call) (i : ℕ)
  /-- `f->off += r` -/
  | written (c : Call) (i : ℕ) (r : ℤ)
  /-- `iunlock`, `end_op`, and the tests of `r` -/
  | advanced (c : Call) (i : ℕ) (r : ℤ)
  /-- behind `break` -/
  | exit (c : Call) (i : ℕ)
  deriving DecidableEq, Repr

namespace Pc

/-- The process has the inode lock. -/
def Inside : Pc → Prop
  | .locked _ _ | .written _ _ _ | .advanced _ _ _ => True
  | _ => False

/-- How far `f->off` is behind. -/
def behind : Pc → ℕ
  | .written _ _ r => r.toNat
  | _ => 0

/-- The call that the process is in. -/
def call : Pc → Option Call
  | .out => none
  | .loop c _ | .locked c _ | .written c _ _ | .advanced c _ _ | .exit c _ => some c

/-- How many bytes of the call are in the file. -/
def done : Pc → ℕ
  | .out => 0
  | .loop _ i | .locked _ i | .exit _ i => i
  | .written _ i r | .advanced _ i r => i + r.toNat

end Pc

/-- What one `writei` stored. -/
structure Chunk : Type where
  call : ℕ
  off : ℕ
  bytes : List UInt8
  deriving DecidableEq, Repr

/-- The bytes of all chunks, one after the other. -/
def written (chunks : List Chunk) : List UInt8 := chunks.flatMap Chunk.bytes

/-- The pieces of call `k` among the chunks. -/
def chunksOf (chunks : List Chunk) (k : ℕ) : List (List UInt8) :=
  (chunks.filter fun x => x.call = k).map Chunk.bytes

theorem chunksOf_concat (chunks : List Chunk) (x : Chunk) (k : ℕ) :
    chunksOf (chunks ++ [x]) k =
      if k = x.call then chunksOf chunks k ++ [x.bytes] else chunksOf chunks k := by
  split
  · next hk => simp [chunksOf, hk]
  · next hk => simp [chunksOf, Ne.symm hk]

variable {π : Type}

/-- The disk, the in-core inode and `f->off`, and where the processes are. `calls`, `chunks` and
`result` are the history: the data of all calls, what was stored, and what the calls returned. -/
structure State (π : Type) : Type where
  disk : Disk
  ip : Dinode
  off : ℕ
  lock : Option π
  pc : π → Pc
  calls : List (List UInt8)
  chunks : List Chunk
  result : ℕ → Option ℤ

/-- How far `f->off` is behind the file: only the process that has the lock counts. -/
def behind (lock : Option π) (pc : π → Pc) : ℕ :=
  match lock with
  | none => 0
  | some p => (pc p).behind

theorem behind_none (pc : π → Pc) : behind none pc = 0 := rfl

theorem behind_some (p : π) (pc : π → Pc) : behind (some p) pc = (pc p).behind := rfl

namespace State

/-- `return i == n ? n : -1`. -/
def finish [DecidableEq π] (s : State π) (p : π) (c : Call) (i : ℕ) : State π :=
  { s with
    result := Function.update s.result c.id
      (some (if i = c.data.length then (c.data.length : ℤ) else -1))
    pc := Function.update s.pc p .out }

end State

/-- The steps of process `p`. -/
inductive Event (π : Type) : Type where
  | call (p : π) (data : List UInt8)
  | ilock (p : π)
  | writei (p : π)
  | advance (p : π)
  | iunlock (p : π)
  | ret (p : π)
  deriving DecidableEq, Repr

variable {p : π} {c : Call} {i : ℕ} {d : Disk} {ip : Dinode} {r : ℤ} {b : Pc}

section

variable [DecidableEq π]

/-- The state behind a `writei`. -/
abbrev State.wrote (s : State π) (p : π) (c : Call) (i : ℕ) (d : Disk) (ip : Dinode) (r : ℤ) :
    State π :=
  { s with
    disk := d
    ip := ip
    chunks := if 0 < r then s.chunks ++ [⟨c.id, s.off, c.piece i⟩] else s.chunks
    pc := Function.update s.pc p (.written c i r) }

/-- One step; a `panic` leads nowhere. -/
def step (sb : Superblock) (dev : Devsw) (inum : ℕ) (s : State π) : Event π → Option (State π)
  | .call p data =>
    match s.pc p with
    | .out => some { s with
        calls := s.calls ++ [data]
        pc := Function.update s.pc p (.loop ⟨s.calls.length, data⟩ 0) }
    | _ => none
  | .ilock p =>
    match s.pc p with
    | .loop c i =>
      if i < c.data.length ∧ s.lock = none then
        some { s with lock := some p, pc := Function.update s.pc p (.locked c i) }
      else none
    | _ => none
  | .writei p =>
    match s.pc p with
    | .locked c i =>
      match InuOs.writei sb dev s.disk inum s.ip s.off (c.piece i) with
      | .ok (d, ip, r) => some (s.wrote p c i d ip r)
      | .error _ => none
    | _ => none
  | .advance p =>
    match s.pc p with
    | .written c i r => some { s with
        off := if 0 < r then s.off + r.toNat else s.off
        pc := Function.update s.pc p (.advanced c i r) }
    | _ => none
  | .iunlock p =>
    match s.pc p with
    | .advanced c i r =>
      if r < 0 then
        some { s with lock := none, pc := Function.update s.pc p (.exit c i) }
      else if r = (c.piece i).length then
        some { s with lock := none, pc := Function.update s.pc p (.loop c (i + r.toNat)) }
      else none
    | _ => none
  | .ret p =>
    match s.pc p with
    | .loop c i => if i < c.data.length then none else some (s.finish p c i)
    | .exit c i => some (s.finish p c i)
    | _ => none

/-- The steps that are no `writei`, one by one. -/
inductive Move (s : State π) : Event π → State π → Prop where
  | call (p : π) (data : List UInt8) (hp : s.pc p = .out) : Move s (.call p data)
      { s with
        calls := s.calls ++ [data]
        pc := Function.update s.pc p (.loop ⟨s.calls.length, data⟩ 0) }
  | ilock (p : π) (c : Call) (i : ℕ) (hp : s.pc p = .loop c i) (hlock : s.lock = none) :
      Move s (.ilock p) { s with lock := some p, pc := Function.update s.pc p (.locked c i) }
  | advance (p : π) (c : Call) (i : ℕ) (r : ℤ) (hp : s.pc p = .written c i r) :
      Move s (.advance p)
        { s with off := s.off + r.toNat, pc := Function.update s.pc p (.advanced c i r) }
  | fail (p : π) (c : Call) (i : ℕ) (r : ℤ) (hp : s.pc p = .advanced c i r) (hr : r < 0) :
      Move s (.iunlock p) { s with lock := none, pc := Function.update s.pc p (.exit c i) }
  | next (p : π) (c : Call) (i : ℕ) (r : ℤ) (hp : s.pc p = .advanced c i r) : Move s (.iunlock p)
      { s with lock := none, pc := Function.update s.pc p (.loop c (i + r.toNat)) }
  | ret (p : π) (c : Call) (i : ℕ)
      (hp : s.pc p = .loop c i ∧ c.data.length ≤ i ∨ s.pc p = .exit c i) :
      Move s (.ret p) (s.finish p c i)

theorem step_writei {sb : Superblock} {dev : Devsw} {inum : ℕ} {s : State π}
    (hp : s.pc p = .locked c i)
    (hw : InuOs.writei sb dev s.disk inum s.ip s.off (c.piece i) = .ok (d, ip, r)) :
    step sb dev inum s (.writei p) = some (s.wrote p c i d ip r) := by
  simp only [step, hp, hw]

/-- What a step can do. -/
theorem step_cases {sb : Superblock} {dev : Devsw} {inum : ℕ} {s s' : State π} {e : Event π}
    (h : step sb dev inum s e = some s') :
    Move s e s' ∨ ∃ p c i d ip r, e = .writei p ∧ s.pc p = .locked c i ∧
      InuOs.writei sb dev s.disk inum s.ip s.off (c.piece i) = .ok (d, ip, r) ∧
      s' = s.wrote p c i d ip r := by
  cases e with
  | call p data =>
    simp only [step] at h
    split at h
    · next hp =>
      obtain rfl := Option.some.inj h
      exact .inl (.call p data hp)
    · cases h
  | ilock p =>
    simp only [step] at h
    split at h
    · next c i hp =>
      obtain ⟨⟨_, hlock⟩, ⟨⟩⟩ := Option.ite_none_right_eq_some.mp h
      exact .inl (.ilock p c i hp hlock)
    · cases h
  | writei p =>
    simp only [step] at h
    split at h
    · next c i hp =>
      split at h
      · next d ip r hw => exact .inr ⟨p, c, i, d, ip, r, rfl, hp, hw, (Option.some.inj h).symm⟩
      · cases h
    · cases h
  | advance p =>
    simp only [step] at h
    split at h
    · next c i r hp =>
      have hoff : (if 0 < r then s.off + r.toNat else s.off) = s.off + r.toNat := by
        split <;> omega
      rw [hoff] at h
      obtain rfl := Option.some.inj h
      exact .inl (.advance p c i r hp)
    · cases h
  | iunlock p =>
    simp only [step] at h
    split at h
    · next c i r hp =>
      split at h
      · next hr =>
        obtain rfl := Option.some.inj h
        exact .inl (.fail p c i r hp hr)
      · obtain ⟨_, ⟨⟩⟩ := Option.ite_none_right_eq_some.mp h
        exact .inl (.next p c i r hp)
    · cases h
  | ret p =>
    simp only [step] at h
    split at h
    · next c i hp =>
      obtain ⟨hi, ⟨⟩⟩ := Option.ite_none_left_eq_some.mp h
      exact .inl (.ret p c i (.inl ⟨hp, Nat.le_of_not_lt hi⟩))
    · next c i hp =>
      obtain rfl := Option.some.inj h
      exact .inl (.ret p c i (.inr hp))
    · cases h

end

/-! ## The file -/

/-- The file was `old`, and the chunks were written to it from `off` on, each one where the one
before ended. -/
structure Appended (off : ℕ) (old new : List UInt8) (chunks : List Chunk) : Prop where
  bytes : new = writeAt old off (written chunks)
  offsets : ∀ k (hk : k < chunks.length), chunks[k].off = off + (written (chunks.take k)).length
  within : chunks ≠ [] → off ≤ old.length

namespace Appended

variable {off : ℕ} {old new : List UInt8} {chunks : List Chunk}

protected theorem refl (off : ℕ) (old : List UInt8) : Appended off old old [] where
  bytes := (writeAt_nil old off).symm
  offsets k hk := absurd hk (Nat.not_lt_zero k)
  within hne := absurd rfl hne

/-- One more chunk at the end. -/
theorem snoc (h : Appended off old new chunks) {x : Chunk}
    (hx : x.off = off + (written chunks).length) (hin : x.off ≤ new.length) :
    Appended off old (writeAt new x.off x.bytes) (chunks ++ [x]) := by
  have hwithin : off ≤ old.length := by
    by_cases hne : chunks = []
    · rw [h.bytes, hx, hne] at hin
      simpa [written] using hin
    · exact h.within hne
  have hwritten : written (chunks ++ [x]) = written chunks ++ x.bytes := by
    simp [written]
  refine ⟨?_, fun k hk => ?_, fun _ => hwithin⟩
  · rw [hwritten, ← writeAt_append hwithin, ← h.bytes, hx]
  · rw [List.length_append, List.length_singleton] at hk
    rcases Nat.lt_succ_iff_lt_or_eq.mp hk with hlt | rfl
    · rw [List.getElem_append_left hlt, List.take_append_of_le_length hlt.le]
      exact h.offsets k hlt
    · rw [List.getElem_concat_length rfl, List.take_left, hx]

/-- The offset behind the last chunk is in the file, if the first one was. -/
theorem le_length (h : Appended off old new chunks) (hoff : off ≤ old.length) :
    off + (written chunks).length ≤ new.length := by
  rw [h.bytes, length_writeAt hoff]
  exact le_max_right ..

end Appended

section

variable (sb : Superblock) (inum : ℕ)

/-- An open file that is no device, before the first call. -/
structure Start (s : State π) : Prop where
  sound : Sound sb s.disk
  type : (sb.dinode s.disk inum).type ≠ 0
  regular : (sb.dinode s.disk inum).type ≠ tDev
  ip : s.ip = sb.dinode s.disk inum
  lock : s.lock = none
  pc : ∀ p, s.pc p = .out
  calls : s.calls = []
  chunks : s.chunks = []
  result : ∀ k, s.result k = none

/-- The file in a run that began with offset `off` and the bytes `old`. -/
structure FileInv (off : ℕ) (old : List UInt8) (s : State π) : Prop where
  sound : Sound sb s.disk
  type : (sb.dinode s.disk inum).type ≠ 0
  regular : (sb.dinode s.disk inum).type ≠ tDev
  ip : s.ip = sb.dinode s.disk inum
  guards : Guards Pc.Inside s.pc s.lock
  appended : Appended off old (fileBytes sb s.disk inum) s.chunks
  off : s.off + behind s.lock s.pc = off + (written s.chunks).length

end

variable {sb : Superblock} {dev : Devsw} {inum : ℕ} {off : ℕ} {old : List UInt8} {s s' : State π}
  {e : Event π} [DecidableEq π]

/-- Process `p` goes on to a place where as much is behind. -/
theorem behind_update {lock : Option π} {pc : π → Pc} (hb : b.behind = (pc p).behind) :
    behind lock (Function.update pc p b) = behind lock pc := by
  cases lock with
  | none => rfl
  | some q =>
    rcases eq_or_ne q p with rfl | hne
    · exact (congrArg Pc.behind (Function.update_self ..)).trans hb
    · exact congrArg Pc.behind (Function.update_of_ne hne ..)

namespace FileInv

omit [DecidableEq π] in
/-- A step that leaves the file alone. -/
theorem of_same (h : FileInv sb inum off old s) (hdisk : s'.disk = s.disk) (hip : s'.ip = s.ip)
    (hchunks : s'.chunks = s.chunks)
    (hoff : s'.off + behind s'.lock s'.pc = s.off + behind s.lock s.pc)
    (hguards : Guards Pc.Inside s'.pc s'.lock) : FileInv sb inum off old s' where
  sound := by rw [hdisk]; exact h.sound
  type := by rw [hdisk]; exact h.type
  regular := by rw [hdisk]; exact h.regular
  ip := by rw [hdisk, hip]; exact h.ip
  guards := hguards
  appended := by rw [hdisk, hchunks]; exact h.appended
  off := by rw [hoff, hchunks]; exact h.off

theorem move (h : FileInv sb inum off old s) (hmove : Move s e s') :
    FileInv sb inum off old s' := by
  cases hmove with
  | call p data hp =>
    refine h.of_same rfl rfl rfl ?_ (h.guards.turn rfl (.keep _ False.elim))
    rw [behind_update (by rw [hp]; rfl)]
  | ilock p c i hp hlock =>
    refine h.of_same rfl rfl rfl ?_ (h.guards.turn rfl (hlock ▸ .acquire))
    dsimp only
    rw [hlock, behind_some, behind_none, Function.update_self]
    rfl
  | advance p c i r hp =>
    have hlock := h.guards p (by rw [hp]; trivial)
    refine h.of_same rfl rfl rfl ?_ (h.guards.turn rfl (.keep _ fun _ => by rw [hp]; trivial))
    dsimp only
    rw [hlock, behind_some, behind_some, Function.update_self, hp]
    rfl
  | fail p c i r hp _ | next p c i r hp =>
    have hlock := h.guards p (by rw [hp]; trivial)
    refine h.of_same rfl rfl rfl ?_
      (h.guards.turn rfl (.release _ (by rw [hp]; trivial) False.elim))
    rw [hlock, behind_some, behind_none, hp]
    rfl
  | ret p c i hp =>
    refine h.of_same rfl rfl rfl ?_ (h.guards.turn rfl (.keep _ False.elim))
    dsimp only [State.finish]
    rw [behind_update]
    rcases hp with ⟨hp, -⟩ | hp <;> rw [hp] <;> rfl

omit [DecidableEq π] in
/-- What `writei` does in the lock section. -/
theorem writei_cases (h : FileInv sb inum off old s) (hsb : sb.Layout) (hi : inum < sb.ninodes)
    {src : List UInt8} (hw : InuOs.writei sb dev s.disk inum s.ip s.off src = .ok (d, ip, r)) :
    (d = s.disk ∧ ip = s.ip ∧ r = -1 ∧ ((fileBytes sb s.disk inum).length < s.off ∨
      maxFile * bSize < s.off + src.length)) ∨
    (r = src.length ∧ s.off ≤ (fileBytes sb s.disk inum).length ∧
      Stored sb s.disk inum s.off src d ip) := by
  have hlength : (fileBytes sb s.disk inum).length = (sb.dinode s.disk inum).size.toNat := by
    rw [fileBytes, List.length_map, List.length_range]
  have hmax : maxFile * bSize < 2 ^ 32 := by decide
  rw [h.ip] at hw
  by_cases hok : (sb.dinode s.disk inum).size.toNat < s.off ∨ 2 ^ 32 ≤ s.off + src.length ∨
      maxFile * bSize < s.off + src.length
  · rw [writei_of_out h.regular dev hok] at hw
    obtain ⟨rfl, rfl, rfl⟩ : _ ∧ _ ∧ _ := by simpa using hw
    exact .inl ⟨rfl, h.ip.symm, rfl, by omega⟩
  · obtain ⟨hr, hstored⟩ :=
      (writei_stored hsb h.sound hi h.type h.regular dev s.off src hok).of_ok hw
    exact .inr ⟨hr, by omega, hstored⟩

/-- The step of `writei`. -/
theorem writei (h : FileInv sb inum off old s) (hsb : sb.Layout) (hi : inum < sb.ninodes)
    (hp : s.pc p = .locked c i)
    (hw : InuOs.writei sb dev s.disk inum s.ip s.off (c.piece i) = .ok (d, ip, r)) :
    FileInv sb inum off old (s.wrote p c i d ip r) := by
  have hlock := h.guards p (by rw [hp]; trivial)
  have hguards : Guards Pc.Inside (Function.update s.pc p (.written c i r)) s.lock :=
    h.guards.turn rfl (.keep _ fun _ => by rw [hp]; trivial)
  have hoff : s.off = off + (InuOs.FileWrite.written s.chunks).length := by
    have hoff := h.off
    rwa [hlock, behind_some, hp] at hoff
  have hbehind : behind s.lock (Function.update s.pc p (.written c i r)) = r.toNat := by
    rw [hlock, behind_some, Function.update_self]
    rfl
  rcases h.writei_cases hsb hi hw with ⟨rfl, rfl, rfl, -⟩ | ⟨hr, hin, hstored⟩
  · refine h.of_same rfl rfl rfl ?_ hguards
    rw [hbehind, hlock, behind_some, hp]
    rfl
  · obtain ⟨addrs, size, hfields⟩ := hstored.fields
    have htype : (sb.dinode d inum).type = (sb.dinode s.disk inum).type := by
      rw [hstored.self, hfields]
    refine ⟨hstored.sound, by rw [htype]; exact h.type, by rw [htype]; exact h.regular,
      hstored.self.symm, hguards, ?_, ?_⟩
    · rw [hstored.bytes]
      dsimp only [State.wrote]
      split
      · exact h.appended.snoc (x := ⟨c.id, s.off, c.piece i⟩) hoff hin
      · next hzero =>
        obtain hnil : c.piece i = [] := List.length_eq_zero_iff.mp (by omega)
        rw [hnil, writeAt_nil]
        exact h.appended
    · dsimp only [State.wrote]
      split
      · simp only [InuOs.FileWrite.written, List.flatMap_append, List.length_append,
          List.flatMap_singleton] at hoff ⊢
        omega
      · omega

end FileInv

/-! ## The calls -/

/-- Call `c` is in the loop, and `done` of its bytes are in the file. -/
structure Running (s : State π) (c : Call) (done : ℕ) : Prop where
  data : s.calls[c.id]? = some c.data
  result : s.result c.id = none
  done_le : done ≤ c.data.length
  rest : chunksOf s.chunks c.id ++ pieces maxChunk (c.data.drop done) = pieces maxChunk c.data

/-- The chunks of every call are the pieces of its data, from the first on. -/
structure Ledger (s : State π) : Prop where
  small : ∀ x ∈ s.chunks, x.bytes ≠ [] ∧ x.bytes.length ≤ maxChunk
  known : ∀ x ∈ s.chunks, x.call < s.calls.length
  future : ∀ k, s.calls.length ≤ k → s.result k = none
  order : ∀ k data, s.calls[k]? = some data → chunksOf s.chunks k <+: pieces maxChunk data
  unique : ∀ p q c c', (s.pc p).call = some c → (s.pc q).call = some c' → c.id = c'.id → p = q
  running : ∀ p c, (s.pc p).call = some c → Running s c (s.pc p).done

omit [DecidableEq π] in
theorem Running.id_lt {done : ℕ} (h : Running s c done) : c.id < s.calls.length :=
  (List.getElem?_eq_some_iff.mp h.data).1

namespace Ledger

omit [DecidableEq π] in
theorem chunksOf_eq_nil (h : Ledger s) {k : ℕ} (hk : s.calls.length ≤ k) :
    chunksOf s.chunks k = [] := by
  rw [chunksOf, List.filter_eq_nil_iff.mpr, List.map_nil]
  intro x hx hcall
  have := h.known x hx
  have := of_decide_eq_true hcall
  omega

/-- Process `p` goes on in the same call, and nothing is added to the file. -/
theorem goto (h : Ledger s) (hcall : b.call = (s.pc p).call) (hdone : b.done = (s.pc p).done)
    (hpc : s'.pc = Function.update s.pc p b) (hcalls : s'.calls = s.calls)
    (hchunks : s'.chunks = s.chunks) (hresult : s'.result = s.result) : Ledger s' := by
  have hsame (q : π) : (s'.pc q).call = (s.pc q).call ∧ (s'.pc q).done = (s.pc q).done := by
    rw [hpc]
    rcases eq_or_ne q p with rfl | hne
    · rw [Function.update_self]
      exact ⟨hcall, hdone⟩
    · rw [Function.update_of_ne hne]
      exact ⟨rfl, rfl⟩
  refine ⟨by rw [hchunks]; exact h.small, by rw [hchunks, hcalls]; exact h.known,
    by rw [hcalls, hresult]; exact h.future, fun k data hk => ?_, fun q q' c c' hq hq' => ?_,
    fun q c hq => ?_⟩
  · rw [hchunks]
    exact h.order k data (hcalls ▸ hk)
  · rw [(hsame q).1] at hq
    rw [(hsame q').1] at hq'
    exact h.unique q q' c c' hq hq'
  · rw [(hsame q).1] at hq
    have hrun := h.running q c hq
    rw [(hsame q).2]
    exact ⟨hcalls ▸ hrun.data, hresult ▸ hrun.result,
      hrun.done_le, by rw [hchunks]; exact hrun.rest⟩

/-- A new call. -/
theorem call (h : Ledger s) (p : π) (data : List UInt8) :
    Ledger { s with
      calls := s.calls ++ [data]
      pc := Function.update s.pc p (.loop ⟨s.calls.length, data⟩ 0) } := by
  have hold (k : ℕ) (data' : List UInt8) (hk : s.calls[k]? = some data') :
      (s.calls ++ [data])[k]? = some data' := by
    rw [List.getElem?_append_left (List.getElem?_eq_some_iff.mp hk).1]
    exact hk
  have hnil := h.chunksOf_eq_nil le_rfl
  have hlength : (s.calls ++ [data]).length = s.calls.length + 1 := by simp
  refine ⟨h.small, fun x hx => ?_, fun k hk => ?_, fun k data' hk => ?_, fun q q' c c' hq hq' => ?_,
    fun q c hq => ?_⟩
  · exact (h.known x hx).trans (by rw [hlength]; exact Nat.lt_succ_self _)
  · rw [hlength] at hk
    exact h.future k (by omega)
  · rcases Nat.lt_or_ge k s.calls.length with hlt | hge
    · rw [List.getElem?_append_left hlt] at hk
      exact h.order k data' hk
    · rw [h.chunksOf_eq_nil hge]
      exact List.nil_prefix
  · dsimp only at hq hq'
    intro hid
    rcases eq_or_ne q p with heq | hne <;> rcases eq_or_ne q' p with heq' | hne'
    · exact heq.trans heq'.symm
    · rw [heq, Function.update_self] at hq
      rw [Function.update_of_ne hne'] at hq'
      obtain rfl := Option.some.inj hq
      exact absurd hid.symm (h.running q' c' hq').id_lt.ne
    · rw [Function.update_of_ne hne] at hq
      rw [heq', Function.update_self] at hq'
      obtain rfl := Option.some.inj hq'
      exact absurd hid (h.running q c hq).id_lt.ne
    · rw [Function.update_of_ne hne] at hq
      rw [Function.update_of_ne hne'] at hq'
      exact h.unique q q' c c' hq hq' hid
  · dsimp only at hq ⊢
    rcases eq_or_ne q p with rfl | hne
    · rw [Function.update_self] at hq ⊢
      obtain rfl := Option.some.inj hq
      refine ⟨List.getElem?_concat_length, h.future _ le_rfl, Nat.zero_le _, ?_⟩
      exact congrArg (· ++ pieces maxChunk data) hnil
    · rw [Function.update_of_ne hne] at hq ⊢
      have hrun := h.running q c hq
      exact ⟨hold _ _ hrun.data, hrun.result, hrun.done_le, hrun.rest⟩

/-- A call returns. -/
theorem finish (h : Ledger s) (hp : (s.pc p).call = some c) (i : ℕ) : Ledger (s.finish p c i) := by
  have hpc (q : π) (c' : Call) (hq : ((s.finish p c i).pc q).call = some c') :
      q ≠ p ∧ (s.finish p c i).pc q = s.pc q := by
    dsimp only [State.finish] at hq ⊢
    rcases eq_or_ne q p with rfl | hne
    · rw [Function.update_self] at hq
      exact nomatch hq
    · exact ⟨hne, Function.update_of_ne hne ..⟩
  have hlt := (h.running p c hp).id_lt
  refine ⟨h.small, h.known, fun k hk => ?_, h.order, fun q q' c₁ c₂ hq hq' => ?_, fun q c' hq => ?_⟩
  · dsimp only [State.finish] at hk ⊢
    rw [Function.update_of_ne (by omega)]
    exact h.future k hk
  · have hq₁ := (hpc q c₁ hq).2
    have hq₂ := (hpc q' c₂ hq').2
    exact h.unique q q' c₁ c₂ (hq₁ ▸ hq) (hq₂ ▸ hq')
  · obtain ⟨hne, hsame⟩ := hpc q c' hq
    rw [hsame] at hq ⊢
    have hrun := h.running q c' hq
    have hid : c'.id ≠ c.id := fun hid => hne (h.unique q p c' c hq hp hid)
    exact ⟨hrun.data, (Function.update_of_ne hid ..).trans hrun.result, hrun.done_le, hrun.rest⟩

/-- The next piece of a call is stored. -/
theorem store (h : Ledger s) (hp : s.pc p = .locked c i) (hne : c.piece i ≠ []) (d : Disk)
    (ip : Dinode) :
    Ledger { s with
      disk := d
      ip := ip
      chunks := s.chunks ++ [⟨c.id, s.off, c.piece i⟩]
      pc := Function.update s.pc p (.written c i ((c.piece i).length : ℤ)) } := by
  have hrun := h.running p c (by rw [hp]; rfl)
  rw [hp] at hrun
  have hrest : c.data.drop i ≠ [] := fun hnil => hne (by rw [Call.piece, hnil, List.take_nil])
  have hpieces : pieces maxChunk (c.data.drop i) =
      c.piece i :: pieces maxChunk (c.data.drop (i + (c.piece i).length)) := by
    rw [pieces_of_ne_nil maxChunk_ne_zero hrest, List.drop_drop]
    rfl
  have hself : (chunksOf s.chunks c.id ++ [c.piece i]) ++
      pieces maxChunk (c.data.drop (i + (c.piece i).length)) = pieces maxChunk c.data := by
    rw [List.append_assoc, List.singleton_append, ← hpieces]
    exact hrun.rest
  have hlength : (c.piece i).length ≤ maxChunk := List.length_take_le ..
  have hle : i + (c.piece i).length ≤ c.data.length := by
    have hi : i ≤ c.data.length := hrun.done_le
    have : (c.piece i).length ≤ (c.data.drop i).length := List.length_take_le' ..
    rw [List.length_drop] at this
    omega
  have hcall (q : π) (c' : Call)
      (hq : (Function.update s.pc p (.written c i ((c.piece i).length : ℤ)) q).call = some c') :
      (s.pc q).call = some c' := by
    rcases eq_or_ne q p with rfl | hneq
    · rw [Function.update_self] at hq
      rw [hp]
      exact hq
    · rwa [Function.update_of_ne hneq] at hq
  refine ⟨fun x hx => ?_, fun x hx => ?_, h.future, fun k data hk => ?_,
    fun q q' c₁ c₂ hq hq' => h.unique q q' c₁ c₂ (hcall q c₁ hq) (hcall q' c₂ hq'),
    fun q c' hq => ?_⟩
  · rcases List.mem_append.mp hx with hx | hx
    · exact h.small x hx
    · obtain rfl := List.mem_singleton.mp hx
      exact ⟨hne, hlength⟩
  · rcases List.mem_append.mp hx with hx | hx
    · exact h.known x hx
    · obtain rfl := List.mem_singleton.mp hx
      exact hrun.id_lt
  · rw [chunksOf_concat]
    split
    · next heq =>
      subst heq
      obtain rfl := Option.some.inj (hrun.data.symm.trans hk)
      exact ⟨_, hself⟩
    · exact h.order k data hk
  · have hrunq := h.running q c' (hcall q c' hq)
    rcases eq_or_ne q p with rfl | hneq
    · dsimp only at hq ⊢
      rw [Function.update_self] at hq ⊢
      obtain rfl := Option.some.inj hq
      refine ⟨hrun.data, hrun.result, hle, ?_⟩
      rw [chunksOf_concat, if_pos rfl]
      exact hself
    · have hid : c'.id ≠ c.id := fun hid =>
        hneq (h.unique q p c' c (hcall q c' hq) (by rw [hp]; rfl) hid)
      dsimp only
      rw [Function.update_of_ne hneq]
      refine ⟨hrunq.data, hrunq.result, hrunq.done_le, ?_⟩
      rw [chunksOf_concat, if_neg hid]
      exact hrunq.rest

theorem move (h : Ledger s) (hmove : Move s e s') : Ledger s' := by
  cases hmove with
  | call p data hp => exact h.call p data
  | ilock p c i hp _ | advance p c i r hp | next p c i r hp =>
    exact h.goto (by rw [hp]; rfl) (by rw [hp]; rfl) rfl rfl rfl rfl
  | fail p c i r hp hr =>
    refine h.goto (by rw [hp]; rfl) ?_ rfl rfl rfl rfl
    rw [hp, Pc.done, Pc.done]
    omega
  | ret p c i hp => exact h.finish (by rcases hp with ⟨hp, -⟩ | hp <;> rw [hp] <;> rfl) i

end Ledger

/-! ## Runs -/

/-- The file and the calls. -/
structure Inv (sb : Superblock) (inum off : ℕ) (old : List UInt8) (s : State π) : Prop where
  file : FileInv sb inum off old s
  ledger : Ledger s

theorem Inv.step (hsb : sb.Layout) (hi : inum < sb.ninodes) (h : Inv sb inum off old s)
    (hstep : step sb dev inum s e = some s') : Inv sb inum off old s' := by
  obtain hmove | ⟨p, c, i, d, ip, r, rfl, hp, hw, rfl⟩ := step_cases hstep
  · exact ⟨h.file.move hmove, h.ledger.move hmove⟩
  · refine ⟨h.file.writei hsb hi hp hw, ?_⟩
    unfold State.wrote
    split
    · next hpos =>
      obtain ⟨-, -, rfl, -⟩ | ⟨rfl, -, -⟩ := h.file.writei_cases hsb hi hw
      · exact absurd hpos (by decide)
      · exact h.ledger.store hp (List.length_pos_iff.mp (by omega)) d ip
    · next hneg =>
      refine h.ledger.goto (p := p) (by rw [hp]; rfl) ?_ rfl rfl rfl rfl
      rw [hp, Pc.done, Pc.done]
      omega

omit [DecidableEq π] in
theorem Start.inv {s₀ : State π} (h : Start sb inum s₀) :
    Inv sb inum s₀.off (fileBytes sb s₀.disk inum) s₀ where
  file := by
    refine ⟨h.sound, h.type, h.regular, h.ip, fun p hp => ?_, ?_, ?_⟩
    · rw [h.pc] at hp
      exact hp.elim
    · rw [h.chunks]
      exact .refl ..
    · rw [h.lock, h.chunks]
      rfl
  ledger := by
    have hcall (p : π) : (s₀.pc p).call = none := by rw [h.pc]; rfl
    refine ⟨?_, ?_, fun k _ => h.result k, ?_, fun p _ c _ hp => ?_, fun p c hp => ?_⟩
    · simp [h.chunks]
    · simp [h.chunks]
    · simp [h.calls]
    · exact nomatch (hcall p).symm.trans hp
    · exact nomatch (hcall p).symm.trans hp

/-- The chunk that is written next fits into the largest file. -/
def Fits (s : State π) : Event π → Prop
  | .writei p =>
    match s.pc p with
    | .locked c i => s.off + (c.piece i).length ≤ maxFile * bSize
    | _ => True
  | _ => True

/-- No `writei` has failed. -/
def Pc.Ok : Pc → Prop
  | .written _ _ r | .advanced _ _ r => 0 ≤ r
  | .exit _ _ => False
  | _ => True

/-- The calls that have returned have stored their data. -/
structure Complete (s : State π) : Prop where
  ok : ∀ p, (s.pc p).Ok
  returned : ∀ k data r, s.calls[k]? = some data → s.result k = some r →
    r = data.length ∧ chunksOf s.chunks k = pieces maxChunk data

namespace Complete

theorem ok_update (h : Complete s) (hb : b.Ok) (q : π) : (Function.update s.pc p b q).Ok := by
  rcases eq_or_ne q p with rfl | hne
  · rwa [Function.update_self]
  · rw [Function.update_of_ne hne]
    exact h.ok q

theorem move (h : Complete s) (hl : Ledger s) (hmove : Move s e s') : Complete s' := by
  cases hmove with
  | call p data hp =>
    refine ⟨h.ok_update trivial, fun k data' r hk hr => ?_⟩
    rcases Nat.lt_or_ge k s.calls.length with hlt | hge
    · rw [List.getElem?_append_left hlt] at hk
      exact h.returned k data' r hk hr
    · exact nomatch (hl.future k hge).symm.trans hr
  | ilock p c i hp _ | next p c i r hp => exact ⟨h.ok_update trivial, h.returned⟩
  | advance p c i r hp =>
    have hok := h.ok p
    rw [hp] at hok
    exact ⟨h.ok_update hok, h.returned⟩
  | fail p c i r hp hr =>
    have hok := h.ok p
    rw [hp] at hok
    exact absurd hr (not_lt.mpr hok)
  | ret p c i hp =>
    have hok := h.ok p
    rcases hp with ⟨hp, hi⟩ | hp
    · have hrun := hl.running p c (by rw [hp]; rfl)
      rw [hp] at hrun
      obtain rfl : i = c.data.length := le_antisymm hrun.done_le hi
      refine ⟨h.ok_update trivial, fun k data r hk hr => ?_⟩
      dsimp only [State.finish] at hk hr
      rcases eq_or_ne k c.id with rfl | hne
      · rw [Function.update_self, if_pos rfl] at hr
        obtain rfl := Option.some.inj (hrun.data.symm.trans hk)
        have hrest := hrun.rest
        rw [Pc.done, List.drop_length, pieces_nil, List.append_nil] at hrest
        exact ⟨(Option.some.inj hr).symm, hrest⟩
      · rw [Function.update_of_ne hne] at hr
        exact h.returned k data r hk hr
    · rw [hp] at hok
      exact hok.elim

theorem step (h : Complete s) (hinv : Inv sb inum off old s) (hsb : sb.Layout)
    (hi : inum < sb.ninodes) (hoff : off ≤ old.length) (hfits : Fits s e)
    (hstep : step sb dev inum s e = some s') : Complete s' := by
  obtain hmove | ⟨p, c, i, d, ip, r, rfl, hp, hw, rfl⟩ := step_cases hstep
  · exact h.move hinv.ledger hmove
  · have hlock := hinv.file.guards p (by rw [hp]; trivial)
    have hend := hinv.file.off
    rw [hlock, behind_some, hp] at hend
    have hin := hinv.file.appended.le_length hoff
    have hfit : s.off + (c.piece i).length ≤ maxFile * bSize := by
      simpa only [Fits, hp] using hfits
    obtain ⟨-, -, -, hbad⟩ | ⟨rfl, -, -⟩ := hinv.file.writei_cases hsb hi hw
    · have hbehind : (Pc.locked c i).behind = 0 := rfl
      omega
    · refine ⟨h.ok_update (show (0 : ℤ) ≤ _ by omega), fun k data r hk hr => ?_⟩
      have hrun := hinv.ledger.running p c (by rw [hp]; rfl)
      have hne : k ≠ c.id := fun heq => nomatch (heq ▸ hrun.result).symm.trans hr
      have hold := h.returned k data r hk hr
      refine ⟨hold.1, ?_⟩
      rw [← hold.2]
      dsimp only [State.wrote]
      split
      · rw [chunksOf_concat, if_neg hne]
      · rfl

end Complete

/-- **Writes through a shared descriptor are not lost.** In every run of calls of `filewrite` on one
`struct file`, in any interleaving:

* `f->off` has moved by the number of bytes written, whenever the inode lock is free;
* the file is the old one, overwritten from the first offset on by all chunks one after the other,
  in the order of their lock sections; each chunk has gone to the place where the one before ended,
  and is no longer than `maxChunk`;
* the chunks of each call are a first part of its data in order, and a call of at most one chunk is
  in one piece;
* as long as everything fits into the largest file, a call returns the number of its bytes, and all
  of them are in the file. -/
theorem shared_filewrite (sb : Superblock) (hsb : sb.Layout) (dev : Devsw) (inum : ℕ)
    (hi : inum < sb.ninodes) (s₀ s : State π) (h₀ : Start sb inum s₀) (es : List (Event π))
    (hrun : exec (step sb dev inum) s₀ es = some s) :
    (s.lock = none → s.off = s₀.off + (written s.chunks).length) ∧
    fileBytes sb s.disk inum = writeAt (fileBytes sb s₀.disk inum) s₀.off (written s.chunks) ∧
    (∀ k (hk : k < s.chunks.length),
      s.chunks[k].off = s₀.off + (written (s.chunks.take k)).length ∧
        0 < s.chunks[k].bytes.length ∧ s.chunks[k].bytes.length ≤ maxChunk) ∧
    (∀ k data, s.calls[k]? = some data →
      (chunksOf s.chunks k).flatten <+: data ∧
        (data.length ≤ maxChunk → chunksOf s.chunks k = [] ∨ chunksOf s.chunks k = [data])) ∧
    (s₀.off ≤ (fileBytes sb s₀.disk inum).length → EachStep (step sb dev inum) Fits s₀ es →
      ∀ k data r, s.calls[k]? = some data → s.result k = some r →
        r = data.length ∧ (chunksOf s.chunks k).flatten = data) := by
  have hinv : Inv sb inum s₀.off (fileBytes sb s₀.disk inum) s :=
    exec_invariant (fun _ _ _ => Inv.step hsb hi) h₀.inv hrun
  refine ⟨fun hlock => ?_, hinv.file.appended.bytes, fun k hk => ?_, fun k data hk => ⟨?_, ?_⟩,
    fun hoff hfits k data r hk hr => ?_⟩
  · have hend := hinv.file.off
    rwa [hlock] at hend
  · obtain ⟨hne, hle⟩ := hinv.ledger.small _ (List.getElem_mem hk)
    exact ⟨hinv.file.appended.offsets k hk, List.length_pos_iff.mpr hne, hle⟩
  · obtain ⟨rest, hrest⟩ := hinv.ledger.order k data hk
    refine ⟨rest.flatten, ?_⟩
    rw [← List.flatten_append, hrest, flatten_pieces maxChunk_ne_zero]
  · intro hle
    have horder := hinv.ledger.order k data hk
    rcases eq_or_ne data [] with rfl | hne
    · rw [pieces_nil] at horder
      exact .inl (List.prefix_nil.mp horder)
    · rw [pieces_of_length_le maxChunk_ne_zero hne hle] at horder
      rcases List.prefix_cons_iff.mp horder with hnil | ⟨l, hl, hnil⟩
      · exact .inl hnil
      · exact .inr (by rw [hl, List.prefix_nil.mp hnil])
  · have hcomplete : Complete s := (exec_invariant_of_eachStep
      (I := fun t => Inv sb inum s₀.off (fileBytes sb s₀.disk inum) t ∧ Complete t)
      (fun t e t' ht hfit hstep => ⟨ht.1.step hsb hi hstep, ht.2.step ht.1 hsb hi hoff hfit hstep⟩)
      ⟨h₀.inv, fun p => by rw [h₀.pc]; trivial, by simp [h₀.calls]⟩ hfits hrun).2
    obtain ⟨rfl, hpieces⟩ := hcomplete.returned k data r hk hr
    exact ⟨rfl, by rw [hpieces, flatten_pieces maxChunk_ne_zero]⟩

/-- One of two processes that have opened an empty file writes three bytes, while the other one
waits. -/
theorem shared_filewrite_two :
    ∃ s : State Bool,
      exec (step mkfsSuperblock ⟨fun _ => none, fun _ => none⟩ 1)
        ⟨oneFile, mkfsSuperblock.dinode oneFile 1, 0, none, fun _ => .out, [], [], fun _ => none⟩
        [.call true [7, 8, 9], .call false [5], .ilock true, .writei true, .advance true,
          .iunlock true, .ret true] = some s ∧
      s.off = 3 ∧ fileBytes mkfsSuperblock s.disk 1 = [7, 8, 9] ∧ s.result 0 = some 3 := by
  have hone : mkfsSuperblock.dinode oneFile 1 = Fs.freshDinode 2 := dinode_oneFile 1
  have htype : (mkfsSuperblock.dinode oneFile 1).type ≠ 0 := by rw [hone]; decide
  have hdev : (mkfsSuperblock.dinode oneFile 1).type ≠ tDev := by rw [hone]; decide
  obtain ⟨d', ip, heq, -⟩ := writei_total layout_mkfsSuperblock sound_oneFile (by decide) htype hdev
    ⟨fun _ => none, fun _ => none⟩ 0 [7, 8, 9] (by rw [hone]; decide) missing_oneFile
  let s₀ : State Bool :=
    ⟨oneFile, mkfsSuperblock.dinode oneFile 1, 0, none, fun _ => .out, [], [], fun _ => none⟩
  have hstart : Start mkfsSuperblock 1 s₀ :=
    ⟨sound_oneFile, htype, hdev, rfl, rfl, fun _ => rfl, rfl, rfl, fun _ => rfl⟩
  have hrun : ∃ s : State Bool, exec (step mkfsSuperblock ⟨fun _ => none, fun _ => none⟩ 1) s₀
      [.call true [7, 8, 9], .call false [5], .ilock true, .writei true, .advance true,
        .iunlock true, .ret true] = some s ∧
      s.lock = none ∧ s.chunks = [⟨0, 0, [7, 8, 9]⟩] ∧ s.result 0 = some 3 := by
    have hwrite := step_writei (s := { s₀ with
      lock := some true
      calls := [[7, 8, 9], [5]]
      pc := Function.update (Function.update (Function.update s₀.pc true (.loop ⟨0, [7, 8, 9]⟩ 0))
        false (.loop ⟨1, [5]⟩ 0)) true (.locked ⟨0, [7, 8, 9]⟩ 0) }) (p := true) rfl heq
    refine ⟨_, (congrArg (Option.bind · _) hwrite).trans rfl, ?_⟩
    exact ⟨rfl, rfl, rfl⟩
  obtain ⟨s, hrun, hlock, hchunks, hresult⟩ := hrun
  obtain ⟨hoff, hbytes, -⟩ := shared_filewrite mkfsSuperblock layout_mkfsSuperblock
    ⟨fun _ => none, fun _ => none⟩ 1 (by decide) s₀ s hstart _ hrun
  refine ⟨s, hrun, ?_, ?_, hresult⟩
  · rw [hoff hlock, hchunks]
    rfl
  · rw [hbytes, hchunks, fileBytes, show mkfsSuperblock.dinode s₀.disk 1 = _ from hone]
    rfl

end InuOs.FileWrite
