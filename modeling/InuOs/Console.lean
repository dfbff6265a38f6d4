import InuOs.Lib.Ring
import InuOs.Lib.Run
import Mathlib.Data.List.Induction

/-!
# The console line discipline (`console.c`)

`consoleintr` edits a line in a ring of 128 bytes and commits it; `consoleread` takes committed
bytes. Calls of the two interleave where they take `cons.lock` and where `consoleread` sleeps. A
step is what a call does from the point where it gets the lock to the point where it returns or goes
to sleep.

* A call of `consoleread` that sleeps may go on at any time: `wakeup` and `kill` decide when.
  `killed` is read in each step, and may be anything. Any number of calls may be under way.
* What appears on the screen is left out.

`Editor` is the reference: a queue of committed bytes and the line being edited, as lists.
`console_run` says that the ring with its three wrapping indices shows the same bytes to every call.
-/

namespace InuOs.Console

open InuOs.Ring

/-- `INPUT_BUF` -/
def inputBuf : ℕ := 128

instance : NeZero inputBuf := ⟨by decide⟩

/-- `C('D')` -/
def ctrlD : UInt8 := 4

/-- `C('H')` -/
def ctrlH : UInt8 := 8

/-- `'\n'` -/
def lf : UInt8 := 10

/-- `'\r'` -/
def cr : UInt8 := 13

/-- `C('P')` -/
def ctrlP : UInt8 := 16

/-- `C('U')` -/
def ctrlU : UInt8 := 21

/-- `'\x7f'` -/
def del : UInt8 := 127

/-! ## The ring -/

/-- `input`. -/
structure Input : Type where
  buf : Fin inputBuf → UInt8
  /-- read index -/
  r : UInt32
  /-- write index -/
  w : UInt32
  /-- edit index -/
  e : UInt32

namespace Input

/-- The byte `buf[i % INPUT_BUF]`. -/
def byteAt (s : Input) (i : UInt32) : UInt8 := s.buf (Fin.ofNat inputBuf i.toNat)

/-- The loop of `consoleintr` that kills the line. `k` is `e - w`, and the loop ends with it. -/
def killLine : ℕ → Input → Input
  | 0, s => s
  | k + 1, s =>
    if s.e ≠ s.w ∧ s.byteAt (s.e - 1) ≠ lf then killLine k { s with e := s.e - 1 } else s

/-- `consoleintr`: `input.buf[input.e++ % INPUT_BUF] = c`, and `input.w = input.e` at the end of a
line. -/
def store (s : Input) (c : UInt8) : Input :=
  let s := { s with buf := Function.update s.buf (Fin.ofNat inputBuf s.e.toNat) c, e := s.e + 1 }
  if c = lf ∨ c = ctrlD ∨ s.e = s.r + 128 then { s with w := s.e } else s

/-- `consoleintr`, for one character. -/
def key (s : Input) (c : UInt8) : Input :=
  if c = ctrlP then s
  else if c = ctrlU then killLine (s.e - s.w).toNat s
  else if c = ctrlH ∨ c = del then if s.e ≠ s.w then { s with e := s.e - 1 } else s
  else if c ≠ 0 ∧ s.e - s.r < 128 then s.store (if c = cr then lf else c)
  else s

/-- How a step of `consoleread` ends. -/
inductive Stop : Type where
  | done
  | killed
  | sleep
  deriving DecidableEq, Repr

/-- The loop of `consoleread`, with `n` of `target` bytes to go and `dst` copied: what is left to
go, what is copied, and how it ends. -/
def readLoop (target : ℕ) (killed : Bool) : ℕ → Input → List UInt8 → Input × ℕ × List UInt8 × Stop
  | 0, s, dst => (s, 0, dst, .done)
  | n + 1, s, dst =>
    if s.r = s.w then (s, n + 1, dst, if killed then .killed else .sleep)
    else
      let c := s.byteAt s.r
      let s := { s with r := s.r + 1 }
      if c = ctrlD then
        (if n + 1 < target then { s with r := s.r - 1 } else s, n + 1, dst, .done)
      else if c = lf then (s, n, dst ++ [c], .done)
      else readLoop target killed n s (dst ++ [c])

end Input

/-! ## The reference -/

/-- The bytes that are committed and not read, and the line being edited. `out` is all that was ever
committed. -/
structure Editor : Type where
  queue : List UInt8
  line : List UInt8
  out : List UInt8

namespace Editor

/-- Append to the line, and commit it when it is complete. -/
def store (ed : Editor) (c : UInt8) : Editor :=
  let line := ed.line ++ [c]
  if c = lf ∨ c = ctrlD ∨ ed.queue.length + line.length = inputBuf then
    ⟨ed.queue ++ line, [], ed.out ++ line⟩
  else { ed with line := line }

/-- One character. -/
def key (ed : Editor) (c : UInt8) : Editor :=
  if c = ctrlP then ed
  else if c = ctrlU then { ed with line := [] }
  else if c = ctrlH ∨ c = del then { ed with line := ed.line.dropLast }
  else if c ≠ 0 ∧ ed.queue.length + ed.line.length < inputBuf then
    ed.store (if c = cr then lf else c)
  else ed

/-- Read from a queue: what is left of the queue, what is left to go, what is copied, and how it
ends. -/
def readLoop (target : ℕ) (killed : Bool) :
    ℕ → List UInt8 → List UInt8 → List UInt8 × ℕ × List UInt8 × Input.Stop
  | 0, q, dst => (q, 0, dst, .done)
  | n + 1, [], dst => ([], n + 1, dst, if killed then .killed else .sleep)
  | n + 1, c :: q, dst =>
    if c = ctrlD then (if n + 1 < target then c :: q else q, n + 1, dst, .done)
    else if c = lf then (q, n, dst ++ [c], .done)
    else readLoop target killed n q (dst ++ [c])

end Editor

/-! ## Calls -/

/-- A call of `consoleread`. -/
inductive Call : Type where
  | none
  /-- in `sleep`, with `n` of `target` bytes to go -/
  | waiting (target n : ℕ) (dst : List UInt8)
  | returned (target : ℕ) (value : ℤ) (dst : List UInt8)
  deriving DecidableEq, Repr

/-- What becomes of a call at the end of its step. -/
def Call.settle (target n : ℕ) (dst : List UInt8) : Input.Stop → Call
  | .done => .returned target (target - n) dst
  | .killed => .returned target (-1) dst
  | .sleep => .waiting target n dst

inductive Event : Type where
  /-- a call of `consoleintr`, with the characters that `getc` returns -/
  | intr (cs : List UInt8)
  /-- a call of `consoleread` -/
  | read (n : ℕ) (killed : Bool)
  /-- a call of `consoleread` goes on -/
  | resume (id : ℕ) (killed : Bool)

/-- The console and the calls on it. -/
structure State : Type where
  input : Input
  calls : ℕ → Call
  /-- the number of the next call -/
  next : ℕ

namespace State

/-- Call `id` gets the lock. -/
def turn (s : State) (id target n : ℕ) (dst : List UInt8) (killed : Bool) : State :=
  match s.input.readLoop target killed n dst with
  | (input, n, dst, stop) =>
    { s with input := input, calls := Function.update s.calls id (.settle target n dst stop) }

/-- One step. -/
def step (s : State) : Event → Option State
  | .intr cs => some { s with input := cs.foldl Input.key s.input }
  | .read n killed => some ({ s with next := s.next + 1 }.turn s.next n n [] killed)
  | .resume id killed =>
    match s.calls id with
    | .waiting target n dst => some (s.turn id target n dst killed)
    | _ => none

/-- The zeroed console. -/
def start : State := ⟨⟨fun _ => 0, 0, 0, 0⟩, fun _ => .none, 0⟩

end State

/-- The reference and the calls on it. `taken` lists the bytes that were taken from the queue, with
the call that took them. -/
structure Ref : Type where
  editor : Editor
  calls : ℕ → Call
  next : ℕ
  taken : List (ℕ × UInt8)

namespace Ref

/-- Call `id` gets its turn. -/
def turn (a : Ref) (id target n : ℕ) (dst : List UInt8) (killed : Bool) : Ref :=
  match Editor.readLoop target killed n a.editor.queue dst with
  | (queue, n, dst, stop) =>
    { a with
      editor := { a.editor with queue := queue }
      calls := Function.update a.calls id (.settle target n dst stop)
      taken := a.taken ++
        (a.editor.queue.take (a.editor.queue.length - queue.length)).map fun c => (id, c) }

/-- One step. -/
def step (a : Ref) : Event → Option Ref
  | .intr cs => some { a with editor := cs.foldl Editor.key a.editor }
  | .read n killed => some ({ a with next := a.next + 1 }.turn a.next n n [] killed)
  | .resume id killed =>
    match a.calls id with
    | .waiting target n dst => some (a.turn id target n dst killed)
    | _ => none

/-- Nothing was typed yet. -/
def start : Ref := ⟨⟨[], [], []⟩, fun _ => .none, 0, []⟩

/-- The bytes that call `id` has taken. -/
def takenBy (a : Ref) (id : ℕ) : List UInt8 := (a.taken.filter (·.1 = id)).map Prod.snd

end Ref

/-! ## The ring shows the lists -/

variable {ed : Editor} {pre dst items : List UInt8} {target n : ℕ} {e : Event}

namespace Input

/-- The ring holds the committed bytes `q` and the line `l`. -/
structure Shows (s : Input) (q l : List UInt8) : Prop where
  holds : Holds s.buf (2 ^ 32) s.r.toNat s.e.toNat (q ++ l)
  commit : s.w.toNat = (s.r.toNat + q.length) % 2 ^ 32

variable {s : Input} {q l : List UInt8} {c : UInt8}

theorem inputBuf_dvd : inputBuf ∣ 2 ^ 32 := by decide

theorem inputBuf_lt : inputBuf < 2 ^ 32 := by decide

theorem toNat_succ (x : UInt32) : (x + 1).toNat = (x.toNat + 1) % 2 ^ 32 := UInt32.toNat_add x 1

theorem toNat_pred (x : UInt32) : (x - 1).toNat = (x.toNat + (2 ^ 32 - 1)) % 2 ^ 32 := by
  rw [UInt32.toNat_sub, Nat.add_comm]
  rfl

namespace Shows

section

variable (h : s.Shows q l)
include h

theorem length_le : q.length + l.length ≤ inputBuf := by
  have hlen := h.holds.length_le
  rwa [List.length_append] at hlen

theorem committed : Holds s.buf (2 ^ 32) s.r.toNat s.w.toNat q :=
  h.holds.left h.commit

theorem read_eq_iff : s.r = s.w ↔ q = [] := by
  rw [← h.committed.counter_eq_iff inputBuf_lt s.r.toNat_lt, UInt32.toNat_inj]

theorem sub_read : (s.e - s.r).toNat = q.length + l.length := by
  rw [UInt32.toNat_sub, h.holds.sub_mod inputBuf_lt s.r.toNat_lt, List.length_append]

theorem write_sub_read : (s.w - s.r).toNat = q.length := by
  rw [UInt32.toNat_sub, h.committed.sub_mod inputBuf_lt s.r.toNat_lt]

theorem full_iff : s.e = s.r + 128 ↔ q.length + l.length = inputBuf := by
  rw [← List.length_append, ← h.holds.full_iff inputBuf_lt, ← UInt32.toNat_inj, UInt32.toNat_add]
  rfl

/-- The line starts at `w`. -/
theorem line : (s.e - s.w).toNat = l.length := by
  have hlen := h.length_le
  have hlt := inputBuf_lt
  have he := h.holds.counter
  rw [List.length_append] at he
  rw [UInt32.toNat_sub, he, h.commit]
  omega

theorem edit_eq_iff : s.e = s.w ↔ l = [] := by
  rw [← List.length_eq_zero_iff, ← h.line]
  constructor
  · intro heq
    rw [heq, UInt32.sub_self]
    rfl
  · intro hzero
    have hsub : s.e - s.w = 0 := UInt32.toNat_inj.mp hzero
    rw [← UInt32.sub_add_cancel s.e s.w, hsub, UInt32.zero_add]

end

/-- `input.e--`. -/
theorem pred (h : s.Shows q (l ++ [c])) :
    s.byteAt (s.e - 1) = c ∧ Shows { s with e := s.e - 1 } q l := by
  have hholds := h.holds
  rw [← List.append_assoc] at hholds
  obtain ⟨hlast, hholds⟩ := hholds.unpush inputBuf_dvd inputBuf_lt
  rw [← toNat_pred] at hlast hholds
  exact ⟨hlast, hholds, h.commit⟩

/-- A line without an end is killed as a whole. -/
theorem killLine (h : s.Shows q l) (hl : lf ∉ l) : (Input.killLine l.length s).Shows q [] := by
  induction l using List.reverseRecOn generalizing s with
  | nil => exact h
  | append_singleton l c ih =>
    obtain ⟨hlast, hpred⟩ := h.pred
    have hne : s.e ≠ s.w := fun heq => by simpa using h.edit_eq_iff.mp heq
    have hc : s.byteAt (s.e - 1) ≠ lf := by
      rw [hlast]
      rintro rfl
      simp at hl
    rw [List.length_append, List.length_singleton, Input.killLine, if_pos ⟨hne, hc⟩]
    exact ih hpred fun hmem => hl (List.mem_append_left _ hmem)

theorem store (h : s.Shows q l) (hlen : q.length + l.length < inputBuf)
    (c : UInt8) (out : List UInt8) :
    (s.store c).Shows ((Editor.mk q l out).store c).queue ((Editor.mk q l out).store c).line := by
  let t : Input :=
    { s with buf := Function.update s.buf (Fin.ofNat inputBuf s.e.toNat) c, e := s.e + 1 }
  have ht : t.Shows q (l ++ [c]) := by
    have hpush := h.holds.push inputBuf_dvd (by rwa [List.length_append]) c
    rw [← toNat_succ, List.append_assoc] at hpush
    exact ⟨hpush, h.commit⟩
  have hfull : t.e = t.r + 128 ↔ q.length + (l ++ [c]).length = inputBuf := ht.full_iff
  unfold Input.store Editor.store
  by_cases hcommit : c = lf ∨ c = ctrlD ∨ q.length + (l ++ [c]).length = inputBuf
  · rw [if_pos hcommit, if_pos (by rwa [hfull])]
    refine ⟨by rw [List.append_nil]; exact ht.holds, ?_⟩
    exact ht.holds.counter
  · rw [if_neg hcommit, if_neg (by rwa [hfull])]
    exact ht

theorem key (h : s.Shows ed.queue ed.line) (hline : lf ∉ ed.line) (c : UInt8) :
    (s.key c).Shows (ed.key c).queue (ed.key c).line := by
  have hroom : s.e - s.r < 128 ↔ ed.queue.length + ed.line.length < inputBuf := by
    rw [UInt32.lt_iff_toNat_lt, h.sub_read]
    rfl
  unfold Input.key Editor.key
  split
  · exact h
  split
  · rw [h.line]
    exact h.killLine hline
  split
  · split
    · next hne =>
      have hline : ed.line ≠ [] := mt h.edit_eq_iff.mpr hne
      rw [← List.dropLast_concat_getLast hline] at h
      exact h.pred.2
    · next heq =>
      have hnil : ed.line = [] := h.edit_eq_iff.mp (not_not.mp heq)
      rw [hnil] at h ⊢
      exact h
  simp only [hroom]
  split
  · next hroom => exact h.store hroom.2 _ ed.out
  · exact h

/-- `input.r++`. -/
theorem succ (h : s.Shows (c :: q) l) :
    s.byteAt s.r = c ∧ Shows { s with r := s.r + 1 } q l := by
  obtain ⟨hfront, hpop⟩ := h.holds.pop inputBuf_dvd
  obtain ⟨-, hcommit⟩ := h.committed.pop inputBuf_dvd
  exact ⟨hfront, hpop, hcommit.counter⟩

/-- `consoleread` does on the ring what it does on the queue. -/
theorem readLoop (h : s.Shows q l) (target n : ℕ) (killed : Bool) (dst : List UInt8) :
    (s.readLoop target killed n dst).2 = (Editor.readLoop target killed n q dst).2 ∧
      (s.readLoop target killed n dst).1.Shows (Editor.readLoop target killed n q dst).1 l := by
  induction n generalizing s q dst with
  | zero => exact ⟨rfl, h⟩
  | succ n ih =>
    cases q with
    | nil =>
      rw [Input.readLoop, if_pos (h.read_eq_iff.mpr rfl), Editor.readLoop]
      exact ⟨rfl, h⟩
    | cons c q =>
      obtain ⟨hfront, hsucc⟩ := h.succ
      have hne : s.r ≠ s.w := fun heq => by simpa using h.read_eq_iff.mp heq
      rw [Input.readLoop, if_neg hne, Editor.readLoop]
      simp only [hfront]
      split
      · refine ⟨rfl, ?_⟩
        split
        · -- the index goes back to where it was
          rw [UInt32.add_sub_cancel]
          exact h
        · exact hsucc
      split
      · exact ⟨rfl, hsucc⟩
      · exact ih hsucc _

end Shows

end Input

/-! ## The reference, by itself -/

namespace Editor

/-- The line has no end in it: that would have committed it. -/
theorem line_store (h : lf ∉ ed.line) (c : UInt8) : lf ∉ (ed.store c).line := by
  unfold store
  dsimp only
  split
  · exact List.not_mem_nil
  · next hcommit =>
    rw [List.mem_append, List.mem_singleton]
    rintro (hmem | heq)
    · exact h hmem
    · exact hcommit (.inl heq.symm)

theorem line_key (h : lf ∉ ed.line) (c : UInt8) : lf ∉ (ed.key c).line := by
  unfold key
  split
  · exact h
  split
  · exact List.not_mem_nil
  split
  · exact fun hmem => h (List.dropLast_subset _ hmem)
  split
  · exact line_store h _
  · exact h

/-- What is committed goes to the end of the queue. -/
theorem out_store (h : ed.out = pre ++ ed.queue) (c : UInt8) :
    (ed.store c).out = pre ++ (ed.store c).queue := by
  unfold store
  dsimp only
  split
  · rw [h, List.append_assoc]
  · exact h

theorem out_key (h : ed.out = pre ++ ed.queue) (c : UInt8) :
    (ed.key c).out = pre ++ (ed.key c).queue := by
  unfold key
  split
  · exact h
  split
  · exact h
  split
  · exact h
  split
  · exact out_store h _
  · exact h

/-- What a call has copied so far, if it goes on: no end of line and no end of file. -/
structure Partial (target n : ℕ) (dst : List UInt8) : Prop where
  length : n + dst.length = target
  clean : ctrlD ∉ dst ∧ lf ∉ dst

/-- What a call that took the bytes `items` may return. -/
structure Complete (target n : ℕ) (dst items : List UInt8) : Prop where
  length : n + dst.length = target
  /-- a line ends the call, and the end of file is not copied -/
  clean : ctrlD ∉ dst ∧ lf ∉ dst.dropLast
  /-- the bytes copied are the bytes taken, and the end of file is taken by a call without bytes -/
  items : items = dst ++ if dst = [] ∧ 0 < target then [ctrlD] else []

/-- **What a turn of a call comes to.** -/
theorem readLoop_spec {killed : Bool} {q q' dst' : List UInt8} {n' : ℕ} {stop : Input.Stop}
    (h : Partial target n dst) (hloop : readLoop target killed n q dst = (q', n', dst', stop)) :
    ∃ items, q = items ++ q' ∧
      (stop ≠ .done → Partial target n' dst' ∧ dst' = dst ++ items ∧ q' = []) ∧
      (stop = .done → Complete target n' dst' (dst ++ items) ∧
        (n' = 0 ∨ dst'.getLast? = some lf ∨ dst' = [] ∨ q'.head? = some ctrlD)) := by
  induction n generalizing q dst with
  | zero =>
    obtain ⟨rfl, rfl, rfl, rfl⟩ : q = q' ∧ 0 = n' ∧ dst = dst' ∧ Input.Stop.done = stop := by
      simpa [readLoop] using hloop
    have heof : ¬ (dst = [] ∧ 0 < target) := by
      rintro ⟨rfl, hpos⟩
      exact absurd h.length hpos.ne
    refine ⟨[], rfl, fun hstop => absurd rfl hstop, fun _ => ⟨⟨h.length, ?_, ?_⟩, .inl rfl⟩⟩
    · exact ⟨h.clean.1, fun hmem => h.clean.2 (List.dropLast_subset _ hmem)⟩
    · rw [if_neg heof]
  | succ n ih =>
    cases q with
    | nil =>
      obtain ⟨rfl, rfl, rfl, rfl⟩ : [] = q' ∧ n + 1 = n' ∧ dst = dst' ∧
          (if killed then Input.Stop.killed else .sleep) = stop := by
        simpa [readLoop] using hloop
      refine ⟨[], rfl, fun _ => ⟨h, (List.append_nil dst).symm, rfl⟩, fun hdone => ?_⟩
      split at hdone <;> cases hdone
    | cons c q =>
      rw [readLoop] at hloop
      split at hloop
      · next hc =>
        subst hc
        have hlen := h.length
        split at hloop
        · next hgone =>
          -- the end of file stays, for the next call
          obtain ⟨rfl, rfl, rfl, rfl⟩ : ctrlD :: q = q' ∧ n + 1 = n' ∧ dst = dst' ∧
              Input.Stop.done = stop := by simpa using hloop
          have hsome : ¬ (dst = [] ∧ 0 < target) := by
            rintro ⟨rfl, -⟩
            rw [List.length_nil] at hlen
            omega
          refine ⟨[], rfl, fun hstop => absurd rfl hstop, fun _ => ⟨⟨hlen, ?_, ?_⟩, ?_⟩⟩
          · exact ⟨h.clean.1, fun hmem => h.clean.2 (List.dropLast_subset _ hmem)⟩
          · rw [if_neg hsome]
          · exact .inr (.inr (.inr rfl))
        · next hfirst =>
          obtain ⟨rfl, rfl, rfl, rfl⟩ : q = q' ∧ n + 1 = n' ∧ dst = dst' ∧
              Input.Stop.done = stop := by simpa using hloop
          obtain rfl : dst = [] := List.length_eq_zero_iff.mp (by omega)
          refine ⟨[ctrlD], rfl, fun hstop => absurd rfl hstop, fun _ => ⟨⟨hlen, ?_, ?_⟩, ?_⟩⟩
          · exact ⟨List.not_mem_nil, List.not_mem_nil⟩
          · rw [if_pos ⟨rfl, by omega⟩]
          · exact .inr (.inr (.inl rfl))
      · next hnd =>
        split at hloop
        · next hc =>
          subst hc
          obtain ⟨rfl, rfl, rfl, rfl⟩ : q = q' ∧ n = n' ∧ dst ++ [lf] = dst' ∧
              Input.Stop.done = stop := by simpa using hloop
          refine ⟨[lf], rfl, fun hstop => absurd rfl hstop, fun _ => ⟨⟨?_, ?_, ?_⟩, ?_⟩⟩
          · rw [List.length_append, List.length_singleton, ← h.length]
            omega
          · rw [List.dropLast_concat, List.mem_append, List.mem_singleton]
            exact ⟨fun hmem => hmem.elim h.clean.1 (by decide), h.clean.2⟩
          · rw [if_neg (by simp), List.append_nil]
          · exact .inr (.inl List.getLast?_concat)
        · next hnl =>
          have hnext : Partial target n (dst ++ [c]) := by
            refine ⟨?_, ?_⟩
            · rw [List.length_append, List.length_singleton, ← h.length]
              omega
            · rw [List.mem_append, List.mem_append, List.mem_singleton, List.mem_singleton]
              exact ⟨fun hmem => hmem.elim h.clean.1 fun heq => hnd heq.symm,
                fun hmem => hmem.elim h.clean.2 fun heq => hnl heq.symm⟩
          obtain ⟨items, rfl, hgoes, hdone⟩ := ih hnext hloop
          rw [List.append_assoc] at hgoes hdone
          exact ⟨c :: items, rfl, hgoes, hdone⟩

end Editor

/-- What a call that took the bytes `items` returned. -/
structure Answer (target : ℕ) (value : ℤ) (dst items : List UInt8) : Prop where
  length_le : dst.length ≤ target
  clean : ctrlD ∉ dst ∧ lf ∉ dst.dropLast
  /-- `-1` is for a process that was killed -/
  value : (value = -1 ∧ items = dst) ∨
    (value = dst.length ∧ items = dst ++ if dst = [] ∧ 0 < target then [ctrlD] else [])

theorem Answer.of_complete (h : Editor.Complete target n dst items) :
    Answer target (target - n) dst items := by
  have hlen := h.length
  exact ⟨by omega, h.clean, .inr ⟨by omega, h.items⟩⟩

theorem Answer.of_unfinished (h : Editor.Partial target n dst) : Answer target (-1) dst dst := by
  have hlen := h.length
  refine ⟨by omega, ⟨h.clean.1, fun hmem => ?_⟩, .inl ⟨rfl, rfl⟩⟩
  exact h.clean.2 (List.dropLast_subset _ hmem)

/-- Only a call that returns 0 bytes has taken an end of file, and nothing else. -/
theorem Answer.eof {value : ℤ} (h : Answer target value dst items) (hmem : ctrlD ∈ items) :
    value = 0 ∧ dst = [] ∧ items = [ctrlD] := by
  rcases h.value with ⟨-, rfl⟩ | ⟨hvalue, rfl⟩
  · exact absurd hmem h.clean.1
  · have htail := (List.mem_append.mp hmem).resolve_left h.clean.1
    split at htail
    · next hnil =>
      obtain ⟨rfl, hpos⟩ := hnil
      exact ⟨hvalue, rfl, by rw [if_pos ⟨rfl, hpos⟩, List.nil_append]⟩
    · cases htail

namespace Ref

/-- What is known of call `id`. -/
def CallOk (a : Ref) (id : ℕ) : Prop :=
  match a.calls id with
  | .none => a.takenBy id = []
  | .waiting target n dst => Editor.Partial target n dst ∧ a.takenBy id = dst
  | .returned target value dst => Answer target value dst (a.takenBy id)

/-- What holds between any two steps. -/
structure Inv (a : Ref) : Prop where
  line : lf ∉ a.editor.line
  /-- what was committed was taken, or is in the queue -/
  order : a.editor.out = a.taken.map Prod.snd ++ a.editor.queue
  calls : ∀ id, a.CallOk id
  fresh : ∀ id, a.next ≤ id → a.calls id = .none

variable {a a' : Ref} {id : ℕ}

theorem Inv.keys (ha : a.Inv) (cs : List UInt8) :
    Inv { a with editor := cs.foldl Editor.key a.editor } := by
  induction cs generalizing a with
  | nil => exact ha
  | cons c cs ih =>
    exact ih (a := { a with editor := a.editor.key c })
      ⟨Editor.line_key ha.line c, Editor.out_key ha.order c, ha.calls, ha.fresh⟩

/-- The bytes that call `id` takes in its turn. -/
theorem takenBy_append (a : Ref) (id i : ℕ) (items : List UInt8) (ed : Editor) (calls : ℕ → Call) :
    takenBy { a with editor := ed, calls := calls, taken := a.taken ++ items.map (id, ·) } i =
      a.takenBy i ++ if i = id then items else [] := by
  rw [takenBy, List.filter_append, List.map_append, takenBy]
  congr 1
  split
  · next heq =>
    subst heq
    induction items with
    | nil => rfl
    | cons c items ih => simpa using ih
  · next hne =>
    induction items with
    | nil => rfl
    | cons c items ih => simp [Ne.symm hne]

/-- A call that returns in this step stops at the end of a line, with all its bytes, or at the end
of file. -/
def StopsOk (a a' : Ref) : Prop :=
  ∀ id target value dst, a'.calls id = .returned target value dst →
    a.calls id ≠ .returned target value dst →
      value = -1 ∨ value = target ∨ dst.getLast? = some lf ∨ dst = [] ∨
        a'.editor.queue.head? = some ctrlD

/-- **A turn of a call.** -/
theorem Inv.turn (ha : a.Inv) (hid : id < a.next) (killed : Bool)
    (hmore : Editor.Partial target n dst) (htaken : a.takenBy id = dst) :
    (a.turn id target n dst killed).Inv ∧ StopsOk a (a.turn id target n dst killed) := by
  rcases hloop : Editor.readLoop target killed n a.editor.queue dst with ⟨q', n', dst', stop⟩
  obtain ⟨items, hq, hgoes, hdone⟩ := Editor.readLoop_spec hmore hloop
  have hitems : a.editor.queue.take (a.editor.queue.length - q'.length) = items := by
    rw [hq, List.length_append, Nat.add_sub_cancel, List.take_left]
  unfold Ref.turn
  rw [hloop]
  dsimp only
  rw [hitems]
  refine ⟨⟨ha.line, ?_, fun i => ?_, fun i hi => ?_⟩, fun i target' value dst'' hcall hnew => ?_⟩
  · rw [ha.order, hq, List.map_append, List.map_map, List.append_assoc]
    simp [Function.comp_def]
  · rw [CallOk, takenBy_append]
    dsimp only
    rcases eq_or_ne i id with rfl | hne
    · rw [Function.update_self, if_pos rfl, htaken]
      cases stop with
      | done => exact .of_complete (hdone rfl).1
      | killed =>
        obtain ⟨hmore', hdst, -⟩ := hgoes nofun
        rw [← hdst]
        exact .of_unfinished hmore'
      | sleep =>
        obtain ⟨hmore', hdst, -⟩ := hgoes nofun
        exact ⟨hmore', hdst.symm⟩
    · rw [Function.update_of_ne hne, if_neg hne, List.append_nil]
      exact ha.calls i
  · have hne : i ≠ id := (lt_of_lt_of_le hid hi).ne'
    exact (Function.update_of_ne hne ..).trans (ha.fresh i hi)
  · dsimp only at hcall
    rcases eq_or_ne i id with rfl | hne
    · rw [Function.update_self] at hcall
      cases stop with
      | done =>
        obtain ⟨rfl, hvalue, rfl⟩ := Call.returned.inj hcall
        rcases (hdone rfl).2 with rfl | hstop
        · exact .inr (.inl (by rw [← hvalue]; exact Int.sub_zero _))
        · exact .inr (.inr hstop)
      | killed =>
        obtain ⟨-, hvalue, -⟩ := Call.returned.inj hcall
        exact .inl hvalue.symm
      | sleep => cases hcall
    · rw [Function.update_of_ne hne] at hcall
      exact absurd hcall hnew

/-- A new call gets a number that was not used before. -/
theorem Inv.call (ha : a.Inv) : Inv { a with next := a.next + 1 } :=
  ⟨ha.line, ha.order, ha.calls, fun id hid => ha.fresh id (Nat.le_of_succ_le hid)⟩

theorem Inv.takenBy_next (ha : a.Inv) : a.takenBy a.next = [] := by
  have hcall := ha.calls a.next
  rwa [CallOk, ha.fresh a.next le_rfl] at hcall

theorem partial_start (n : ℕ) : Editor.Partial n n [] := ⟨rfl, List.not_mem_nil, List.not_mem_nil⟩

/-- **The step lemma.** -/
theorem Inv.step (ha : a.Inv) (h : a.step e = some a') : a'.Inv ∧ StopsOk a a' := by
  cases e with
  | intr cs =>
    obtain rfl := Option.some.inj h
    exact ⟨ha.keys cs, fun _ _ _ _ hcall hnew => absurd hcall hnew⟩
  | read n killed =>
    obtain rfl := Option.some.inj h
    exact ha.call.turn (Nat.lt_succ_self a.next) killed (partial_start n) ha.takenBy_next
  | resume id killed =>
    simp only [Ref.step] at h
    split at h
    · next target n dst hcall =>
      obtain rfl := Option.some.inj h
      have hok := ha.calls id
      rw [CallOk, hcall] at hok
      have hid : id < a.next := by
        by_contra hle
        rw [ha.fresh id (not_lt.mp hle)] at hcall
        cases hcall
      exact ha.turn hid killed hok.1 hok.2
    · cases h

theorem Inv.start : Inv start := ⟨List.not_mem_nil, rfl, fun _ => rfl, fun _ _ => rfl⟩

/-- An end of file that was taken went to a call that returned 0 bytes. -/
theorem Inv.eof (ha : a.Inv) (hmem : ctrlD ∈ a.takenBy id) :
    a.takenBy id = [ctrlD] ∧ ∃ target, a.calls id = .returned target 0 [] := by
  have hok := ha.calls id
  unfold CallOk at hok
  split at hok
  · rw [hok] at hmem
    cases hmem
  · rw [hok.2] at hmem
    exact absurd hmem hok.1.clean.1
  · next target value dst hcall =>
    obtain ⟨rfl, rfl, hitems⟩ := hok.eof hmem
    exact ⟨hitems, target, hcall⟩

end Ref

/-! ## The two together -/

/-- The ring and the reference show the same to every call. -/
structure Agree (s : State) (a : Ref) : Prop where
  shows : s.input.Shows a.editor.queue a.editor.line
  calls : s.calls = a.calls
  next : s.next = a.next

namespace Agree

variable {s s' : State} {a : Ref}

theorem keys {input : Input} (h : input.Shows ed.queue ed.line) (hline : lf ∉ ed.line)
    (cs : List UInt8) :
    (cs.foldl Input.key input).Shows (cs.foldl Editor.key ed).queue
    (cs.foldl Editor.key ed).line := by
  induction cs generalizing input ed with
  | nil => exact h
  | cons c cs ih => exact ih (h.key hline c) (Editor.line_key hline c)

theorem turn (h : Agree s a) (id target n : ℕ) (dst : List UInt8) (killed : Bool) :
    Agree (s.turn id target n dst killed) (a.turn id target n dst killed) := by
  obtain ⟨hsame, hshows⟩ := h.shows.readLoop target n killed dst
  unfold State.turn Ref.turn
  rcases hring : s.input.readLoop target killed n dst with ⟨input, n', dst', stop⟩
  rcases hlist : Editor.readLoop target killed n a.editor.queue dst with ⟨q, n'', dst'', stop'⟩
  rw [hring, hlist] at hsame hshows
  cases hsame
  exact ⟨hshows, by rw [h.calls], h.next⟩

/-- **The step lemma.** -/
theorem step (h : Agree s a) (ha : a.Inv) (hstep : s.step e = some s') :
    ∃ a', a.step e = some a' ∧ Agree s' a' := by
  cases e with
  | intr cs =>
    obtain rfl := Option.some.inj hstep
    exact ⟨_, rfl, keys h.shows ha.line cs, h.calls, h.next⟩
  | read n killed =>
    obtain rfl := Option.some.inj hstep
    have hcall : Agree { s with next := s.next + 1 } { a with next := a.next + 1 } :=
      ⟨h.shows, h.calls, congrArg (· + 1) h.next⟩
    exact ⟨_, rfl, h.next ▸ hcall.turn a.next n n [] killed⟩
  | resume id killed =>
    simp only [State.step, h.calls] at hstep
    split at hstep
    · next target n dst hcall =>
      obtain rfl := Option.some.inj hstep
      refine ⟨_, ?_, h.turn id target n dst killed⟩
      simp only [Ref.step, hcall]
    · cases hstep

end Agree

/-- **The console delivers the edited lines.** In every run from the zero state the three indices
are in order and at most `INPUT_BUF` apart, modulo 2³², and every call of `consoleread` gets what it
gets from the reference: there, the bytes that calls have taken are, in order, what was committed; a
call returns the bytes it took, at most `n` and no more than one line of them; an end of file is
taken by one call, which returns 0 bytes, and otherwise ends a call and stays. -/
theorem console_run {es : List Event} {s : State} (h : Run.exec State.step .start es = some s) :
    (s.input.w - s.input.r).toNat ≤ (s.input.e - s.input.r).toNat ∧
      (s.input.e - s.input.r).toNat ≤ inputBuf ∧
      ∃ a, Run.exec Ref.step .start es = some a ∧ s.calls = a.calls ∧
        s.input.Shows a.editor.queue a.editor.line ∧
        a.editor.out = a.taken.map Prod.snd ++ a.editor.queue ∧
        (∀ id target value dst, s.calls id = .returned target value dst →
          Answer target value dst (a.takenBy id)) ∧
        (∀ id, ctrlD ∈ a.takenBy id →
          a.takenBy id = [ctrlD] ∧ ∃ target, s.calls id = .returned target 0 []) ∧
        ∀ e s', s.step e = some s' → ∃ a', a.step e = some a' ∧ s'.calls = a'.calls ∧
        a.StopsOk a' := by
  have hboot : Agree .start .start ∧ Ref.start.Inv := ⟨⟨⟨.nil (by decide), rfl⟩, rfl, rfl⟩, .start⟩
  have hsim : ∀ s a e s', Agree s a ∧ a.Inv → s.step e = some s' →
      ∃ a', a.step e = some a' ∧ Agree s' a' ∧ a'.Inv := by
    rintro s a e s' ⟨hagree, ha⟩ hstep
    obtain ⟨a', hstep', hagree'⟩ := hagree.step ha hstep
    exact ⟨a', hstep', hagree', (ha.step hstep').1⟩
  obtain ⟨a, hrun, hagree, ha⟩ := Run.exec_simulation hsim hboot h
  refine ⟨?_, ?_, a, hrun, hagree.calls, hagree.shows, ha.order,
    fun id target value dst hcall => ?_, fun id hmem => ?_, fun e s' hstep => ?_⟩
  · rw [hagree.shows.write_sub_read, hagree.shows.sub_read]
    exact Nat.le_add_right _ _
  · rw [hagree.shows.sub_read]
    exact hagree.shows.length_le
  · have hok := ha.calls id
    rw [hagree.calls] at hcall
    rwa [Ref.CallOk, hcall] at hok
  · rw [hagree.calls]
    exact ha.eof hmem
  · obtain ⟨a', hstep', hagree'⟩ := hagree.step ha hstep
    exact ⟨a', hstep', hagree'.calls, (ha.step hstep').2⟩

/-- `ab`, backspace, `c`, return, `^D` are typed; reads of 10 bytes return `ac` with its line end,
and then nothing. -/
theorem console_run_line : ∃ s, Run.exec State.step .start
      [.intr [97, 98, 8, 99, 13, 4], .read 10 false, .read 10 false] = some s ∧
    s.calls 0 = .returned 10 3 [97, 99, 10] ∧ s.calls 1 = .returned 10 0 [] ∧
    (s.input.e - s.input.r).toNat ≤ inputBuf := by
  have hrun : Run.exec State.step .start
    [.intr [97, 98, 8, 99, 13, 4], .read 10 false, .read 10 false] = some _ := rfl
  exact ⟨_, hrun, by decide, by decide, (console_run hrun).2.1⟩

end InuOs.Console
