import InuOs.Bio
import Mathlib.Data.Set.Function
import Mathlib.Algebra.Order.BigOperators.Group.Finset

/-!
# The list, the keys and the reference counts of the buffer cache

`Moves` says once what each step of `InuOs.Bio` can do.

`Inv` holds at all times, for device numbers other than `0`: the buffers form one **circular list**,
no two of them are for the same block, `refcnt` counts the uses of a buffer, and a use has the
buffer of the block that it asked for. A buffer that is in use or has `B_DIRTY` stays with its block
(`key_step`).
-/

namespace InuOs.Bio

open InuOs.DList InuOs.Lock InuOs.Run

variable {ι α : Type} {s s' : State ι α} {i j : ι} {b c : ℕ} {k : ℕ × ℕ} {a a₀ : Pc}
  {e : Event ι α} {x : Buf α}

/-! ## Points of a use -/

namespace Pc

/-- The buffer that is in use. -/
def buf : Pc → Option ℕ
  | .idle => none
  | .wait b _ => some b
  | .locked b _ => some b
  | .ready b _ _ => some b
  | .write b _ => some b
  | .release b => some b

/-- The buffer that is in use, with the block that was asked for. -/
def asked : Pc → Option (ℕ × ℕ × ℕ)
  | .wait b k => some (b, k)
  | .locked b k => some (b, k)
  | .ready b k _ => some (b, k)
  | .write b k => some (b, k)
  | _ => none

/-- The sleep-lock of `b` is needed. -/
def Has (b : ℕ) : Pc → Prop
  | .locked c _ => c = b
  | .ready c _ _ => c = b
  | .write c _ => c = b
  | _ => False

/-- The data of `b` is there. -/
def Reads (b : ℕ) : Pc → Prop
  | .ready c _ _ => c = b
  | .write c _ => c = b
  | _ => False

/-- The data of `b` was changed and not stored yet. -/
def Modifies (b : ℕ) : Pc → Prop
  | .ready c _ modified => c = b ∧ modified = true
  | _ => False

/-- The data of `b` was stored and is about to go to the disk. -/
def Writes (b : ℕ) : Pc → Prop
  | .write c _ => c = b
  | _ => False

/-- How often `b` is in use: once or not at all. -/
def refs (b : ℕ) (a : Pc) : ℕ := if a.buf = some b then 1 else 0

theorem Reads.has (h : a.Reads b) : a.Has b := by
  cases a <;> first | exact h | exact h.elim

theorem Has.asked (h : a.Has b) : ∃ k, a.asked = some (b, k) := by
  cases a with
  | locked c k => exact ⟨k, congrArg (fun c => some (c, k)) h⟩
  | ready c k m => exact ⟨k, congrArg (fun c => some (c, k)) h⟩
  | write c k => exact ⟨k, congrArg (fun c => some (c, k)) h⟩
  | _ => exact h.elim

theorem Has.eq (hb : a.Has b) (hc : a.Has c) : c = b := by
  cases a with
  | locked d k => exact hc.symm.trans hb
  | ready d k m => exact hc.symm.trans hb
  | write d k => exact hc.symm.trans hb
  | _ => exact hb.elim

theorem Modifies.reads (h : a.Modifies b) : a.Reads b := by
  cases a with
  | ready c k m => exact h.1
  | _ => exact h.elim

theorem Writes.reads (h : a.Writes b) : a.Reads b := by
  cases a with
  | write c k => exact h
  | _ => exact h.elim

theorem buf_of_asked (h : a.asked = some (b, k)) : a.buf = some b := by
  cases a <;> cases h <;> rfl

end Pc

/-! ## Changing one buffer -/

namespace State

@[simp] theorem setBuf_self : (s.setBuf b x).bufs b = x := Function.update_self ..

theorem setBuf_of_ne (h : c ≠ b) : (s.setBuf b x).bufs c = s.bufs c := Function.update_of_ne h ..

@[simp] theorem setBuf_pc : (s.setBuf b x).pc = s.pc := rfl

/-- A change of one buffer that does not touch its key. -/
theorem key_same (hbufs : s'.bufs = Function.update s.bufs b x) (hkey : x.key = (s.bufs b).key)
    (c : ℕ) : (s'.bufs c).key = (s.bufs c).key := by
  rw [hbufs]
  rcases eq_or_ne c b with rfl | hne
  · rw [Function.update_self, hkey]
  · rw [Function.update_of_ne hne]

/-- A change of one buffer that touches neither its key nor its `refcnt`. -/
theorem bufs_same (hbufs : s'.bufs = Function.update s.bufs b x) (hkey : x.key = (s.bufs b).key)
    (hrefcnt : x.refcnt = (s.bufs b).refcnt) (c : ℕ) :
    (s'.bufs c).key = (s.bufs c).key ∧ (s'.bufs c).refcnt = (s.bufs c).refcnt := by
  refine ⟨key_same hbufs hkey c, ?_⟩
  rw [hbufs]
  rcases eq_or_ne c b with rfl | hne
  · rw [Function.update_self, hrefcnt]
  · rw [Function.update_of_ne hne]

end State

/-! ## What a step can do -/

/-- The steps, with what they found. -/
inductive Moves [DecidableEq ι] (s : State ι α) : Event ι α → State ι α → Prop where
  | hit {i : ι} {b : ℕ} {k : ℕ × ℕ} (hpc : s.pc i = .idle) (hfound : s.cached k = some b) :
    Moves s (.bget i k)
      ((s.setBuf b { s.bufs b with refcnt := (s.bufs b).refcnt + 1 }).goto i (.wait b k))
  | recycle {i : ι} {b : ℕ} {k : ℕ × ℕ} (hpc : s.pc i = .idle)
    (hnone : s.cached k = none) (hunused : s.unused = some b) :
    Moves s (.bget i k) ((s.setBuf b { s.bufs b with
      dev := k.1, blockno := k.2, valid := false, dirty := false, refcnt := 1 }).goto i (.wait b k))
  | acquire {i : ι} {b : ℕ} {k : ℕ × ℕ} (hpc : s.pc i = .wait b k) (hfree : s.lock b = none) :
    Moves s (.acquire i)
      { s.goto i (.locked b k) with lock := Function.update s.lock b (some i) }
  | readHit {i : ι} {b : ℕ} {k : ℕ × ℕ} (hpc : s.pc i = .locked b k)
    (hvalid : (s.bufs b).valid = true) :
    Moves s (.bread i) (s.goto i (.ready b k false))
  | readMiss {i : ι} {b : ℕ} {k : ℕ × ℕ} {m : State ι α} (hpc : s.pc i = .locked b k)
    (hvalid : (s.bufs b).valid = false) (hm : s.iderw b = some m) :
    Moves s (.bread i) (m.goto i (.ready b k false))
  | modify {i : ι} {b : ℕ} {k : ℕ × ℕ} {m : Bool} {v : α} (hpc : s.pc i = .ready b k m) :
    Moves s (.modify i v) ((s.setBuf b { s.bufs b with data := v }).goto i (.ready b k true))
  | bwrite {i : ι} {b : ℕ} {k : ℕ × ℕ} {m : Bool} (hpc : s.pc i = .ready b k m) :
    Moves s (.bwrite i) ((s.store b).goto i (.write b k))
  | iderw {i : ι} {b : ℕ} {k : ℕ × ℕ} {m : State ι α} (hpc : s.pc i = .write b k)
    (hm : s.iderw b = some m) :
    Moves s (.iderw i) (m.goto i (.ready b k false))
  | logWrite {i : ι} {b : ℕ} {k : ℕ × ℕ} {m : Bool} (hpc : s.pc i = .ready b k m) :
    Moves s (.logWrite i) ((s.store b).goto i (.ready b k false))
  | release {i : ι} {b : ℕ} {k : ℕ × ℕ} (hpc : s.pc i = .ready b k false) :
    Moves s (.release i) { s.goto i (.release b) with lock := Function.update s.lock b none }
  | brelse {i : ι} {b : ℕ} (hpc : s.pc i = .release b) :
    Moves s (.brelse i) ((s.brelse b).goto i .idle)

theorem moves_of_bget [DecidableEq ι] (hpc : s.pc i = .idle) (h : s.bget i k = some s') :
    Moves s (.bget i k) s' := by
  unfold State.bget at h
  split at h
  · next hfound =>
    obtain rfl := Option.some.inj h
    exact .hit hpc hfound
  · next hnone =>
    split at h
    · next hunused =>
      obtain rfl := Option.some.inj h
      exact .recycle hpc hnone hunused
    · cases h

theorem moves_of_bread [DecidableEq ι] (hpc : s.pc i = .locked b k)
    (h : (if (s.bufs b).valid then some (s.goto i (.ready b k false))
      else (s.iderw b).map fun s => s.goto i (.ready b k false)) = some s') :
    Moves s (.bread i) s' := by
  split at h
  · next hvalid =>
    obtain rfl := Option.some.inj h
    exact .readHit hpc hvalid
  · next hvalid =>
    obtain ⟨m, hm, rfl⟩ := Option.map_eq_some_iff.mp h
    exact .readMiss hpc (by simpa using hvalid) hm

theorem moves_of_step [DecidableEq ι] (h : step s e = some s') : Moves s e s' := by
  cases e with
  | bget i k =>
    dsimp only [step] at h
    split at h
    · next hpc => exact moves_of_bget hpc h
    · cases h
  | acquire i =>
    dsimp only [step] at h
    split at h
    · next b k hpc =>
      split at h
      · next hfree => exact Option.some.inj h ▸ .acquire hpc hfree
      · cases h
    · cases h
  | bread i =>
    dsimp only [step] at h
    split at h
    · next hpc => exact moves_of_bread hpc h
    · cases h
  | iderw i =>
    dsimp only [step] at h
    split at h
    · next hpc =>
      obtain ⟨m, hm, rfl⟩ := Option.map_eq_some_iff.mp h
      exact .iderw hpc hm
    · cases h
  | modify i | bwrite i | logWrite i | release i | brelse i =>
    dsimp only [step] at h
    split at h
    · next hpc =>
      obtain rfl := Option.some.inj h
      constructor
      exact hpc
    · cases h

/-- What `iderw` does where it does not panic. -/
theorem iderw_cases (h : s.iderw b = some s') :
    ((s.bufs b).dirty = true ∧
      s' = { s.setBuf b { s.bufs b with valid := true, dirty := false } with
        disk := Function.update s.disk (place (s.bufs b).key) (s.bufs b).data }) ∨
    ((s.bufs b).dirty = false ∧ (s.bufs b).valid = false ∧
      s' = s.setBuf b { s.bufs b with data := s.disk (place (s.bufs b).key), valid := true }) := by
  unfold State.iderw at h
  dsimp only at h
  split at h
  · cases h
  · next hpanic =>
    have hneeded : ¬ ((s.bufs b).valid = true ∧ (s.bufs b).dirty = false) :=
      fun hdone => hpanic (.inl hdone)
    split at h
    · next hdirty => exact .inl ⟨hdirty, (Option.some.inj h).symm⟩
    · next hclean =>
      have hclean : (s.bufs b).dirty = false := by simpa using hclean
      exact .inr ⟨hclean, by simpa [hclean] using hneeded, (Option.some.inj h).symm⟩

/-- What `iderw` leaves as it is. -/
theorem iderw_same (h : s.iderw b = some s') :
    s'.pc = s.pc ∧ s'.links = s.links ∧ s'.lock = s.lock ∧
      ∀ c, (s'.bufs c).key = (s.bufs c).key ∧ (s'.bufs c).refcnt = (s.bufs c).refcnt := by
  rcases iderw_cases h with ⟨-, rfl⟩ | ⟨-, -, rfl⟩
  · exact ⟨rfl, rfl, rfl, State.bufs_same rfl (by rfl) (by rfl)⟩
  · exact ⟨rfl, rfl, rfl, State.bufs_same rfl (by rfl) (by rfl)⟩

/-! ## The list, the keys and the reference counts -/

variable [Fintype ι]

/-- What holds at all times, for device numbers other than `0`. -/
structure Inv (s : State ι α) : Prop where
  ring : ∃ l, Circular s.links head l ∧ l.Perm (List.range nBuf)
  unique : ∀ b < nBuf, ∀ c < nBuf, (s.bufs b).dev ≠ 0 → (s.bufs b).key = (s.bufs c).key → b = c
  count : ∀ b, (s.bufs b).refcnt = ∑ i, (s.pc i).refs b
  inCache : ∀ i b, (s.pc i).buf = some b → b < nBuf
  asked : ∀ i b k, (s.pc i).asked = some (b, k) → (s.bufs b).key = k ∧ k.1 ≠ 0
  lock : ∀ b, Guards (Pc.Has b) s.pc (s.lock b)

variable [DecidableEq ι]

theorem count_turn (h : (s.bufs b).refcnt = ∑ i, (s.pc i).refs b)
    (hpc : s'.pc = Function.update s.pc i a)
    (hb : (s'.bufs b).refcnt + (s.pc i).refs b = (s.bufs b).refcnt + a.refs b) :
    (s'.bufs b).refcnt = ∑ i, (s'.pc i).refs b := by
  have hsum := sum_update (Pc.refs b) s.pc (Finset.mem_univ i) a
  rw [hpc]
  omega

namespace Inv

omit [DecidableEq ι] in
theorem refcnt_pos (hs : Inv s) (h : (s.pc i).buf = some b) : 0 < (s.bufs b).refcnt := by
  have hle : (s.pc i).refs b ≤ ∑ i, (s.pc i).refs b :=
    Finset.single_le_sum (f := fun i => (s.pc i).refs b) (fun _ _ => Nat.zero_le _)
      (Finset.mem_univ i)
  rw [Pc.refs, if_pos h, ← hs.count] at hle
  exact hle

omit [DecidableEq ι] in
/-- Whoever has the lock of a buffer asked for the block that it is for. -/
theorem of_has (hs : Inv s) (h : (s.pc i).Has b) : b < nBuf ∧ (s.bufs b).dev ≠ 0 := by
  obtain ⟨k, hasked⟩ := h.asked
  obtain ⟨rfl, hdev⟩ := hs.asked i b k hasked
  exact ⟨hs.inCache i b (Pc.buf_of_asked hasked), hdev⟩

omit [DecidableEq ι] in
/-- The first loop of `bget` finds the block if it is in the cache. -/
theorem cached_spec (hs : Inv s) (k : ℕ × ℕ) :
    match s.cached k with
    | some b => b < nBuf ∧ (s.bufs b).key = k
    | none => ∀ b < nBuf, (s.bufs b).key ≠ k := by
  obtain ⟨l, ⟨hseg, hnodup⟩, hperm⟩ := hs.ring
  have hlength : l.length < nBuf + 1 := by
    rw [hperm.length_eq, List.length_range]
    exact Nat.lt_succ_self nBuf
  have hwalk : s.cached k = l.find? (fun b => (s.bufs b).key = k) :=
    walk_next hseg (List.nodup_cons.mp hnodup).1 _ hlength
  rw [hwalk]
  split
  · next b hfind =>
    refine ⟨List.mem_range.mp (hperm.mem_iff.mp (List.mem_of_find?_eq_some hfind)), ?_⟩
    simpa using List.find?_some hfind
  · next hfind =>
    intro b hb
    simpa using List.find?_eq_none.mp hfind b (hperm.mem_iff.mpr (List.mem_range.mpr hb))

omit [DecidableEq ι] in
/-- The second loop of `bget` finds a buffer that may be taken. -/
theorem unused_spec (hs : Inv s) (h : s.unused = some b) :
    b < nBuf ∧ (s.bufs b).refcnt = 0 ∧ (s.bufs b).dirty = false := by
  obtain ⟨l, ⟨hseg, hnodup⟩, hperm⟩ := hs.ring
  have hlength : l.length < nBuf + 1 := by
    rw [hperm.length_eq, List.length_range]
    exact Nat.lt_succ_self nBuf
  have hfind := (walk_prev hseg (List.nodup_cons.mp hnodup).1 _ hlength).symm.trans h
  have hmem := List.mem_reverse.mp (List.mem_of_find?_eq_some hfind)
  refine ⟨List.mem_range.mp (hperm.mem_iff.mp hmem), ?_⟩
  simpa using List.find?_some hfind

/-- A use goes on, with its buffer or with none, and no buffer changes its key. -/
theorem turn (hs : Inv s) (hbefore : s.pc i = a₀) (hpc : s'.pc = Function.update s.pc i a)
    (hbuf : ∀ x, a.buf = some x → a₀.buf = some x)
    (hasked : ∀ x, a.asked = some x → a₀.asked = some x)
    (hkey : ∀ c, (s'.bufs c).key = (s.bufs c).key)
    (hcount : ∀ c, (s'.bufs c).refcnt + a₀.refs c = (s.bufs c).refcnt + a.refs c)
    (hring : ∃ l, Circular s'.links head l ∧ l.Perm (List.range nBuf))
    (hlock : ∀ c, Turn i (a₀.Has c) (a.Has c) (s.lock c) (s'.lock c)) : Inv s' where
  ring := hring
  unique b hb c hc hdev heq := by
    rw [hkey, hkey] at heq
    have hdev' : (s'.bufs b).dev = (s.bufs b).dev := congrArg Prod.fst (hkey b)
    exact hs.unique b hb c hc (hdev' ▸ hdev) heq
  count b := count_turn (hs.count b) hpc (hbefore ▸ hcount b)
  inCache j b hj := by
    rw [hpc] at hj
    rcases eq_or_ne j i with rfl | hne
    · rw [Function.update_self] at hj
      exact hs.inCache j b (hbefore ▸ hbuf b hj)
    · rw [Function.update_of_ne hne] at hj
      exact hs.inCache j b hj
  asked j b k hj := by
    rw [hpc] at hj
    rw [hkey]
    rcases eq_or_ne j i with rfl | hne
    · rw [Function.update_self] at hj
      exact hs.asked j b k (hbefore ▸ hasked _ hj)
    · rw [Function.update_of_ne hne] at hj
      exact hs.asked j b k hj
  lock c := (hs.lock c).turn hpc (hbefore ▸ hlock c)

section

variable (hs : Inv s) (hbefore : s.pc i = a₀) (hpc : s'.pc = Function.update s.pc i a)
  (hbuf : a.buf = a₀.buf) (hasked : ∀ x, a.asked = some x → a₀.asked = some x)
include hs hbefore hpc hbuf hasked

/-- A use goes on with its buffer, and no buffer changes its key or its `refcnt`. -/
theorem keep (hkey : ∀ c, (s'.bufs c).key = (s.bufs c).key)
    (hrefcnt : ∀ c, (s'.bufs c).refcnt = (s.bufs c).refcnt) (hlinks : s'.links = s.links)
    (hlock : ∀ c, Turn i (a₀.Has c) (a.Has c) (s.lock c) (s'.lock c)) : Inv s' :=
  hs.turn hbefore hpc (fun _ hx => hbuf ▸ hx) hasked hkey
    (fun c => by rw [hrefcnt, Pc.refs, Pc.refs, hbuf]) (hlinks ▸ hs.ring) hlock

/-- A use goes on with its buffer, whose lock it keeps. -/
theorem keep_lock
    (hhas : ∀ c, a.Has c → a₀.Has c) (hlinks : s'.links = s.links) (hlock : s'.lock = s.lock)
    (hbufs : ∀ c, (s'.bufs c).key = (s.bufs c).key ∧ (s'.bufs c).refcnt = (s.bufs c).refcnt) :
    Inv s' :=
  hs.keep hbefore hpc hbuf hasked (fun c => (hbufs c).1) (fun c => (hbufs c).2) hlinks fun c => by
    rw [hlock]
    exact .keep _ (hhas c)

end

/-- A use begins: buffer `b` is for block `k` now, and nobody else loses a buffer. -/
theorem begin (hs : Inv s) (hidle : s.pc i = .idle) (hb : b < nBuf) (hdev : k.1 ≠ 0)
    (hkey : x.key = k) (hrefcnt : x.refcnt = (s.bufs b).refcnt + 1)
    (hother : ∀ c < nBuf, (s.bufs c).key = k → c = b)
    (hsame : (s.bufs b).key = k ∨ (s.bufs b).refcnt = 0) :
    Inv ((s.setBuf b x).goto i (.wait b k)) where
  ring := hs.ring
  unique c hc d hd hne heq := by
    change ((s.setBuf b x).bufs c).dev ≠ 0 at hne
    change ((s.setBuf b x).bufs c).key = ((s.setBuf b x).bufs d).key at heq
    by_cases hcb : c = b <;> by_cases hdb : d = b
    · exact hcb.trans hdb.symm
    · rw [hcb, State.setBuf_self, State.setBuf_of_ne hdb, hkey] at heq
      exact absurd (hother d hd heq.symm) hdb
    · rw [hdb, State.setBuf_self, State.setBuf_of_ne hcb, hkey] at heq
      exact absurd (hother c hc heq) hcb
    · rw [State.setBuf_of_ne hcb, State.setBuf_of_ne hdb] at heq
      rw [State.setBuf_of_ne hcb] at hne
      exact hs.unique c hc d hd hne heq
  count c := by
    have hpc : ((s.setBuf b x).goto i (.wait b k)).pc = Function.update s.pc i (.wait b k) := rfl
    refine count_turn (hs.count c) hpc ?_
    change ((s.setBuf b x).bufs c).refcnt + _ = _
    rw [hidle, Pc.refs, Pc.refs]
    rcases eq_or_ne c b with rfl | hne
    · rw [State.setBuf_self, hrefcnt]
      simp [Pc.buf]
    · rw [State.setBuf_of_ne hne]
      simp [Pc.buf, hne.symm]
  inCache j c hj := by
    rcases eq_or_ne j i with rfl | hne
    · obtain rfl : b = c := by simpa [State.goto, Pc.buf] using hj
      exact hb
    · refine hs.inCache j c ?_
      simpa [State.goto, hne] using hj
  asked j c k' hj := by
    change ((s.setBuf b x).bufs c).key = k' ∧ _
    rcases eq_or_ne j i with rfl | hne
    · obtain ⟨rfl, rfl⟩ : b = c ∧ k = k' := by simpa [State.goto, Pc.asked] using hj
      exact ⟨by rw [State.setBuf_self, hkey], hdev⟩
    · have hask : (s.pc j).asked = some (c, k') := by
        simpa [State.goto, hne] using hj
      obtain ⟨hck, hk'⟩ := hs.asked j c k' hask
      refine ⟨?_, hk'⟩
      rcases eq_or_ne c b with rfl | hcb
      · rw [State.setBuf_self, hkey]
        rcases hsame with hsame | hzero
        · exact hsame.symm.trans hck
        · exact absurd hzero (hs.refcnt_pos (Pc.buf_of_asked hask)).ne'
      · rwa [State.setBuf_of_ne hcb]
  lock c := (hs.lock c).turn rfl (.keep _ fun h => h.elim)

/-- Moving a buffer to the front. -/
theorem ring_front {L : Links ℕ} (h : ∃ l, Circular L head l ∧ l.Perm (List.range nBuf))
    (hb : b < nBuf) :
    ∃ l, Circular (insertFront (unlink L b) head b) head l ∧ l.Perm (List.range nBuf) := by
  obtain ⟨l, hl, hperm⟩ := h
  obtain ⟨l₁, l₂, rfl⟩ := List.append_of_mem (hperm.mem_iff.mpr (List.mem_range.mpr hb))
  have hnodup : (b :: (l₁ ++ l₂)).Nodup :=
    List.perm_middle.nodup_iff.mp (List.nodup_cons.mp hl.nodup).2
  refine ⟨b :: (l₁ ++ l₂), hl.unlink.insertFront ?_, List.perm_middle.symm.trans hperm⟩
  rintro (_ | ⟨_, hmem⟩)
  · exact Nat.lt_irrefl _ hb
  · exact (List.nodup_cons.mp hnodup).1 hmem

theorem brelse (hs : Inv s) (hpc : s.pc i = .release b) : Inv ((s.brelse b).goto i .idle) := by
  have hb : b < nBuf := hs.inCache i b (by rw [hpc]; rfl)
  have hpos : 0 < (s.bufs b).refcnt := hs.refcnt_pos (i := i) (by rw [hpc]; rfl)
  refine hs.turn hpc rfl nofun nofun (State.key_same rfl (by rfl)) (fun c => ?_) ?_
    fun c => .keep _ fun h => h.elim
  · change ((s.setBuf b _).bufs c).refcnt + _ = _
    rw [Pc.refs, Pc.refs]
    rcases eq_or_ne c b with rfl | hne
    · rw [State.setBuf_self]
      simp only [Pc.buf, if_true]
      exact Nat.sub_add_cancel hpos
    · rw [State.setBuf_of_ne hne]
      simp [Pc.buf, hne.symm]
  · change ∃ l, Circular (if (s.bufs b).refcnt - 1 = 0 then _ else _) head l ∧ _
    split
    · exact ring_front hs.ring hb
    · exact hs.ring

end Inv

/-- The blocks that are asked for are on devices of `D`. -/
def Event.Uses (D : Set ℕ) (e : Event ι α) : Prop := ∀ i k, e = .bget i k → k.1 ∈ D

/-- The list, the keys and the reference counts behind every step. -/
theorem Inv.step (hs : Inv s) (hdev : e.Uses {d | d ≠ 0}) (h : step s e = some s') : Inv s' := by
  cases moves_of_step h with
  | @hit i b k hpc hfound =>
    have hcached := hs.cached_spec k
    rw [hfound] at hcached
    obtain ⟨hb, hkey⟩ := hcached
    have hk : k.1 ≠ 0 := hdev i k rfl
    refine hs.begin hpc hb hk hkey rfl (fun c hc hck => ?_) (.inl hkey)
    refine (hs.unique b hb c hc ?_ (hkey.trans hck.symm)).symm
    exact fun hzero => hk (hkey ▸ hzero)
  | @recycle i b k hpc hnone hunused =>
    have hcached := hs.cached_spec k
    rw [hnone] at hcached
    obtain ⟨hb, hzero, -⟩ := hs.unused_spec hunused
    refine hs.begin hpc hb (hdev i k rfl) rfl ?_ (fun c hc hck => absurd hck (hcached c hc))
      (.inr hzero)
    rw [hzero]
  | @acquire i b k hpc hfree =>
    refine hs.keep hpc rfl rfl (fun _ => id) (fun _ => rfl) (fun _ => rfl) rfl fun c => ?_
    change Turn i _ _ _ (Function.update s.lock b (some i) c)
    rcases eq_or_ne c b with rfl | hne
    · rw [Function.update_self, hfree]
      exact .acquire
    · rw [Function.update_of_ne hne]
      exact .keep _ fun hhas => absurd hhas hne.symm
  | readHit hpc hvalid =>
    exact hs.keep_lock hpc rfl rfl (fun _ => id) (fun _ => id) rfl rfl fun _ => ⟨rfl, rfl⟩
  | @readMiss i b k m hpc _ hm | @iderw i b k m hpc hm =>
    obtain ⟨hmpc, hlinks, hlock, hbufs⟩ := iderw_same hm
    exact hs.keep_lock hpc (congrArg (Function.update · i _) hmpc) rfl (fun _ => id) (fun _ => id)
      hlinks hlock hbufs
  | modify hpc | bwrite hpc | logWrite hpc =>
    exact hs.keep_lock hpc rfl rfl (fun _ => id) (fun _ => id) rfl rfl
      (State.bufs_same rfl (by rfl) (by rfl))
  | @release i b k hpc =>
    refine hs.keep hpc rfl rfl nofun (fun _ => rfl) (fun _ => rfl) rfl fun c => ?_
    change Turn i _ _ _ (Function.update s.lock b none c)
    rcases eq_or_ne c b with rfl | hne
    · rw [Function.update_self]
      exact .release _ rfl id
    · rw [Function.update_of_ne hne]
      exact .keep _ fun hhas => hhas.elim
  | brelse hpc => exact hs.brelse hpc

omit [Fintype ι] [DecidableEq ι] in
/-- `binit` makes one list of all buffers. -/
theorem binit_ring (disk : ℕ × ℕ → α) (havedisk1 : Bool) (data : ℕ → α) :
    ∃ l, Circular (binit (ι := ι) disk havedisk1 data).links head l ∧
      l.Perm (List.range nBuf) := by
  -- after `n` turns of the loop the first `n` buffers are in the list
  have hloop (n : ℕ) (hn : n ≤ nBuf) : Circular
      ((List.range n).foldl (fun L b => insertFront L head b) ⟨fun _ => head, fun _ => head⟩) head
      (List.range n).reverse := by
    induction n with
    | zero => exact ⟨⟨rfl, rfl⟩, List.nodup_singleton head⟩
    | succ n ih =>
      rw [List.range_succ, List.foldl_append, List.reverse_append]
      refine (ih (Nat.le_of_succ_le hn)).insertFront ?_
      simp [head, Nat.ne_of_lt hn]
  exact ⟨_, hloop nBuf le_rfl, List.reverse_perm _⟩

omit [DecidableEq ι] in
theorem Inv.binit (disk : ℕ × ℕ → α) (havedisk1 : Bool) (data : ℕ → α) :
    Inv (binit (ι := ι) disk havedisk1 data) where
  ring := binit_ring disk havedisk1 data
  unique _ _ _ _ hdev _ := absurd rfl hdev
  count _ := (Finset.sum_eq_zero fun _ _ => rfl).symm
  inCache := nofun
  asked := nofun
  lock _ _ h := h.elim

/-- A buffer that is in use or has `B_DIRTY` stays with its block. -/
theorem key_step (hs : Inv s) (h : step s e = some s')
    (hb : (s.bufs b).dirty = true ∨ 0 < (s.bufs b).refcnt) :
    (s'.bufs b).key = (s.bufs b).key := by
  cases moves_of_step h with
  | hit hpc hfound => exact State.key_same rfl (by rfl) b
  | @recycle i c k hpc hnone hunused =>
    obtain ⟨-, hzero, hclean⟩ := hs.unused_spec hunused
    have hne : b ≠ c := by
      rintro rfl
      rcases hb with hdirty | hpos
      · rw [hclean] at hdirty
        cases hdirty
      · exact absurd hzero hpos.ne'
    exact congrArg Buf.key (Function.update_of_ne hne ..)
  | readMiss hpc hvalid hm => exact ((iderw_same hm).2.2.2 b).1
  | iderw hpc hm => exact ((iderw_same hm).2.2.2 b).1
  | acquire | readHit | release => rfl
  | modify | bwrite | logWrite | brelse => exact State.key_same rfl (by rfl) b

end InuOs.Bio
