import InuOs.UmallocInv

/-!
# The user heap never hands out overlapping memory

Over every run of a program that calls `malloc` and `free` and stores to its blocks, whatever `sbrk`
answers: the heap is in order after each call, and every call returns.

`HeapOk` says what "in order" means for the program and for the list from `freep`, without the
pointers of the invariant `Shape`. Before the first `malloc` there is no list (`Initial`).
-/

namespace InuOs.Umalloc

open Circular

/-- The heap as a program sees it, with the free blocks in address order. -/
structure HeapOk (base : ℕ) (s : State) (free : List MemBlock) : Prop where
  /-- a pointer is a multiple of eight behind the header of its block, which has room for the
  bytes -/
  ptr : ∀ l ∈ s.live, 8 ∣ l.ptr ∧ l.ptr = l.block.addr + 8 ∧ l.ptr + l.bytes ≤ l.block.stop 8
  /-- the bytes were obtained from `sbrk` -/
  inside : ∀ l ∈ s.live, ∀ x, l.ptr ≤ x → x < l.ptr + l.bytes → ∃ r ∈ s.heap.got, r.Covers 8 x
  /-- the blocks in use are apart from each other -/
  apart : s.live.Pairwise fun l m => l.block.Apart 8 m.block
  /-- and from the free ones -/
  apart_free : ∀ l ∈ s.live, ∀ b ∈ free, l.block.Apart 8 b
  /-- headers have the sizes of their blocks -/
  size : ∀ b ∈ free ++ s.live.map Live.block, s.heap.size b.addr = b.size
  /-- the walk from `freep` visits `base` and every free block once, in address order with one
  wrap -/
  walk : List.iterate s.heap.ptr s.heap.freep (free.length + 1) ~r base :: free.map MemBlock.addr
  order : (base :: free.map MemBlock.addr).Pairwise (· < ·)
  /-- and is back at `freep` -/
  circular : s.heap.ptr^[free.length + 1] s.heap.freep = s.heap.freep
  /-- there is a gap behind every free block -/
  gap : free.Pairwise fun b c => b.stop 8 < c.addr
  /-- no unit is lost -/
  units : units free + units (s.live.map Live.block) = units s.heap.got

/-- The invariant of a run, after the first call. -/
structure Ready (base : ℕ) (s : State) (free : List MemBlock) : Prop where
  shape : Shape base s.heap free (s.live.map Live.block)
  request : ∀ l ∈ s.live, 8 ≤ l.ptr ∧ l.bytes ≤ 2 ^ 30

/-- The invariant of a run. -/
def Inv (base : ℕ) (s : State) : Prop := Initial s ∨ ∃ free, Ready base s free

variable {base : ℕ} {s : State} {free : List MemBlock}

/-- The units of a request, without overflow. -/
theorem nunits_eq {n : ℕ} (hn : n ≤ 2 ^ 30) : nunits n = (n + 7) / 8 + 1 := by
  unfold nunits
  omega

theorem Ready.heapOk (hr : Ready base s free) : HeapOk base s free := by
  obtain ⟨hs, hrequest⟩ := hr
  have hmem : ∀ l ∈ s.live, l.block ∈ free ++ s.live.map Live.block := fun l hl =>
    List.mem_append_right _ (List.mem_map_of_mem hl)
  have hptr : ∀ l ∈ s.live, 8 ∣ l.ptr ∧ l.ptr = l.block.addr + 8 ∧
      l.ptr + l.bytes ≤ l.block.stop 8 := by
    intro l hl
    obtain ⟨hle, hbytes⟩ := hrequest l hl
    have haligned := hs.aligned _ (hmem l hl)
    have haddr : l.ptr = l.block.addr + 8 := by
      simp only [Live.block]
      omega
    refine ⟨by omega, haddr, ?_⟩
    rw [MemBlock.stop, haddr]
    simp only [Live.block, nunits_eq hbytes]
    omega
  obtain ⟨-, hapart, hcross⟩ := List.pairwise_append.mp hs.tiles.apart
  obtain ⟨hwalk, hcircular⟩ := hs.ring.iterate hs.freep
  rw [List.length_cons, List.length_map] at hwalk hcircular
  constructor
  case ptr => exact hptr
  case inside =>
    intro l hl x hx hlt
    obtain ⟨-, haddr, hstop⟩ := hptr l hl
    exact hs.tiles.inside _ (hmem l hl) x ⟨by omega, by omega⟩
  case apart => exact List.pairwise_map.mp hapart
  case apart_free => exact fun l hl b hb => (hcross b hb _ (List.mem_map_of_mem hl)).symm
  case size => exact hs.size
  case walk => exact hwalk
  case order => exact hs.sorted
  case circular => exact hcircular
  case gap => exact hs.order
  case units =>
    rw [← hs.tiles.units]
    simp only [InuOs.units, List.map_append, List.sum_append]

/-! ## Calls -/

/-- There is a list when the loop of `malloc` starts. -/
theorem Inv.start (hs : Inv base s) (hbase : 0 < base) :
    ∃ free, Ready base ⟨s.heap.start base, s.live⟩ free := by
  rcases hs with ⟨hfreep, hgot, hlive⟩ | ⟨free, hshape, hrequest⟩
  · refine ⟨[], ?_, ?_⟩
    · rw [hlive]
      exact Shape.start hfreep hgot
    · rw [hlive]
      exact nofun
  · rw [Heap.start, if_neg (hshape.freep_ne_zero hbase)]
    exact ⟨free, hshape, hrequest⟩

/-- `malloc` returns, and a result other than the null pointer is a block in use. -/
theorem Inv.malloc_returns (hs : Inv base s) (hbase : 0 < base) (sbrk : Sbrk base) {n : ℕ}
    (hn : n ≤ 2 ^ 30) :
    ∃ h r, Returns (s.heap.malloc · sbrk n) (h, r) ∧
      (r = 0 ∧ (∃ free, Ready base ⟨h, s.live⟩ free) ∨
        r ≠ 0 ∧ ∃ free, Ready base ⟨h, ⟨r, n⟩ :: s.live⟩ free) := by
  obtain ⟨free, hshape, hrequest⟩ := hs.start hbase
  have hunits := nunits_eq hn
  obtain ⟨h, r, hreturns, hresult⟩ :=
    hshape.mallocLoop hbase sbrk (n := nunits n) (by omega) (by omega)
  refine ⟨h, r, hreturns, ?_⟩
  rcases hresult with ⟨rfl, free', hshape'⟩ | ⟨a, free', rfl, hshape'⟩
  · exact .inl ⟨rfl, free', hshape', hrequest⟩
  · refine .inr ⟨by omega, free', hshape', List.forall_mem_cons.mpr ⟨⟨?_, hn⟩, hrequest⟩⟩
    exact Nat.le_add_left 8 a

/-- `free` of a pointer that the program holds returns. -/
theorem Inv.free_returns (hs : Inv base s) {l : Live} (hl : l ∈ s.live) :
    ∃ h, Returns (s.heap.free · l.ptr) h ∧ ∃ free, Ready base ⟨h, s.live.erase l⟩ free := by
  rcases hs with ⟨-, -, hlive⟩ | ⟨free, hshape, hrequest⟩
  · rw [hlive] at hl
    exact nomatch hl
  have hperm : (s.live.map Live.block).Perm (l.block :: (s.live.erase l).map Live.block) :=
    (List.perm_cons_erase hl).map Live.block
  obtain ⟨h, free', hfree, hshape', -, -⟩ := (hshape.perm hperm).free_returns
  exact ⟨h, ⟨_, hfree⟩, free', hshape', fun m hm => hrequest m (List.mem_of_mem_erase hm)⟩

/-- A store to a block in use touches no header. -/
theorem Ready.store (hr : Ready base s free) {l : Live} (hl : l ∈ s.live) {h : Heap}
    (hsame : s.heap.SameOutside l h) : Ready base ⟨h, s.live⟩ free := by
  obtain ⟨hptr, hbase, hroom⟩ := hr.heapOk.ptr l hl
  obtain ⟨hs, hrequest⟩ := hr
  obtain ⟨hfreep, hgot, hheaders⟩ := hsame
  have hlmem : l.block ∈ free ++ s.live.map Live.block :=
    List.mem_append_right _ (List.mem_map_of_mem hl)
  have hbelow := hs.tiles.le_addr (by decide) hs.above hlmem
  have hblock : ∀ b ∈ free ++ s.live.map Live.block,
      h.ptr b.addr = s.heap.ptr b.addr ∧ h.size b.addr = s.heap.size b.addr := by
    intro b hb
    refine hheaders _ ?_
    rcases eq_or_ne b l.block with rfl | hne
    · exact .inl hbase.ge
    · rcases hs.tiles.apart_of_ne hb hlmem hne with hapart | hapart
      · left
        rw [MemBlock.stop] at hapart
        omega
      · exact .inr (hroom.trans hapart)
  have hfirst := hheaders base (.inl (by omega))
  refine ⟨?_, hrequest⟩
  constructor
  case ring =>
    refine hs.ring.congr (List.forall_mem_cons.mpr ⟨hfirst.1, fun x hx => ?_⟩)
    obtain ⟨b, hb, rfl⟩ := List.mem_map.mp hx
    exact (hblock b (List.mem_append_left _ hb)).1
  case freep =>
    rw [hfreep]
    exact hs.freep
  case order => exact hs.order
  case size => exact fun b hb => (hblock b hb).2.trans (hs.size b hb)
  case size_base => exact hfirst.2.trans hs.size_base
  case tiles =>
    rw [hgot]
    exact hs.tiles
  case aligned => exact hs.aligned
  case above =>
    rw [hgot]
    exact hs.above

/-! ## Runs -/

theorem Returns.unique {α : Type} {call : ℕ → Option α} {r r' : α} (h : Returns call r)
    (h' : Returns call r') : r = r' := by
  obtain ⟨n, hn⟩ := h
  obtain ⟨n', hn'⟩ := h'
  exact Option.some.inj ((hn _ (Nat.le_max_left n n')).symm.trans (hn' _ (Nat.le_max_right n n')))

theorem Inv.step (hbase : 0 < base) {s' : State} (hs : Inv base s) (hstep : Step base s s') :
    Inv base s' := by
  cases hstep with
  | fail sbrk hn hcall =>
    obtain ⟨h, r, hreturns, hresult⟩ := hs.malloc_returns hbase sbrk hn
    obtain ⟨rfl, rfl⟩ := Prod.mk.inj (hcall.unique hreturns)
    rcases hresult with ⟨-, hready⟩ | ⟨hne, -⟩
    · exact .inr hready
    · exact absurd rfl hne
  | malloc sbrk hn hcall hr =>
    obtain ⟨h, r, hreturns, hresult⟩ := hs.malloc_returns hbase sbrk hn
    obtain ⟨rfl, rfl⟩ := Prod.mk.inj (hcall.unique hreturns)
    rcases hresult with ⟨hzero, -⟩ | ⟨-, hready⟩
    · exact absurd hzero hr
    · exact .inr hready
  | free hl hcall =>
    obtain ⟨h, hreturns, hready⟩ := hs.free_returns hl
    obtain rfl := hcall.unique hreturns
    exact .inr hready
  | store hl hsame =>
    rcases hs with ⟨-, -, hlive⟩ | ⟨free, hready⟩
    · rw [hlive] at hl
      exact nomatch hl
    · exact .inr ⟨free, hready.store hl hsame⟩

theorem Inv.run (hbase : 0 < base) {s₀ : State} (h₀ : Initial s₀)
    (hrun : Relation.ReflTransGen (Step base) s₀ s) : Inv base s := by
  induction hrun with
  | refl => exact .inl h₀
  | tail _ hstep ih => exact ih.step hbase hstep

/-- **The user heap.** In every state that a program reaches:

* the heap is in order, once there has been a call;
* `malloc` of up to `2 ^ 30` bytes returns, whatever `sbrk` does, and with a result that is not the
  null pointer the heap is in order again, with the new block in use;
* `free` of a pointer that the program holds returns.
-/
theorem userHeap_ok (base : ℕ) (hbase : 0 < base) (s₀ s : State) (h₀ : Initial s₀)
    (hrun : Relation.ReflTransGen (Step base) s₀ s) :
    (Initial s ∨ ∃ free, HeapOk base s free) ∧
      (∀ (sbrk : Sbrk base) (n : ℕ), n ≤ 2 ^ 30 →
        ∃ h r, Returns (s.heap.malloc · sbrk n) (h, r) ∧
          (r ≠ 0 → ∃ free, HeapOk base ⟨h, ⟨r, n⟩ :: s.live⟩ free)) ∧
      ∀ l ∈ s.live, ∃ h, Returns (s.heap.free · l.ptr) h := by
  have hs := Inv.run hbase h₀ hrun
  refine ⟨?_, ?_, ?_⟩
  · exact hs.imp id fun ⟨free, hready⟩ => ⟨free, hready.heapOk⟩
  · intro sbrk n hn
    obtain ⟨h, r, hreturns, hresult⟩ := hs.malloc_returns hbase sbrk hn
    refine ⟨h, r, hreturns, fun hr => ?_⟩
    rcases hresult with ⟨hzero, -⟩ | ⟨-, free, hready⟩
    · exact absurd hzero hr
    · exact ⟨free, hready.heapOk⟩
  · intro l hl
    obtain ⟨h, hreturns, -⟩ := hs.free_returns hl
    exact ⟨h, hreturns⟩

/-- An `sbrk` that returns `0x20000` and then fails. -/
def exampleSbrk : Sbrk 0x1000 where
  answer got _ := if got = [] then some 0x20000 else none
  fresh := by
    intro got n a h
    split at h
    next hgot =>
      obtain rfl := Option.some.inj h
      rw [hgot]
      exact ⟨by decide, by decide, nofun⟩
    next => exact nomatch h

/-- A program that has made no call. -/
def exampleStart : State := ⟨⟨fun _ => 0, fun _ => 0, 0, []⟩, []⟩

/-- The first `malloc(100)` takes the last 14 of 4096 units. -/
theorem exists_malloc_exampleStart :
    ∃ h, Returns (exampleStart.heap.malloc · exampleSbrk 100) (h, 0x27f98) :=
  ⟨_, 3, fun fuel hfuel => by
    obtain ⟨k, rfl⟩ := Nat.exists_eq_add_of_le' hfuel
    rfl⟩

/-- The heap is in order after a first `malloc(100)`, and the next calls return. -/
theorem userHeap_ok_first :
    ∃ h, Relation.ReflTransGen (Step 0x1000) exampleStart ⟨h, [⟨0x27f98, 100⟩]⟩ ∧
      (Initial ⟨h, [⟨0x27f98, 100⟩]⟩ ∨ ∃ free, HeapOk 0x1000 ⟨h, [⟨0x27f98, 100⟩]⟩ free) ∧
      (∀ (sbrk : Sbrk 0x1000) (n : ℕ), n ≤ 2 ^ 30 →
        ∃ h' r, Returns (h.malloc · sbrk n) (h', r) ∧
          (r ≠ 0 → ∃ free, HeapOk 0x1000 ⟨h', [⟨r, n⟩, ⟨0x27f98, 100⟩]⟩ free)) ∧
      ∀ l ∈ [(⟨0x27f98, 100⟩ : Live)], ∃ h', Returns (h.free · l.ptr) h' := by
  obtain ⟨h, hcall⟩ := exists_malloc_exampleStart
  have hrun : Relation.ReflTransGen (Step 0x1000) exampleStart ⟨h, [⟨0x27f98, 100⟩]⟩ :=
    .single (.malloc exampleSbrk (by decide) hcall (by decide))
  exact ⟨h, hrun, userHeap_ok 0x1000 (by decide) exampleStart _ ⟨rfl, rfl, rfl⟩ hrun⟩

end InuOs.Umalloc
