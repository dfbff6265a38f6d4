import InuOs.Umalloc

/-!
# The shape of the user heap

`Shape base h free used` is the invariant of the heap: the list from `freep` is a ring through
`base` and the blocks `free`, these are in address order with a gap behind each, every header has
the size of its block, and the free blocks and those in use share out what `sbrk` returned.

* `free` finds the place of its block by `Ring.place_iff`. The two `if` statements are two steps on
  the list: `joinUpper` makes the block one with the block behind it or not, `joinLower` does the
  same with the block in front of it.
* `malloc` walks around the ring once. If no block is large enough it obtains a region, frees it,
  and finds it in the second round.
-/

namespace InuOs.Umalloc

open Circular

/-- The heap is in order. -/
structure Shape (base : ℕ) (h : Heap) (free used : List MemBlock) : Prop where
  ring : Ring h.ptr (base :: free.map MemBlock.addr)
  freep : h.freep ∈ base :: free.map MemBlock.addr
  order : free.Pairwise fun b c => b.stop 8 < c.addr
  size : ∀ b ∈ free ++ used, h.size b.addr = b.size
  size_base : h.size base = 0
  tiles : Tiles 8 h.got (free ++ used)
  aligned : ∀ b ∈ free ++ used, 8 ∣ b.addr
  above : ∀ r ∈ h.got, base + 8 ≤ r.addr

/-- The headers have the sizes of their blocks. -/
structure Headers (base : ℕ) (sz : ℕ → ℕ) (blocks : List MemBlock) : Prop where
  size : ∀ b ∈ blocks, sz b.addr = b.size
  size_base : sz base = 0
  aligned : ∀ b ∈ blocks, 8 ∣ b.addr

variable {base : ℕ} {h : Heap} {free used : List MemBlock} {b c : MemBlock}

namespace Headers

variable {sz : ℕ → ℕ} {blocks blocks' : List MemBlock}

theorem subset (hh : Headers base sz blocks) (hsub : blocks' ⊆ blocks) :
    Headers base sz blocks' :=
  ⟨fun b hb => hh.size b (hsub hb), hh.size_base, fun b hb => hh.aligned b (hsub hb)⟩

/-- The header of one more block is written. -/
theorem cons (hh : Headers base sz blocks) (hnot : b.addr ∉ blocks.map MemBlock.addr)
    (hbase : base < b.addr) (hb : 8 ∣ b.addr) :
    Headers base (Function.update sz b.addr b.size) (b :: blocks) where
  size := by
    refine List.forall_mem_cons.mpr ⟨Function.update_self .., fun c hc => ?_⟩
    rw [Function.update_of_ne (ne_of_mem_of_not_mem (List.mem_map_of_mem hc) hnot), hh.size c hc]
  size_base := (Function.update_of_ne hbase.ne ..).trans hh.size_base
  aligned := List.forall_mem_cons.mpr ⟨hb, hh.aligned⟩

end Headers

/-- A free block becomes another one at its address that also ends before the next. -/
theorem order_replace {lower upper : List MemBlock} {b' : MemBlock}
    (h : (lower ++ b :: upper).Pairwise fun b c => b.stop 8 < c.addr) (haddr : b'.addr = b.addr)
    (hb' : ∀ c ∈ upper, b'.stop 8 < c.addr) :
    (lower ++ b' :: upper).Pairwise fun b c => b.stop 8 < c.addr := by
  obtain ⟨hlow, hup, hcross⟩ := List.pairwise_append.mp h
  obtain ⟨-, hup⟩ := List.pairwise_cons.mp hup
  refine List.pairwise_append.mpr ⟨hlow, List.pairwise_cons.mpr ⟨hb', hup⟩, fun c hc => ?_⟩
  obtain ⟨hcb, hcup⟩ := List.forall_mem_cons.mp (hcross c hc)
  exact List.forall_mem_cons.mpr ⟨haddr ▸ hcb, hcup⟩

theorem perm_of_middle (lower upper used : List MemBlock) (c : MemBlock) :
    ((lower ++ c :: upper) ++ used).Perm (c :: (lower ++ upper ++ used)) := by
  rw [List.append_assoc, List.append_assoc]
  exact List.perm_middle

theorem mem_used : b ∈ free ++ b :: used := List.mem_append_right _ List.mem_cons_self

namespace Shape

theorem headers (hs : Shape base h free used) : Headers base h.size (free ++ used) :=
  ⟨hs.size, hs.size_base, hs.aligned⟩

theorem addr_lt_stop (hs : Shape base h free used) (hb : b ∈ free ++ used) : b.addr < b.stop 8 :=
  hs.tiles.addr_lt_stop (by decide) hb

theorem base_lt (hs : Shape base h free used) (hb : b ∈ free ++ used) : base < b.addr := by
  have := hs.tiles.le_addr (by decide) hs.above hb
  omega

/-- The nodes of the list are in address order. -/
theorem sorted (hs : Shape base h free used) :
    (base :: free.map MemBlock.addr).Pairwise (· < ·) := by
  refine List.pairwise_cons.mpr ⟨?_, List.pairwise_map.mpr ?_⟩
  · intro a ha
    obtain ⟨b, hb, rfl⟩ := List.mem_map.mp ha
    exact hs.base_lt (List.mem_append_left _ hb)
  · refine hs.order.imp fun {b c} hbc => ?_
    have : b.addr ≤ b.stop 8 := Nat.le_add_right _ _
    omega

theorem nodup (hs : Shape base h free used) : (base :: free.map MemBlock.addr).Nodup :=
  hs.sorted.imp ne_of_lt

/-- A block in use is apart from the free ones. -/
theorem apart (hs : Shape base h free (b :: used)) (hc : c ∈ free) :
    c.stop 8 ≤ b.addr ∨ b.stop 8 ≤ c.addr :=
  (List.pairwise_append.mp hs.tiles.apart).2.2 c hc b List.mem_cons_self

/-- A block in use is no node of the list. -/
theorem addr_notMem (hs : Shape base h free (b :: used)) :
    b.addr ∉ base :: free.map MemBlock.addr := by
  have hb : b ∈ free ++ b :: used := mem_used
  intro hmem
  rcases List.mem_cons.mp hmem with heq | hmem
  · exact absurd heq (hs.base_lt hb).ne'
  · obtain ⟨c, hc, heq⟩ := List.mem_map.mp hmem
    have hblt := hs.addr_lt_stop hb
    have hclt := hs.addr_lt_stop (List.mem_append_left _ hc)
    have hapart := hs.apart hc
    omega

/-- The blocks in use may stand in any order. -/
theorem perm {used' : List MemBlock} (hs : Shape base h free used) (hperm : used.Perm used') :
    Shape base h free used' :=
  { hs.headers.subset (hperm.append_left free).symm.subset, hs with
    tiles := hs.tiles.perm (hperm.append_left free) }

/-- The free blocks below and above a block in use. -/
theorem exists_split (hs : Shape base h free (b :: used)) :
    ∃ lower upper, free = lower ++ upper ∧ (∀ c ∈ lower, c.stop 8 ≤ b.addr) ∧
      ∀ c ∈ upper, b.stop 8 ≤ c.addr := by
  have hapart : ∀ c ∈ free, c.stop 8 ≤ b.addr ∨ b.stop 8 ≤ c.addr := fun c => hs.apart
  have horder := hs.order
  clear hs
  induction free with
  | nil => exact ⟨[], [], rfl, nofun, nofun⟩
  | cons c free ih =>
    obtain ⟨hc, hfree⟩ := List.forall_mem_cons.mp hapart
    obtain ⟨hcfree, horder⟩ := List.pairwise_cons.mp horder
    rcases hc with hc | hc
    · obtain ⟨lower, upper, rfl, hlower, hupper⟩ := ih hfree horder
      exact ⟨c :: lower, upper, rfl, List.forall_mem_cons.mpr ⟨hc, hlower⟩, hupper⟩
    · refine ⟨[], c :: free, rfl, nofun, List.forall_mem_cons.mpr ⟨hc, fun d hd => ?_⟩⟩
      have hcd := hcfree d hd
      have : c.addr ≤ c.stop 8 := Nat.le_add_right _ _
      omega

end Shape

/-! ## `free` -/

section Free

variable {lower upper : List MemBlock} {xs : List ℕ} {p : ℕ}

/-- A block in use between the free blocks below it and those above it; `p` is the last node
below. -/
structure Between (base : ℕ) (h : Heap) (lower upper : List MemBlock)
    (b : MemBlock) (used : List MemBlock)
    (xs : List ℕ) (p : ℕ) : Prop where
  shape : Shape base h (lower ++ upper) (b :: used)
  below : ∀ c ∈ lower, c.stop 8 ≤ b.addr
  above : ∀ c ∈ upper, b.stop 8 ≤ c.addr
  last : base :: lower.map MemBlock.addr = xs ++ [p]

/-- What `joinUpper` makes of the block and the free blocks above it. -/
structure JoinedUpper (h : Heap) (lower upper : List MemBlock) (b : MemBlock) (used : List MemBlock)
    (xs : List ℕ) (p : ℕ) (b' : MemBlock) (upper' : List MemBlock) : Prop where
  ring : Ring (Function.update h.ptr p ((h.joinUpper b.addr p).ptr b.addr))
    (xs ++ p :: upper'.map MemBlock.addr)
  ptr : (h.joinUpper b.addr p).ptr =
    Function.update h.ptr b.addr ((h.joinUpper b.addr p).ptr b.addr)
  size : (h.joinUpper b.addr p).size = Function.update h.size b.addr b'.size
  got : (h.joinUpper b.addr p).got = h.got
  addr : b'.addr = b.addr
  le : b.size ≤ b'.size
  sub : upper'.Sublist upper
  above : ∀ c ∈ upper', b'.stop 8 < c.addr
  tiles : Tiles 8 h.got (b' :: (lower ++ upper' ++ used))

namespace Between

section

variable (hb : Between base h lower upper b used xs p)
include hb

theorem nodes :
    base :: (lower ++ upper).map MemBlock.addr = xs ++ p :: upper.map MemBlock.addr := by
  rw [List.map_append, ← List.cons_append, hb.last, List.append_assoc, List.singleton_append]

/-- The node behind `p`. -/
theorem ptr_eq :
    h.ptr p = (upper.map MemBlock.addr).headD base := by
  have hring := hb.shape.ring
  rw [hb.nodes] at hring
  rw [hring.next_middle]
  cases upper with
  | nil =>
    have hlast := hb.last
    cases xs with
    | nil => exact (List.cons.inj hlast).1.symm
    | cons x xs => exact (List.cons.inj hlast).1.symm
  | cons c upper => rfl

/-- The last node below is `base` or the last free block below. -/
theorem last_cases :
    (lower = [] ∧ xs = [] ∧ p = base) ∨
      ∃ lower' a, lower = lower' ++ [a] ∧ xs = base :: lower'.map MemBlock.addr ∧ p = a.addr := by
  have hlast := hb.last
  rcases List.eq_nil_or_concat' lower with rfl | ⟨lower', a, rfl⟩
  · have hlast : [] ++ [base] = xs ++ [p] := hlast
    obtain ⟨hxs, hp⟩ := List.append_inj' hlast rfl
    exact .inl ⟨rfl, hxs.symm, (List.singleton_inj.mp hp).symm⟩
  · rw [List.map_append, ← List.cons_append] at hlast
    obtain ⟨hxs, hp⟩ := List.append_inj' hlast rfl
    exact .inr ⟨lower', a, rfl, hxs.symm, (List.singleton_inj.mp hp).symm⟩

theorem lt_addr : p < b.addr := by
  rcases hb.last_cases with ⟨-, -, rfl⟩ | ⟨lower', a, rfl, -, rfl⟩
  · exact hb.shape.base_lt mem_used
  · have hmem : a ∈ lower' ++ [a] := List.mem_append_right _ List.mem_cons_self
    have hlt := hb.shape.addr_lt_stop (List.mem_append_left _ (List.mem_append_left _ hmem))
    exact hlt.trans_le (hb.below a hmem)

/-- The free blocks below do not touch the block if the last one does not. -/
theorem stop_lt (hne : p + 8 * h.size p ≠ b.addr) :
    ∀ c ∈ lower, c.stop 8 < b.addr := by
  rcases hb.last_cases with ⟨rfl, -, -⟩ | ⟨lower', a, rfl, -, rfl⟩
  · exact nofun
  · have ha : a ∈ lower' ++ [a] := List.mem_append_right _ List.mem_cons_self
    have hsize := hb.shape.size a (List.mem_append_left _ (List.mem_append_left _ ha))
    have hlt : a.stop 8 < b.addr :=
      lt_of_le_of_ne (hb.below a ha) fun hstop => hne (by rw [hsize]; exact hstop)
    have hlower := (List.pairwise_append.mp hb.shape.order).1
    refine List.forall_mem_append.mpr ⟨fun c hc => ?_, List.forall_mem_singleton.mpr hlt⟩
    have hca := (List.pairwise_append.mp hlower).2.2 c hc a List.mem_cons_self
    have : a.addr ≤ a.stop 8 := Nat.le_add_right _ _
    omega

/-- The loop finds the last node below. -/
theorem search_eq {fuel : ℕ}
    (hfuel : (lower ++ upper).length + 1 ≤ fuel) :
    search h.ptr (h.insertsAt b.addr) fuel h.freep = some p := by
  have hp : p ∈ base :: (lower ++ upper).map MemBlock.addr := by
    rw [hb.nodes]
    exact List.mem_append_right _ List.mem_cons_self
  have hplace : ∀ y ∈ base :: (lower ++ upper).map MemBlock.addr, y ≤ p ∨ b.addr < y := by
    have hsorted := hb.shape.sorted
    rw [hb.nodes] at hsorted ⊢
    refine List.forall_mem_append.mpr ⟨fun y hy => ?_, List.forall_mem_cons.mpr ⟨.inl le_rfl, ?_⟩⟩
    · exact .inl ((List.pairwise_append.mp hsorted).2.2 y hy p List.mem_cons_self).le
    · intro y hy
      obtain ⟨c, hc, rfl⟩ := List.mem_map.mp hy
      exact .inr ((hb.shape.addr_lt_stop mem_used).trans_le (hb.above c hc))
  refine hb.shape.ring.search_eq hb.shape.freep hp (fun x hx => ?_) (by simpa using hfuel)
  rw [← hb.shape.ring.place_iff hb.shape.sorted (hb.shape.base_lt mem_used) hp hb.lt_addr hplace hx]
  simp [Heap.insertsAt]

/-- The block does not touch the next one. -/
theorem joinUpper_apart (hne : b.addr + 8 * h.size b.addr ≠ h.ptr p) :
    JoinedUpper h lower upper b used xs p b upper := by
  have hjoin : h.joinUpper b.addr p = h.setPtr b.addr (h.ptr p) := if_neg hne
  have hring := hb.shape.ring
  rw [hb.nodes] at hring
  constructor
  case ring =>
    rw [hjoin]
    simp only [Heap.setPtr_ptr, Function.update_self]
    rw [Function.update_eq_self]
    exact hring
  case ptr =>
    rw [hjoin]
    simp only [Heap.setPtr_ptr, Function.update_self]
  case size =>
    rw [hjoin, ← hb.shape.size b mem_used, Function.update_eq_self]
    rfl
  case got => rw [hjoin]; rfl
  case addr => rfl
  case le => exact le_rfl
  case sub => exact List.Sublist.refl upper
  case above =>
    have hptr := hb.ptr_eq
    cases upper with
    | nil => exact nofun
    | cons c upper =>
      have hc := hb.above c List.mem_cons_self
      have hlt : b.stop 8 < c.addr := by
        refine lt_of_le_of_ne hc fun hstop => hne ?_
        rw [hb.shape.size b mem_used, hptr]
        exact hstop
      have horder := List.pairwise_append.mp hb.shape.order
      refine List.forall_mem_cons.mpr ⟨hlt, fun d hd => ?_⟩
      have hcd := List.rel_of_pairwise_cons horder.2.1 hd
      have : c.addr ≤ c.stop 8 := Nat.le_add_right _ _
      omega
  case tiles => exact hb.shape.tiles.perm List.perm_middle

/-- The block touches the next one. -/
theorem joinUpper_join (heq : b.addr + 8 * h.size b.addr = h.ptr p) :
    ∃ c upper', upper = c :: upper' ∧ JoinedUpper h lower upper b used xs p (b.join c) upper' := by
  have hjoin : h.joinUpper b.addr p =
      (h.setSize b.addr (h.size b.addr + h.size (h.ptr p))).setPtr b.addr (h.ptr (h.ptr p)) :=
    if_pos heq
  have hptr := hb.ptr_eq
  have hsize := hb.shape.size b mem_used
  cases upper with
  | nil =>
    -- `base` lies below
    have hbase := hb.shape.base_lt (b := b) mem_used
    rw [hptr] at heq
    simp only [List.map_nil, List.headD_nil] at heq
    omega
  | cons c upper =>
    have hptr : h.ptr p = c.addr := hptr
    have hc : c ∈ (lower ++ c :: upper) ++ b :: used :=
      List.mem_append_left _ (List.mem_append_right _ List.mem_cons_self)
    have hstop : b.stop 8 = c.addr := by rw [MemBlock.stop, ← hsize, heq, hptr]
    have hring := hb.shape.ring
    have hnodup := hb.shape.nodup
    rw [hb.nodes] at hring hnodup
    refine ⟨c, upper, rfl, ?_⟩
    constructor
    case ring =>
      rw [hjoin]
      simp only [Heap.setPtr_ptr, Heap.setSize_ptr, Function.update_self, hptr]
      exact hring.unlink hnodup
    case ptr =>
      rw [hjoin]
      simp only [Heap.setPtr_ptr, Heap.setSize_ptr, Function.update_self]
    case size =>
      rw [hjoin, hsize, hptr, hb.shape.size c hc]
      rfl
    case got => rw [hjoin]; rfl
    case addr => rfl
    case le => exact Nat.le_add_right _ _
    case sub => exact List.sublist_cons_self c upper
    case above =>
      have horder := List.pairwise_append.mp hb.shape.order
      intro d hd
      rw [MemBlock.stop_join hstop]
      exact List.rel_of_pairwise_cons horder.2.1 hd
    case tiles =>
      have hperm : ((lower ++ c :: upper) ++ b :: used).Perm (b :: c :: (lower ++ upper ++ used)) :=
        List.perm_middle.trans (List.Perm.cons b (perm_of_middle ..))
      exact (hb.shape.tiles.perm hperm).join (by decide) hstop

/-- The first `if` of `free`. -/
theorem joinUpper :
    ∃ b' upper', JoinedUpper h lower upper b used xs p b' upper' := by
  by_cases heq : b.addr + 8 * h.size b.addr = h.ptr p
  · obtain ⟨c, upper', -, hjoined⟩ := hb.joinUpper_join heq
    exact ⟨_, _, hjoined⟩
  · exact ⟨_, _, hb.joinUpper_apart heq⟩

end

end Between

namespace JoinedUpper

variable {b' : MemBlock} {upper' : List MemBlock}

section

variable (hj : JoinedUpper h lower upper b used xs p b' upper')
include hj

/-- The headers have the sizes of the blocks. -/
theorem headers (hb : Between base h lower upper b used xs p) :
    Headers base (h.joinUpper b.addr p).size (b' :: (lower ++ upper' ++ used)) := by
  rw [hj.size, ← hj.addr]
  refine (hb.shape.headers.subset fun c hc => ?_).cons
    (List.nodup_cons.mp (hj.tiles.nodup (by decide))).1
    (hj.addr ▸ hb.shape.base_lt mem_used) (hj.addr ▸ hb.shape.aligned b mem_used)
  rcases List.mem_append.mp hc with hc | hc
  · exact List.mem_append_left _ ((hj.sub.append_left lower).subset hc)
  · exact List.mem_append_right _ (List.mem_cons_of_mem _ hc)

/-- The blocks above stay in order. -/
theorem order (hb : Between base h lower upper b used xs p) :
    (lower ++ upper').Pairwise fun b c => b.stop 8 < c.addr :=
  hb.shape.order.sublist (hj.sub.append_left lower)

theorem nodes_sublist (hb : Between base h lower upper b used xs p) :
    (xs ++ p :: upper'.map MemBlock.addr).Sublist (base :: (lower ++ upper).map MemBlock.addr) := by
  rw [hb.nodes]
  exact ((hj.sub.map _).cons_cons p).append_left xs

theorem nodup
    (hb : Between base h lower upper b used xs p) : (xs ++ p :: upper'.map MemBlock.addr).Nodup :=
  (hj.nodes_sublist hb).nodup hb.shape.nodup

theorem addr_notMem
    (hb : Between base h lower upper b used xs p) : b.addr ∉ xs ++ p :: upper'.map MemBlock.addr :=
  fun hmem => hb.shape.addr_notMem ((hj.nodes_sublist hb).subset hmem)

end

end JoinedUpper

section

variable {b' : MemBlock} {upper' : List MemBlock} (hb : Between base h lower upper b used xs p)
  (hj : JoinedUpper h lower upper b used xs p b' upper')
include hb hj

/-- The last block below does not touch the block. -/
theorem Between.joinLower_apart (hne : p + 8 * h.size p ≠ b.addr) :
    Shape base (((h.joinUpper b.addr p).joinLower b.addr p).setFreep p)
      (lower ++ b' :: upper') used := by
  have hp : p ≠ b.addr := hb.lt_addr.ne
  have hlower : (h.joinUpper b.addr p).joinLower b.addr p =
      (h.joinUpper b.addr p).setPtr p b.addr := by
    rw [Heap.joinLower, hj.size, Function.update_of_ne hp, if_neg hne]
  have hnodes : base :: (lower ++ b' :: upper').map MemBlock.addr =
      xs ++ p :: b.addr :: upper'.map MemBlock.addr := by
    rw [List.map_append, ← List.cons_append, hb.last, List.map_cons, hj.addr, List.append_assoc]
    rfl
  have hperm : (b' :: (lower ++ upper' ++ used)).Perm ((lower ++ b' :: upper') ++ used) :=
    (perm_of_middle ..).symm
  have hheaders := (hj.headers hb).subset hperm.symm.subset
  rw [hlower]
  constructor
  case ring =>
    rw [hnodes]
    refine (hj.ring.insert (hj.nodup hb) (hj.addr_notMem hb)).congr fun x _ => ?_
    rw [Heap.setFreep_ptr, Heap.setPtr_ptr, hj.ptr, Function.update_self, Function.update_self,
      Function.update_comm hp, Function.update_idem]
  case freep =>
    rw [hnodes]
    exact List.mem_append_right _ List.mem_cons_self
  case order =>
    obtain ⟨hlow, hup, hcross⟩ := List.pairwise_append.mp (hj.order hb)
    refine List.pairwise_append.mpr ⟨hlow, List.pairwise_cons.mpr ⟨hj.above, hup⟩, fun c hc => ?_⟩
    refine List.forall_mem_cons.mpr ⟨?_, hcross c hc⟩
    rw [hj.addr]
    exact hb.stop_lt hne c hc
  case size => exact hheaders.size
  case size_base => exact hheaders.size_base
  case tiles =>
    rw [Heap.setFreep_got, Heap.setPtr_got, hj.got]
    exact hj.tiles.perm hperm
  case aligned => exact hheaders.aligned
  case above =>
    rw [Heap.setFreep_got, Heap.setPtr_got, hj.got]
    exact hb.shape.above

/-- The last block below touches the block. -/
theorem Between.joinLower_join (heq : p + 8 * h.size p = b.addr) :
    ∃ (lower' : List MemBlock) (a : MemBlock),
      Shape base (((h.joinUpper b.addr p).joinLower b.addr p).setFreep p)
        (lower' ++ a.join b' :: upper') used := by
  have hp : p ≠ b.addr := hb.lt_addr.ne
  rcases hb.last_cases with ⟨rfl, rfl, rfl⟩ | ⟨lower', a, rfl, rfl, rfl⟩
  · rw [hb.shape.size_base] at heq
    exact absurd heq hp
  have ha := List.mem_append_left (b :: used) (List.mem_append_left upper
    (List.mem_append_right lower' (List.mem_singleton_self a)))
  have hasize := hb.shape.size a ha
  have hlower : (h.joinUpper b.addr a.addr).joinLower b.addr a.addr =
      ((h.joinUpper b.addr a.addr).setSize a.addr (a.size + b'.size)).setPtr a.addr
        ((h.joinUpper b.addr a.addr).ptr b.addr) := by
    rw [Heap.joinLower, hj.size, Function.update_self, Function.update_of_ne hp, if_pos heq, hasize]
  have hstop : a.stop 8 = b'.addr := by rw [MemBlock.stop, ← hasize, heq, hj.addr]
  have hsplit : (b' :: (lower' ++ [a] ++ upper' ++ used)).Perm
      (a :: b' :: (lower' ++ upper' ++ used)) := by
    simp only [List.append_assoc, List.singleton_append]
    exact (List.Perm.cons b' List.perm_middle).trans (List.Perm.swap a b' _)
  have hperm : (a.join b' :: (lower' ++ upper' ++ used)).Perm
      ((lower' ++ a.join b' :: upper') ++ used) :=
    (perm_of_middle ..).symm
  have htiles := (hj.tiles.perm hsplit).join (by decide) hstop
  have hbase : base < a.addr := hb.shape.base_lt ha
  have hheaders := (((hj.headers hb).subset fun c hc =>
    hsplit.mem_iff.mpr (List.mem_cons_of_mem _ (List.mem_cons_of_mem _ hc))).cons (b := a.join b')
    (List.nodup_cons.mp (htiles.nodup (by decide))).1 hbase (hb.shape.aligned a ha)).subset
    hperm.symm.subset
  have hnodes : base :: (lower' ++ a.join b' :: upper').map MemBlock.addr =
      (base :: lower'.map MemBlock.addr) ++ a.addr :: upper'.map MemBlock.addr := by
    rw [List.map_append]
    rfl
  refine ⟨lower', a, ?_⟩
  rw [hlower]
  constructor
  case ring =>
    rw [hnodes]
    refine hj.ring.congr fun x hx => ?_
    rw [Heap.setFreep_ptr, Heap.setPtr_ptr, Heap.setSize_ptr]
    rcases eq_or_ne x a.addr with rfl | hxa
    · rw [Function.update_self, Function.update_self]
    · have hxb : x ≠ b.addr := fun heq => hj.addr_notMem hb (heq ▸ hx)
      rw [Function.update_of_ne hxa, Function.update_of_ne hxa, hj.ptr, Function.update_of_ne hxb]
  case freep =>
    rw [hnodes]
    exact List.mem_append_right _ List.mem_cons_self
  case order =>
    have horder := hj.order hb
    rw [List.append_assoc, List.singleton_append] at horder
    refine order_replace horder rfl fun c hc => ?_
    rw [MemBlock.stop_join hstop]
    exact hj.above c hc
  case size => exact hheaders.size
  case size_base => exact hheaders.size_base
  case tiles =>
    rw [Heap.setFreep_got, Heap.setPtr_got, Heap.setSize_got, hj.got]
    exact htiles.perm hperm
  case aligned => exact hheaders.aligned
  case above =>
    rw [Heap.setFreep_got, Heap.setPtr_got, Heap.setSize_got, hj.got]
    exact hb.shape.above

end

theorem Between.got_eq (hb : Between base h lower upper b used xs p) :
    (((h.joinUpper b.addr p).joinLower b.addr p).setFreep p).got = h.got := by
  obtain ⟨b', upper', hj⟩ := hb.joinUpper
  rw [Heap.setFreep_got, Heap.joinLower]
  split <;> simpa using hj.got

/-- `free` puts a block in use into the list. -/
theorem Shape.free_returns (hs : Shape base h free (b :: used)) :
    ∃ h' free', (∀ fuel, free.length + 1 ≤ fuel → h.free fuel (b.addr + 8) = some h') ∧
      Shape base h' free' used ∧ h'.got = h.got ∧ ∃ c ∈ free', b.size ≤ c.size := by
  obtain ⟨lower, upper, rfl, hbelow, habove⟩ := hs.exists_split
  obtain ⟨xs, p, hlast⟩ := (List.eq_nil_or_concat' (base :: lower.map MemBlock.addr)).resolve_left
    (List.cons_ne_nil _ _)
  have hb : Between base h lower upper b used xs p := ⟨hs, hbelow, habove, hlast⟩
  have hfree : ∀ fuel, (lower ++ upper).length + 1 ≤ fuel → h.free fuel (b.addr + 8) =
      some (((h.joinUpper b.addr p).joinLower b.addr p).setFreep p) := by
    intro fuel hfuel
    rw [Heap.free, Nat.add_sub_cancel, hb.search_eq hfuel]
    rfl
  obtain ⟨b', upper', hj⟩ := hb.joinUpper
  by_cases heq : p + 8 * h.size p = b.addr
  · obtain ⟨lower', a, hshape⟩ := hb.joinLower_join hj heq
    refine ⟨_, _, hfree, hshape, hb.got_eq, a.join b', mem_used, ?_⟩
    exact hj.le.trans (Nat.le_add_left _ _)
  · exact ⟨_, _, hfree, hb.joinLower_apart hj heq, hb.got_eq, b', mem_used, hj.le⟩

end Free

/-! ## `malloc` -/

section Malloc

variable {lower upper : List MemBlock} {prevp n : ℕ}

section

variable (hs : Shape base h (lower ++ c :: upper) used)
  (hprevp : prevp ∈ base :: (lower ++ c :: upper).map MemBlock.addr)
include hs hprevp

/-- The block is as large as the request. -/
theorem Shape.take_whole (hptr : h.ptr prevp = c.addr) :
    Shape base ((h.setPtr prevp (h.ptr c.addr)).setFreep prevp) (lower ++ upper) (c :: used) := by
  obtain ⟨xs, p, hlast⟩ := (List.eq_nil_or_concat' (base :: lower.map MemBlock.addr)).resolve_left
    (List.cons_ne_nil _ _)
  have hnodes : base :: (lower ++ c :: upper).map MemBlock.addr =
      xs ++ p :: c.addr :: upper.map MemBlock.addr := by
    rw [List.map_append, ← List.cons_append, hlast, List.append_assoc]
    rfl
  have hnodes' : base :: (lower ++ upper).map MemBlock.addr =
      xs ++ p :: upper.map MemBlock.addr := by
    rw [List.map_append, ← List.cons_append, hlast, List.append_assoc]
    rfl
  have hring := hs.ring
  have hnodup := hs.nodup
  rw [hnodes] at hring hnodup hprevp
  obtain rfl := hring.eq_of_next_eq hnodup hprevp hptr
  have hperm : ((lower ++ c :: upper) ++ used).Perm ((lower ++ upper) ++ c :: used) :=
    (perm_of_middle ..).trans List.perm_middle.symm
  constructor
  case ring =>
    rw [hnodes']
    exact hring.unlink hnodup
  case freep =>
    rw [hnodes']
    exact List.mem_append_right _ List.mem_cons_self
  case order => exact hs.order.sublist ((List.sublist_cons_self c upper).append_left lower)
  case size => exact fun d hd => hs.size d (hperm.mem_iff.mpr hd)
  case size_base => exact hs.size_base
  case tiles => exact hs.tiles.perm hperm
  case aligned => exact fun d hd => hs.aligned d (hperm.mem_iff.mpr hd)
  case above => exact hs.above

/-- The block is larger than the request. -/
theorem Shape.take_tail (hn : 0 < n) (hlt : n < c.size) :
    Shape base
      (((h.setSize c.addr (c.size - n)).setSize (c.addr + 8 * (c.size - n)) n).setFreep prevp)
      (lower ++ ⟨c.addr, c.size - n⟩ :: upper) (⟨c.addr + 8 * (c.size - n), n⟩ :: used) := by
  obtain ⟨m, hm⟩ : ∃ m, c.size = m + n := ⟨c.size - n, by omega⟩
  have hrest : c.size - n = m := by omega
  have hmpos : 0 < m := by omega
  rw [hrest]
  have hc : c ∈ (lower ++ c :: upper) ++ used :=
    List.mem_append_left _ (List.mem_append_right _ List.mem_cons_self)
  have htiles : Tiles 8 h.got (⟨c.addr, m⟩ :: ⟨c.addr + 8 * m, n⟩ :: (lower ++ upper ++ used)) := by
    refine Tiles.cut ?_ hmpos hn
    rw [← hm]
    exact hs.tiles.perm (perm_of_middle ..)
  have hperm : (⟨c.addr, m⟩ :: ⟨c.addr + 8 * m, n⟩ :: (lower ++ upper ++ used) : List MemBlock).Perm
      ((lower ++ ⟨c.addr, m⟩ :: upper) ++ ⟨c.addr + 8 * m, n⟩ :: used) :=
    (List.Perm.cons _ List.perm_middle.symm).trans (perm_of_middle ..).symm
  have hnodup := htiles.nodup (by decide)
  simp only [List.map_cons, List.nodup_cons, List.mem_cons, not_or] at hnodup
  have hbase := hs.base_lt hc
  have hcaligned := hs.aligned c hc
  -- first the header of what is left, then that of the tail
  have hheaders := ((hs.headers.subset fun d hd => (perm_of_middle ..).mem_iff.mpr
    (List.mem_cons_of_mem _ hd)).cons (b := ⟨c.addr, m⟩) hnodup.1.2 hbase hcaligned).cons
    (b := ⟨c.addr + 8 * m, n⟩) (List.not_mem_cons_of_ne_of_not_mem (Ne.symm hnodup.1.1) hnodup.2.1)
    (hbase.trans_le (Nat.le_add_right ..)) (Nat.dvd_add hcaligned (Nat.dvd_mul_right 8 m))
  replace hheaders := hheaders.subset ((List.Perm.swap ..).trans hperm).symm.subset
  have hnodes : (lower ++ ⟨c.addr, m⟩ :: upper).map MemBlock.addr =
      (lower ++ c :: upper).map MemBlock.addr := by
    rw [List.map_append, List.map_append]
    rfl
  constructor
  case ring =>
    rw [hnodes]
    exact hs.ring
  case freep =>
    rw [hnodes]
    exact hprevp
  case order =>
    refine order_replace hs.order rfl fun d hd => ?_
    have hcd := List.rel_of_pairwise_cons (List.pairwise_append.mp hs.order).2.1 hd
    simp only [MemBlock.stop] at hcd ⊢
    omega
  case size => exact hheaders.size
  case size_base => exact hheaders.size_base
  case tiles => exact htiles.perm hperm
  case aligned => exact hheaders.aligned
  case above => exact hs.above

end

/-- `malloc` takes its block from one that is large enough. -/
theorem Shape.take (hs : Shape base h free used) (hn : 0 < n)
    (hprevp : prevp ∈ base :: free.map MemBlock.addr) (hfit : n ≤ h.size (h.ptr prevp)) :
    ∃ h' a free', h.take n prevp (h.ptr prevp) = (h', a + 8) ∧ h'.got = h.got ∧
      Shape base h' free' (⟨a, n⟩ :: used) := by
  have hmem := hs.ring.next_mem hprevp
  rcases List.mem_cons.mp hmem with hbase | hmem
  · rw [hbase, hs.size_base] at hfit
    omega
  obtain ⟨c, hc, hptr⟩ := List.mem_map.mp hmem
  obtain ⟨lower, upper, rfl⟩ := List.append_of_mem hc
  have hsize := hs.size c (List.mem_append_left _ hc)
  rw [← hptr, hsize] at hfit
  rw [Heap.take, ← hptr, hsize]
  rcases eq_or_lt_of_le hfit with rfl | hlt
  · rw [if_pos rfl]
    exact ⟨_, _, _, rfl, rfl, hs.take_whole hprevp hptr.symm⟩
  · rw [if_neg hlt.ne']
    exact ⟨_, _, _, rfl, rfl, hs.take_tail hprevp hn hlt⟩

/-- What the loop does when it is back at `freep`. -/
def askMore (h : Heap) (sbrk : Sbrk base) (n fuel : ℕ) : Option (Heap × ℕ) :=
  (h.morecore fuel sbrk n).bind fun r =>
    if r.2 = 0 then some (r.1, 0) else Heap.mallocLoop sbrk n fuel r.1 r.2 (r.1.ptr r.2)

/-- One round of the loop, over the nodes from `prevp` to `freep`: it takes a block that is large
enough, or there is none and it asks for more. -/
theorem walk (sbrk : Sbrk base) (n : ℕ) {m : List ℕ}
    (hpath : Path h.ptr (prevp :: (m ++ [h.freep])))
    (hm : h.freep ∉ m) :
    (∃ p ∈ prevp :: m, n ≤ h.size (h.ptr p) ∧ ∀ fuel,
      Heap.mallocLoop sbrk n (fuel + m.length + 1) h prevp (h.ptr prevp) =
        some (h.take n p (h.ptr p))) ∨
    ((∀ p ∈ m ++ [h.freep], h.size p < n) ∧ ∀ fuel,
      Heap.mallocLoop sbrk n (fuel + m.length + 1) h prevp (h.ptr prevp) =
        askMore h sbrk n fuel) := by
  induction m generalizing prevp with
  | nil =>
    obtain ⟨hptr, -⟩ := path_cons.mp hpath
    have hptr : h.ptr prevp = h.freep := hptr
    by_cases hfit : n ≤ h.size (h.ptr prevp)
    · exact .inl ⟨prevp, List.mem_cons_self, hfit, fun _ => if_pos hfit⟩
    · refine .inr ⟨?_, fun fuel => ?_⟩
      · rw [hptr] at hfit
        exact List.forall_mem_singleton.mpr (not_le.mp hfit)
      · rw [List.length_nil, Nat.add_zero, Heap.mallocLoop, if_neg hfit, if_pos hptr]
        rfl
  | cons x m ih =>
    obtain ⟨hptr, hpath⟩ := path_cons.mp hpath
    have hptr : h.ptr prevp = x := hptr
    rw [List.mem_cons, not_or] at hm
    by_cases hfit : n ≤ h.size (h.ptr prevp)
    · exact .inl ⟨prevp, List.mem_cons_self, hfit, fun _ => if_pos hfit⟩
    · have hstep : ∀ fuel,
          Heap.mallocLoop sbrk n (fuel + (x :: m).length + 1) h prevp (h.ptr prevp) =
            Heap.mallocLoop sbrk n (fuel + m.length + 1) h x (h.ptr x) := by
        intro fuel
        rw [Heap.mallocLoop, if_neg hfit, hptr, if_neg (Ne.symm hm.1)]
        rfl
      simp only [hstep]
      rcases ih hpath hm.2 with ⟨p, hp, htake⟩ | ⟨hsmall, hmore⟩
      · exact .inl ⟨p, List.mem_cons_of_mem _ hp, htake⟩
      · refine .inr ⟨List.forall_mem_cons.mpr ⟨?_, hsmall⟩, hmore⟩
        rw [hptr] at hfit
        exact not_le.mp hfit

section

variable (hs : Shape base h free used)
include hs

/-- One round of the loop from `freep` on. -/
theorem Shape.round (sbrk : Sbrk base) (hn : 0 < n) :
    (∃ h' a free', h'.got = h.got ∧ Shape base h' free' (⟨a, n⟩ :: used) ∧ ∀ fuel,
      Heap.mallocLoop sbrk n (fuel + free.length + 1) h h.freep (h.ptr h.freep) =
        some (h', a + 8)) ∨
    ((∀ c ∈ free, c.size < n) ∧ ∀ fuel,
      Heap.mallocLoop sbrk n (fuel + free.length + 1) h h.freep (h.ptr h.freep) =
        askMore h sbrk n fuel) := by
  obtain ⟨m, hpath, hrot⟩ := hs.ring.exists_round hs.freep
  have hnot : h.freep ∉ m := (List.nodup_cons.mp (hrot.nodup_iff.mp hs.nodup)).1
  have hlength : m.length = free.length := by simpa using hrot.perm.length_eq.symm
  rcases walk sbrk n hpath hnot with ⟨p, hp, hfit, hloop⟩ | ⟨hsmall, hloop⟩
  · obtain ⟨h', a, free', htake, hgot, hshape⟩ := hs.take hn (hrot.mem_iff.mpr hp) hfit
    rw [hlength, htake] at hloop
    exact .inl ⟨h', a, free', hgot, hshape, hloop⟩
  · rw [hlength] at hloop
    refine .inr ⟨fun c hc => ?_, hloop⟩
    rw [← hs.size c (List.mem_append_left _ hc)]
    refine hsmall c.addr ?_
    have hmem := hrot.mem_iff.mp (List.mem_cons_of_mem base (List.mem_map_of_mem hc))
    rw [List.mem_append, List.mem_singleton]
    exact (List.mem_cons.mp hmem).symm

/-- A fresh region, as a block in use. -/
theorem Shape.grow {a nu : ℕ} (hnu : 0 < nu) (ha : 8 ∣ a)
    (hbase : base + 8 ≤ a) (hfresh : ∀ r ∈ h.got, r.stop 8 ≤ a) :
    Shape base (({ h with got := ⟨a, nu⟩ :: h.got } : Heap).setSize a nu) free
      (⟨a, nu⟩ :: used) := by
  have hperm : (⟨a, nu⟩ :: (free ++ used) : List MemBlock).Perm (free ++ ⟨a, nu⟩ :: used) :=
    List.perm_middle.symm
  have hgrow : Tiles 8 (⟨a, nu⟩ :: h.got) (⟨a, nu⟩ :: (free ++ used)) :=
    hs.tiles.grow (by decide) hnu hfresh
  have hlt : base < a := by omega
  have hheaders := (hs.headers.cons (b := ⟨a, nu⟩) (List.nodup_cons.mp (hgrow.nodup (by decide))).1
    hlt ha).subset hperm.symm.subset
  exact { hheaders, hs with
    tiles := hgrow.perm hperm
    above := List.forall_mem_cons.mpr ⟨hbase, hs.above⟩ }

/-- `freep` is not the null pointer. -/
theorem Shape.freep_ne_zero (hbase : 0 < base) : h.freep ≠ 0 := by
  rcases List.mem_cons.mp hs.freep with heq | hmem
  · omega
  · obtain ⟨c, hc, heq⟩ := List.mem_map.mp hmem
    have := hs.base_lt (List.mem_append_left _ hc)
    omega

/-- `morecore` fails, or leaves a free block that is large enough. -/
theorem Shape.morecore (sbrk : Sbrk base) (hn : n ≤ 2 ^ 28) :
    (∀ fuel, h.morecore fuel sbrk n = some (h, 0)) ∨
    ∃ h' free', Shape base h' free' used ∧ (∃ c ∈ free', n ≤ c.size) ∧
      ∀ fuel, free.length + 1 ≤ fuel → h.morecore fuel sbrk n = some (h', h'.freep) := by
  obtain ⟨nu, hnu⟩ : ∃ nu, nu = if n < 4096 then 4096 else n := ⟨_, rfl⟩
  have hpos : 0 < nu := by split at hnu <;> omega
  have hle : n ≤ nu := by split at hnu <;> omega
  have hbytes : nu * 8 % 2 ^ 32 / 8 = nu := by split at hnu <;> omega
  cases hanswer : sbrk.answer h.got (nu * 8 % 2 ^ 32) with
  | none =>
    refine .inl fun fuel => ?_
    rw [Heap.morecore, ← hnu]
    simp only [hanswer]
  | some a =>
    obtain ⟨ha, hbase, hfresh⟩ := sbrk.fresh hanswer
    obtain ⟨h', free', hfree, hshape, -, c, hc, hcsize⟩ :=
      (hs.grow hpos ha hbase hfresh).free_returns
    refine .inr ⟨h', free', hshape, ⟨c, hc, hle.trans hcsize⟩, fun fuel hfuel => ?_⟩
    rw [Heap.morecore, ← hnu]
    simp only [hanswer, hbytes, hfree fuel hfuel, Option.map_some]

/-- The loop of `malloc` returns. -/
theorem Shape.mallocLoop (hbase : 0 < base) (sbrk : Sbrk base)
    (hn : 0 < n) (hle : n ≤ 2 ^ 28) :
    ∃ h' r, Returns (Heap.mallocLoop sbrk n · h h.freep (h.ptr h.freep)) (h', r) ∧
      (r = 0 ∧ (∃ free', Shape base h' free' used) ∨
        ∃ a free', r = a + 8 ∧ Shape base h' free' (⟨a, n⟩ :: used)) := by
  rcases hs.round sbrk hn with ⟨h', a, free', -, hshape, hloop⟩ | ⟨-, hloop⟩
  · refine ⟨h', a + 8, ⟨free.length + 1, fun fuel hfuel => ?_⟩, .inr ⟨a, free', rfl, hshape⟩⟩
    obtain ⟨k, rfl⟩ := Nat.exists_eq_add_of_le' hfuel
    exact hloop k
  rcases hs.morecore sbrk hle with hfail | ⟨h', free', hshape, ⟨c, hc, hcsize⟩, hmore⟩
  · refine ⟨h, 0, ⟨free.length + 1, fun fuel hfuel => ?_⟩, .inl ⟨rfl, free, hs⟩⟩
    obtain ⟨k, rfl⟩ := Nat.exists_eq_add_of_le' hfuel
    exact (hloop k).trans (by rw [askMore, hfail]; rfl)
  · rcases hshape.round sbrk hn with ⟨h'', a, free'', -, hshape', hloop'⟩ | ⟨hsmall, -⟩
    · -- the fuel is for `morecore` and the second round, and for the first round
      refine ⟨h'', a + 8, ⟨(free.length + 1) + (free'.length + 1) + (free.length + 1),
        fun fuel hfuel => ?_⟩, .inr ⟨a, free'', rfl, hshape'⟩⟩
      obtain ⟨k, rfl⟩ := Nat.exists_eq_add_of_le' hfuel
      have hround := hloop (k + (free.length + 1) + (free'.length + 1))
      have hsecond := hloop' (k + (free.length + 1))
      rw [askMore, hmore _ (by omega), Option.bind_some,
        if_neg (hshape.freep_ne_zero hbase)] at hround
      have hsum : k + ((free.length + 1) + (free'.length + 1) + (free.length + 1)) =
          k + (free.length + 1) + (free'.length + 1) + free.length + 1 := by omega
      rw [hsum]
      exact hround.trans hsecond
    · exact absurd (hsmall c hc) (not_lt.mpr hcsize)

end

/-- The list of `base` alone. -/
theorem Shape.start {h : Heap} (hfreep : h.freep = 0) (hgot : h.got = []) :
    Shape base (h.start base) [] [] := by
  rw [Heap.start, if_pos hfreep]
  constructor
  case ring => exact ring_cons.mpr ⟨Function.update_self .., List.isChain_singleton base⟩
  case freep => exact List.mem_cons_self
  case order => exact .nil
  case size => exact nofun
  case size_base => exact Function.update_self ..
  case tiles =>
    rw [Heap.setSize_got, Heap.setFreep_got, Heap.setPtr_got, hgot]
    exact Tiles.nil
  case aligned => exact nofun
  case above =>
    rw [Heap.setSize_got, Heap.setFreep_got, Heap.setPtr_got, hgot]
    exact nofun

end Malloc

end InuOs.Umalloc
