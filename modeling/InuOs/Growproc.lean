import InuOs.PageTables

/-!
# Growing a process (`growproc`)

`growproc` changes the size of a process by `n` bytes with `allocuvm` or `deallocuvm`, which signal
failure by returning size 0. Two sizes go wrong:

* `sz + n = 0` looks like a failure: the pages are gone, but `growproc` returns -1 and keeps `sz`;
* `sz + n < 0` wraps around to a size above `sz`, for which `deallocuvm` does nothing: `growproc`
  returns 0.

`growproc_exact_iff` says that nothing else does. What `allocuvm` and `deallocuvm` do to the map and
to the bytes of the pages is in `Grew` and `Shrunk`.
-/

namespace InuOs.Paging

open Machine (qemu)

variable {c : Platform} {k k' : Kernel} {pgdir p q : Page} {v n oldsz newsz : ℕ}

/-! ## The function -/

/-- `growproc`, for the process with page directory `pgdir` and size `sz`: the result, the new size
and the memory. The sum is that of a `uint` and an `int`. -/
def growproc (c : Platform) (k : Kernel) (pgdir : Page) (sz : ℕ) (n : ℤ) :
    Except Stop (ℤ × ℕ × Kernel) :=
  let newsz := ((sz + n) % 2 ^ 32).toNat
  if n > 0 then do
    let (sz', k) ← allocuvm c k pgdir sz newsz
    if sz' = 0 then pure (-1, sz, k) else pure (0, sz', k)
  else if n < 0 then do
    let (sz', k) ← deallocuvm c k pgdir sz newsz
    if sz' = 0 then pure (-1, sz, k) else pure (0, sz', k)
  else pure (0, sz, k)

/-! ## Exactness -/

/-- The present user pages are exactly those below `PGROUNDUP(sz)`. -/
def PresentBelow (k : Kernel) (pgdir : Page) (sz : ℕ) : Prop :=
  ∀ v < userPages, (pageMap k pgdir v).isSome ↔ v * pgSize < pgRoundUp sz

/-- The outcome `r` of changing the size `sz` by `n` is exact, or it is a failure without effect. -/
def GrowExact (k : Kernel) (pgdir : Page) (sz : ℕ) (n : ℤ) (r : ℤ × ℕ × Kernel) : Prop :=
  (r.1 = 0 ∧ (r.2.1 : ℤ) = sz + n ∧ r.2.1 < kernBase ∧ PresentBelow r.2.2 pgdir r.2.1 ∧
    (∀ v < userPages, ∀ p fl p' fl', pageMap k pgdir v = some (p, fl) →
      pageMap r.2.2 pgdir v = some (p', fl') → r.2.2.mem p' = k.mem p) ∧
    ∀ v < userPages, ∀ p fl, pageMap k pgdir v = none → pageMap r.2.2 pgdir v = some (p, fl) →
      r.2.2.mem p = fun _ => 0) ∨
  (r.1 = -1 ∧ r.2.1 = sz ∧ ∀ v < userPages, pageMap r.2.2 pgdir v = pageMap k pgdir v)

theorem kernBase_eq_two_pow : kernBase = 2 ^ 31 := by
  unfold kernBase
  rfl

/-- A page is below the rounded size exactly if it starts below the size. -/
theorem mul_lt_pgRoundUp {sz : ℕ} (hsz : sz ≤ kernBase) (u : ℕ) :
    u * pgSize < pgRoundUp sz ↔ u * pgSize < sz := by
  rw [pgRoundUp_eq hsz]
  unfold pgSize
  omega

section Exact

variable {m sz : ℕ} (hsz : sz < kernBase) (hpages : PresentBelow k pgdir sz)
include hsz hpages

theorem PresentBelow.isSome_iff (u : ℕ) (hu : u < userPages) :
    (pageMap k pgdir u).isSome ↔ u * pgSize < sz := by
  rw [hpages u hu, mul_lt_pgRoundUp hsz.le]

theorem PresentBelow.eq_none (u : ℕ) (hge : sz ≤ u * pgSize) (hu : u < userPages) :
    pageMap k pgdir u = none := by
  have hsome := hpages.isSome_iff hsz u hu
  rw [← Option.not_isSome_iff_eq_none, hsome]
  omega

variable (h : Space c k pgdir)
include h

/-- All pages of a larger size have been added. -/
theorem GrowExact.of_grew {mem : Option Page} (hm : sz ≤ m) (hmlt : m < kernBase)
    (hgrew : Grew c k pgdir ((sz + (pgSize - 1)) / pgSize) m (k', true, mem)) :
    GrowExact k pgdir sz (m - sz) (0, m, k') := by
  have hold : ∀ v, v * pgSize < sz → pageMap k' pgdir v = pageMap k pgdir v := by
    intro v hv
    rcases hgrew.map v with hsame | ⟨hle, -⟩
    · exact hsame
    · rw [le_mul_pgSize] at hle
      omega
  refine .inl ⟨rfl, by dsimp only; omega, hmlt, fun v hv => ?_, ?_, ?_⟩
  · rw [mul_lt_pgRoundUp hmlt.le]
    constructor
    · intro hsome
      rcases hgrew.map v with hsame | ⟨-, hlt, -⟩
      · rw [hsame, hpages.isSome_iff hsz v hv] at hsome
        omega
      · exact hlt
    · intro hlt
      by_cases hbelow : v * pgSize < sz
      · rw [hold v hbelow]
        exact (hpages.isSome_iff hsz v hv).mpr hbelow
      · exact hgrew.full rfl v ((le_mul_pgSize v).mpr (by omega)) hlt
  · intro v hv p fl p' fl' hp hp'
    have hbelow := (hpages.isSome_iff hsz v hv).mp (by rw [hp]; rfl)
    rw [hold v hbelow, hp] at hp'
    obtain ⟨rfl, -⟩ := Prod.mk.inj (Option.some.inj hp')
    exact hgrew.ext.keeps p (h.frame v hv p fl hp).toOutside
  · intro v hv p fl hnone hp
    rcases hgrew.map v with hsame | ⟨-, -, p', fl', hp', hzero⟩
    · rw [hsame, hnone] at hp
      cases hp
    · rw [hp'] at hp
      obtain ⟨rfl, -⟩ := Prod.mk.inj (Option.some.inj hp)
      exact hzero

/-- The pages above a smaller size have been removed. -/
theorem GrowExact.of_shrunk (hm : m < sz) (hok : deallocuvm c k pgdir sz m = .ok (m, k')) :
    GrowExact k pgdir sz ((m : ℤ) - sz) (0, m, k') := by
  have hshrunk := (deallocuvm_spec h hsz.le m).of_ok hok
  have hmap : ∀ v < userPages, pageMap k' pgdir v =
      if v * pgSize < m then pageMap k pgdir v else none := by
    intro v hv
    have hv' := hshrunk.map v
    rw [hv']
    by_cases hlt : v * pgSize < m
    · rw [if_neg (by omega), if_pos hlt]
    · by_cases hin : v * pgSize < sz
      · rw [if_pos ⟨by omega, hin⟩, if_neg hlt]
      · rw [if_neg (by omega), if_neg hlt]
        exact hpages.eq_none hsz v (by omega) hv
  refine .inl ⟨rfl, by dsimp only; omega, hm.trans hsz, fun v hv => ?_, ?_, ?_⟩
  · rw [mul_lt_pgRoundUp (hm.trans hsz).le, hmap v hv]
    split
    · next hlt =>
      rw [hpages.isSome_iff hsz v hv]
      omega
    · next hge => simpa using hge
  · intro v hv p fl p' fl' hp hp'
    rw [hmap v hv] at hp'
    split at hp'
    · next hlt =>
      rw [hp] at hp'
      obtain ⟨rfl, -⟩ := Prod.mk.inj (Option.some.inj hp')
      refine hshrunk.outside p (h.frame v hv p fl hp).toOutside fun u fl'' hge hlt' hpu => ?_
      have hu : u < userPages := by
        rw [kernBase_eq] at hsz
        exact Nat.lt_of_mul_lt_mul_right (hlt'.trans hsz)
      obtain rfl := h.frame_inj u hu v hv p fl'' fl hpu hp
      omega
    · cases hp'
  · intro v hv p fl hnone hp
    rw [hmap v hv, hnone, ite_self] at hp
    cases hp

/-- Growing, or leaving the size as it is, is exact. -/
theorem growproc_of_nonneg {n : ℤ} (hn : 0 ≤ n ∧ n < 2 ^ 31) :
    ∃ r, growproc c k pgdir sz n = .ok r ∧ GrowExact k pgdir sz n r := by
  have hbase := kernBase_eq_two_pow
  rw [growproc]
  rcases hn.1.eq_or_lt with rfl | hpos
  · refine ⟨_, rfl, .inl ⟨rfl, by simp, hsz, hpages, ?_, ?_⟩⟩
    · intro v hv p fl p' fl' hp hp'
      rw [hp] at hp'
      obtain ⟨rfl, -⟩ := Prod.mk.inj (Option.some.inj hp')
      rfl
    · intro v hv p fl hnone hp
      rw [hnone] at hp
      cases hp
  · -- the sum does not wrap
    obtain ⟨m, hm⟩ : ∃ m : ℕ, (sz : ℤ) + n = m := ⟨(sz + n).toNat, by omega⟩
    have hnewsz : ((sz + n) % 2 ^ 32).toNat = m := by omega
    obtain ⟨⟨r, k'⟩, hok, -, hr, -⟩ :=
      (allocuvm_grows h sz m).exists_ok fun _ ⟨u, hge, hu, hsome⟩ => by
      rw [hpages.eq_none hsz u hge hu] at hsome
      cases hsome
    rw [if_pos hpos, hnewsz, hok]
    rcases hr with ⟨hret, hlt, mem, hgrew⟩ | ⟨-, hlt⟩ | ⟨hret, hsame⟩
    · obtain rfl : r = m := hret
      have hexact := GrowExact.of_grew hsz hpages h (by omega) hlt hgrew
      rw [show (r : ℤ) - sz = n by omega] at hexact
      exact ⟨_, if_neg (by omega), hexact⟩
    · omega
    · refine ⟨_, if_pos hret, .inr ⟨rfl, rfl, fun u hu => ?_⟩⟩
      rcases hsame u with hsame | ⟨hge, hnone⟩
      · exact hsame
      · exact hnone.trans (hpages.eq_none hsz u hge hu).symm

/-- Shrinking to a positive size is exact. -/
theorem growproc_of_neg {n : ℤ} (hn : n < 0) (hpos : 0 < sz + n) :
    ∃ r, growproc c k pgdir sz n = .ok r ∧ GrowExact k pgdir sz n r := by
  have hbase := kernBase_eq_two_pow
  obtain ⟨m, hm⟩ : ∃ m : ℕ, (sz : ℤ) + n = m := ⟨(sz + n).toNat, by omega⟩
  have hnewsz : ((sz + n) % 2 ^ 32).toNat = m := by omega
  obtain ⟨⟨r, k'⟩, hok, hr⟩ := (deallocuvm_spec h hsz.le m).exists_ok fun _ => id
  have hret := hr.ret
  rw [if_neg (by omega)] at hret
  obtain rfl : r = m := hret
  have hexact := GrowExact.of_shrunk hsz hpages h (by omega) hok
  rw [show (r : ℤ) - sz = n by omega] at hexact
  rw [growproc, if_neg (by omega), if_pos hn, hnewsz, hok]
  exact ⟨_, if_neg (by omega), hexact⟩

omit hpages in
/-- Shrinking to size zero removes all pages, and is taken for a failure. -/
theorem growproc_to_zero (hpos : 0 < sz) :
    ∃ k', growproc c k pgdir sz (-sz) = .ok (-1, sz, k') ∧
      ∀ u, u * pgSize < sz → pageMap k' pgdir u = none := by
  obtain ⟨⟨r, k'⟩, hok, hr⟩ := (deallocuvm_spec h hsz.le 0).exists_ok fun _ => id
  have hret := hr.ret
  rw [if_neg (by omega)] at hret
  obtain rfl : r = 0 := hret
  have hnewsz : (((sz : ℤ) + -sz) % 2 ^ 32).toNat = 0 := by simp
  rw [growproc, if_neg (by omega), if_pos (by omega), hnewsz, hok]
  refine ⟨k', rfl, fun u hu => ?_⟩
  have hmap := hr.map u
  rwa [if_pos ⟨Nat.zero_le _, hu⟩] at hmap

omit hsz hpages h in
/-- A size below zero wraps to a larger one, and nothing happens. -/
theorem growproc_below_zero {n : ℤ} (hn : -2 ^ 31 ≤ n) (hneg : sz + n < 0) :
    growproc c k pgdir sz n = .ok (if sz = 0 then -1 else 0, sz, k) := by
  have hge : sz ≤ ((sz + n) % 2 ^ 32).toNat := by omega
  rw [growproc, if_neg (by omega), if_pos (by omega), deallocuvm, if_pos hge]
  by_cases hzero : sz = 0
  · rw [if_pos hzero]
    exact if_pos hzero
  · rw [if_neg hzero]
    exact if_neg hzero

/-- **`growproc` is exact or a no-op except for shrinking to nothing or below.** For every process
below `KERNBASE` whose present user pages are those below its size, every signed 32-bit `n` and
every free list: `growproc` returns, and its outcome is exact, or a failure without effect, exactly
if it was not asked to shrink a process of positive size to size zero or less. -/
theorem growproc_exact_iff (n : ℤ) (hn : -2 ^ 31 ≤ n ∧ n < 2 ^ 31) :
    ∃ r, growproc c k pgdir sz n = .ok r ∧
      (GrowExact k pgdir sz n r ↔ ¬(n < 0 ∧ 0 < sz ∧ sz + n ≤ 0)) := by
  rcases le_or_gt 0 n with hnonneg | hneg
  · obtain ⟨r, hok, hexact⟩ := growproc_of_nonneg hsz hpages h ⟨hnonneg, hn.2⟩
    exact ⟨r, hok, iff_of_true hexact (by omega)⟩
  rcases lt_trichotomy 0 ((sz : ℤ) + n) with hpos | hzero | hbelow
  · obtain ⟨r, hok, hexact⟩ := growproc_of_neg hsz hpages h hneg hpos
    exact ⟨r, hok, iff_of_true hexact (by omega)⟩
  · obtain rfl : n = -sz := by omega
    obtain ⟨k', hok, hgone⟩ := growproc_to_zero hsz h (by omega)
    refine ⟨_, hok, iff_of_false ?_ (by omega)⟩
    rintro (⟨hret, -⟩ | ⟨-, -, hsame⟩)
    · cases hret
    · have hfirst := (hpages.isSome_iff hsz 0 (by rw [userPages_eq]; decide)).mpr (by omega)
      rw [← hsame 0 (by rw [userPages_eq]; decide), hgone 0 (by omega)] at hfirst
      cases hfirst
  · refine ⟨_, growproc_below_zero hn.1 hbelow, ?_⟩
    by_cases hz : sz = 0
    · rw [if_pos hz]
      exact iff_of_true (.inr ⟨rfl, rfl, fun _ _ => rfl⟩) (by omega)
    · rw [if_neg hz]
      refine iff_of_false ?_ (by omega)
      rintro (⟨-, heq, -⟩ | ⟨hret, -⟩)
      · omega
      · cases hret

end Exact

/-! ## A process of two pages -/

/-- A page directory in page `0x300` with one table, in page `0x301`, and `n` user pages, on the
frames from `0x302` on. -/
def pages (n : ℕ) : Kernel where
  mem p i :=
    if p = 0x300 then if i = 0 then 0x301 * pgSize + 7 else 0
    else if p = 0x301 then if i < n then (0x302 + i) * pgSize + 7 else 0
    else 0
  free := []

theorem present_pages_iff (n i : ℕ) : Present ((pages n).mem 0x300 i) ↔ i = 0 := by
  rw [present_iff]
  by_cases hi : i = 0
  · simp [pages, hi, pgSize]
  · simp [pages, hi]

theorem table_pages (n : ℕ) : (pages n).mem 0x300 0 / pgSize = 0x301 := by
  change (0x301 * pgSize + 7) / pgSize = 0x301
  decide

theorem entry_pages (n i : ℕ) :
    (pages n).mem 0x301 i = if i < n then (0x302 + i) * pgSize + 7 else 0 := rfl

variable {n : ℕ}

theorem pageMap_pages (hn : n ≤ 2) (v : ℕ) :
    pageMap (pages n) 0x300 v = if v < n then some (0x302 + v, 7) else none := by
  by_cases hv : v < nPages ∧ Present ((pages n).mem 0x300 (v / 1024))
  · rw [pageMap, if_pos hv]
    have hfirst := (present_pages_iff n _).mp hv.2
    have hmod : v % 1024 = v := by omega
    rw [hfirst, hmod, table_pages, entry_pages]
    by_cases hlt : v < n
    · rw [if_pos hlt, if_pos hlt]
      have hcases : v = 0 ∨ v = 1 := by omega
      rcases hcases with rfl | rfl <;> decide
    · rw [if_neg hlt, if_neg hlt, decode_eq_none, present_iff]
      decide
  · rw [pageMap, if_neg hv, if_neg]
    intro hlt
    refine hv ⟨?_, (present_pages_iff n _).mpr (by omega)⟩
    rw [nPages_eq]
    exact lt_of_lt_of_le hlt (hn.trans (by decide))

theorem space_pages (hn : n ≤ 2) : Space qemu (pages n) 0x300 := by
  have hpresent : ∀ i, Present ((pages n).mem 0x300 i) → i = 0 :=
    fun i => (present_pages_iff n i).mp
  have hmapped : ∀ v p fl, pageMap (pages n) 0x300 v = some (p, fl) → v < n ∧ p = 0x302 + v := by
    intro v p fl hp
    rw [pageMap_pages hn] at hp
    split at hp
    · next hv =>
      obtain ⟨rfl, -⟩ := Prod.mk.inj (Option.some.inj hp)
      exact ⟨hv, rfl⟩
    · cases hp
  refine ⟨⟨?_, ?_, List.not_mem_nil, fun _ _ _ => List.not_mem_nil, List.nodup_nil⟩,
    nofun, ?_, ?_⟩
  · intro i _ j _ hi hj _
    rw [hpresent i hi, hpresent j hj]
  · intro i _ hi
    rw [hpresent i hi, table_pages]
    decide
  · intro v _ p fl hp
    obtain ⟨hv, rfl⟩ := hmapped v p fl hp
    have hcases : v = 0 ∨ v = 1 := by omega
    refine ⟨⟨List.not_mem_nil, ?_, fun i _ hi => ?_⟩, ?_, ?_⟩
    · rcases hcases with rfl | rfl <;> decide
    · rw [hpresent i hi, table_pages]
      rcases hcases with rfl | rfl <;> decide
    · rcases hcases with rfl | rfl <;> decide
    · unfold phyStop
      rcases hcases with rfl | rfl <;> decide
  · intro v _ w _ p fl fl' hv hw
    exact Nat.add_left_cancel ((hmapped v p fl hv).2.symm.trans (hmapped w p fl' hw).2)

theorem presentBelow_pages (hn : n ≤ 2) : PresentBelow (pages n) 0x300 (n * pgSize) := by
  intro v hv
  have hle : n * pgSize ≤ kernBase :=
    (Nat.mul_le_mul_right pgSize hn).trans (by unfold kernBase; decide)
  rw [pageMap_pages hn, mul_lt_pgRoundUp hle, Nat.mul_lt_mul_right (by decide)]
  by_cases hlt : v < n
  · simp [hlt]
  · simp [hlt]

/-- A process of two pages gives up the second one. -/
theorem growproc_exact_page :
    Space qemu (pages 2) 0x300 ∧ PresentBelow (pages 2) 0x300 8192 ∧
      ∃ r, growproc qemu (pages 2) 0x300 8192 (-4096) = .ok r ∧
        GrowExact (pages 2) 0x300 8192 (-4096) r := by
  have hsz : 8192 < kernBase := by
    unfold kernBase
    decide
  have hspace := space_pages (n := 2) le_rfl
  have hbelow : PresentBelow (pages 2) 0x300 8192 := presentBelow_pages le_rfl
  obtain ⟨r, hok, hexact⟩ := growproc_exact_iff hsz hbelow hspace (-4096) (by decide)
  exact ⟨hspace, hbelow, r, hok, hexact.mpr (by decide)⟩

/-- A process of one page that gives up this page: `growproc` fails, and the page is gone. One that
gives up two pages: `growproc` succeeds, and nothing has changed. -/
theorem not_growproc_exact :
    Space qemu (pages 1) 0x300 ∧ PresentBelow (pages 1) 0x300 4096 ∧
      (∃ k, growproc qemu (pages 1) 0x300 4096 (-4096) = .ok (-1, 4096, k) ∧
        pageMap (pages 1) 0x300 0 = some (0x302, 7) ∧ pageMap k 0x300 0 = none ∧
        ¬GrowExact (pages 1) 0x300 4096 (-4096) (-1, 4096, k)) ∧
      growproc qemu (pages 1) 0x300 4096 (-8192) = .ok (0, 4096, pages 1) ∧
        ¬GrowExact (pages 1) 0x300 4096 (-8192) (0, 4096, pages 1) := by
  have hsz : 4096 < kernBase := by
    unfold kernBase
    decide
  have hspace := space_pages (n := 1) (by decide)
  obtain ⟨k, hok, hgone⟩ := growproc_to_zero hsz hspace (by decide)
  have hnone := hgone 0 (by decide)
  have hsome : pageMap (pages 1) 0x300 0 = some (0x302, 7) := by
    rw [pageMap_pages (by decide), if_pos Nat.one_pos]
  refine ⟨hspace, presentBelow_pages (n := 1) (by decide), ⟨k, hok, hsome, hnone, ?_⟩,
    growproc_below_zero (by decide) (by decide), ?_⟩
  · rintro (⟨hret, -⟩ | ⟨-, -, hsame⟩)
    · cases hret
    · have hzero := hsame 0 (by rw [userPages_eq]; decide)
      rw [hnone, hsome] at hzero
      cases hzero
  · rintro (⟨-, heq, -⟩ | ⟨hret, -⟩)
    · exact absurd heq (by decide)
    · cases hret

end InuOs.Paging
