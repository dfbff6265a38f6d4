import InuOs.PagingMap

/-!
# User pages and their frames

Below `KERNBASE` a page directory maps pages that came from `kalloc`, each to one virtual page.
`Space` says so, next to the separation of the tables (`Sep`): the frames of user pages are neither
free nor tables. It is what makes `deallocuvm` right — it frees the frames of the pages that it
removes, each once, and touches no table although it fills the frames with junk.
-/

namespace InuOs.Paging

variable {c : Platform} {k k' : Kernel} {pgdir p : Page} {v n : ℕ}

theorem userPages_eq : userPages = 524288 := by
  unfold userPages
  rfl

theorem kernBase_eq : kernBase = userPages * pgSize := by
  unfold kernBase userPages pgSize
  rfl

/-- The next page. -/
theorem add_pgSize (hv : v < userPages) : (v * pgSize + pgSize) % 2 ^ 32 = (v + 1) * pgSize := by
  rw [userPages_eq] at hv
  unfold pgSize
  omega

/-! ## Frames -/

/-- What `kalloc` does when it succeeds. -/
theorem Kernel.exists_of_kalloc_eq_some (hk : k.kalloc = some (p, k')) :
    ∃ free, k.free = p :: free ∧ k' = { k with free := free } := by
  unfold Kernel.kalloc InuOs.kalloc at hk
  split at hk
  · cases hk
  · next q free hfree =>
    cases hk
    exact ⟨free, hfree, rfl⟩

theorem kfree_of_managed (hp : c.Managed p) :
    ∃ k', k.kfree c p = .ok k' ∧ k'.free = p :: k.free ∧ ∀ q ≠ p, k'.mem q = k.mem q := by
  have hkfree : InuOs.kfree c k.free p = .ok (p :: k.free) := if_pos hp
  refine ⟨_, by rw [Kernel.kfree, hkfree]; rfl, rfl, fun q hq => ?_⟩
  exact Function.update_of_ne hq ..

/-- Page `p` belongs to the allocator and is in use, but not for this page directory. -/
structure Frame (c : Platform) (k : Kernel) (pgdir p : Page) : Prop extends Outside k pgdir p where
  managed : c.Managed p

/-- A page directory and what it maps below `KERNBASE`. -/
structure Space (c : Platform) (k : Kernel) (pgdir : Page) : Prop extends Sep k pgdir where
  managed : ∀ p ∈ k.free, c.Managed p
  frame : ∀ v < userPages, ∀ p fl, pageMap k pgdir v = some (p, fl) → Frame c k pgdir p
  frame_inj : ∀ v < userPages, ∀ w < userPages, ∀ p fl fl', pageMap k pgdir v = some (p, fl) →
    pageMap k pgdir w = some (p, fl') → v = w

/-- Page `p` is no user page. -/
def Unmapped (k : Kernel) (pgdir p : Page) : Prop :=
  ∀ v < userPages, ∀ fl, pageMap k pgdir v ≠ some (p, fl)

/-- No frame is at address 0. -/
theorem Frame.pos (h : Frame c k pgdir p) : 0 < p := c.kend_pos.trans_le h.managed.1

theorem Frame.grown (h : Frame c k pgdir p) (hg : Grown k k' pgdir) : Frame c k' pgdir p :=
  ⟨hg.keeps h.toOutside, h.managed⟩

/-- What is not in a table does not matter. -/
theorem tables_congr (hdir : k'.mem pgdir = k.mem pgdir)
    (htable : ∀ i < 1024, Present (k.mem pgdir i) →
      k'.mem (k.mem pgdir i / pgSize) = k.mem (k.mem pgdir i / pgSize)) :
    pageMap k' pgdir = pageMap k pgdir ∧ dirOf k' pgdir = dirOf k pgdir := by
  have hsame : tableAt k' pgdir = tableAt k pgdir := by
    funext i
    unfold tableAt
    rw [hdir]
    split
    · next hi => rw [htable i hi.1 hi.2]
    · rfl
  exact ⟨funext fun u => by rw [pageMap_eq, pageMap_eq, hsame], by rw [dirOf, dirOf, hsame]⟩

namespace Space

/-- The directory is the same, and the user pages are some of those before. -/
theorem of_dir (h : Space c k pgdir) (hdir : k'.mem pgdir = k.mem pgdir) (hnodup : k'.free.Nodup)
    (hpgdir : pgdir ∉ k'.free)
    (htables : ∀ i < 1024, Present (k.mem pgdir i) → k.mem pgdir i / pgSize ∉ k'.free)
    (hmanaged : ∀ p ∈ k'.free, c.Managed p)
    (hmap : ∀ v p fl, pageMap k' pgdir v = some (p, fl) → ∃ fl', pageMap k pgdir v = some (p, fl'))
    (hframe : ∀ v < userPages, ∀ p fl, pageMap k' pgdir v = some (p, fl) → p ∉ k'.free) :
    Space c k' pgdir where
  inj := by
    rw [hdir]
    exact h.inj
  ne := by
    rw [hdir]
    exact h.ne
  dir_notFree := hpgdir
  notFree := by
    rw [hdir]
    exact htables
  nodup := hnodup
  managed := hmanaged
  frame v hv p fl hp := by
    obtain ⟨fl', hold⟩ := hmap v p fl hp
    have hold := h.frame v hv p fl' hold
    exact ⟨hold.toOutside.of_dir hdir (hframe v hv p fl hp), hold.managed⟩
  frame_inj v hv w hw p fl fl' hvp hwp := by
    obtain ⟨_, hvp⟩ := hmap v p fl hvp
    obtain ⟨_, hwp⟩ := hmap w p fl' hwp
    exact h.frame_inj v hv w hw p _ _ hvp hwp

/-- More tables, and the same user pages or one more, on a frame of its own. -/
theorem grown (h : Space c k pgdir) (hsep : Sep k' pgdir) (hg : Grown k k' pgdir)
    (hmap : ∀ v < userPages, pageMap k' pgdir v = pageMap k pgdir v) : Space c k' pgdir where
  toSep := hsep
  managed q hq := h.managed q (hg.mem_free hq)
  frame v hv q fl hq := (h.frame v hv q fl (by rwa [← hmap v hv])).grown hg
  frame_inj v hv w hw q fl fl' hvq hwq := by
    rw [hmap v hv] at hvq
    rw [hmap w hw] at hwq
    exact h.frame_inj v hv w hw q fl fl' hvq hwq

/-- A page is mapped on a frame that no other user page has. -/
theorem map_frame (h : Space c k pgdir) (hsep : Sep k' pgdir) (hg : Grown k k' pgdir)
    (hp : Frame c k pgdir p) (hun : Unmapped k pgdir p) {fl : ℕ}
    (hmap : pageMap k' pgdir = Function.update (pageMap k pgdir) v (some (p, fl))) :
    Space c k' pgdir := by
  have hcases (w : ℕ) (q : Page) (fl' : ℕ) (hw : pageMap k' pgdir w = some (q, fl')) :
      w = v ∧ q = p ∨ w ≠ v ∧ pageMap k pgdir w = some (q, fl') := by
    rw [hmap] at hw
    rcases eq_or_ne w v with rfl | hne
    · rw [Function.update_self] at hw
      cases hw
      exact .inl ⟨rfl, rfl⟩
    · rw [Function.update_of_ne hne] at hw
      exact .inr ⟨hne, hw⟩
  refine ⟨hsep, fun q hq => h.managed q (hg.mem_free hq), fun w hw q fl' hq => ?_,
    fun w hw u hu q fl₁ fl₂ hwq huq => ?_⟩
  · rcases hcases w q fl' hq with ⟨-, rfl⟩ | ⟨-, hold⟩
    · exact hp.grown hg
    · exact (h.frame w hw q fl' hold).grown hg
  · rcases hcases w q fl₁ hwq with ⟨hwv, hqp⟩ | ⟨-, hold⟩ <;>
      rcases hcases u q fl₂ huq with ⟨huv, hqp'⟩ | ⟨-, hold'⟩
    · exact hwv.trans huv.symm
    · exact absurd (hqp ▸ hold') (hun u hu fl₂)
    · exact absurd (hqp' ▸ hold) (hun w hw fl₁)
    · exact h.frame_inj w hw u hu q fl₁ fl₂ hold hold'

/-- `kalloc` and `memset`: the page is a frame that no user page has. -/
theorem kalloc (h : Space c k pgdir) (hk : k.kalloc = some (p, k')) :
    Space c (k'.clear p) pgdir ∧ Frame c (k'.clear p) pgdir p ∧ Unmapped (k'.clear p) pgdir p ∧
      pageMap (k'.clear p) pgdir = pageMap k pgdir ∧ dirOf (k'.clear p) pgdir = dirOf k pgdir := by
  obtain ⟨free, hfree, rfl⟩ := Kernel.exists_of_kalloc_eq_some hk
  have hmem : p ∈ k.free := hfree ▸ List.mem_cons_self
  have hsub (q : Page) (hq : q ∈ free) : q ∈ k.free := hfree ▸ List.mem_cons_of_mem p hq
  have hnodup := h.nodup
  rw [hfree] at hnodup
  obtain ⟨hnotin, hnodup⟩ := List.nodup_cons.mp hnodup
  have hdir : pgdir ≠ p := by
    rintro rfl
    exact h.dir_notFree hmem
  have htable (i : ℕ) (hi : i < 1024) (hpi : Present (k.mem pgdir i)) :
      k.mem pgdir i / pgSize ≠ p := by
    rintro rfl
    exact h.notFree i hi hpi hmem
  have hmemdir : (({ k with free := free } : Kernel).clear p).mem pgdir = k.mem pgdir :=
    clear_mem_of_ne hdir
  obtain ⟨hmap, hvm⟩ := tables_congr hmemdir fun i hi hpi => clear_mem_of_ne (htable i hi hpi)
  refine ⟨h.of_dir hmemdir hnodup (fun hmem => h.dir_notFree (hsub _ hmem))
    (fun i hi hpi hmem => h.notFree i hi hpi (hsub _ hmem)) (fun q hq => h.managed q (hsub q hq))
    (fun v q fl hq => ⟨fl, by rwa [← hmap]⟩) (fun v hv q fl hq hmem => ?_),
    ⟨⟨hnotin, hdir.symm, by rw [hmemdir]; exact htable⟩, h.managed p hmem⟩,
    fun v hv fl hq => ?_, hmap, hvm⟩
  · rw [hmap] at hq
    exact (h.frame v hv q fl hq).notFree (hsub q hmem)
  · rw [hmap] at hq
    exact (h.frame v hv p fl hq).notFree hmem

/-- `kfree` of a frame that no user page has. -/
theorem kfree (h : Space c k pgdir) (hp : Frame c k pgdir p) (hun : Unmapped k pgdir p) :
    ∃ k', k.kfree c p = .ok k' ∧ Space c k' pgdir ∧ k'.free = p :: k.free ∧
      (∀ q ≠ p, k'.mem q = k.mem q) ∧ pageMap k' pgdir = pageMap k pgdir ∧
      dirOf k' pgdir = dirOf k pgdir := by
  obtain ⟨k', hk', hfree, hmem⟩ := kfree_of_managed (k := k) hp.managed
  obtain ⟨hmap, hvm⟩ :=
    tables_congr (hmem _ hp.ne_dir.symm) fun i hi hpi => hmem _ (hp.ne_table i hi hpi)
  refine ⟨k', hk', h.of_dir (hmem _ hp.ne_dir.symm)
    (by rw [hfree]; exact List.nodup_cons.mpr ⟨hp.notFree, h.nodup⟩)
    ?_ ?_ ?_ (fun v q fl hq => ⟨fl, by rwa [← hmap]⟩) ?_, hfree, hmem, hmap, hvm⟩ <;>
    simp only [hfree, List.mem_cons, not_or, forall_eq_or_imp]
  · exact ⟨hp.ne_dir.symm, h.dir_notFree⟩
  · exact fun i hi hpi => ⟨hp.ne_table i hi hpi, h.notFree i hi hpi⟩
  · exact ⟨hp.managed, h.managed⟩
  · intro v hv q fl hq
    rw [hmap] at hq
    refine ⟨?_, (h.frame v hv q fl hq).notFree⟩
    rintro rfl
    exact hun v hv fl hq

/-- An entry is stored in a table, and no frame comes in. -/
theorem store (h : Space c k pgdir) (hv : v < nPages)
    (hp : Present (k.mem pgdir (v / 1024))) (w : ℕ)
    (hw : ∀ p fl, decode w = some (p, fl) → ∃ fl', pageMap k pgdir v = some (p, fl')) :
    Space c (k.setPte pgdir v w) pgdir := by
  have hne := h.ne _ (div_lt_of_lt_nPages hv) hp
  have hdir : (k.setPte pgdir v w).mem pgdir = k.mem pgdir := store_mem_of_ne hne.symm
  have hold (u : ℕ) (q : Page) (fl : ℕ)
      (hq : pageMap (k.setPte pgdir v w) pgdir u = some (q, fl)) :
      ∃ fl', pageMap k pgdir u = some (q, fl') := by
    rw [pageMap_store h.toSep hv hp] at hq
    rcases eq_or_ne u v with rfl | hne
    · rw [Function.update_self] at hq
      exact hw q fl hq
    · rw [Function.update_of_ne hne] at hq
      exact ⟨fl, hq⟩
  refine h.of_dir hdir h.nodup h.dir_notFree h.notFree h.managed hold fun u hu q fl hq => ?_
  obtain ⟨fl', hq'⟩ := hold u q fl hq
  exact (h.frame u hu q fl' hq').notFree

end Space

/-! ## `deallocuvm` -/

theorem le_mul_pgSize {newsz : ℕ} (u : ℕ) :
    (newsz + (pgSize - 1)) / pgSize ≤ u ↔ newsz ≤ u * pgSize := by
  unfold pgSize
  omega

theorem vm_pgRoundUp (v : ℕ) : InuOs.pgRoundUp (v * pgSize) = v := by
  rw [InuOs.pgRoundUp]
  unfold pgSize
  omega

/-- `kfree` after a store into another page is `kfree` before it. -/
theorem kfree_store {t : Page} (h : p ≠ t) {i w : ℕ} (hk : (k.store t i w).kfree c p = .ok k') :
    ∃ k₁, k.kfree c p = .ok k₁ ∧ k₁.store t i w = k' := by
  have hmem : (k.store t i w).free = k.free := rfl
  unfold Kernel.kfree at hk ⊢
  rw [hmem] at hk
  cases hfree : InuOs.kfree c k.free p with
  | error e =>
    rw [hfree] at hk
    cases hk
  | ok free =>
    rw [hfree] at hk
    cases hk
    refine ⟨_, rfl, congrArg (Kernel.mk · free) ?_⟩
    change Function.update (Function.update k.mem p _) t
      (Function.update (Function.update k.mem p _ t) i w) =
      Function.update (Function.update k.mem t _) p _
    rw [Function.update_of_ne h.symm, Function.update_comm h]

/-- One user page is removed: its frame is freed and its entry is cleared. -/
structure Dropped (c : Platform) (k k' : Kernel) (pgdir : Page) (v : ℕ) (p : Page) : Prop where
  space : Space c k' pgdir
  free : k'.free = p :: k.free
  dir : k'.mem pgdir = k.mem pgdir
  map : pageMap k' pgdir = Function.update (pageMap k pgdir) v none
  outside : ∀ q, Outside k pgdir q → q ≠ p → k'.mem q = k.mem q
  vm : dirOf k' pgdir = (dirOf k pgdir).setPte v none

theorem Space.remove (h : Space c k pgdir) (hv : v < userPages) {fl : ℕ}
    (hmap : pageMap k pgdir v = some (p, fl)) :
    Meets (k.kfree c p) (fun _ => False) fun k' =>
      Dropped c k (k'.store (k.mem pgdir (v / 1024) / pgSize) (v % 1024) 0) pgdir v p := by
  have hlt := hv.trans userPages_lt
  have hpresent := present_of_pageMap hmap
  have hframe := h.frame v hv p fl hmap
  have hv' := div_lt_of_lt_nPages hlt
  have hzero : decode 0 = none := decode_eq_none.mpr not_present_zero
  have hstore := h.store hlt hpresent 0 (by rw [hzero]; nofun)
  have hmap' := pageMap_store h.toSep hlt hpresent 0
  have hdir : (k.setPte pgdir v 0).mem pgdir = k.mem pgdir :=
    store_mem_of_ne (h.ne _ hv' hpresent).symm
  obtain ⟨k₂, hk₂, hspace, hfree, hmem, hmap'', hvm⟩ := hstore.kfree
    ⟨hframe.toOutside.of_dir hdir hframe.notFree, hframe.managed⟩
    (fun w hw fl' hwmap => by
      rw [hmap'] at hwmap
      rcases eq_or_ne w v with rfl | hne
      · rw [Function.update_self] at hwmap
        cases hwmap
      · rw [Function.update_of_ne hne] at hwmap
        exact hne (h.frame_inj w hw v hv p fl' fl hwmap hmap))
  obtain ⟨k₁, hk₁, rfl⟩ := kfree_store (hframe.ne_table _ hv' hpresent).symm hk₂
  rw [hk₁]
  refine Meets.pure ⟨hspace, hfree, (hmem pgdir hframe.ne_dir.symm).trans hdir, hmap''.trans hmap',
    fun q hq hne => ?_, ?_⟩
  · rw [hmem q hne, store_mem_of_ne (hq.ne_table _ hv' hpresent).symm]
  · rw [hvm, dirOf_store h.toSep hlt hpresent, hzero]
    rfl

/-- The loop of `deallocuvm` in `InuOs.Vm`. -/
abbrev vmDealloc (c : Platform) (k : Kernel) (pgdir : Page) (newsz oldsz : ℕ) :
    Except Panic (List Page × PageDir) :=
  InuOs.deallocLoop c k.free (dirOf k pgdir) (InuOs.pgRoundUp newsz) (InuOs.pgRoundUp oldsz)

section

variable {oldsz : ℕ} (hv : v * pgSize < oldsz)
include hv

theorem lt_vm_pgRoundUp : v < InuOs.pgRoundUp oldsz :=
  Nat.lt_of_not_le fun hle => absurd ((le_mul_pgSize v).mp hle) (Nat.not_le.mpr hv)

theorem vmDealloc_table (hp : ¬ Present (k.mem pgdir (v / 1024))) :
    vmDealloc c k pgdir (v * pgSize) oldsz =
      vmDealloc c k pgdir ((v / 1024 + 1) * 1024 * pgSize) oldsz := by
  rw [vmDealloc, vmDealloc, vm_pgRoundUp, vm_pgRoundUp, InuOs.deallocLoop,
    dif_pos (lt_vm_pgRoundUp hv), dirOf_pde, vm_pdx, tableAt_of_not_present hp]
  unfold npdEntries
  rfl

variable (hv' : v < nPages) (hp : Present (k.mem pgdir (v / 1024)))
include hv' hp

theorem vmDealloc_none (hmap : pageMap k pgdir v = none) :
    vmDealloc c k pgdir (v * pgSize) oldsz = vmDealloc c k pgdir ((v + 1) * pgSize) oldsz := by
  rw [vmDealloc, vmDealloc, vm_pgRoundUp, vm_pgRoundUp, InuOs.deallocLoop,
    dif_pos (lt_vm_pgRoundUp hv), dirOf_pde, vm_pdx, tableAt_of_present hv' hp, dirOf_pteAt, hmap]
  rfl

theorem vmDealloc_some {fl : ℕ} (hmap : pageMap k pgdir v = some (p, fl))
    (hframe : Frame c k pgdir p) (h : Dropped c k k' pgdir v p) :
    vmDealloc c k pgdir (v * pgSize) oldsz = vmDealloc c k' pgdir ((v + 1) * pgSize) oldsz := by
  rw [vmDealloc, vmDealloc, vm_pgRoundUp, vm_pgRoundUp, InuOs.deallocLoop,
    dif_pos (lt_vm_pgRoundUp hv), dirOf_pde, vm_pdx, tableAt_of_present hv' hp, dirOf_pteAt, hmap,
    h.free, h.vm]
  simp [pteOf, hframe.pos.ne', InuOs.kfree, hframe.managed]

end

/-- What the loop of `deallocuvm` leaves behind, from address `newsz` on. -/
structure Removed (c : Platform) (k : Kernel) (pgdir : Page) (newsz oldsz : ℕ)
    (k' : Kernel) : Prop where
  space : Space c k' pgdir
  dir : k'.mem pgdir = k.mem pgdir
  map : ∀ u, pageMap k' pgdir u =
    if newsz ≤ u * pgSize ∧ u * pgSize < oldsz then none else pageMap k pgdir u
  freed : ∃ l, k'.free = l ++ k.free ∧ ∀ p, p ∈ l ↔
    ∃ u fl, newsz ≤ u * pgSize ∧ u * pgSize < oldsz ∧ pageMap k pgdir u = some (p, fl)
  /-- pages outside that are not freed keep their bytes -/
  outside : ∀ q, Outside k pgdir q →
    (∀ u fl, newsz ≤ u * pgSize → u * pgSize < oldsz → pageMap k pgdir u ≠ some (q, fl)) →
    k'.mem q = k.mem q
  vm : vmDealloc c k pgdir newsz oldsz = pure (k'.free, dirOf k' pgdir)

namespace Removed

variable {newsz oldsz : ℕ}

/-- The loop is at its end. -/
theorem refl (h : Space c k pgdir) (hle : oldsz ≤ newsz) : Removed c k pgdir newsz oldsz k := by
  have hnone (u : ℕ) : ¬ (newsz ≤ u * pgSize ∧ u * pgSize < oldsz) := by omega
  refine ⟨h, rfl, fun u => (if_neg (hnone u)).symm, ⟨[], rfl, fun p => ?_⟩, fun _ _ _ => rfl, ?_⟩
  · constructor
    · nofun
    · rintro ⟨u, _, hge, hlt, -⟩
      exact absurd ⟨hge, hlt⟩ (hnone u)
  · rw [vmDealloc, InuOs.deallocLoop, dif_neg]
    exact Nat.not_lt.mpr (Nat.div_le_div_right (Nat.add_le_add_right hle _))

/-- Pages that are not mapped are skipped. -/
theorem skip (h : Removed c k pgdir n oldsz k') (hle : newsz ≤ n)
    (hnone : ∀ u, newsz ≤ u * pgSize → u * pgSize < n → pageMap k pgdir u = none)
    (hvm : vmDealloc c k pgdir newsz oldsz = vmDealloc c k pgdir n oldsz) :
    Removed c k pgdir newsz oldsz k' := by
  obtain ⟨l, hl, hmem⟩ := h.freed
  refine ⟨h.space, h.dir, fun u => ?_, ⟨l, hl, fun p => ?_⟩,
    fun q hq hun => h.outside q hq fun u fl hu => hun u fl (hle.trans hu), hvm.trans h.vm⟩
  · rw [h.map u]
    by_cases hu : newsz ≤ u * pgSize ∧ u * pgSize < n
    · rw [if_neg (by omega), hnone u hu.1 hu.2, ite_self]
    · have hiff : n ≤ u * pgSize ∧ u * pgSize < oldsz ↔
          newsz ≤ u * pgSize ∧ u * pgSize < oldsz := by omega
      simp only [hiff]
  · rw [hmem p]
    constructor
    · rintro ⟨u, fl, hu, hlt, hmap⟩
      exact ⟨u, fl, hle.trans hu, hlt, hmap⟩
    · rintro ⟨u, fl, hu, hlt, hmap⟩
      refine ⟨u, fl, ?_, hlt, hmap⟩
      by_contra hn
      rw [hnone u hu (by omega)] at hmap
      cases hmap

/-- Page `v` is removed, and then the rest. -/
theorem cons {k₁ : Kernel} {fl : ℕ} (h : Removed c k₁ pgdir ((v + 1) * pgSize) oldsz k')
    (hv : v * pgSize < oldsz) (hmap : pageMap k pgdir v = some (p, fl))
    (h₁ : Dropped c k k₁ pgdir v p)
    (hvm : vmDealloc c k pgdir (v * pgSize) oldsz =
      vmDealloc c k₁ pgdir ((v + 1) * pgSize) oldsz) :
    Removed c k pgdir (v * pgSize) oldsz k' := by
  obtain ⟨l, hl, hmem⟩ := h.freed
  have hother (u : ℕ) (hu : u ≠ v) : pageMap k₁ pgdir u = pageMap k pgdir u := by
    rw [h₁.map, Function.update_of_ne hu]
  have hge (u : ℕ) : (v + 1) * pgSize ≤ u * pgSize ↔ u ≠ v ∧ v * pgSize ≤ u * pgSize := by
    unfold pgSize
    omega
  refine ⟨h.space, h.dir.trans h₁.dir, fun u => ?_,
    ⟨l ++ [p], by rw [hl, h₁.free]; simp, fun q => ?_⟩, fun q hq hun => ?_, hvm.trans h.vm⟩
  · simp only [h.map u, hge u]
    rcases eq_or_ne u v with rfl | hne
    · rw [if_neg (by simp), if_pos ⟨le_rfl, hv⟩, h₁.map, Function.update_self]
    · simp only [hne, ne_eq, not_false_eq_true, true_and, hother u hne]
  · simp only [List.mem_append, hmem q, List.mem_singleton, hge]
    constructor
    · rintro (⟨u, fl', hu, hlt, hq⟩ | rfl)
      · rw [hother u hu.1] at hq
        exact ⟨u, fl', hu.2, hlt, hq⟩
      · exact ⟨v, fl, le_rfl, hv, hmap⟩
    · rintro ⟨u, fl', hu, hlt, hq⟩
      rcases eq_or_ne u v with rfl | hne
      · rw [hmap] at hq
        cases hq
        exact .inr rfl
      · exact .inl ⟨u, fl', ⟨hne, hu⟩, hlt, by rwa [hother u hne]⟩
  · have hne : q ≠ p := by
      rintro rfl
      exact hun v fl le_rfl hv hmap
    have hq₁ : Outside k₁ pgdir q := hq.of_dir h₁.dir (by simp [h₁.free, hne, hq.notFree])
    refine (h.outside q hq₁ fun u fl' hu hlt => ?_).trans (h₁.outside q hq hne)
    obtain ⟨hne, hu⟩ := (hge u).mp hu
    rw [hother u hne]
    exact hun u fl' hu hlt

end Removed

/-- The next directory entry. -/
theorem pgAddr_succ (hv : v < userPages) :
    ((pgAddr (v / 1024 + 1) 0 0 + (2 ^ 32 - pgSize)) % 2 ^ 32 + pgSize) % 2 ^ 32 =
      (v / 1024 + 1) * 1024 * pgSize := by
  rw [userPages_eq] at hv
  unfold pgAddr pgSize
  rw [Nat.shiftLeft_eq, Nat.zero_shiftLeft, Nat.or_zero, Nat.or_zero]
  omega

/-- **The loop of `deallocuvm`.** -/
theorem deallocLoop_spec {fuel oldsz : ℕ} (h : Space c k pgdir) (holdsz : oldsz ≤ kernBase)
    (hv : v ≤ userPages) (hfuel : userPages - v < fuel) :
    Meets (deallocLoop c pgdir oldsz fuel (v * pgSize) k) (fun _ => False)
      (Removed c k pgdir (v * pgSize) oldsz) := by
  induction fuel generalizing v k with
  | zero => exact absurd hfuel (Nat.not_lt_zero _)
  | succ fuel ih =>
    rw [deallocLoop]
    split
    · next ha =>
      have hlt : v < userPages := by
        rw [kernBase_eq] at holdsz
        exact Nat.lt_of_mul_lt_mul_right (ha.trans_le holdsz)
      have hlt' := hlt.trans userPages_lt
      rw [walkpgdir_lookup hlt', add_pgSize hlt, (pdx_ptx hlt').1]
      by_cases hp : Present (k.mem pgdir (v / 1024))
      · rw [if_pos hp]
        dsimp only
        have hmap := pageMap_of_present hlt' hp
        split
        · next hpresent =>
          rw [decode, if_pos hpresent] at hmap
          have hframe := h.frame v hlt _ _ hmap
          have hpa : pteAddr (k.mem (k.mem pgdir (v / 1024) / pgSize) (v % 1024)) ≠ 0 :=
            (Nat.mul_pos hframe.pos (by decide)).ne'
          rw [if_neg hpa, pteAddr_div]
          refine (h.remove hlt hmap).bind fun k₁ hk₁ => ?_
          exact (ih hk₁.space hlt (by omega)).mono fun k' hk' =>
            hk'.cons ha hmap hk₁ (vmDealloc_some ha hlt' hp hmap hframe hk₁)
        · next habsent =>
          rw [decode_eq_none.mpr habsent] at hmap
          refine (ih h hlt (by omega)).mono fun k' hk' => hk'.skip
            (Nat.mul_le_mul_right _ (Nat.le_succ v)) (fun u hle hu => ?_)
            (vmDealloc_none ha hlt' hp hmap)
          unfold pgSize at hle hu
          rwa [show u = v by omega]
      · rw [if_neg hp]
        dsimp only
        rw [pgAddr_succ hlt]
        refine (ih h ?_ (by omega)).mono fun k' hk' => hk'.skip
          (Nat.mul_le_mul_right _ (by omega)) (fun u hle hu => ?_) (vmDealloc_table ha hp)
        · rw [userPages_eq] at hlt ⊢
          omega
        · refine pageMap_of_not_present ?_
          unfold pgSize at hle hu
          rwa [show u / 1024 = v / 1024 by omega]
    · next ha => exact Meets.pure (.refl h (Nat.le_of_not_lt ha))

end InuOs.Paging
