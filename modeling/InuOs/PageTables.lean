import InuOs.PagingUser
import InuOs.PageOwner

/-!
# Page directories as they are built

`Built` lists the ways in which the kernel makes and changes a page directory. Each keeps `Space`,
so that for every such directory `mappages` and `deallocuvm` are operations on its flat map
(`page_tables_flat`), and the functions do to the memory what those of `InuOs.Vm` do to the
directory as a value (`vm_agrees`).

* `deallocuvm` is asked to remove user pages only. Above `KERNBASE` there are frames that `kalloc`
  did not give, and `kfree` panics on them (`deallocuvm_above_kernBase`).
* A loop of `setupkvm` fails only without a free page, and it takes at most one for each entry of
  the directory.
-/

namespace InuOs.Paging

open Machine (qemu)

variable {c : Platform} {k k' : Kernel} {pgdir p q : Page} {v oldsz newsz : ℕ}

/-! ## `deallocuvm` -/

/-- The first page at or above an address. -/
theorem pgRoundUp_eq (h : newsz ≤ kernBase) :
    pgRoundUp newsz = (newsz + (pgSize - 1)) / pgSize * pgSize := by
  rw [pgRoundUp, Nat.mod_eq_of_lt]
  unfold kernBase at h
  unfold pgSize
  omega

/-- The function of `InuOs.Vm` returns the size, the free list and the directory in memory. -/
def VmReturns (pgdir : Page) (x : Except Panic (List Page × PageDir × UserSize)) (r : ℕ × Kernel) :
    Prop :=
  ∃ sz : UserSize, sz.1 = r.1 ∧ x = pure (r.2.free, dirOf r.2 pgdir, sz)

/-- What `deallocuvm` leaves behind. -/
structure Shrunk (c : Platform) (k : Kernel) (pgdir : Page) (oldsz newsz : ℕ) (r : ℕ × Kernel) :
    Prop extends Removed c k pgdir newsz oldsz r.2 where
  ret : r.1 = if oldsz ≤ newsz then oldsz else newsz
  vm_returns : ∀ sz : UserSize, sz.1 = oldsz →
    VmReturns pgdir (InuOs.deallocuvm c k.free (dirOf k pgdir) sz newsz) r

/-- **`deallocuvm`** below `KERNBASE`. -/
theorem deallocuvm_spec (h : Space c k pgdir) (holdsz : oldsz ≤ kernBase) (newsz : ℕ) :
    Meets (deallocuvm c k pgdir oldsz newsz) (fun _ => False) (Shrunk c k pgdir oldsz newsz) := by
  unfold deallocuvm
  split
  · next hle =>
    refine Meets.pure ⟨.refl h hle, (if_pos hle).symm, ?_⟩
    rintro sz rfl
    exact ⟨sz, rfl, dif_pos hle⟩
  · next hlt =>
    have hnew : newsz ≤ kernBase := by omega
    have hpage : (newsz + (pgSize - 1)) / pgSize ≤ userPages := by
      rw [le_mul_pgSize, ← kernBase_eq]
      exact hnew
    have huser : userPages < nPages := userPages_lt
    rw [pgRoundUp_eq hnew]
    refine (deallocLoop_spec h holdsz hpage ((Nat.sub_le ..).trans_lt (by omega))).bind
      fun k' hk' => Meets.pure ?_
    -- there is no page below the rounded address
    have hremoved : Removed c k pgdir newsz oldsz k' := by
      refine hk'.skip ((le_mul_pgSize _).mp le_rfl) (fun u hge hu => ?_) ?_
      · exact absurd ((le_mul_pgSize u).mpr hge) (Nat.not_le.mpr (Nat.lt_of_mul_lt_mul_right hu))
      · rw [vmDealloc, vmDealloc, vm_pgRoundUp, InuOs.pgRoundUp]
    refine ⟨hremoved, (if_neg hlt).symm, ?_⟩
    rintro sz rfl
    refine ⟨⟨newsz, by omega⟩, rfl, ?_⟩
    have hvm := hremoved.vm
    rw [vmDealloc] at hvm
    rw [InuOs.deallocuvm, dif_neg hlt, hvm]
    rfl

/-- A frame that no user page has stays one. -/
theorem Shrunk.frame {r : ℕ × Kernel} (h : Shrunk c k pgdir oldsz newsz r)
    (holdsz : oldsz ≤ kernBase)
    (hp : Frame c k pgdir p) (hun : Unmapped k pgdir p) :
    Frame c r.2 pgdir p ∧ Unmapped r.2 pgdir p := by
  obtain ⟨l, hl, hmem⟩ := h.freed
  refine ⟨⟨hp.toOutside.of_dir h.dir ?_, hp.managed⟩, fun v hv fl hq => ?_⟩
  · rw [hl, List.mem_append, not_or]
    refine ⟨fun hpl => ?_, hp.notFree⟩
    obtain ⟨u, fl, -, hlt, hq⟩ := (hmem p).mp hpl
    rw [kernBase_eq] at holdsz
    exact hun u (Nat.lt_of_mul_lt_mul_right (hlt.trans_le holdsz)) fl hq
  · rw [h.map v] at hq
    split at hq
    · cases hq
    · exact hun v hv fl hq

/-! ## `allocuvm` -/

theorem page_range (hv : v < userPages) : v * pgSize + pgSize ≤ 2 ^ 32 ∧ v * pgSize / pgSize = v ∧
    (v * pgSize + pgSize - 1) / pgSize - v = 0 := by
  rw [userPages_eq] at hv
  unfold pgSize
  omega

theorem Frame.mul_lt (h : Frame c k pgdir p) : p * pgSize < 2 ^ 32 := by
  refine (Nat.mul_lt_mul_of_pos_right h.managed.2 (by decide)).trans_le ?_
  refine (Nat.div_mul_le_self ..).trans ?_
  unfold phyStop
  decide

/-- With a free page for every table `mappages` does not fail. -/
theorem mappages_eq_zero {k' : Kernel} {va size pa perm : ℕ} {r : ℤ} (hs : Sep k pgdir)
    (hsize : 0 < size) (hend : va + size ≤ 2 ^ 32) (hpa : pa < 2 ^ 32)
    (hfree : 1024 < k.free.length)
    (hok : mappages k pgdir va size pa perm = .ok (r, k')) : r = 0 := by
  have hmapped := (mappages_spec perm hs hsize hend hpa).of_ok hok
  rcases hmapped.map with ⟨hret, -⟩ | ⟨-, hnil, -⟩
  · exact hret
  · have hcount : k.free.length + tables k pgdir = k'.free.length + tables k' pgdir :=
      hmapped.grown.count
    have htables := tables_le k' pgdir
    rw [show k'.free = [] from hnil, List.length_nil] at hcount
    omega

/-- **One page is mapped on a frame.** If it is not mapped yet, `mappages` returns; if it fails, for
want of a page for a table, the map is as before. -/
theorem Space.mappages_one (h : Space c k pgdir) (hp : Frame c k pgdir p)
    (hun : Unmapped k pgdir p) (hv : v < userPages) {perm : ℕ} (hperm : perm < pgSize) :
    Meets (mappages k pgdir (v * pgSize) pgSize (p * pgSize) perm)
      (fun _ => (pageMap k pgdir v).isSome)
      fun r => Space c r.2 pgdir ∧ Grown k r.2 pgdir ∧
        (perm = flags true true → InuOs.mapLoop k.free (dirOf k pgdir) p true true [v] =
          pure (r.2.free, dirOf r.2 pgdir, decide (r.1 = 0))) ∧
        (r.1 = 0 ∧ pageMap r.2 pgdir = Function.update (pageMap k pgdir) v
          (some (p, perm ||| pteP)) ∨ r.1 = -1 ∧ pageMap r.2 pgdir = pageMap k pgdir) := by
  have hpa := hp.mul_lt
  obtain ⟨hend, hfirst, hlast⟩ := page_range hv
  have hspec := mappages_spec perm h.toSep (by decide) hend hpa
  rw [hfirst, hlast] at hspec
  refine (hspec.mono_error ?_).mono fun r hr => ?_
  · rintro e ⟨-, i, hi, hsome⟩
    obtain rfl : i = 0 := Nat.le_zero.mp hi
    exact hsome
  · have hvm := fun heq => hr.vm true true heq (Nat.mul_mod_left p pgSize)
      (by rw [Nat.zero_mul, Nat.add_zero]; exact hpa)
    rw [Nat.mul_div_cancel p (by decide)] at hvm
    rcases hr.map with ⟨hret, hmap⟩ | ⟨hret, -, m, hm, hmap⟩
    · rw [← mapRange_succ, mapRange_zero, decode_entry (Nat.mul_mod_left p pgSize) hperm,
        Nat.zero_mul, Nat.add_zero, Nat.mod_eq_of_lt hpa, Nat.mul_div_cancel _ (by decide)] at hmap
      exact ⟨h.map_frame hr.sep hr.grown hp hun hmap, hr.grown, hvm, .inl ⟨hret, hmap⟩⟩
    · obtain rfl : m = 0 := Nat.le_zero.mp hm
      rw [mapRange_zero] at hmap
      exact ⟨h.grown hr.sep hr.grown fun u _ => congrFun hmap u, hr.grown, hvm, .inr ⟨hret, hmap⟩⟩

/-- From `k` to `k'` the pages outside stay outside and keep their bytes. -/
structure Extends (k k' : Kernel) (pgdir : Page) : Prop where
  outside : ∀ q, Outside k pgdir q → Outside k' pgdir q
  keeps : ∀ q, Outside k pgdir q → k'.mem q = k.mem q

namespace Extends

theorem refl (k : Kernel) (pgdir : Page) : Extends k k pgdir := ⟨fun _ hq => hq, fun _ _ => rfl⟩

theorem trans {k'' : Kernel} (h : Extends k k' pgdir) (h' : Extends k' k'' pgdir) :
    Extends k k'' pgdir where
  outside q hq := h'.outside q (h.outside q hq)
  keeps q hq := (h'.keeps q (h.outside q hq)).trans (h.keeps q hq)

theorem of_grown (h : Grown k k' pgdir) : Extends k k' pgdir := ⟨fun _ hq => h.keeps hq, h.outside⟩

/-- `kalloc` and `memset`. -/
theorem kalloc (h : Space c k pgdir) (hk : k.kalloc = some (p, k')) :
    Extends k (k'.clear p) pgdir := by
  obtain ⟨free, hfree, rfl⟩ := Kernel.exists_of_kalloc_eq_some hk
  have hne (q : Page) (hq : Outside k pgdir q) : q ≠ p := by
    rintro rfl
    exact hq.notFree (hfree ▸ List.mem_cons_self)
  have hdir : pgdir ≠ p := by
    rintro rfl
    exact h.dir_notFree (hfree ▸ List.mem_cons_self)
  refine ⟨fun q hq => hq.of_dir (clear_mem_of_ne hdir) fun hmem => ?_,
    fun q hq => clear_mem_of_ne (hne q hq)⟩
  exact hq.notFree (hfree ▸ List.mem_cons_of_mem p hmem)

end Extends

/-- The loop of `allocuvm` in `InuOs.Vm`. -/
abbrev vmAlloc (c : Platform) (k : Kernel) (pgdir : Page) (v newsz : ℕ) :
    Except Panic (List Page × PageDir × Bool × Option Page) :=
  InuOs.allocLoop c k.free (dirOf k pgdir) v (InuOs.pgRoundUp newsz - v)

theorem vmAlloc_succ (hv : v * pgSize < newsz) :
    InuOs.pgRoundUp newsz - v = InuOs.pgRoundUp newsz - (v + 1) + 1 := by
  have := lt_vm_pgRoundUp hv
  omega

/-- What the loop of `allocuvm` leaves behind, from page `v` on: each page of the range is as before
or new and zero, and they are all new if the loop got to its end. -/
structure Grew (c : Platform) (k : Kernel) (pgdir : Page) (v newsz : ℕ)
    (r : Kernel × Bool × Option Page) : Prop where
  space : Space c r.1 pgdir
  ext : Extends k r.1 pgdir
  map : ∀ u, pageMap r.1 pgdir u = pageMap k pgdir u ∨ v ≤ u ∧ u * pgSize < newsz ∧
    ∃ p fl, pageMap r.1 pgdir u = some (p, fl) ∧ r.1.mem p = fun _ => 0
  full : r.2.1 = true → ∀ u, v ≤ u → u * pgSize < newsz → (pageMap r.1 pgdir u).isSome
  spare : ∀ p, r.2.2 = some p → Frame c r.1 pgdir p ∧ Unmapped r.1 pgdir p
  vm : vmAlloc c k pgdir v newsz = pure (r.1.free, dirOf r.1 pgdir, r.2)

/-- The loop stops without a further page. -/
theorem Grew.refl (h : Space c k pgdir) {ok : Bool}
    (hfull : ok = true → ∀ u, v ≤ u → ¬ u * pgSize < newsz)
    (hvm : vmAlloc c k pgdir v newsz = pure (k.free, dirOf k pgdir, ok, none)) :
    Grew c k pgdir v newsz (k, ok, none) where
  space := h
  ext := .refl k pgdir
  map _ := .inl rfl
  full hok u hle hlt := absurd hlt (hfull hok u hle)
  spare := nofun
  vm := hvm

/-- Page `v` is mapped on a cleared page, and then the rest. -/
theorem Grew.cons {k₁ : Kernel} {fl : ℕ} {r : Kernel × Bool × Option Page}
    (h : Grew c k₁ pgdir (v + 1) newsz r) (hext : Extends k k₁ pgdir) (hv : v * pgSize < newsz)
    (hmap : pageMap k₁ pgdir = Function.update (pageMap k pgdir) v (some (p, fl)))
    (hp : Outside k₁ pgdir p) (hzero : k₁.mem p = fun _ => 0)
    (hvm : vmAlloc c k pgdir v newsz = vmAlloc c k₁ pgdir (v + 1) newsz) :
    Grew c k pgdir v newsz r := by
  have hself : pageMap r.1 pgdir v = some (p, fl) := by
    rcases h.map v with hsame | ⟨hle, -⟩
    · rw [hsame, hmap, Function.update_self]
    · omega
  refine ⟨h.space, hext.trans h.ext, fun u => ?_, fun hok u hle hlt => ?_, h.spare,
    hvm.trans h.vm⟩
  · rcases eq_or_ne u v with heq | hne
    · rw [heq]
      exact .inr ⟨le_rfl, hv, p, fl, hself, (h.ext.keeps p hp).trans hzero⟩
    · rcases h.map u with hsame | ⟨hle, hlt, hnew⟩
      · rw [hsame, hmap, Function.update_of_ne hne]
        exact .inl rfl
      · exact .inr ⟨by omega, hlt, hnew⟩
  · rcases eq_or_ne u v with heq | hne
    · rw [heq, hself]
      rfl
    · exact h.full hok u (by omega) hlt

/-- **The loop of `allocuvm`** stops at a page of the range that is mapped already, and only
there. -/
theorem allocLoop_grows {fuel : ℕ} (h : Space c k pgdir) (hnewsz : newsz < kernBase)
    (hv : v ≤ userPages) (hfuel : userPages - v < fuel) :
    Meets (allocLoop pgdir newsz fuel (v * pgSize) k)
      (fun _ => ∃ u, v ≤ u ∧ u < userPages ∧ (pageMap k pgdir u).isSome)
      (Grew c k pgdir v newsz) := by
  induction fuel generalizing v k with
  | zero => exact absurd hfuel (Nat.not_lt_zero _)
  | succ fuel ih =>
    rw [allocLoop]
    split
    · next ha =>
      have hlt : v < userPages := by
        rw [kernBase_eq] at hnewsz
        exact Nat.lt_of_mul_lt_mul_right (ha.trans hnewsz)
      cases hk : k.kalloc with
      | none =>
        refine Meets.pure (.refl h (by simp) ?_)
        rw [vmAlloc, vmAlloc_succ ha, InuOs.allocLoop, Option.map_eq_none_iff.mp hk]
      | some r =>
        obtain ⟨mem, k₁⟩ := r
        obtain ⟨hspace, hframe, hun, hmap₁, hdir₁⟩ := h.kalloc hk
        obtain ⟨free, hfree, rfl⟩ := Kernel.exists_of_kalloc_eq_some hk
        have hext := Extends.kalloc h hk
        refine ((hspace.mappages_one hframe hun hlt (by decide)).mono_error fun e he =>
          ⟨v, le_rfl, hlt, hmap₁ ▸ he⟩).bind ?_
        rintro ⟨r, k₂⟩ ⟨hspace₂, hgrown₂, hvm, hret⟩
        dsimp only at hspace₂ hgrown₂ hvm hret ⊢
        rw [hdir₁] at hvm
        have hvm : InuOs.mapLoop free (dirOf k pgdir) mem true true [v] =
            pure (k₂.free, dirOf k₂ pgdir, decide (r = 0)) := hvm rfl
        have hturn : vmAlloc c k pgdir v newsz = if r = 0 then vmAlloc c k₂ pgdir (v + 1) newsz
            else pure (k₂.free, dirOf k₂ pgdir, false, some mem) := by
          rw [vmAlloc, vmAlloc_succ ha, InuOs.allocLoop, hfree]
          simp only [InuOs.kalloc, hvm, pure_bind, decide_eq_true_eq]
        have hext₂ := Extends.of_grown hgrown₂
        rcases hret with ⟨rfl, hmap₂⟩ | ⟨rfl, hmap₂⟩
        · rw [if_neg (by decide), add_pgSize hlt]
          rw [hmap₁] at hmap₂
          refine ((ih hspace₂ hlt (by omega)).mono_error ?_).mono fun r' hr' =>
            hr'.cons (hext.trans hext₂) ha hmap₂ (hext₂.outside mem hframe.toOutside) ?_ hturn
          · rintro e ⟨u, hle, hu, hsome⟩
            rw [hmap₂, Function.update_of_ne (by omega)] at hsome
            exact ⟨u, by omega, hu, hsome⟩
          · exact (hext₂.keeps mem hframe.toOutside).trans clear_mem_self
        · refine Meets.pure ⟨hspace₂, hext.trans hext₂, fun u => .inl ?_, by simp, ?_, hturn⟩
          · rw [hmap₂, hmap₁]
          · rintro _ ⟨⟩
            refine ⟨hframe.grown hgrown₂, fun u hu fl => ?_⟩
            rw [hmap₂]
            exact hun u hu fl
    · next ha =>
      refine Meets.pure (.refl h (fun _ u hle hlt => ha ?_) ?_)
      · exact (Nat.mul_le_mul_right pgSize hle).trans_lt hlt
      · have hzero : InuOs.pgRoundUp newsz - v = 0 :=
          Nat.sub_eq_zero_of_le ((le_mul_pgSize v).mpr (Nat.le_of_not_lt ha))
        rw [vmAlloc, hzero]
        rfl

/-- **`allocuvm`** returns the new size and all pages of the range are new, or it returns the old
size, which is larger, or it returns 0 and none of the range is mapped. -/
theorem allocuvm_grows (h : Space c k pgdir) (oldsz newsz : ℕ) :
    Meets (allocuvm c k pgdir oldsz newsz)
      (fun _ => ∃ u, oldsz ≤ u * pgSize ∧ u < userPages ∧ (pageMap k pgdir u).isSome) fun r =>
      Space c r.2 pgdir ∧ (r.1 = newsz ∧ newsz < kernBase ∧
          (∃ mem, Grew c k pgdir ((oldsz + (pgSize - 1)) / pgSize) newsz (r.2, true, mem)) ∨
        r.1 = oldsz ∧ newsz < oldsz ∨
        r.1 = 0 ∧ ∀ u, pageMap r.2 pgdir u = pageMap k pgdir u ∨
          oldsz ≤ u * pgSize ∧ pageMap r.2 pgdir u = none) ∧
      ∀ sz : UserSize, sz.1 = oldsz →
        VmReturns pgdir (InuOs.allocuvm c k.free (dirOf k pgdir) sz newsz) r := by
  unfold allocuvm
  split
  · next hnew =>
    refine Meets.pure ⟨h, .inr (.inr ⟨rfl, fun _ => .inl rfl⟩), fun sz _ => ?_⟩
    exact ⟨0, rfl, dif_pos hnew⟩
  · next hnew =>
    have hnewsz : newsz < kernBase := Nat.lt_of_not_le hnew
    split
    · next hlt =>
      refine Meets.pure ⟨h, .inr (.inl ⟨rfl, hlt⟩), ?_⟩
      rintro sz rfl
      exact ⟨sz, rfl, (dif_neg hnew).trans (if_pos hlt)⟩
    next hge =>
    have hpage : (oldsz + (pgSize - 1)) / pgSize ≤ userPages := by
      rw [le_mul_pgSize, ← kernBase_eq]
      omega
    have huser : userPages < nPages := userPages_lt
    rw [pgRoundUp_eq (by omega)]
    refine ((allocLoop_grows h hnewsz hpage ((Nat.sub_le ..).trans_lt (by omega))).mono_error
      fun e ⟨u, hu, hlt⟩ => ⟨u, (le_mul_pgSize u).mp hu, hlt⟩).bind ?_
    rintro ⟨k₁, ok, mem⟩ hgrew
    have hvm := hgrew.vm
    rw [vmAlloc] at hvm
    cases ok with
    | true =>
      refine Meets.pure ⟨hgrew.space, .inl ⟨rfl, hnewsz, mem, hgrew⟩, ?_⟩
      rintro sz rfl
      refine ⟨⟨newsz, by omega⟩, rfl, ?_⟩
      rw [InuOs.allocuvm, dif_neg hnew, if_neg hge, InuOs.pgRoundUp, hvm]
      rfl
    | false =>
      refine ((deallocuvm_spec hgrew.space hnewsz.le oldsz).mono_error fun _ => False.elim).bind
        fun r hr => ?_
      -- the pages that were added are removed again
      have hback (u : ℕ) : pageMap r.2 pgdir u = pageMap k pgdir u ∨
          oldsz ≤ u * pgSize ∧ pageMap r.2 pgdir u = none := by
        rw [hr.map u]
        split
        · next hrange => exact .inr ⟨hrange.1, rfl⟩
        · next hrange =>
          rcases hgrew.map u with hsame | ⟨hle, hlt, -⟩
          · exact .inl hsame
          · exact absurd ⟨(le_mul_pgSize u).mp hle, hlt⟩ hrange
      have hvm' (sz : UserSize) (hsz : sz.1 = oldsz) :
          InuOs.allocuvm c k.free (dirOf k pgdir) sz newsz =
            mem.elim (pure (r.2.free, dirOf r.2 pgdir, 0)) fun mem =>
              InuOs.kfree c r.2.free mem >>= fun free => pure (free, dirOf r.2 pgdir, 0) := by
        subst hsz
        obtain ⟨sz', -, hdealloc⟩ := hr.vm_returns ⟨newsz, by omega⟩ rfl
        rw [InuOs.allocuvm, dif_neg hnew, if_neg hge, InuOs.pgRoundUp, hvm, pure_bind]
        simp only [Bool.false_eq_true, if_false, hdealloc, pure_bind]
        cases mem <;> rfl
      cases mem with
      | none =>
        refine Meets.pure ⟨hr.space, .inr (.inr ⟨rfl, hback⟩), fun sz hsz => ?_⟩
        exact ⟨0, rfl, hvm' sz hsz⟩
      | some p =>
        obtain ⟨hframe, hun⟩ := hgrew.spare p rfl
        obtain ⟨hframe, hun⟩ := hr.frame hnewsz.le hframe hun
        obtain ⟨k₂, hk₂, hspace₂, hfree₂, -, hmap₂, hdir₂⟩ := hr.space.kfree hframe hun
        dsimp only
        rw [hk₂]
        refine Meets.pure ⟨hspace₂, .inr (.inr ⟨rfl, fun u => ?_⟩), fun sz hsz => ⟨0, rfl, ?_⟩⟩
        · rw [hmap₂]
          exact hback u
        · rw [hvm' sz hsz, hfree₂, hdir₂, Option.elim_some, InuOs.kfree, if_pos hframe.managed]
          rfl

/-! ## `clearpteu` -/

theorem clearU_eq (w : ℕ) : clearU w = w - w / 4 % 2 * 4 := by
  have hand : w &&& 2 ^ 2 = (w.testBit 2).toNat * 2 ^ 2 := Nat.and_two_pow w 2
  rw [clearU, pteU, show 4 = 2 ^ 2 by decide, hand, Nat.toNat_testBit]

/-- An entry without `PTE_U` is for the same frame. -/
theorem decode_clearU {w fl : ℕ} (h : decode (clearU w) = some (p, fl)) :
    ∃ fl', decode w = some (p, fl') := by
  have hparity : clearU w % 2 = w % 2 := by
    rw [clearU_eq]
    omega
  have hframe : clearU w / pgSize = w / pgSize := by
    rw [clearU_eq]
    unfold pgSize
    omega
  unfold decode at h
  split at h
  · next hp =>
    cases h
    rw [present_iff, hparity, ← present_iff] at hp
    exact ⟨_, by rw [decode, if_pos hp, hframe]⟩
  · cases h

/-- `clearpteu` keeps the invariant. -/
theorem clearpteu_spec (h : Space c k pgdir) {uva : ℕ} (huva : uva < 2 ^ 32) :
    Meets (clearpteu k pgdir uva) (fun _ => True) fun k' => Space c k' pgdir := by
  have hlt : uva / pgSize < nPages := by
    rw [nPages_eq]
    unfold pgSize
    omega
  unfold clearpteu
  rw [walkpgdir_div, walkpgdir_lookup hlt]
  by_cases hp : Present (k.mem pgdir (uva / pgSize / 1024))
  · rw [if_pos hp]
    refine Meets.pure (h.store hlt hp _ fun p fl hp' => ?_)
    rw [pageMap_of_present hlt hp]
    exact decode_clearU hp'
  · rw [if_neg hp]
    exact Meets.throw True.intro

/-! ## `setupkvm` -/

/-- A page of an entry of `kmap`. -/
def Kmap.Covers (m : Kmap) (u : ℕ) : Prop :=
  m.virt / pgSize ≤ u ∧ u ≤ (m.virt + m.size - 1) / pgSize

/-- What the loop of `setupkvm` leaves behind. -/
structure KernelMapped (k : Kernel) (pgdir : Page) (ms : List Kmap) (r : ℤ × Kernel) : Prop where
  sep : Sep r.2 pgdir
  grown : Grown k r.2 pgdir
  frame : ∀ u, (∀ m ∈ ms, ¬ Kmap.Covers m u) → pageMap r.2 pgdir u = pageMap k pgdir u
  ret : (r.1 = 0 ∧ ∀ m ∈ ms, ∀ u, Kmap.Covers m u → pageMap r.2 pgdir u =
      decode (entry m.physStart (if m.writable then pteW else 0) (u - m.virt / pgSize))) ∨
    (r.1 = -1 ∧ r.2.free = [])
  vm : (∀ m ∈ ms, m.physStart % pgSize = 0 ∧ m.physStart +
      ((m.virt + m.size - 1) / pgSize - m.virt / pgSize) * pgSize < 2 ^ 32) →
    InuOs.kmapLoop k.free (dirOf k pgdir) ms = .ok (r.2.free, dirOf r.2 pgdir, decide (r.1 = 0))

/-- The entries are for pages that are not mapped, and no two for the same page. -/
theorem kmapLoop_spec {ms : List Kmap} (hs : Sep k pgdir)
    (hms : ∀ m ∈ ms, 0 < m.size ∧ m.virt + m.size ≤ 2 ^ 32 ∧ m.physStart < 2 ^ 32)
    (hapart : ms.Pairwise fun m m' => ∀ u, Kmap.Covers m u → ¬ Kmap.Covers m' u)
    (hnone : ∀ m ∈ ms, ∀ u, Kmap.Covers m u → pageMap k pgdir u = none) :
    Meets (kmapLoop pgdir ms k) (fun _ => False) (KernelMapped k pgdir ms) := by
  induction ms generalizing k with
  | nil => exact Meets.pure ⟨hs, .refl k pgdir, fun _ _ => rfl, .inl ⟨rfl, nofun⟩, fun _ => rfl⟩
  | cons m ms ih =>
    obtain ⟨⟨hsize, hend, hphys⟩, hms⟩ := List.forall_mem_cons.mp hms
    obtain ⟨hm, hapart⟩ := List.pairwise_cons.mp hapart
    obtain ⟨hnonem, hnone⟩ := List.forall_mem_cons.mp hnone
    have hle : m.virt / pgSize ≤ (m.virt + m.size - 1) / pgSize := Nat.div_le_div_right (by omega)
    refine ((mappages_spec _ hs hsize hend hphys).mono_error ?_).bind ?_
    · rintro e ⟨-, i, hi, hsome⟩
      rw [hnonem _ ⟨by omega, by omega⟩] at hsome
      cases hsome
    rintro ⟨r, k₁⟩ hr
    have hframe (u : ℕ) (hu : ¬ Kmap.Covers m u) : pageMap k₁ pgdir u = pageMap k pgdir u := by
      rcases hr.map with ⟨-, hmap⟩ | ⟨-, -, i, hi, hmap⟩ <;>
      · rw [hmap, mapRange, if_neg]
        exact fun hc => hu ⟨hc.1, by omega⟩
    have hperm : (if m.writable then pteW else 0) = flags m.writable false := (Nat.or_zero _).symm
    have hvm := hr.vm m.writable false hperm
    rw [← (spanned_eq hsize hend).1] at hvm
    rcases hr.map with ⟨hret, hmap⟩ | ⟨hret, hfree, -⟩
    · dsimp only at hret hmap hvm ⊢
      rw [hret, if_neg (by decide)]
      refine (ih hr.sep hms hapart fun m' hm' u hu => ?_).mono fun r' hr' => ?_
      · rw [hframe u fun hc => hm m' hm' u hc hu]
        exact hnone m' hm' u hu
      refine ⟨hr'.sep, hr.grown.trans hr'.grown, fun u hu => ?_, ?_, fun hin => ?_⟩
      · obtain ⟨hum, hu⟩ := List.forall_mem_cons.mp hu
        rw [hr'.frame u hu, hframe u hum]
      · rcases hr'.ret with ⟨hret', hmap'⟩ | hfail
        · refine .inl ⟨hret', List.forall_mem_cons.mpr ⟨fun u hu => ?_, hmap'⟩⟩
          rw [hr'.frame u fun m' hm' => hm m' hm' u hu, hmap, mapRange,
            if_pos ⟨hu.1, by have := hu.2; omega⟩]
        · exact .inr hfail
      · obtain ⟨hin, hin'⟩ := List.forall_mem_cons.mp hin
        rw [InuOs.kmapLoop, InuOs.mappages, hvm hin.1 hin.2, hret]
        exact hr'.vm hin'
    · dsimp only at hret hfree hvm ⊢
      rw [hret, if_pos (by decide)]
      refine Meets.pure ⟨hr.sep, hr.grown, fun u hu => hframe u (hu m List.mem_cons_self),
        .inr ⟨rfl, hfree⟩, fun hin => ?_⟩
      obtain ⟨hphys, htop⟩ := hin m List.mem_cons_self
      rw [InuOs.kmapLoop, InuOs.mappages, hvm hphys htop, hret]
      rfl

/-- A free list as `freerange` makes it. -/
structure FreeList (c : Platform) (free : List Page) : Prop where
  nodup : free.Nodup
  managed : ∀ p ∈ free, c.Managed p

section Setup

variable {free : List Page}

/-- A cleared page is a directory without tables. -/
theorem clear_not_present (k : Kernel) (p : Page) (i : ℕ) : ¬ Present ((k.clear p).mem p i) := by
  rw [clear_mem_self]
  exact not_present_zero

theorem pageMap_clear (k : Kernel) (p : Page) (u : ℕ) : pageMap (k.clear p) p u = none :=
  pageMap_of_not_present (clear_not_present k p _)

theorem dirOf_clear (k : Kernel) (p : Page) : dirOf (k.clear p) p = ⟨p, fun _ => none⟩ := by
  refine congrArg (PageDir.mk p) (funext fun i => ?_)
  rw [tableAt, if_neg fun h => clear_not_present k p i h.2]
  rfl

/-- A page directory without tables. -/
theorem space_clear (hk : k.free = free) (hfree : FreeList c (p :: free)) :
    Space c (k.clear p) p := by
  obtain ⟨hnotin, hnodup⟩ := List.nodup_cons.mp hfree.nodup
  refine ⟨⟨?_, ?_, ?_, ?_, hk ▸ hnodup⟩, ?_, ?_, ?_⟩
  · exact fun i _ j _ hi => absurd hi (clear_not_present k p i)
  · exact fun i _ hi => absurd hi (clear_not_present k p i)
  · exact hk ▸ hnotin
  · exact fun i _ hi => absurd hi (clear_not_present k p i)
  · exact fun q hq => hfree.managed q (List.mem_cons_of_mem p (hk ▸ hq))
  · intro v _ q fl hq
    rw [pageMap_clear] at hq
    cases hq
  · intro v _ w _ q fl fl' hq
    rw [pageMap_clear] at hq
    cases hq

/-- Where a region of `kmap` lies, for a frame buffer below 4 GB and in whole pages. -/
structure Kmap.Place (c : Platform) (m : Kmap) : Prop where
  phys : c.pvramAddr < 2 ^ 32 → m.physStart < 2 ^ 32
  aligned : c.pvramAddr % pgSize = 0 → m.physStart % pgSize = 0
  virt : c.vramSize % pgSize = 0 → m.virt % pgSize = 0
  fits : c.pvramAddr + c.vramSize ≤ 2 ^ 32 →
    m.physStart + ((m.virt + m.size - 1) / pgSize - m.virt / pgSize) * pgSize < 2 ^ 32

theorem kmap_place {m : Kmap} (hm : m ∈ c.kmap) : Kmap.Place c m := by
  have hdata := c.data_aligned
  have hgt := c.data_gt
  have hlt := c.data_lt
  have hpos := c.vramSize_pos
  have hle := c.vramSize_le
  simp only [Platform.kmap, List.mem_cons, List.not_mem_nil, or_false] at hm
  unfold kernLink kernBase extMem pciBarBase pciVpOffset devSpace phyStop pgSize at *
  constructor <;> intro h <;> rcases hm with rfl | rfl | rfl | rfl | rfl | rfl <;>
    dsimp only [Kmap.size, pgSize] at * <;> omega

/-- The entries of `kmap` are as the loop of `setupkvm` needs them. -/
theorem kmapLoop_kmap (hk : k.free = free) (hfree : FreeList c (p :: free))
    (hvram : c.pvramAddr < 2 ^ 32) :
    Meets (kmapLoop p c.kmap (k.clear p)) (fun _ => False) (KernelMapped (k.clear p) p c.kmap) := by
  refine kmapLoop_spec (space_clear hk hfree).toSep (fun m hm => ?_) ?_ fun m hm u hu =>
    pageMap_clear k p u
  · obtain ⟨-, hsize, hend⟩ := c.kmap_spec hm
    exact ⟨hsize, hend, (kmap_place hm).phys hvram⟩
  · refine c.kmap_apart.imp fun {m m'} hapart u hu hu' => ?_
    unfold Kmap.Covers at hu hu'
    omega

/-- What `setupkvm` returns. -/
structure Setup (c : Platform) (k : Kernel) (pgdir : Page) : Prop where
  space : Space c k pgdir
  user : ∀ u < userPages, pageMap k pgdir u = none
  kernel : ∀ m ∈ c.kmap, ∀ u, Kmap.Covers m u → pageMap k pgdir u =
    decode (entry m.physStart (if m.writable then pteW else 0) (u - m.virt / pgSize))

/-- `P2V(PHYSTOP)` lies below `DEVSPACE`. -/
theorem not_phystopTooHigh : ¬ devSpace < kernBase + phyStop := by
  unfold devSpace kernBase phyStop
  omega

/-- No entry of `kmap` is for a user page. -/
theorem not_covers_user {m : Kmap} {u : ℕ} (hm : m ∈ c.kmap) (hu : u < userPages) :
    ¬ Kmap.Covers m u := by
  intro hc
  have hvirt := (c.kmap_spec hm).1
  have hle := (Nat.le_div_iff_mul_le (by decide)).mpr (kernBase_eq ▸ hvirt)
  exact absurd (hle.trans hc.1) (Nat.not_le.mpr hu)

theorem KernelMapped.setup {r : ℤ × Kernel} (h : KernelMapped k pgdir c.kmap r)
    (hspace : Space c k pgdir) (hnone : ∀ u, pageMap k pgdir u = none) (hret : ¬ r.1 < 0) :
    Setup c r.2 pgdir := by
  rcases h.ret with ⟨-, hmap⟩ | ⟨hfail, -⟩
  · have huser (u : ℕ) (hu : u < userPages) : pageMap r.2 pgdir u = pageMap k pgdir u :=
      h.frame u fun m hm => not_covers_user hm hu
    exact ⟨hspace.grown h.sep h.grown huser, fun u hu => (huser u hu).trans (hnone u), hmap⟩
  · rw [hfail] at hret
    exact absurd (by decide) hret

theorem freeTables_returns (is : List ℕ)
    (htables : ∀ i ∈ is, Present (k.mem pgdir i) →
      c.Managed (k.mem pgdir i / pgSize) ∧ k.mem pgdir i / pgSize ≠ pgdir) :
    Meets (freeTables c pgdir is k) (fun _ => False) fun _ => True := by
  induction is generalizing k with
  | nil => exact Meets.pure True.intro
  | cons i is ih =>
    obtain ⟨hi, hrest⟩ := List.forall_mem_cons.mp htables
    rw [freeTables, pteAddr_div]
    split
    · next hp =>
      obtain ⟨k', hk', -, hmem⟩ := kfree_of_managed (hi hp).1
      rw [hk']
      refine ih fun j hj => ?_
      rw [hmem pgdir (hi hp).2.symm]
      exact hrest j hj
    · exact ih hrest

/-- `freevm` returns. -/
theorem freevm_returns (h : Space c k pgdir) (hdir : c.Managed pgdir)
    (htables : ∀ i < 1024, Present (k.mem pgdir i) → c.Managed (k.mem pgdir i / pgSize)) :
    Meets (freevm c k pgdir) (fun _ => False) fun _ => True := by
  refine (deallocuvm_spec h le_rfl 0).bind fun r hr => ?_
  refine (freeTables_returns _ fun i hi hp => ?_).bind fun k' _ => ?_
  · rw [hr.dir] at hp ⊢
    have hi := List.mem_range.mp hi
    exact ⟨htables i hi hp, h.ne i hi hp⟩
  · obtain ⟨k'', hk'', -⟩ := kfree_of_managed (k := k') hdir
    rw [hk'']
    exact Meets.pure True.intro

/-- **`setupkvm`** returns, and the directory it returns maps nothing below `KERNBASE`, and above it
what `kmap` says. -/
theorem setupkvm_spec (hfree : FreeList c k.free) (hvram : c.pvramAddr < 2 ^ 32) :
    Meets (setupkvm c k) (fun _ => False) fun r =>
      ∀ pgdir, r.1 = some pgdir → Setup c r.2 pgdir := by
  unfold setupkvm Kernel.kalloc
  cases hk : k.free with
  | nil => exact Meets.pure nofun
  | cons p free =>
    rw [hk] at hfree
    dsimp only [InuOs.kalloc, Option.map_some]
    rw [if_neg not_phystopTooHigh]
    refine (kmapLoop_kmap rfl hfree hvram).bind ?_
    rintro ⟨r, k₁⟩ hr
    have hclear := space_clear (k := { k with free := free }) rfl hfree
    split
    · -- the tables made so far were on the free list
      have hspace : Space c k₁ p := hclear.grown hr.sep hr.grown fun u hu =>
        hr.frame u fun m hm => not_covers_user hm hu
      refine (freevm_returns hspace (hfree.managed p List.mem_cons_self) fun i hi hp => ?_).bind
        fun _ _ => Meets.pure nofun
      rcases hr.grown.table i hi hp with hold | hnew
      · exact absurd hold (clear_not_present _ p i)
      · exact hfree.managed _ (List.mem_cons_of_mem p hnew)
    · next hret =>
      refine Meets.pure ?_
      rintro pgdir ⟨⟩
      exact hr.setup hclear (pageMap_clear _ p) hret

/-- `setupkvm` succeeds if there are pages enough for the directory and all tables. -/
theorem setupkvm_total (hfree : FreeList c k.free) (hvram : c.pvramAddr < 2 ^ 32)
    (hlen : 1025 < k.free.length) :
    ∃ pgdir k', setupkvm c k = .ok (some pgdir, k') ∧ Setup c k' pgdir ∧
      k.free.length ≤ k'.free.length + 1025 := by
  unfold setupkvm Kernel.kalloc
  cases hk : k.free with
  | nil => simp [hk] at hlen
  | cons p free =>
    rw [hk] at hfree hlen
    obtain ⟨⟨r, k₁⟩, hloop, hr⟩ :=
      (kmapLoop_kmap (k := { k with free := free }) rfl hfree hvram).exists_ok fun _ => id
    have hcount : free.length + tables _ p = k₁.free.length + tables k₁ p := hr.grown.count
    have htables := tables_le k₁ p
    rw [List.length_cons] at hlen
    have hret : ¬ r < 0 := by
      rcases hr.ret with ⟨hret, -⟩ | ⟨-, hnil⟩
      · omega
      · -- every page of the free list would have become a table
        rw [show k₁.free = [] from hnil, List.length_nil] at hcount
        omega
    refine ⟨p, k₁, ?_, hr.setup (space_clear rfl hfree) (pageMap_clear _ p) hret, by
      rw [List.length_cons]; omega⟩
    dsimp only [InuOs.kalloc, Option.map_some]
    rw [if_neg not_phystopTooHigh, hloop]
    exact if_neg hret

end Setup

/-! ## Every directory -/

/-- How the kernel makes and changes a page directory. -/
inductive Built (c : Platform) (pgdir : Page) : Kernel → Prop where
  /-- `setupkvm`, with any free list -/
  | setupkvm {k k' : Kernel} : FreeList c k.free → c.pvramAddr < 2 ^ 32 →
      Paging.setupkvm c k = .ok (some pgdir, k') → Built c pgdir k'
  /-- `mappages` for a user page on a page from `kalloc`, as in `inituvm` and `copyuvm` -/
  | mapUser {k k₁ k' : Kernel} {mem : Page} {v perm : ℕ} {r : ℤ} : Built c pgdir k → v < userPages →
      perm < pgSize → k.kalloc = some (mem, k₁) →
      mappages (k₁.clear mem) pgdir (v * pgSize) pgSize (mem * pgSize) perm = .ok (r, k') →
      Built c pgdir k'
  /-- `mappages` above `KERNBASE` -/
  | mapKernel {k k' : Kernel} {va size pa perm : ℕ} {r : ℤ} : Built c pgdir k → kernBase ≤ va →
      0 < size → va + size ≤ 2 ^ 32 → pa < 2 ^ 32 → mappages k pgdir va size pa perm = .ok (r, k') →
      Built c pgdir k'
  | allocuvm {k k' : Kernel} {oldsz newsz sz : ℕ} : Built c pgdir k →
      Paging.allocuvm c k pgdir oldsz newsz = .ok (sz, k') → Built c pgdir k'
  | deallocuvm {k k' : Kernel} {oldsz newsz sz : ℕ} : Built c pgdir k → oldsz ≤ kernBase →
      Paging.deallocuvm c k pgdir oldsz newsz = .ok (sz, k') → Built c pgdir k'
  | clearpteu {k k' : Kernel} {uva : ℕ} : Built c pgdir k → uva < 2 ^ 32 →
      Paging.clearpteu k pgdir uva = .ok k' → Built c pgdir k'
  /-- the rest of the kernel: it takes and gives back pages that are not in use here, and it writes
  to pages other than the directory and its tables -/
  | other {k k' : Kernel} : Built c pgdir k → k'.mem pgdir = k.mem pgdir →
      (∀ i < 1024, Present (k.mem pgdir i) →
        k'.mem (k.mem pgdir i / pgSize) = k.mem (k.mem pgdir i / pgSize)) →
      FreeList c k'.free → pgdir ∉ k'.free →
      (∀ i < 1024, Present (k.mem pgdir i) → k.mem pgdir i / pgSize ∉ k'.free) →
      (∀ v < userPages, ∀ p fl, pageMap k pgdir v = some (p, fl) → p ∉ k'.free) → Built c pgdir k'

/-- Every directory that is built keeps its tables and frames apart. -/
theorem Built.space (h : Built c pgdir k) : Space c k pgdir := by
  induction h with
  | setupkvm hfree hvram hok => exact ((setupkvm_spec hfree hvram).of_ok hok pgdir rfl).space
  | mapUser _ hv hperm hk hok ih =>
    obtain ⟨hspace, hframe, hun, -⟩ := ih.kalloc hk
    exact ((hspace.mappages_one hframe hun hv hperm).of_ok hok).1
  | @mapKernel k k' va size pa perm r _ hva hsize hend hpa hok ih =>
    have hr := (mappages_spec perm ih.toSep hsize hend hpa).of_ok hok
    have hle := (Nat.le_div_iff_mul_le (by decide)).mpr (kernBase_eq ▸ hva)
    refine ih.grown hr.sep hr.grown fun u hu => ?_
    rcases hr.map with ⟨-, hmap⟩ | ⟨-, -, m, -, hmap⟩ <;>
    · rw [hmap, mapRange, if_neg]
      exact fun hc => absurd (hle.trans hc.1) (Nat.not_le.mpr hu)
  | allocuvm _ hok ih => exact ((allocuvm_grows ih _ _).of_ok hok).1
  | deallocuvm _ hle hok ih => exact ((deallocuvm_spec ih hle _).of_ok hok).space
  | clearpteu _ huva hok ih => exact (clearpteu_spec ih huva).of_ok hok
  | @other k k' _ hdir htable hfree hpgdir htables hframes ih =>
    have hmap := (tables_congr hdir htable).1
    refine ih.of_dir hdir hfree.nodup hpgdir htables hfree.managed
      (fun v p fl hp => ⟨fl, hmap ▸ hp⟩) ?_
    rw [hmap]
    exact hframes

/-- **Page tables are a flat map.** For every directory that is built:

* `mappages` of a range without present pages adds exactly the pages of the range, page `i` on frame
  `pa + i * PGSIZE`, or it returns -1 and has added the first `n` of them;
* `deallocuvm` below `KERNBASE` returns, removes exactly the present pages of the range and gives
  back the frame of each once. -/
theorem page_tables_flat (h : Built c pgdir k) :
    (∀ va size pa perm, 0 < size → va + size ≤ 2 ^ 32 → pa % pgSize = 0 → pa < 2 ^ 32 →
      perm < pgSize →
      (∀ u, va / pgSize ≤ u → u ≤ (va + size - 1) / pgSize → pageMap k pgdir u = none) →
      ∃ r k', mappages k pgdir va size pa perm = .ok (r, k') ∧
        ∃ n, (r = 0 ∧ n = (va + size - 1) / pgSize + 1 - va / pgSize ∨
            r = -1 ∧ n < (va + size - 1) / pgSize + 1 - va / pgSize) ∧
          ∀ u, pageMap k' pgdir u =
            if va / pgSize ≤ u ∧ u < va / pgSize + n then
              some ((pa + (u - va / pgSize) * pgSize) % 2 ^ 32 / pgSize, perm ||| pteP)
            else pageMap k pgdir u) ∧
    ∀ oldsz newsz, oldsz ≤ kernBase →
      ∃ k', deallocuvm c k pgdir oldsz newsz = .ok (if oldsz ≤ newsz then oldsz else newsz, k') ∧
        (∀ u, pageMap k' pgdir u =
          if newsz ≤ u * pgSize ∧ u * pgSize < oldsz then none else pageMap k pgdir u) ∧
        ∃ freed : List Page, k'.free = freed ++ k.free ∧ freed.Nodup ∧ ∀ p, p ∈ freed ↔
          ∃ u fl, newsz ≤ u * pgSize ∧ u * pgSize < oldsz ∧ pageMap k pgdir u = some (p, fl) := by
  refine ⟨fun va size pa perm hsize hend hpa hpa' hperm hnone => ?_, fun oldsz newsz holdsz => ?_⟩
  · have hle : va / pgSize ≤ (va + size - 1) / pgSize := Nat.div_le_div_right (by omega)
    have hnoremap (e : Stop) :
        ¬ Remap k pgdir (va / pgSize) ((va + size - 1) / pgSize - va / pgSize) e := by
      rintro ⟨-, i, hi, hsome⟩
      rw [hnone _ (by omega) (by omega)] at hsome
      cases hsome
    obtain ⟨⟨r, k'⟩, hok, hr⟩ :=
      (mappages_spec perm h.space.toSep hsize hend hpa').exists_ok hnoremap
    refine ⟨r, k', hok, ?_⟩
    rcases hr.map with ⟨hret, hmap⟩ | ⟨hret, -, m, hm, hmap⟩
    · refine ⟨_, .inl ⟨hret, rfl⟩, fun u => ?_⟩
      rw [Nat.sub_add_comm hle, ← decode_entry hpa hperm]
      exact congrFun hmap u
    · refine ⟨m, .inr ⟨hret, by omega⟩, fun u => ?_⟩
      rw [← decode_entry hpa hperm]
      exact congrFun hmap u
  · obtain ⟨⟨r, k'⟩, hok, hr⟩ := (deallocuvm_spec h.space holdsz newsz).exists_ok fun _ => id
    obtain ⟨l, hl, hmem⟩ := hr.freed
    refine ⟨k', by rw [hok, ← hr.ret], hr.map, l, hl, ?_, hmem⟩
    have hnodup := hr.space.nodup
    rw [hl] at hnodup
    exact (List.nodup_append.mp hnodup).1

/-- **The two models of `vm.c` agree.** On every directory that is built, what `mappages`,
`deallocuvm` and `allocuvm` leave in memory is what the functions of `InuOs.Vm` return for the
directory as a value. -/
theorem vm_agrees (h : Built c pgdir k) :
    (∀ va size pa writable user r k', 0 < size → va + size ≤ 2 ^ 32 → pa % pgSize = 0 →
      pa + ((va + size - 1) / pgSize - va / pgSize) * pgSize < 2 ^ 32 →
      mappages k pgdir va size pa (flags writable user) = .ok (r, k') →
      InuOs.mappages k.free (dirOf k pgdir) va size pa writable user =
        .ok (k'.free, dirOf k' pgdir, decide (r = 0))) ∧
    ∀ (sz : UserSize) (newsz : ℕ) (r : ℕ × Kernel),
      (deallocuvm c k pgdir sz newsz = .ok r →
        VmReturns pgdir (InuOs.deallocuvm c k.free (dirOf k pgdir) sz newsz) r) ∧
      (allocuvm c k pgdir sz newsz = .ok r →
        VmReturns pgdir (InuOs.allocuvm c k.free (dirOf k pgdir) sz newsz) r) := by
  refine ⟨?_, fun sz newsz r => ⟨?_, ?_⟩⟩
  · intro va size pa writable user r k' hsize hend hpa htop hok
    have hr := (mappages_spec _ h.space.toSep hsize hend (by omega)).of_ok hok
    rw [InuOs.mappages, (spanned_eq hsize hend).1]
    exact hr.vm writable user rfl hpa htop
  · intro hok
    exact ((deallocuvm_spec h.space (Nat.lt_succ_iff.mp sz.2) newsz).of_ok hok).vm_returns sz rfl
  · exact fun hok => ((allocuvm_grows h.space sz newsz).of_ok hok).2.2 sz rfl

/-- After `setupkvm` on a machine with 5000 free pages. -/
theorem exists_built_qemu :
    ∃ pgdir k, Built qemu pgdir k ∧ Setup qemu k pgdir ∧ 3000 < k.free.length := by
  have hfree : FreeList qemu (List.range' 0x200 5000) := by
    refine ⟨List.nodup_range', fun p hp => ?_⟩
    have hp' := List.mem_range'_1.mp hp
    refine ⟨hp'.1, hp'.2.trans ?_⟩
    unfold phyStop
    decide
  have hvram : qemu.pvramAddr < 2 ^ 32 := by decide
  obtain ⟨pgdir, k, hok, hsetup, hlen⟩ :=
    setupkvm_total (k := ⟨fun _ _ => 0, List.range' 0x200 5000⟩) hfree hvram (by simp)
  rw [List.length_range'] at hlen
  exact ⟨pgdir, k, .setupkvm hfree hvram hok, hsetup, by omega⟩

/-- A page is mapped at address `0x1000` of it. -/
theorem exists_user_page_qemu : ∃ pgdir k mem, Built qemu pgdir k ∧ 1024 < k.free.length ∧
    pageMap k pgdir 1 = some (mem, pteU ||| pteP) ∧
      ∀ u < userPages, u ≠ 1 → pageMap k pgdir u = none := by
  obtain ⟨pgdir, k, hbuilt, hsetup, hlen⟩ := exists_built_qemu
  obtain ⟨mem, free, hfree⟩ := List.exists_cons_of_length_pos (Nat.zero_lt_of_lt hlen)
  have hkalloc : k.kalloc = some (mem, { k with free := free }) := by
    rw [Kernel.kalloc, hfree]
    rfl
  have hone : 1 < userPages := by
    rw [userPages_eq]
    decide
  obtain ⟨hspace, hframe, hun, hsame, -⟩ := hbuilt.space.kalloc hkalloc
  obtain ⟨⟨r, k'⟩, hok, -, hgrown, -, hmap⟩ := (hspace.mappages_one hframe hun hone
    (show pteU < pgSize by decide)).exists_ok fun _ hsome => by
      rw [hsame, hsetup.user 1 hone] at hsome
      cases hsome
  obtain ⟨hend, -, -⟩ := page_range hone
  have htables := tables_le k' pgdir
  have hcount := hgrown.count
  have hlength : ({ k with free := free }.clear mem).free.length = free.length := rfl
  rw [hfree, List.length_cons] at hlen
  obtain rfl := mappages_eq_zero hspace.toSep (by decide) hend hframe.mul_lt (by omega) hok
  rcases hmap with ⟨-, hmap⟩ | ⟨hret, -⟩
  · have hmap : pageMap k' pgdir = Function.update (pageMap k pgdir) 1
        (some (mem, pteU ||| pteP)) := by
      rw [← hsame]
      exact hmap
    dsimp only at hcount
    refine ⟨pgdir, k', mem, .mapUser hbuilt hone (by decide) hkalloc hok, by omega, ?_,
      fun u hu hne => ?_⟩
    · rw [hmap, Function.update_self]
    · rw [hmap, Function.update_of_ne hne, hsetup.user u hu]
  · cases hret

/-- Two more pages are mapped, on frames `0x300` and `0x301`; the page that was there is removed. -/
theorem page_tables_flat_qemu :
    ∃ pgdir k mem, Built qemu pgdir k ∧ pageMap k pgdir 1 = some (mem, pteU ||| pteP) ∧
      (∃ k', mappages k pgdir 0x2000 0x2000 0x300000 pteU = .ok (0, k') ∧
        pageMap k' pgdir 3 = some (0x301, pteU ||| pteP)) ∧
      ∃ k', deallocuvm qemu k pgdir 0x2000 0 = .ok (0, k') ∧ pageMap k' pgdir 1 = none ∧
        mem ∈ k'.free := by
  obtain ⟨pgdir, k, mem, hbuilt, hlen, hone, hnone⟩ := exists_user_page_qemu
  obtain ⟨hmap, hdealloc⟩ := page_tables_flat hbuilt
  obtain ⟨r, k₁, hok, n, hr, hmap₁⟩ := hmap 0x2000 0x2000 0x300000 pteU (by decide) (by decide)
    (by decide) (by decide) (by decide) fun u hge hle => by
      have hge : 2 ≤ u := hge
      refine hnone u (hle.trans_lt ?_) (by omega)
      rw [userPages_eq]
      decide
  obtain rfl := mappages_eq_zero hbuilt.space.toSep (by decide) (by decide) (by decide) hlen hok
  rcases hr with ⟨-, rfl⟩ | ⟨hret, -⟩
  · obtain ⟨k₂, hok₂, hmap₂, freed, hfreed, -, hmem⟩ :=
      hdealloc 0x2000 0 (by unfold kernBase; decide)
    refine ⟨pgdir, k, mem, hbuilt, hone, ⟨k₁, hok, ?_⟩, k₂, hok₂, ?_, ?_⟩
    · rw [hmap₁, if_pos (by decide)]
      decide
    · rw [hmap₂, if_pos (by decide)]
    · rw [hfreed]
      exact List.mem_append_left _ ((hmem mem).mpr ⟨1, _, by decide, by decide, hone⟩)
  · cases hret

/-- `deallocuvm` of one page that is present, on frame 0. -/
theorem deallocuvm_frame_zero {fl : ℕ} (hv : v < nPages) (hold : v * pgSize < oldsz)
    (hnew : newsz < oldsz) (hround : pgRoundUp newsz = v * pgSize)
    (hmap : pageMap k pgdir v = some (0, fl)) :
    deallocuvm c k pgdir oldsz newsz = .error (.panic .kfree) := by
  have hpresent := present_of_pageMap hmap
  rw [pageMap_of_present hv hpresent] at hmap
  unfold decode at hmap
  split at hmap
  · next hp =>
    have hframe : pteAddr (k.mem (k.mem pgdir (v / 1024) / pgSize) (v % 1024)) = 0 := by
      rw [pteAddr, (Prod.mk.inj (Option.some.inj hmap)).1, Nat.zero_mul]
    rw [deallocuvm, if_neg (Nat.not_le.mpr hnew), hround, deallocLoop, if_pos hold,
      walkpgdir_lookup hv, if_pos hpresent]
    dsimp only
    rw [if_pos hp, if_pos hframe]
    rfl
  · cases hmap

/-- The first page above `KERNBASE` is mapped on frame 0, and `kfree` panics on it. -/
theorem deallocuvm_above_kernBase :
    ∃ pgdir k, Built qemu pgdir k ∧ pageMap k pgdir userPages = some (0, pteW ||| pteP) ∧
      deallocuvm qemu k pgdir (kernBase + pgSize) kernBase = .error (.panic .kfree) := by
  obtain ⟨pgdir, k, hbuilt, hsetup, -⟩ := exists_built_qemu
  have hmap : pageMap k pgdir userPages = some (0, pteW ||| pteP) := by
    have hfirst : kernBase / pgSize = userPages := by
      rw [kernBase_eq, Nat.mul_div_cancel _ (by decide)]
    have hcovers : Kmap.Covers ⟨kernBase, 0, extMem, true⟩ userPages := by
      refine ⟨hfirst.le, ?_⟩
      rw [Nat.le_div_iff_mul_le (by decide), ← kernBase_eq]
      unfold kernBase
      decide
    rw [hsetup.kernel _ List.mem_cons_self userPages hcovers, decode_entry (by decide) (by decide),
      hfirst, Nat.sub_self]
    rfl
  have hround : pgRoundUp kernBase = userPages * pgSize := by
    rw [pgRoundUp_eq le_rfl, kernBase_eq]
    unfold userPages
    decide
  have hlt : kernBase < kernBase + pgSize := Nat.lt_add_of_pos_right (by decide)
  exact ⟨pgdir, k, hbuilt, hmap,
    deallocuvm_frame_zero userPages_lt (kernBase_eq ▸ hlt) hlt hround hmap⟩

end InuOs.Paging
