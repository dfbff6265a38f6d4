import InuOs.Lib.Except
import InuOs.Lib.Tally
import InuOs.Vm

/-!
# The pages of an address space

`PageDir.owned` is the multiset of pages an address space holds: the directory, its page tables and
the pages of its user entries. The functions of `vm.c` move pages between it and the free list, and
each gets one lemma that says so; the sum of both is what no function but `copyuvm` changes.

The second subject is **how many** page tables are taken, since that decides where `kalloc` runs
dry: `setupkvm` takes one for each directory entry that `kmap` touches.
-/

namespace InuOs

/-! ## What an address space holds -/

/-- The page of a page table, if there is one. -/
def tablePage (t : Option PageTable) : Multiset Page := t.elim 0 fun t => {t.page}

/-- The page of an entry, if it is present. -/
def ptePage (e : Option Pte) : Multiset Page := e.elim 0 fun e => {e.page}

namespace PageDir

/-- The page tables. -/
def tables (d : PageDir) : Multiset Page := ∑ k ∈ Finset.range npdEntries, tablePage (d.pde k)

/-- The pages of user memory. -/
def user (d : PageDir) : Multiset Page := ∑ v ∈ Finset.range userPages, ptePage (d.pteAt v)

/-- All pages of an address space. -/
def owned (d : PageDir) : Multiset Page := {d.page} + d.tables + d.user

variable {d : PageDir} {v k : ℕ}

theorem pteAt_eq_none (h : d.pde (pdx v) = none) : d.pteAt v = none := by
  rw [pteAt, h]
  rfl

theorem pdx_lt (hv : v < nPages) : pdx v < npdEntries := by
  unfold pdx npdEntries
  unfold nPages at hv
  omega

@[simp] theorem addTable_page (p : Page) : (d.addTable k p).page = d.page := rfl

@[simp] theorem setPte_page (e : Option Pte) : (d.setPte v e).page = d.page := rfl

/-! ### A new page table -/

theorem pteAt_addTable (h : d.pde k = none) (p : Page) : (d.addTable k p).pteAt = d.pteAt := by
  funext v
  rcases eq_or_ne (pdx v) k with rfl | hne
  · rw [pteAt_eq_none h, pteAt, addTable]
    simp
  · simp only [pteAt, addTable, Function.update_of_ne hne]

theorem owned_addTable (h : d.pde k = none) (hk : k < npdEntries) (p : Page) :
    (d.addTable k p).owned = d.owned + {p} := by
  have htables : (d.addTable k p).tables = d.tables + {p} := by
    have hsum := sum_update tablePage d.pde (Finset.mem_range.mpr hk) (some ⟨p, fun _ => none⟩)
    rw [h, show tablePage none = 0 from rfl, add_zero] at hsum
    exact hsum
  have huser : (d.addTable k p).user = d.user := by rw [user, user, pteAt_addTable h]
  rw [owned, owned, htables, huser, addTable_page, ← add_assoc, add_right_comm]

/-! ### A new entry -/

theorem pde_setPte_ne_none (e : Option Pte) :
    (d.setPte v e).pde k ≠ none ↔ d.pde k ≠ none := by
  rcases eq_or_ne k (pdx v) with rfl | hne
  · simp [setPte]
  · simp [setPte, hne]

theorem pteAt_setPte (h : d.pde (pdx v) ≠ none) (e : Option Pte) :
    (d.setPte v e).pteAt = Function.update d.pteAt v e := by
  obtain ⟨t, ht⟩ := Option.ne_none_iff_exists'.mp h
  funext w
  rcases eq_or_ne w v with rfl | hne
  · simp [pteAt, setPte, ht]
  · rw [Function.update_of_ne hne]
    by_cases hw : pdx w = pdx v
    · have hptx : ptx w ≠ ptx v := by
        intro hptx
        refine hne ?_
        rw [← Nat.div_add_mod w npdEntries, ← Nat.div_add_mod v npdEntries]
        exact congrArg₂ (fun q r => npdEntries * q + r) hw hptx
      simp [pteAt, setPte, ht, hw, hptx]
    · simp [pteAt, setPte, hw]

theorem tables_setPte (e : Option Pte) : (d.setPte v e).tables = d.tables := by
  refine Finset.sum_congr rfl fun k _ => ?_
  rcases eq_or_ne k (pdx v) with rfl | hne
  · cases ht : d.pde (pdx v) <;> simp [setPte, ht, tablePage]
  · simp [setPte, hne]

/-- A user entry brings its page. -/
theorem owned_setPte_user (h : d.pde (pdx v) ≠ none) (hv : v < userPages) (e : Option Pte) :
    (d.setPte v e).owned + ptePage (d.pteAt v) = d.owned + ptePage e := by
  have hsum := sum_update ptePage d.pteAt (Finset.mem_range.mpr hv) e
  rw [← pteAt_setPte h] at hsum
  have huser : (d.setPte v e).user + ptePage (d.pteAt v) = d.user + ptePage e := hsum
  rw [owned, owned, setPte_page, tables_setPte, add_assoc, huser, ← add_assoc]

/-- An entry of the kernel's part holds no page of its own. -/
theorem owned_setPte_kernel (h : d.pde (pdx v) ≠ none) (hv : userPages ≤ v) (e : Option Pte) :
    (d.setPte v e).owned = d.owned := by
  have hsum := sum_update_of_notMem ptePage d.pteAt (i := v)
    (fun hmem => absurd (Finset.mem_range.mp hmem) (not_lt.mpr hv)) e
  rw [← pteAt_setPte h] at hsum
  have huser : (d.setPte v e).user = d.user := hsum
  rw [owned, owned, setPte_page, tables_setPte, huser]

end PageDir

/-! ## Mapping -/

/-- If the function returns, then with `P`. -/
abbrev Returns {α : Type} (x : Except Panic α) (P : α → Prop) : Prop := Meets x (fun _ => True) P

/-- The virtual pages `vs` can be mapped without a `"remap"` panic. -/
def PageDir.Fresh (d : PageDir) (vs : List ℕ) : Prop := vs.Nodup ∧ ∀ v ∈ vs, d.pteAt v = none

/-- A `"kfree"` panic, for a page among `ps` that is not the allocator's. -/
def BadFree (c : Platform) (ps : Multiset Page) (e : Panic) : Prop :=
  e = .kfree ∧ ∃ p ∈ ps, ¬ c.Managed p

theorem BadFree.mono {c : Platform} {ps qs : Multiset Page} (h : ps ≤ qs) {e : Panic}
    (he : BadFree c ps e) : BadFree c qs e := by
  obtain ⟨rfl, p, hp, hbad⟩ := he
  exact ⟨rfl, p, Multiset.mem_of_le h hp, hbad⟩

variable {k v n x va size : ℕ} {vs ws : List ℕ} {free : List Page} {d : PageDir}
  {r : List Page × PageDir × Bool}

section Mapping

variable {free : List Page} {d : PageDir} {v : ℕ}

theorem PageDir.pde_addTable_ne_none {j : ℕ} (p : Page) :
    (d.addTable k p).pde j ≠ none ↔ d.pde j ≠ none ∨ j = k := by
  rcases eq_or_ne j k with rfl | hne
  · simp [addTable]
  · simp [addTable, hne]

/-- `walkpgdir` has made sure that the page table of `v` is there. -/
structure Walked (v : ℕ) (free : List Page) (d : PageDir) (r : List Page × PageDir) : Prop where
  owned : ↑r.1 + r.2.owned = ↑free + d.owned
  pteAt : r.2.pteAt = d.pteAt
  pde : ∀ k, r.2.pde k ≠ none ↔ d.pde k ≠ none ∨ k = pdx v
  /-- a page is taken only for a new page table -/
  old : d.pde (pdx v) ≠ none → r.1 = free
  new : d.pde (pdx v) = none → r.1.length + 1 = free.length

/-- `walkpgdir` fails only if it finds neither the page table nor a page for it. -/
theorem walkpgdir_spec (free : List Page) (d : PageDir) (hv : v < nPages) :
    (walkpgdir free d v true = none ∧ free = [] ∧ d.pde (pdx v) = none) ∨
      ∃ r, walkpgdir free d v true = some r ∧ Walked v free d r := by
  unfold walkpgdir
  cases hpde : d.pde (pdx v) with
  | some t =>
    refine .inr ⟨_, rfl, rfl, rfl, fun k => ?_, fun _ => rfl, fun h => ?_⟩
    · refine ⟨.inl, ?_⟩
      rintro (h | rfl)
      · exact h
      · rw [hpde]
        simp
    · rw [h] at hpde
      cases hpde
  | none =>
    cases free with
    | nil => exact .inl ⟨rfl, rfl, rfl⟩
    | cons p rest =>
      refine .inr ⟨_, rfl, ?_, PageDir.pteAt_addTable hpde p,
        fun k => PageDir.pde_addTable_ne_none p, fun h => absurd hpde h, fun _ => rfl⟩
      rw [PageDir.owned_addTable hpde (PageDir.pdx_lt hv), ← Multiset.cons_coe,
        Multiset.cons_add, ← Multiset.singleton_add, ← add_assoc, add_comm]

/-- What `mappages` leaves of an address space when it maps the pages `vs` of the kernel's part. -/
structure KernelMapped (vs : List ℕ) (free : List Page) (d : PageDir)
    (r : List Page × PageDir × Bool) : Prop where
  /-- pages move from the free list to the page tables -/
  owned : ↑r.1 + r.2.1.owned = ↑free + d.owned
  frame : ∀ v, v ∉ vs → r.2.1.pteAt v = d.pteAt v
  mono : ∀ k, d.pde k ≠ none → r.2.1.pde k ≠ none
  only : ∀ k, r.2.1.pde k ≠ none → d.pde k ≠ none ∨ k ∈ vs.map pdx
  /-- on success every page table is there -/
  success : r.2.2 = true → ∀ k ∈ vs.map pdx, r.2.1.pde k ≠ none
  /-- on failure there is one that is not, and no page for it -/
  failure : r.2.2 = false → r.1 = [] ∧ ∃ k ∈ vs.map pdx, r.2.1.pde k = none

/-- The next page is mapped, and the others can still be. -/
theorem PageDir.Fresh.setPte {d₁ : PageDir} (h : d.Fresh (v :: vs)) (hpteAt : d₁.pteAt = d.pteAt)
    (hpde : d₁.pde (pdx v) ≠ none) (e : Option Pte) : (d₁.setPte v e).Fresh vs := by
  obtain ⟨hnodup, hnone⟩ := h
  obtain ⟨hv, hvs⟩ := List.nodup_cons.mp hnodup
  refine ⟨hvs, fun w hw => ?_⟩
  have hne : w ≠ v := by
    rintro rfl
    exact hv hw
  rw [pteAt_setPte hpde, Function.update_of_ne hne, hpteAt]
  exact hnone w (List.mem_cons_of_mem _ hw)

theorem mapLoop_kernel (hvs : ∀ v ∈ vs, userPages ≤ v ∧ v < nPages)
    (pa : Page) (writable user : Bool) :
    Meets (mapLoop free d pa writable user vs) (fun e => e = .remap ∧ ¬ d.Fresh vs)
      (KernelMapped vs free d) := by
  induction vs generalizing free d pa with
  | nil =>
    refine Meets.pure ⟨rfl, fun _ _ => rfl, fun _ h => h, fun _ h => .inl h, ?_, ?_⟩
    · intro _ k hk
      cases hk
    · rintro ⟨⟩
  | cons v vs ih =>
    obtain ⟨⟨hlo, hhi⟩, hrest⟩ := List.forall_mem_cons.mp hvs
    rw [mapLoop]
    rcases walkpgdir_spec free d hhi with ⟨hwalk, rfl, hpde⟩ | ⟨r, hwalk, hr⟩
    · rw [hwalk]
      refine Meets.pure ⟨rfl, fun _ _ => rfl, fun _ h => h, fun _ h => .inl h, ?_, ?_⟩
      · rintro ⟨⟩
      · exact fun _ => ⟨rfl, pdx v, by simp, hpde⟩
    · rw [hwalk]
      dsimp only
      split
      · next hsome =>
        refine Meets.throw ⟨rfl, fun hfresh => ?_⟩
        rw [hr.pteAt, hfresh.2 v (List.mem_cons_self ..)] at hsome
        cases hsome
      · have hpde : r.2.pde (pdx v) ≠ none := (hr.pde _).mpr (.inr rfl)
        refine ((ih hrest (pa + 1)).mono_error fun e he => ?_).mono
          fun m hm => ⟨?_, ?_, ?_, ?_, ?_, ?_⟩
        · exact ⟨he.1, fun hfresh => he.2 (hfresh.setPte hr.pteAt hpde _)⟩
        · rw [hm.owned, PageDir.owned_setPte_kernel hpde hlo, hr.owned]
        · intro w hw
          rw [List.mem_cons, not_or] at hw
          obtain ⟨hne, hw⟩ := hw
          rw [hm.frame w hw, PageDir.pteAt_setPte hpde, Function.update_of_ne hne, hr.pteAt]
        · intro k hk
          exact hm.mono k ((PageDir.pde_setPte_ne_none _).mpr ((hr.pde k).mpr (.inl hk)))
        · intro k hk
          rw [List.map_cons, List.mem_cons]
          rcases hm.only k hk with hk | hk
          · rcases (hr.pde k).mp ((PageDir.pde_setPte_ne_none _).mp hk) with hk | hk
            · exact .inl hk
            · exact .inr (.inl hk)
          · exact .inr (.inr hk)
        · intro hok k hk
          rcases List.mem_cons.mp hk with rfl | hk
          · exact hm.mono _ ((PageDir.pde_setPte_ne_none _).mpr hpde)
          · exact hm.success hok k hk
        · intro hfail
          obtain ⟨hfree, k, hk, hnone⟩ := hm.failure hfail
          exact ⟨hfree, k, List.mem_cons_of_mem _ hk, hnone⟩

/-- What `mappages` does with one user page `v` that is to hold `mem`. -/
structure UserMapped (v : ℕ) (mem : Page) (free : List Page) (d : PageDir)
    (r : List Page × PageDir × Bool) : Prop where
  /-- on success `mem` belongs to the address space -/
  owned : ↑r.1 + r.2.1.owned = ↑free + d.owned + if r.2.2 then {mem} else 0
  pde : r.2.2 = true → ∀ k, r.2.1.pde k ≠ none ↔ d.pde k ≠ none ∨ k = pdx v
  /-- on success a page is taken only for a new page table -/
  old : r.2.2 = true → d.pde (pdx v) ≠ none → r.1 = free
  new : r.2.2 = true → d.pde (pdx v) = none → r.1.length + 1 = free.length
  frame : ∀ w, w ≠ v → r.2.1.pteAt w = d.pteAt w
  failure : r.2.2 = false → free = [] ∧ d.pde (pdx v) = none

theorem mapLoop_user (hv : v < userPages) (mem : Page) (writable user : Bool) :
    Meets (mapLoop free d mem writable user [v]) (fun e => e = .remap ∧ d.pteAt v ≠ none)
      (UserMapped v mem free d) := by
  have hlt : v < nPages := hv.trans userPages_lt
  rw [mapLoop]
  rcases walkpgdir_spec free d hlt with ⟨hwalk, rfl, hpde⟩ | ⟨r, hwalk, hr⟩
  · rw [hwalk]
    exact Meets.pure ⟨by simp, by rintro ⟨⟩, by rintro ⟨⟩, by rintro ⟨⟩, fun _ _ => rfl,
      fun _ => ⟨rfl, hpde⟩⟩
  · rw [hwalk]
    dsimp only
    split
    · next hsome =>
      refine Meets.throw ⟨rfl, fun hnone => ?_⟩
      rw [hr.pteAt, hnone] at hsome
      cases hsome
    · next hfree =>
      have hpde : r.2.pde (pdx v) ≠ none := (hr.pde _).mpr (.inr rfl)
      have hnone : r.2.pteAt v = none := by simpa using hfree
      refine Meets.pure ⟨?_, ?_, fun _ => hr.old, fun _ => hr.new, fun w hne => ?_, by rintro ⟨⟩⟩
      · have hset := PageDir.owned_setPte_user hpde hv (some ⟨mem, writable, user⟩)
        rw [hnone, show ptePage none = 0 from rfl, add_zero] at hset
        rw [hset, ← add_assoc, hr.owned]
        rfl
      · intro _ k
        rw [PageDir.pde_setPte_ne_none, hr.pde k]
      · rw [PageDir.pteAt_setPte hpde, Function.update_of_ne hne, hr.pteAt]

end Mapping

/-! ## Giving pages back -/

section Freeing

variable {c : Platform} {free : List Page} {d : PageDir}

theorem kfree_spec (c : Platform) (free : List Page) (p : Page) :
    Meets (kfree c free p) (BadFree c {p})
      fun free' => (free' : Multiset Page) = ↑free + {p} := by
  unfold kfree
  split
  · refine Meets.pure ?_
    rw [← Multiset.cons_coe, ← Multiset.singleton_add, add_comm]
  · next hbad => exact Meets.throw ⟨rfl, p, Multiset.mem_singleton_self p, hbad⟩

/-- What `deallocuvm` leaves when it has cleared the pages from `v` up to `stop`. -/
structure Dealloced (v stop : ℕ) (free : List Page) (d : PageDir) (r : List Page × PageDir) :
    Prop where
  owned : ↑r.1 + r.2.owned = ↑free + d.owned
  le : r.2.owned ≤ d.owned
  cleared : ∀ u, v ≤ u → u < stop → r.2.pteAt u = none
  kept : ∀ u, r.2.pteAt u ≠ none → d.pteAt u ≠ none

theorem deallocLoop_spec {stop : ℕ} (hstop : stop ≤ userPages) (v : ℕ) :
    Meets (deallocLoop c free d v stop) (BadFree c d.owned) (Dealloced v stop free d) := by
  induction hn : stop - v using Nat.strong_induction_on generalizing free d v with
  | _ n ih =>
    rw [deallocLoop]
    split
    · next hv =>
      split
      · next hpde =>
        have hlt := lt_pdx_succ_mul v
        refine (ih _ (by omega) _ rfl).mono fun r hr => ⟨hr.owned, hr.le, fun u hu hus => ?_,
          hr.kept⟩
        -- the whole page table is missing
        rcases lt_or_ge u ((pdx v + 1) * npdEntries) with hin | hge
        · have hpdx : pdx u = pdx v := by
            have hle : pdx v * npdEntries ≤ v := Nat.div_mul_le_self v npdEntries
            refine Nat.div_eq_of_lt_le (hle.trans hu) hin
          by_contra hsome
          exact hr.kept u hsome (PageDir.pteAt_eq_none (by rw [hpdx, hpde]))
        · exact hr.cleared u hge hus
      · next t hpde =>
        have hpde' : d.pde (pdx v) ≠ none := by simp [hpde]
        -- the entries from `v + 1` on are cleared by the rest of the loop
        have hstep : ∀ {r : List Page × PageDir}, r.2.pteAt v = none →
            (∀ u, v + 1 ≤ u → u < stop → r.2.pteAt u = none) →
            ∀ u, v ≤ u → u < stop → r.2.pteAt u = none := by
          intro r hself hrest u hu hus
          rcases hu.eq_or_lt with rfl | hlt
          · exact hself
          · exact hrest u hlt hus
        split
        · next hnone =>
          refine (ih _ (by omega) (v + 1) rfl).mono fun r hr => ⟨hr.owned, hr.le, ?_, hr.kept⟩
          refine hstep ?_ hr.cleared
          by_contra hsome
          exact hr.kept v hsome hnone
        · next e he =>
          have hset := PageDir.owned_setPte_user hpde' (hv.trans_le hstop) none
          rw [he, show ptePage (some e) = {e.page} from rfl,
            show ptePage none = 0 from rfl, add_zero] at hset
          have hpage : ({e.page} : Multiset Page) ≤ d.owned := by
            rw [← hset]
            exact Multiset.le_add_left _ _
          have hrest : (d.setPte v none).owned ≤ d.owned := by
            rw [← hset]
            exact Multiset.le_add_right _ _
          split
          · next hzero =>
            -- page 0 is not the allocator's either
            refine Meets.throw (BadFree.mono hpage ⟨rfl, e.page, by simp, fun hman => ?_⟩)
            rw [hzero] at hman
            exact absurd hman.1 (not_le.mpr c.kend_pos)
          · refine ((kfree_spec c free e.page).mono_error fun _ he => he.mono hpage).bind
              fun free' hfree' => ?_
            refine ((ih _ (by omega) (v + 1) rfl).mono_error fun _ he => he.mono hrest).mono
              fun r hr => ⟨?_, hr.le.trans hrest, ?_, ?_⟩
            · rw [hr.owned, hfree', ← hset, add_assoc, add_comm ({e.page} : Multiset Page)]
            · refine hstep ?_ hr.cleared
              by_contra hsome
              refine hr.kept v hsome ?_
              rw [PageDir.pteAt_setPte hpde', Function.update_self]
            · intro u hu
              have hu' := hr.kept u hu
              rw [PageDir.pteAt_setPte hpde'] at hu'
              rcases eq_or_ne u v with rfl | hne
              · rw [Function.update_self] at hu'
                exact absurd rfl hu'
              · rwa [Function.update_of_ne hne] at hu'
    · next hv =>
      exact Meets.pure ⟨rfl, le_rfl, fun u hu hus => by omega, fun _ h => h⟩

theorem pgRoundUp_le (sz : UserSize) : pgRoundUp sz ≤ userPages := by
  have hsz := sz.2
  unfold pgRoundUp pgSize userPages
  unfold kernBase at hsz
  omega

theorem deallocuvm_spec (oldsz : UserSize) (newsz : ℕ) :
    Meets (deallocuvm c free d oldsz newsz) (BadFree c d.owned) fun r =>
      ↑r.1 + r.2.1.owned = ↑free + d.owned ∧ (newsz < oldsz →
        Dealloced (pgRoundUp newsz) (pgRoundUp oldsz) free d (r.1, r.2.1)) := by
  unfold deallocuvm
  split
  · next hle => exact Meets.pure ⟨rfl, fun hlt => absurd hle (not_le.mpr hlt)⟩
  · exact (deallocLoop_spec (pgRoundUp_le oldsz) _).bind fun r hr =>
      Meets.pure ⟨hr.owned, fun _ => hr⟩

theorem freeTables_spec (c : Platform) (free : List Page) (d : PageDir) (ks : List ℕ) :
    Meets (freeTables c free d ks) (BadFree c (ks.map fun k => tablePage (d.pde k)).sum)
      fun free' =>
        (free' : Multiset Page) = ↑free + (ks.map fun k => tablePage (d.pde k)).sum := by
  induction ks generalizing free with
  | nil => exact Meets.pure (by simp)
  | cons k ks ih =>
    rw [freeTables, List.map_cons, List.sum_cons]
    split
    · next hpde =>
      rw [hpde, show tablePage none = 0 from rfl, zero_add]
      exact ih free
    · next t hpde =>
      rw [hpde, show tablePage (some t) = {t.page} from rfl]
      refine ((kfree_spec c free t.page).mono_error fun _ he =>
        he.mono (Multiset.le_add_right _ _)).bind fun free₁ h₁ => ?_
      refine ((ih free₁).mono_error fun _ he => he.mono (Multiset.le_add_left _ _)).mono
        fun free' h => ?_
      rw [h, h₁, add_assoc]

/-- `freevm` gives everything back. -/
theorem freevm_spec (c : Platform) (free : List Page) (d : PageDir) :
    Meets (freevm c free d) (BadFree c d.owned)
      fun free' => (free' : Multiset Page) = ↑free + d.owned := by
  have hstop : pgRoundUp (Fin.last kernBase) = userPages := by
    rw [Fin.val_last, pgRoundUp, pgSize, kernBase, userPages]
  refine (deallocuvm_spec (Fin.last kernBase) 0).bind ?_
  intro r hr
  obtain ⟨free₁, d₁, sz⟩ := r
  have h₁ := hr.2 (by rw [Fin.val_last, kernBase]; omega)
  rw [hstop] at h₁
  have huser : d₁.user = 0 := by
    refine Finset.sum_eq_zero fun v hv => ?_
    rw [h₁.cleared v (Nat.zero_le v) (Finset.mem_range.mp hv)]
    rfl
  have htables : ((List.range npdEntries).map fun k => tablePage (d₁.pde k)).sum = d₁.tables := by
    simp only [PageDir.tables, Finset.sum, Finset.range_val, Multiset.range, Multiset.map_coe,
      Multiset.sum_coe]
  have htablesLe : d₁.tables ≤ d.owned :=
    (Multiset.le_add_left _ _).trans ((Multiset.le_add_right _ _).trans h₁.le)
  have hpageLe : ({d₁.page} : Multiset Page) ≤ d.owned :=
    (Multiset.le_add_right _ _).trans ((Multiset.le_add_right _ _).trans h₁.le)
  have hfreed := freeTables_spec c free₁ d₁ (List.range npdEntries)
  rw [htables] at hfreed
  refine (hfreed.mono_error fun _ he => he.mono htablesLe).bind fun free₂ h₂ => ?_
  refine ((kfree_spec c free₂ d₁.page).mono_error fun _ he => he.mono hpageLe).mono
    fun free' h => ?_
  have howned : ↑free₁ + d₁.owned = ↑free + d.owned := h₁.owned
  rw [h, h₂, ← howned, PageDir.owned, huser, add_zero, add_assoc,
    add_comm ({d₁.page} : Multiset Page)]

end Freeing

/-! ## The kernel's part -/

theorem pagesFrom_eq (h : v + n ≤ nPages) : pagesFrom v n = List.range' v n := by
  induction n generalizing v with
  | zero => rfl
  | succ n ih =>
    rw [pagesFrom, List.range'_succ]
    rcases Nat.eq_zero_or_pos n with rfl | hn
    · rfl
    · rw [Nat.mod_eq_of_lt (by omega), ih (by omega)]

theorem spanned_eq (hpos : 0 < size) (hend : va + size ≤ 2 ^ 32) :
    spanned va size =
      List.range' (va / pgSize) ((va + size - 1) / pgSize - va / pgSize + 1) ∧
    va / pgSize ≤ (va + size - 1) / pgSize ∧ (va + size - 1) / pgSize < nPages := by
  have hlast : (va + size + (2 ^ 32 - 1)) % 2 ^ 32 = va + size - 1 := by omega
  have hle : va / pgSize ≤ (va + size - 1) / pgSize := Nat.div_le_div_right (by omega)
  have htop : (va + size - 1) / pgSize < nPages := by
    unfold pgSize nPages
    omega
  have hcount : ((va + size - 1) / pgSize + nPages - va / pgSize) % nPages =
      (va + size - 1) / pgSize - va / pgSize := by
    rw [show (va + size - 1) / pgSize + nPages - va / pgSize =
      (va + size - 1) / pgSize - va / pgSize + nPages by omega, Nat.add_mod_right,
      Nat.mod_eq_of_lt ((Nat.sub_le _ _).trans_lt htop)]
  refine ⟨?_, hle, htop⟩
  rw [spanned, hlast, hcount, pagesFrom_eq (by omega)]

theorem mem_spanned (hpos : 0 < size) (hend : va + size ≤ 2 ^ 32) :
    x ∈ spanned va size ↔ va / pgSize ≤ x ∧ x ≤ (va + size - 1) / pgSize := by
  obtain ⟨heq, hle, htop⟩ := spanned_eq hpos hend
  rw [heq, List.mem_range'_1]
  omega

theorem nodup_spanned (hpos : 0 < size) (hend : va + size ≤ 2 ^ 32) : (spanned va size).Nodup := by
  rw [(spanned_eq hpos hend).1]
  exact List.nodup_range'

/-- The pages of an entry of `kmap`. -/
def Kmap.pages (k : Kmap) : List ℕ := spanned k.virt k.size

namespace Platform

variable (c : Platform)

/-- The entries of `kmap` lie above `KERNBASE` and do not wrap. -/
theorem kmap_spec {k : Kmap} (hk : k ∈ c.kmap) :
    kernBase ≤ k.virt ∧ 0 < k.size ∧ k.virt + k.size ≤ 2 ^ 32 := by
  have h₁ := c.data_gt
  have h₂ := c.data_lt
  have h₃ := c.vramSize_pos
  have h₄ := c.vramSize_le
  simp only [kernLink, kernBase, phyStop, devSpace, extMem, pciBarBase, pciVpOffset] at h₁ h₂ h₄ ⊢
  simp only [kmap, kernLink, kernBase, phyStop, devSpace, extMem, pciBarBase, pciVpOffset,
    List.mem_cons, List.not_mem_nil, or_false] at hk
  unfold Kmap.size
  rcases hk with rfl | rfl | rfl | rfl | rfl | rfl
  all_goals
    dsimp only
    omega

/-- So do their pages. -/
theorem kmap_pages {k : Kmap} (hk : k ∈ c.kmap) (hv : v ∈ k.pages) :
    userPages ≤ v ∧ v < nPages := by
  obtain ⟨hvirt, hpos, hend⟩ := c.kmap_spec hk
  rw [Kmap.pages, mem_spanned hpos hend] at hv
  unfold kernBase at hvirt
  unfold pgSize at hv
  unfold userPages nPages
  omega

/-- Two entries of `kmap` have no page in common. -/
theorem kmap_apart : c.kmap.Pairwise fun j k =>
    (j.virt + j.size - 1) / pgSize < k.virt / pgSize ∨
      (k.virt + k.size - 1) / pgSize < j.virt / pgSize := by
  have h₀ := c.data_aligned
  have h₁ := c.data_gt
  have h₂ := c.data_lt
  have h₄ := c.vramSize_le
  simp only [kernLink, kernBase, phyStop, devSpace, extMem, pciBarBase, pciVpOffset, pgSize]
    at h₀ h₁ h₂ h₄
  simp only [kmap, Kmap.size, kernLink, kernBase, phyStop, devSpace, extMem, pciBarBase,
    pciVpOffset, pgSize, List.pairwise_cons, List.mem_cons, List.not_mem_nil, or_false,
    forall_eq_or_imp, forall_eq, List.Pairwise.nil, and_true, false_implies, implies_true]
  refine ⟨⟨?_, ?_, ?_, ?_, ?_⟩, ⟨?_, ?_, ?_, ?_⟩, ⟨?_, ?_, ?_⟩, ⟨?_, ?_⟩, ?_⟩ <;> omega

/-- The entries of `kmap` do not overlap. -/
theorem nodup_kmap : (c.kmap.flatMap Kmap.pages).Nodup := by
  refine List.nodup_flatMap.mpr ⟨fun k hk => ?_, ?_⟩
  · obtain ⟨-, hpos, hend⟩ := c.kmap_spec hk
    exact nodup_spanned hpos hend
  · refine c.kmap_apart.imp_of_mem fun {j k} hj hk hapart v hv hv' => ?_
    obtain ⟨-, hposj, hendj⟩ := c.kmap_spec hj
    obtain ⟨-, hposk, hendk⟩ := c.kmap_spec hk
    rw [Kmap.pages, mem_spanned hposj hendj] at hv
    rw [Kmap.pages, mem_spanned hposk hendk] at hv'
    omega

/-- The directory entries that `kmap` touches. -/
@[irreducible] def kvmPdes : Finset ℕ := ((c.kmap.flatMap Kmap.pages).map pdx).toFinset

theorem mem_kvmPdes : k ∈ c.kvmPdes ↔ k ∈ (c.kmap.flatMap Kmap.pages).map pdx := by
  unfold kvmPdes
  exact List.mem_toFinset

theorem lt_of_mem_kvmPdes (hk : k ∈ c.kvmPdes) : k < npdEntries := by
  obtain ⟨v, hv, rfl⟩ := List.mem_map.mp (c.mem_kvmPdes.mp hk)
  obtain ⟨e, he, hv⟩ := List.mem_flatMap.mp hv
  exact PageDir.pdx_lt (c.kmap_pages he hv).2

theorem le_of_mem_kvmPdes (hk : k ∈ c.kvmPdes) : userPages ≤ npdEntries * k := by
  obtain ⟨v, hv, rfl⟩ := List.mem_map.mp (c.mem_kvmPdes.mp hk)
  obtain ⟨e, he, hv⟩ := List.mem_flatMap.mp hv
  have hle := (c.kmap_pages he hv).1
  unfold userPages at hle
  unfold userPages pdx npdEntries
  omega

/-- The number of page tables that `setupkvm` takes. -/
def kvmTables : ℕ := c.kvmPdes.card

end Platform

/-- One range after the other. -/
theorem KernelMapped.trans {r' : List Page × PageDir × Bool} (h : KernelMapped vs free d r)
    (hok : r.2.2 = true) (h' : KernelMapped ws r.1 r.2.1 r') :
    KernelMapped (vs ++ ws) free d r' where
  owned := h'.owned.trans h.owned
  frame v hv := by
    rw [List.mem_append, not_or] at hv
    rw [h'.frame v hv.2, h.frame v hv.1]
  mono k hk := h'.mono k (h.mono k hk)
  only k hk := by
    rw [List.map_append, List.mem_append]
    rcases h'.only k hk with hk | hk
    · exact (h.only k hk).imp_right .inl
    · exact .inr (.inr hk)
  success hok' k hk := by
    rw [List.map_append, List.mem_append] at hk
    rcases hk with hk | hk
    · exact h'.mono k (h.success hok k hk)
    · exact h'.success hok' k hk
  failure hfail := by
    obtain ⟨hfree, k, hk, hnone⟩ := h'.failure hfail
    exact ⟨hfree, k, by rw [List.map_append]; exact List.mem_append_right _ hk, hnone⟩

/-- A range that failed ends the loop. -/
theorem KernelMapped.append (h : KernelMapped vs free d r) (hfail : r.2.2 = false) (ws : List ℕ) :
    KernelMapped (vs ++ ws) free d r := { h with
  frame v hv := by
    rw [List.mem_append, not_or] at hv
    exact h.frame v hv.1
  only k hk := by
    rw [List.map_append, List.mem_append]
    exact (h.only k hk).imp_right .inl
  success hok := by
    rw [hfail] at hok
    cases hok
  failure _ := by
    obtain ⟨hfree, k, hk, hnone⟩ := h.failure hfail
    exact ⟨hfree, k, by rw [List.map_append]; exact List.mem_append_left _ hk, hnone⟩ }

/-- What is left to map after a range is still fresh. -/
theorem PageDir.Fresh.append (h : d.Fresh (vs ++ ws)) (hr : KernelMapped vs free d r) :
    r.2.1.Fresh ws := by
  obtain ⟨hnodup, hnone⟩ := h
  obtain ⟨-, hws, hdisj⟩ := List.nodup_append.mp hnodup
  refine ⟨hws, fun w hw => ?_⟩
  rw [hr.frame w fun hv => hdisj w hv w hw rfl]
  exact hnone w (List.mem_append_right _ hw)

theorem kmapLoop_spec {ks : List Kmap}
    (hks : ∀ k ∈ ks, ∀ v ∈ k.pages, userPages ≤ v ∧ v < nPages) (free : List Page) (d : PageDir) :
    Meets (kmapLoop free d ks) (fun e => e = .remap ∧ ¬ d.Fresh (ks.flatMap Kmap.pages))
      (KernelMapped (ks.flatMap Kmap.pages) free d) := by
  induction ks generalizing free d with
  | nil => exact mapLoop_kernel (List.forall_mem_nil _) 0 false false
  | cons k ks ih =>
    obtain ⟨hk, hks⟩ := List.forall_mem_cons.mp hks
    refine Meets.bind (P := KernelMapped k.pages free d) ?_ ?_
    · refine (mapLoop_kernel hk (k.physStart / pgSize) k.writable false).mono_error fun e he => ?_
      refine ⟨he.1, fun hfresh => he.2 ⟨(List.nodup_append.mp hfresh.1).1, fun v hv => ?_⟩⟩
      exact hfresh.2 v (List.mem_append_left _ hv)
    · rintro ⟨free₁, d₁, ok⟩ h₁
      cases ok with
      | false => exact Meets.pure (h₁.append rfl _)
      | true =>
        refine ((ih hks free₁ d₁).mono_error fun e he => ?_).mono fun r hr => h₁.trans rfl hr
        exact ⟨he.1, fun hfresh => he.2 (hfresh.append h₁)⟩

/-- The number of page tables. -/
theorem PageDir.card_tables (d : PageDir) :
    d.tables.card = ((Finset.range npdEntries).filter fun k => (d.pde k).isSome).card := by
  rw [tables, Multiset.card_sum, Finset.card_filter]
  refine Finset.sum_congr rfl fun k _ => ?_
  cases d.pde k <;> rfl

/-- An address space without user memory. -/
theorem PageDir.card_owned_of_user (h : ∀ v < userPages, d.pteAt v = none) :
    d.owned.card = 1 + ((Finset.range npdEntries).filter fun k => (d.pde k).isSome).card := by
  have huser : d.user = 0 := by
    refine Finset.sum_eq_zero fun v hv => ?_
    rw [h v (Finset.mem_range.mp hv)]
    rfl
  rw [owned, huser, add_zero, Multiset.card_add, Multiset.card_singleton, card_tables]

/-- What `setupkvm` returns: an address space without user memory, for one page and the page tables
of `kmap`; or everything back, because these were not there. -/
structure Setup (c : Platform) (free free' : List Page) (d : PageDir) : Prop where
  owned : ↑free' + d.owned = (free : Multiset Page)
  length : free'.length + (1 + c.kvmTables) = free.length
  user : ∀ v < userPages, d.pteAt v = none
  pde : ∀ k, d.pde k ≠ none ↔ k ∈ c.kvmPdes

/-- The empty page directory. -/
theorem PageDir.owned_empty (p : Page) : owned ⟨p, fun _ => none⟩ = {p} := by
  have htables : tables ⟨p, fun _ => none⟩ = 0 := Finset.sum_eq_zero fun _ _ => rfl
  have huser : user ⟨p, fun _ => none⟩ = 0 := Finset.sum_eq_zero fun _ _ => rfl
  rw [owned, htables, huser, add_zero, add_zero]

section Setupkvm

variable {c : Platform} {p : Page} {free : List Page} {r : List Page × PageDir × Bool}
  (hr : KernelMapped (c.kmap.flatMap Kmap.pages) free ⟨p, fun _ => none⟩ r)

include hr

theorem KernelMapped.owned_eq : ↑r.1 + r.2.1.owned = ((p :: free : List Page) : Multiset Page) := by
  rw [hr.owned, PageDir.owned_empty, ← Multiset.cons_coe, ← Multiset.singleton_add, add_comm]

theorem KernelMapped.user (v : ℕ) (hv : v < userPages) : r.2.1.pteAt v = none := by
  refine hr.frame v fun hmem => ?_
  obtain ⟨k, hk, hv'⟩ := List.mem_flatMap.mp hmem
  exact absurd hv (not_lt.mpr (c.kmap_pages hk hv').1)

theorem KernelMapped.mem_kvmPdes (hk : r.2.1.pde k ≠ none) : k ∈ c.kvmPdes := by
  rcases hr.only k hk with hk | hk
  · exact absurd rfl hk
  · exact c.mem_kvmPdes.mpr hk

/-- The free list got shorter by the number of page tables. -/
theorem KernelMapped.length_eq : r.1.length +
    ((Finset.range npdEntries).filter fun k => (r.2.1.pde k).isSome).card = free.length := by
  have hcard := congrArg Multiset.card hr.owned_eq
  rw [Multiset.card_add, Multiset.coe_card, Multiset.coe_card,
    PageDir.card_owned_of_user hr.user, List.length_cons] at hcard
  omega

theorem KernelMapped.setup (hok : r.2.2 = true) : Setup c (p :: free) r.1 r.2.1 := by
  have hpde : ∀ k, r.2.1.pde k ≠ none ↔ k ∈ c.kvmPdes := fun k =>
    ⟨hr.mem_kvmPdes, fun hk => hr.success hok k (c.mem_kvmPdes.mp hk)⟩
  have hfilter : ((Finset.range npdEntries).filter fun k => (r.2.1.pde k).isSome) = c.kvmPdes := by
    ext k
    rw [Finset.mem_filter, Option.isSome_iff_ne_none, hpde k, and_iff_right_iff_imp]
    intro hk
    exact Finset.mem_range.mpr (c.lt_of_mem_kvmPdes hk)
  have hlength := hr.length_eq
  rw [hfilter] at hlength
  refine ⟨hr.owned_eq, ?_, hr.user, hpde⟩
  rw [List.length_cons, ← hlength, Platform.kvmTables]
  omega

/-- If the loop failed, there were fewer pages than page tables to make. -/
theorem KernelMapped.length_lt (hfail : r.2.2 = false) :
    (p :: free).length < 1 + c.kvmTables := by
  obtain ⟨hnil, k, hk, hnone⟩ := hr.failure hfail
  have hlength := hr.length_eq
  rw [hnil, List.length_nil, zero_add] at hlength
  have hlt : ((Finset.range npdEntries).filter fun k => (r.2.1.pde k).isSome).card <
      c.kvmTables := by
    refine Finset.card_lt_card (Finset.ssubset_iff_of_subset ?_ |>.mpr ⟨k, ?_, ?_⟩)
    · intro j hj
      rw [Finset.mem_filter, Option.isSome_iff_ne_none] at hj
      exact hr.mem_kvmPdes hj.2
    · exact c.mem_kvmPdes.mpr hk
    · simp [hnone]
  rw [List.length_cons]
  omega

end Setupkvm

theorem setupkvm_spec (c : Platform) (free : List Page) :
    Meets (setupkvm c free) (BadFree c free) fun r =>
      match r.2 with
      | some d => Setup c free r.1 d
      | none => (r.1 : Multiset Page) = free ∧ free.length < 1 + c.kvmTables := by
  unfold setupkvm
  cases free with
  | nil => exact Meets.pure ⟨rfl, by simp⟩
  | cons p free =>
    have hphystop : ¬ devSpace < kernBase + phyStop := by
      unfold devSpace kernBase phyStop
      omega
    dsimp only [kalloc]
    rw [if_neg hphystop]
    refine ((kmapLoop_spec (fun k hk v => c.kmap_pages hk) free
      ⟨p, fun _ => none⟩).mono_error fun e he => ?_).bind ?_
    · exact absurd ⟨c.nodup_kmap, fun _ _ => rfl⟩ he.2
    rintro ⟨free₁, d, ok⟩ hr
    have howned : ↑free₁ + d.owned = ((p :: free : List Page) : Multiset Page) := hr.owned_eq
    cases ok with
    | true => exact Meets.pure (hr.setup rfl)
    | false =>
      have hle : d.owned ≤ ((p :: free : List Page) : Multiset Page) := by
        rw [← howned]
        exact Multiset.le_add_left _ _
      refine ((freevm_spec c free₁ d).mono_error fun _ he => he.mono hle).bind
        fun free' hfree' => Meets.pure ⟨?_, hr.length_lt rfl⟩
      exact hfree'.trans howned

/-! ## User memory -/

/-- A page that is held in a variable. -/
def varPage (mem : Option Page) : Multiset Page := mem.elim 0 fun p => {p}

section User

variable {c : Platform} {free : List Page} {d : PageDir}

theorem coe_cons_eq (p : Page) (free : List Page) :
    ((p :: free : List Page) : Multiset Page) = ↑free + {p} := by
  rw [← Multiset.cons_coe, ← Multiset.singleton_add, add_comm]

theorem allocLoop_spec (hn : v + n ≤ userPages) :
    Returns (allocLoop c free d v n) fun r =>
      ↑r.1 + r.2.1.owned + varPage r.2.2.2 = ↑free + d.owned ∧
        (r.2.2.1 = true → r.2.2.2 = none) := by
  induction n generalizing free d v with
  | zero => exact Meets.pure ⟨add_zero _, fun _ => rfl⟩
  | succ n ih =>
    cases free with
    | nil => exact Meets.pure ⟨add_zero _, fun _ => rfl⟩
    | cons mem free =>
      rw [coe_cons_eq]
      refine (mapLoop_user (by omega) mem true true).any_error.bind ?_
      rintro ⟨free₁, d₁, ok⟩ h₁
      cases ok with
      | true =>
        have howned : ↑free₁ + d₁.owned = ↑free + d.owned + {mem} := h₁.owned
        refine (ih (by omega)).mono fun r hr => ⟨hr.1.trans ?_, hr.2⟩
        rw [howned, add_right_comm]
      | false =>
        have howned : ↑free₁ + d₁.owned = ↑free + d.owned + 0 := h₁.owned
        refine Meets.pure ⟨?_, by rintro ⟨⟩⟩
        show ↑free₁ + d₁.owned + {mem} = _
        rw [howned, add_zero, add_right_comm]

theorem allocuvm_spec (oldsz : UserSize) (newsz : ℕ) :
    Returns (allocuvm c free d oldsz newsz) fun r =>
      ↑r.1 + r.2.1.owned = ↑free + d.owned := by
  unfold allocuvm
  split
  · exact Meets.pure rfl
  · next hlt =>
    split
    · exact Meets.pure rfl
    · next hle =>
      have hpages : pgRoundUp oldsz + (pgRoundUp newsz - pgRoundUp oldsz) ≤ userPages := by
        have hold := pgRoundUp_le oldsz
        have hnew : pgRoundUp newsz ≤ userPages := pgRoundUp_le ⟨newsz, by omega⟩
        omega
      refine (allocLoop_spec hpages).bind ?_
      rintro ⟨free₁, d₁, ok, mem⟩ ⟨h₁, hmem⟩
      cases ok with
      | true =>
        obtain rfl := hmem rfl
        exact Meets.pure ((add_zero _).symm.trans h₁)
      | false =>
        refine (deallocuvm_spec _ _).any_error.bind ?_
        rintro ⟨free₂, d₂, sz⟩ ⟨h₂, -⟩
        cases mem with
        | none =>
          exact Meets.pure (h₂.trans ((add_zero _).symm.trans h₁))
        | some mem =>
          refine (kfree_spec c free₂ mem).any_error.bind fun free₃ h₃ => Meets.pure ?_
          rw [h₃, add_right_comm, h₂]
          exact h₁

theorem clearpteu_spec (hv : v < userPages) :
    Returns (clearpteu d v) fun d' => d'.owned = d.owned := by
  unfold clearpteu
  split
  · exact Meets.throw trivial
  · next t hpde =>
    have hset := PageDir.owned_setPte_user (d := d) (v := v) (by simp [hpde]) hv
      ((d.pteAt v).map fun e => { e with user := false })
    have hpage : ptePage ((d.pteAt v).map fun e => { e with user := false }) =
        ptePage (d.pteAt v) := by
      cases d.pteAt v <;> rfl
    rw [hpage] at hset
    exact Meets.pure (add_right_cancel hset)

/-! ## Copying -/

/-- Page tables for the first `v` pages of user memory. -/
def tablesBelow (v : ℕ) : ℕ := (v + (npdEntries - 1)) / npdEntries

/-- With `left` free pages, `kalloc` gives out the last one for page `v'` of the copy, and none is
left for its page table. The page tables of user memory begin at the multiples of 1024. -/
def Starves (left v n : ℕ) : Prop :=
  ∃ q, v ≤ npdEntries * q ∧ npdEntries * q < v + n ∧
    left + (v + tablesBelow v) = (npdEntries + 1) * q + 1

/-- What the loop of `copyuvm` leaves: everything is accounted for, but for a `mem` that `mappages`
found no page table for. -/
structure Copied (free : List Page) (d : PageDir) (starves : Prop)
    (r : List Page × PageDir × Bool) : Prop where
  owned : ∃ lost : Multiset Page, ↑r.1 + r.2.1.owned + lost = ↑free + d.owned ∧
    (lost ≠ 0 ↔ starves)
  failed : starves → r.2.2 = false

theorem not_starves_nil (v n : ℕ) : ¬ Starves 0 v n := by
  rintro ⟨q, hlo, -, heq⟩
  unfold tablesBelow npdEntries at *
  omega

/-- The first page in a new page table, for which there is one free page only. -/
theorem starves_one (hv : v = npdEntries * pdx v) : Starves 1 v (n + 1) := by
  refine ⟨pdx v, hv.le, by omega, ?_⟩
  unfold tablesBelow pdx npdEntries at *
  omega

/-- One page copied. -/
theorem starves_succ {left left' : ℕ}
    (h : v ≠ npdEntries * pdx v ∧ left = left' + 1 ∨ v = npdEntries * pdx v ∧ left = left' + 2) :
    Starves left' (v + 1) n ↔ Starves left v (n + 1) := by
  have hconst : left' + (v + 1 + tablesBelow (v + 1)) = left + (v + tablesBelow v) := by
    unfold tablesBelow pdx npdEntries at *
    omega
  unfold Starves
  rw [hconst]
  constructor
  · rintro ⟨q, hlo, hhi, heq⟩
    exact ⟨q, by omega, by omega, heq⟩
  · rintro ⟨q, hlo, hhi, heq⟩
    refine ⟨q, lt_of_le_of_ne hlo ?_, by omega, heq⟩
    rintro rfl
    unfold tablesBelow pdx npdEntries at *
    omega

theorem copyLoop_spec (src : PageDir) (hn : v + n ≤ userPages)
    (hpde : ∀ k, npdEntries * k < userPages → (d.pde k ≠ none ↔ npdEntries * k < v))
    (hfresh : ∀ u, v ≤ u → u < userPages → d.pteAt u = none) :
    Meets (copyLoop free src d v n) (fun _ => ∃ u, v ≤ u ∧ u < v + n ∧ src.pteAt u = none)
      (Copied free d (Starves free.length v n)) := by
  induction n generalizing free d v with
  | zero =>
    have hnot : ¬ Starves free.length v 0 := by
      rintro ⟨q, hlo, hhi, -⟩
      omega
    exact Meets.pure ⟨⟨0, add_zero _, by simp [hnot]⟩, fun h => absurd h hnot⟩
  | succ n ih =>
    have hv : v < userPages := by omega
    have hmul : npdEntries * pdx v ≤ v := Nat.mul_div_le v npdEntries
    have hself := hpde (pdx v) (hmul.trans_lt hv)
    rw [copyLoop]
    split
    · next hnone => exact Meets.throw ⟨v, le_rfl, by omega, PageDir.pteAt_eq_none hnone⟩
    split
    · next hnone => exact Meets.throw ⟨v, le_rfl, by omega, hnone⟩
    next e he =>
    cases free with
    | nil =>
      have hnot := not_starves_nil v (n + 1)
      exact Meets.pure ⟨⟨0, add_zero _, by simp [hnot]⟩, fun h => absurd h hnot⟩
    | cons mem free =>
      refine ((mapLoop_user hv mem e.writable e.user).mono_error fun _ he =>
        absurd (hfresh v le_rfl hv) he.2).bind ?_
      rintro ⟨free₁, d₁, ok⟩ h₁
      cases ok with
      | false =>
        -- `goto bad` with `mem` in hand
        obtain ⟨rfl, hnone⟩ := h₁.failure rfl
        have hstart : v = npdEntries * pdx v := by
          by_contra hne
          exact hself.mpr (lt_of_le_of_ne hmul (Ne.symm hne)) hnone
        have hstarves : Starves [mem].length v (n + 1) := starves_one hstart
        have howned : ↑free₁ + d₁.owned = ↑([] : List Page) + d.owned + 0 := h₁.owned
        refine Meets.pure ⟨⟨{mem}, ?_, ?_⟩, fun _ => rfl⟩
        · rw [howned, add_zero, coe_cons_eq, add_right_comm]
        · exact ⟨fun _ => hstarves, fun _ => Multiset.singleton_ne_zero mem⟩
      | true =>
        have howned : ↑free₁ + d₁.owned = ↑free + d.owned + {mem} := h₁.owned
        have hpde₁ : ∀ k, npdEntries * k < userPages →
            (d₁.pde k ≠ none ↔ npdEntries * k < v + 1) := by
          intro k hk
          rw [h₁.pde rfl k, hpde k hk]
          unfold pdx npdEntries
          omega
        have hlength : v ≠ npdEntries * pdx v ∧ (mem :: free).length = free₁.length + 1 ∨
            v = npdEntries * pdx v ∧ (mem :: free).length = free₁.length + 2 := by
          by_cases hnone : d.pde (pdx v) = none
          · have hnew : free₁.length + 1 = free.length := h₁.new rfl hnone
            refine .inr ⟨?_, by rw [List.length_cons]; omega⟩
            by_contra hne
            exact hself.mpr (lt_of_le_of_ne hmul (Ne.symm hne)) hnone
          · have hold : free₁ = free := h₁.old rfl hnone
            exact .inl ⟨(hself.mp hnone).ne', by rw [hold, List.length_cons]⟩
        have hfresh₁ : ∀ u, v + 1 ≤ u → u < userPages → d₁.pteAt u = none := by
          intro u hu hlt
          rw [h₁.frame u (by omega)]
          exact hfresh u (by omega) hlt
        refine ((ih (by omega) hpde₁ hfresh₁).mono_error fun _ he => ?_).mono fun r hr => ?_
        · obtain ⟨u, hlo, hhi, hnone⟩ := he
          exact ⟨u, by omega, by omega, hnone⟩
        obtain ⟨lost, hlost, hiff⟩ := hr.owned
        rw [starves_succ hlength] at hiff
        refine ⟨⟨lost, ?_, hiff⟩, fun h => hr.failed ((starves_succ hlength).mpr h)⟩
        rw [hlost, howned, coe_cons_eq, add_right_comm]

/-- What `copyuvm` returns: the copy, or nothing. A page is lost exactly if the copy starves. -/
theorem copyuvm_spec (c : Platform) (free : List Page) (src : PageDir) (sz : UserSize) :
    Meets (copyuvm c free src sz)
      (fun e => (∃ u < pgRoundUp sz, src.pteAt u = none) ∨ BadFree c free e) fun r =>
      ∃ lost : Multiset Page, ↑r.1 + r.2.elim 0 PageDir.owned + lost = (free : Multiset Page) ∧
        (lost ≠ 0 ↔ ∃ left, left + (1 + c.kvmTables) = free.length ∧
          Starves left 0 (pgRoundUp sz)) := by
  refine ((setupkvm_spec c free).mono_error fun _ he => .inr he).bind ?_
  rintro ⟨free₁, kvm⟩ h₁
  cases kvm with
  | none =>
    obtain ⟨hfree, hlt⟩ := h₁
    refine Meets.pure ⟨0, (add_zero _).trans ((add_zero _).trans hfree), ?_⟩
    have hnot : ¬ ∃ left, left + (1 + c.kvmTables) = free.length ∧
        Starves left 0 (pgRoundUp sz) := by
      rintro ⟨left, hleft, -⟩
      omega
    simp [hnot]
  | some d =>
    have hset : Setup c free free₁ d := h₁
    have hpde : ∀ k, npdEntries * k < userPages → (d.pde k ≠ none ↔ npdEntries * k < 0) := by
      intro k hk
      rw [hset.pde k]
      refine ⟨fun hmem => ?_, fun h => absurd h (Nat.not_lt_zero _)⟩
      exact absurd hk (not_lt.mpr (c.le_of_mem_kvmPdes hmem))
    have hiff : (∃ left, left + (1 + c.kvmTables) = free.length ∧
        Starves left 0 (pgRoundUp sz)) ↔ Starves free₁.length 0 (pgRoundUp sz) := by
      constructor
      · rintro ⟨left, hleft, hst⟩
        obtain rfl : left = free₁.length := by
          have := hset.length
          omega
        exact hst
      · exact fun hst => ⟨_, hset.length, hst⟩
    rw [hiff]
    refine ((copyLoop_spec src (by rw [zero_add]; exact pgRoundUp_le sz) hpde
      fun u _ hu => hset.user u hu).mono_error fun _ he => ?_).bind ?_
    · obtain ⟨u, -, hlt, hnone⟩ := he
      exact .inl ⟨u, by rwa [zero_add] at hlt, hnone⟩
    rintro ⟨free₂, d₂, ok⟩ h₂
    obtain ⟨lost, hlost, hlostIff⟩ := h₂.owned
    have htotal : ↑free₂ + d₂.owned + lost = (free : Multiset Page) := hlost.trans hset.owned
    cases ok with
    | true => exact Meets.pure ⟨lost, htotal, hlostIff⟩
    | false =>
      have hle : d₂.owned ≤ (free : Multiset Page) := by
        rw [← htotal]
        exact (Multiset.le_add_left _ _).trans (Multiset.le_add_right _ _)
      refine ((freevm_spec c free₂ d₂).mono_error fun _ he => .inr (he.mono hle)).bind
        fun free₃ h₃ => Meets.pure ⟨lost, ?_, hlostIff⟩
      show ↑free₃ + 0 + lost = _
      rw [add_zero, h₃]
      exact htotal

end User

end InuOs
