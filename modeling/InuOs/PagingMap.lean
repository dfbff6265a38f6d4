import InuOs.Paging
import InuOs.Lib.Except
import Mathlib.Data.Finset.Card

/-!
# Page tables as a flat map

A page directory in memory stands for a partial map from virtual pages to frames and flags
(`pageMap`). The functions of `InuOs.Paging` refine operations on that map:

* `walkpgdir` changes nothing in it, although it may install a table;
* a store into a table changes the map at one page, as no table occurs twice (`Sep`);
* `mappages` adds a range of pages, or a front part of it if `kalloc` fails (`mapLoop_spec`).

Memory also stands for a page directory as `InuOs.Vm` has it (`dirOf`). What a function makes of the
memory is what the function of that name there makes of this value: the fields `vm` say so.
-/

namespace InuOs.Paging

/-! ## Arithmetic of addresses and words -/

theorem nPages_eq : nPages = 1048576 := by
  unfold nPages
  rfl

theorem present_iff (w : ℕ) : Present w ↔ w % 2 = 1 := by
  unfold Present pteP
  rw [Nat.and_one_is_mod]
  omega

theorem not_present_zero : ¬ Present 0 := by decide

@[simp] theorem pteAddr_div (w : ℕ) : pteAddr w / pgSize = w / pgSize :=
  Nat.mul_div_cancel _ (by decide)

theorem present_or_pteP (w : ℕ) : Present (w ||| pteP) := by
  rw [present_iff]
  unfold pteP
  rcases Nat.mod_two_eq_zero_or_one w with h | h <;> simp [h]

variable {pa perm va size : ℕ} {q p : Page}

/-- The word of an entry for a frame. -/
theorem or_flags {flags : ℕ} (hpa : pa % pgSize = 0) (hflags : flags < pgSize) :
    (pa ||| flags) / pgSize = pa / pgSize ∧ (pa ||| flags) % pgSize = flags := by
  have hpow : pgSize = 2 ^ 12 := by decide
  rw [hpow] at hpa hflags ⊢
  constructor
  · rw [Nat.or_div_two_pow, Nat.div_eq_of_lt hflags, Nat.or_zero]
  · rw [Nat.or_mod_two_pow, hpa, Nat.zero_or, Nat.mod_eq_of_lt hflags]

theorem pde_word (p : Page) :
    Present (p * pgSize ||| pteP ||| pteW ||| pteU) ∧
      (p * pgSize ||| pteP ||| pteW ||| pteU) / pgSize = p := by
  have hflags : p * pgSize ||| pteP ||| pteW ||| pteU =
      p * pgSize ||| (pteW ||| pteU ||| pteP) := by
    rw [Nat.or_assoc, Nat.or_assoc]
    rfl
  rw [hflags]
  constructor
  · rw [← Nat.or_assoc]
    exact present_or_pteP _
  · rw [(or_flags (Nat.mul_mod_left p pgSize) (by decide)).1, Nat.mul_div_cancel _ (by decide)]

/-- The two indices of a page. -/
theorem pdx_ptx {v : ℕ} (hv : v < nPages) :
    pdx (v * pgSize) = v / 1024 ∧ ptx (v * pgSize) = v % 1024 := by
  rw [nPages_eq] at hv
  unfold pdx ptx pgSize
  omega

/-- An address has the indices of its page. -/
theorem walkpgdir_div (k : Kernel) (pgdir : Page) (va : ℕ) (alloc : Bool) :
    walkpgdir k pgdir va alloc = walkpgdir k pgdir (va / pgSize * pgSize) alloc := by
  have hpdx : pdx (va / pgSize * pgSize) = pdx va := by
    unfold pdx pgSize
    omega
  have hptx : ptx (va / pgSize * pgSize) = ptx va := by
    unfold ptx pgSize
    omega
  unfold walkpgdir
  rw [hpdx, hptx]

/-! ## The map of a page directory -/

/-- What an entry says, if it is present: the frame and the flags. -/
def decode (w : ℕ) : Option (Page × ℕ) := if Present w then some (w / pgSize, w % pgSize) else none

/-- The map that a page directory stands for. -/
def pageMap (k : Kernel) (pgdir : Page) (v : ℕ) : Option (Page × ℕ) :=
  if v < nPages ∧ Present (k.mem pgdir (v / 1024)) then
    decode (k.mem (k.mem pgdir (v / 1024) / pgSize) (v % 1024))
  else none

variable {k k' : Kernel} {pgdir t : Page} {v n : ℕ}

theorem div_lt_of_lt_nPages (hv : v < nPages) : v / 1024 < 1024 := by
  rw [nPages_eq] at hv
  omega

/-- The table of an entry of the directory: its page and its words. -/
def tableAt (k : Kernel) (pgdir : Page) (i : ℕ) : Option (Page × (ℕ → ℕ)) :=
  if i < 1024 ∧ Present (k.mem pgdir i) then
    some (k.mem pgdir i / pgSize, k.mem (k.mem pgdir i / pgSize))
  else none

theorem pageMap_eq (k : Kernel) (pgdir : Page) (v : ℕ) :
    pageMap k pgdir v = (tableAt k pgdir (v / 1024)).bind fun t => decode (t.2 (v % 1024)) := by
  have hiff : v < nPages ↔ v / 1024 < 1024 := by
    rw [nPages_eq]
    omega
  simp only [pageMap, tableAt, hiff]
  split <;> rfl

/-- An entry as `InuOs.Vm` has it. -/
def pteOf (e : Page × ℕ) : Pte := ⟨e.1, e.2.testBit 1, e.2.testBit 2⟩

/-- A page table as `InuOs.Vm` has it. -/
def tableOf (t : Page × (ℕ → ℕ)) : PageTable := ⟨t.1, fun j => (decode (t.2 j)).map pteOf⟩

/-- The page directory as `InuOs.Vm` has it. -/
def dirOf (k : Kernel) (pgdir : Page) : PageDir := ⟨pgdir, fun i => (tableAt k pgdir i).map tableOf⟩

theorem dirOf_pde (k : Kernel) (pgdir : Page) (i : ℕ) :
    (dirOf k pgdir).pde i = (tableAt k pgdir i).map tableOf := rfl

theorem vm_pdx (v : ℕ) : InuOs.pdx v = v / 1024 := by
  unfold InuOs.pdx npdEntries
  rfl

theorem vm_ptx (v : ℕ) : InuOs.ptx v = v % 1024 := by
  unfold InuOs.ptx npdEntries
  rfl

theorem dirOf_pteAt (k : Kernel) (pgdir : Page) (v : ℕ) :
    (dirOf k pgdir).pteAt v = (pageMap k pgdir v).map pteOf := by
  rw [PageDir.pteAt, dirOf_pde, vm_pdx, vm_ptx, pageMap_eq]
  cases tableAt k pgdir (v / 1024) <;> rfl

theorem tableAt_of_present (hv : v < nPages) (h : Present (k.mem pgdir (v / 1024))) :
    tableAt k pgdir (v / 1024) =
      some (k.mem pgdir (v / 1024) / pgSize, k.mem (k.mem pgdir (v / 1024) / pgSize)) :=
  if_pos ⟨div_lt_of_lt_nPages hv, h⟩

theorem tableAt_of_not_present {i : ℕ} (h : ¬ Present (k.mem pgdir i)) :
    tableAt k pgdir i = none :=
  if_neg fun hc => h hc.2

theorem pageMap_of_present (hv : v < nPages) (h : Present (k.mem pgdir (v / 1024))) :
    pageMap k pgdir v = decode (k.mem (k.mem pgdir (v / 1024) / pgSize) (v % 1024)) :=
  if_pos ⟨hv, h⟩

theorem pageMap_of_not_present (h : ¬ Present (k.mem pgdir (v / 1024))) :
    pageMap k pgdir v = none :=
  if_neg fun hc => h hc.2

theorem present_of_pageMap {e : Page × ℕ} (h : pageMap k pgdir v = some e) :
    Present (k.mem pgdir (v / 1024)) := by
  by_contra hp
  rw [pageMap_of_not_present hp] at h
  cases h

theorem decode_eq_none {w : ℕ} : decode w = none ↔ ¬ Present w := by
  unfold decode
  split
  · next h => simp [h]
  · next h => simp [h]

/-- The tables of a page directory are pages of their own, and none of them is free. -/
structure Sep (k : Kernel) (pgdir : Page) : Prop where
  inj : ∀ i < 1024, ∀ j < 1024, Present (k.mem pgdir i) → Present (k.mem pgdir j) →
    k.mem pgdir i / pgSize = k.mem pgdir j / pgSize → i = j
  ne : ∀ i < 1024, Present (k.mem pgdir i) → k.mem pgdir i / pgSize ≠ pgdir
  dir_notFree : pgdir ∉ k.free
  notFree : ∀ i < 1024, Present (k.mem pgdir i) → k.mem pgdir i / pgSize ∉ k.free
  nodup : k.free.Nodup

/-! ## Storing an entry -/

section Store

variable {i j w : ℕ} {p : Page}

theorem store_mem_self : (k.store p i w).mem p i = w := by
  simp [Kernel.store]

theorem store_mem_of_ne (h : q ≠ p) : (k.store p i w).mem q = k.mem q :=
  Function.update_of_ne h ..

theorem clear_mem_self : (k.clear p).mem p = fun _ => 0 := Function.update_self ..

theorem clear_mem_of_ne (h : q ≠ p) : (k.clear p).mem q = k.mem q :=
  Function.update_of_ne h ..

theorem store_mem_of_index_ne (h : j ≠ i) : (k.store p i w).mem p j = k.mem p j := by
  simp [Kernel.store, h]

end Store

/-- Store an entry in the table of page `v`. -/
abbrev Kernel.setPte (k : Kernel) (pgdir : Page) (v w : ℕ) : Kernel :=
  k.store (k.mem pgdir (v / 1024) / pgSize) (v % 1024) w

/-- A store into a table leaves the directory as it is. -/
theorem Sep.store (h : Sep k pgdir) (ht : t ≠ pgdir) (i w : ℕ) : Sep (k.store t i w) pgdir := by
  have hdir : (k.store t i w).mem pgdir = k.mem pgdir := store_mem_of_ne ht.symm
  constructor
  · rw [hdir]
    exact h.inj
  · rw [hdir]
    exact h.ne
  · exact h.dir_notFree
  · rw [hdir]
    exact h.notFree
  · exact h.nodup

section Entry

variable (h : Sep k pgdir) (hv : v < nPages) (hp : Present (k.mem pgdir (v / 1024))) (w : ℕ)
include h hv hp

theorem tableAt_store : tableAt (k.setPte pgdir v w) pgdir =
    Function.update (tableAt k pgdir) (v / 1024) (some (k.mem pgdir (v / 1024) / pgSize,
      Function.update (k.mem (k.mem pgdir (v / 1024) / pgSize)) (v % 1024) w)) := by
  have hv' := div_lt_of_lt_nPages hv
  have hdir : (k.setPte pgdir v w).mem pgdir = k.mem pgdir := store_mem_of_ne (h.ne _ hv' hp).symm
  funext i
  unfold tableAt
  rw [hdir]
  rcases eq_or_ne i (v / 1024) with rfl | hne
  · rw [if_pos ⟨hv', hp⟩, Function.update_self]
    simp [Kernel.store]
  · rw [Function.update_of_ne hne]
    split
    · next hi => rw [store_mem_of_ne fun heq => hne (h.inj _ hi.1 _ hv' hi.2 hp heq)]
    · rfl

/-- **One entry.** A store into the table of page `v` changes the map at `v` and nowhere else. -/
theorem pageMap_store :
    pageMap (k.setPte pgdir v w) pgdir = Function.update (pageMap k pgdir) v (decode w) := by
  funext u
  rw [pageMap_eq, tableAt_store h hv hp]
  rcases eq_or_ne u v with rfl | hne
  · simp
  · rw [Function.update_of_ne hne, pageMap_eq]
    by_cases hi : u / 1024 = v / 1024
    · have hj : u % 1024 ≠ v % 1024 := by omega
      simp [hi, hj, tableAt_of_present hv hp]
    · rw [Function.update_of_ne hi]

theorem dirOf_store : dirOf (k.setPte pgdir v w) pgdir =
    (dirOf k pgdir).setPte v ((decode w).map pteOf) := by
  rw [dirOf, tableAt_store h hv hp, PageDir.setPte, vm_pdx, vm_ptx]
  refine congrArg (PageDir.mk pgdir) (funext fun i => ?_)
  rcases eq_or_ne i (v / 1024) with rfl | hne
  · rw [Function.update_self, Function.update_self, dirOf_pde, tableAt_of_present hv hp]
    refine congrArg (fun f => some (PageTable.mk _ f)) (funext fun j => ?_)
    rcases eq_or_ne j (v % 1024) with rfl | hne
    · simp
    · simp [hne, tableOf]
  · rw [Function.update_of_ne hne, Function.update_of_ne hne, dirOf_pde]

end Entry

/-! ## Installing a table -/

/-- The number of tables. -/
def tables (k : Kernel) (pgdir : Page) : ℕ :=
  ((Finset.range 1024).filter fun i => Present (k.mem pgdir i)).card

theorem tables_le (k : Kernel) (pgdir : Page) : tables k pgdir ≤ 1024 :=
  (Finset.card_filter_le _ _).trans (Finset.card_range 1024).le

/-- Page `q` is neither free nor used for this page directory. -/
structure Outside (k : Kernel) (pgdir q : Page) : Prop where
  notFree : q ∉ k.free
  ne_dir : q ≠ pgdir
  ne_table : ∀ i < 1024, Present (k.mem pgdir i) → k.mem pgdir i / pgSize ≠ q

theorem Outside.of_dir (h : Outside k pgdir q) (hdir : k'.mem pgdir = k.mem pgdir)
    (hfree : q ∉ k'.free) : Outside k' pgdir q :=
  ⟨hfree, h.ne_dir, by rw [hdir]; exact h.ne_table⟩

/-- From `k` to `k'` there may be new tables, on pages that were free. The pages outside keep their
bytes. -/
structure Grown (k k' : Kernel) (pgdir : Page) : Prop where
  free : ∃ l, k.free = l ++ k'.free
  keep : ∀ i < 1024, Present (k.mem pgdir i) → k'.mem pgdir i = k.mem pgdir i
  table : ∀ i < 1024, Present (k'.mem pgdir i) →
    Present (k.mem pgdir i) ∨ k'.mem pgdir i / pgSize ∈ k.free
  count : k.free.length + tables k pgdir = k'.free.length + tables k' pgdir
  outside : ∀ q, Outside k pgdir q → k'.mem q = k.mem q

namespace Grown

theorem refl (k : Kernel) (pgdir : Page) : Grown k k pgdir :=
  ⟨⟨[], rfl⟩, fun _ _ _ => rfl, fun _ _ h => .inl h, rfl, fun _ _ => rfl⟩

theorem mem_free (h : Grown k k' pgdir) (hp : p ∈ k'.free) : p ∈ k.free := by
  obtain ⟨l, hl⟩ := h.free
  rw [hl]
  exact List.mem_append_right l hp

/-- The pages outside stay there. -/
theorem keeps (h : Grown k k' pgdir) (hq : Outside k pgdir q) : Outside k' pgdir q where
  notFree hmem := hq.notFree (h.mem_free hmem)
  ne_dir := hq.ne_dir
  ne_table i hi hp := by
    rcases h.table i hi hp with hold | hnew
    · rw [h.keep i hi hold]
      exact hq.ne_table i hi hold
    · rintro rfl
      exact hq.notFree hnew

theorem trans {k'' : Kernel} (h : Grown k k' pgdir) (h' : Grown k' k'' pgdir) :
    Grown k k'' pgdir where
  free := by
    obtain ⟨l, hl⟩ := h.free
    obtain ⟨l', hl'⟩ := h'.free
    exact ⟨l ++ l', by rw [hl, hl', List.append_assoc]⟩
  keep i hi hp := by
    have hold := h.keep i hi hp
    rw [h'.keep i hi (by rwa [hold]), hold]
  table i hi hp := by
    rcases h'.table i hi hp with hold | hnew
    · rcases h.table i hi hold with hold' | hnew
      · exact .inl hold'
      · rw [h'.keep i hi hold]
        exact .inr hnew
    · exact .inr (h.mem_free hnew)
  count := h.count.trans h'.count
  outside q hq := (h'.outside q (h.keeps hq)).trans (h.outside q hq)

/-- A store into a table. -/
theorem store (h : Grown k k' pgdir) (hs : Sep k' pgdir) {j : ℕ} (hj : j < 1024)
    (hp : Present (k'.mem pgdir j)) (i w : ℕ) :
    Grown k (k'.store (k'.mem pgdir j / pgSize) i w) pgdir := by
  have hdir : (k'.store (k'.mem pgdir j / pgSize) i w).mem pgdir = k'.mem pgdir :=
    store_mem_of_ne (hs.ne j hj hp).symm
  refine ⟨h.free, ?_, ?_, ?_, fun q hq => ?_⟩
  · rw [hdir]
    exact h.keep
  · rw [hdir]
    exact h.table
  · rw [tables, tables, hdir]
    exact h.count
  · exact (store_mem_of_ne ((h.keeps hq).ne_table j hj hp).symm).trans (h.outside q hq)

end Grown

/-- `walkpgdir` found or made the table of page `v`. -/
structure Walked (k k' : Kernel) (pgdir : Page) (v : ℕ) : Prop where
  sep : Sep k' pgdir
  present : Present (k'.mem pgdir (v / 1024))
  map : pageMap k' pgdir = pageMap k pgdir
  grown : Grown k k' pgdir
  vm : InuOs.walkpgdir k.free (dirOf k pgdir) v true = some (k'.free, dirOf k' pgdir)

/-- A free page becomes an empty table, at index `i` of the directory. -/
structure AddsTable (k k' : Kernel) (pgdir : Page) (i : ℕ) (p : Page) : Prop where
  absent : ¬ Present (k.mem pgdir i)
  present : Present (k'.mem pgdir i)
  table : k'.mem pgdir i / pgSize = p
  dir : ∀ j ≠ i, k'.mem pgdir j = k.mem pgdir j
  zero : ∀ j, k'.mem p j = 0
  same : ∀ q, q ≠ p → q ≠ pgdir → k'.mem q = k.mem q
  free : k.free = p :: k'.free

theorem addsTable {i : ℕ} {free : List Page} (h : Sep k pgdir) (hp : ¬ Present (k.mem pgdir i))
    (hfree : k.free = p :: free) :
    AddsTable k ((({ k with free := free } : Kernel).clear p).store pgdir i
      (p * pgSize ||| pteP ||| pteW ||| pteU)) pgdir i p := by
  obtain ⟨hpresent, htable⟩ := pde_word p
  have hne : pgdir ≠ p := by
    rintro rfl
    exact h.dir_notFree (hfree ▸ List.mem_cons_self)
  refine ⟨hp, by rwa [store_mem_self], by rwa [store_mem_self], fun j hj => ?_, fun j => ?_,
    fun q hq hq' => ?_, hfree⟩
  · rw [store_mem_of_index_ne hj, clear_mem_of_ne hne]
  · rw [store_mem_of_ne hne.symm, clear_mem_self]
  · rw [store_mem_of_ne hq', clear_mem_of_ne hq]

namespace AddsTable

variable {i : ℕ} {p : Page}

section

variable (h : AddsTable k k' pgdir i p)
include h

theorem mem_free : p ∈ k.free := by
  rw [h.free]
  exact List.mem_cons_self

/-- A table is the new one or was there before. -/
theorem cases {j : ℕ} (hj : Present (k'.mem pgdir j)) :
    j = i ∨ j ≠ i ∧ k'.mem pgdir j = k.mem pgdir j ∧ Present (k.mem pgdir j) := by
  rcases eq_or_ne j i with rfl | hne
  · exact .inl rfl
  · rw [h.dir j hne] at hj
    exact .inr ⟨hne, h.dir j hne, hj⟩

theorem sep (hs : Sep k pgdir) : Sep k' pgdir := by
  have hsub (q : Page) (hq : q ∈ k'.free) : q ∈ k.free := by
    rw [h.free]
    exact List.mem_cons_of_mem p hq
  have hnodup := hs.nodup
  rw [h.free] at hnodup
  obtain ⟨hnotin, hnodup⟩ := List.nodup_cons.mp hnodup
  refine ⟨fun j hj l hl hpj hpl heq => ?_, fun j hj hpj => ?_,
    fun hmem => hs.dir_notFree (hsub _ hmem), fun j hj hpj hmem => ?_, hnodup⟩
  · rcases h.cases hpj with rfl | ⟨-, hwj, hj'⟩ <;> rcases h.cases hpl with rfl | ⟨-, hwl, hl'⟩
    · rfl
    · rw [h.table, hwl] at heq
      exact absurd (heq ▸ h.mem_free) (hs.notFree l hl hl')
    · rw [h.table, hwj] at heq
      exact absurd (heq ▸ h.mem_free) (hs.notFree j hj hj')
    · rw [hwj, hwl] at heq
      exact hs.inj j hj l hl hj' hl' heq
  · rcases h.cases hpj with rfl | ⟨-, hwj, hj'⟩
    · rw [h.table]
      rintro rfl
      exact hs.dir_notFree h.mem_free
    · rw [hwj]
      exact hs.ne j hj hj'
  · rcases h.cases hpj with rfl | ⟨-, hwj, hj'⟩
    · rw [h.table] at hmem
      exact hnotin hmem
    · rw [hwj] at hmem
      exact hs.notFree j hj hj' (hsub _ hmem)

theorem tableAt (hs : Sep k pgdir) (hi : i < 1024) :
    tableAt k' pgdir = Function.update (tableAt k pgdir) i (some (p, fun _ => 0)) := by
  funext j
  unfold Paging.tableAt
  rcases eq_or_ne j i with rfl | hne
  · rw [Function.update_self, if_pos ⟨hi, h.present⟩, h.table, funext h.zero]
  · rw [Function.update_of_ne hne, h.dir j hne]
    split
    · next hj =>
      have hp : k.mem pgdir j / pgSize ≠ p := fun heq =>
        hs.notFree j hj.1 hj.2 (heq ▸ h.mem_free)
      rw [h.same _ hp (hs.ne j hj.1 hj.2)]
    · rfl

/-- The new table is empty, and there was none before. -/
theorem map (hs : Sep k pgdir) (hi : i < 1024) : pageMap k' pgdir = pageMap k pgdir := by
  funext u
  rw [pageMap_eq, pageMap_eq, h.tableAt hs hi]
  rcases eq_or_ne (u / 1024) i with hu | hne
  · rw [hu, Function.update_self, tableAt_of_not_present h.absent]
    exact decode_eq_none.mpr not_present_zero
  · rw [Function.update_of_ne hne]

theorem dirOf (hs : Sep k pgdir) (hi : i < 1024) :
    dirOf k' pgdir = (dirOf k pgdir).addTable i p := by
  rw [Paging.dirOf, h.tableAt hs hi, PageDir.addTable]
  refine congrArg (PageDir.mk pgdir) (funext fun j => ?_)
  rcases eq_or_ne j i with rfl | hne
  · simp [tableOf, decode_eq_none.mpr not_present_zero]
  · rw [Function.update_of_ne hne, Function.update_of_ne hne, dirOf_pde]

theorem tables (hi : i < 1024) :
    tables k' pgdir = tables k pgdir + 1 := by
  have hinsert : (Finset.range 1024).filter (fun j => Present (k'.mem pgdir j)) =
      insert i ((Finset.range 1024).filter fun j => Present (k.mem pgdir j)) := by
    ext j
    simp only [Finset.mem_filter, Finset.mem_range, Finset.mem_insert]
    constructor
    · rintro ⟨hj, hpj⟩
      rcases h.cases hpj with rfl | ⟨-, -, hj'⟩
      · exact .inl rfl
      · exact .inr ⟨hj, hj'⟩
    · rintro (rfl | ⟨hj, hpj⟩)
      · exact ⟨hi, h.present⟩
      · have hne : j ≠ i := by
          rintro rfl
          exact h.absent hpj
        rw [h.dir j hne]
        exact ⟨hj, hpj⟩
  rw [Paging.tables, hinsert]
  exact Finset.card_insert_of_notMem fun hmem => h.absent (Finset.mem_filter.mp hmem).2

theorem grown (hi : i < 1024) : Grown k k' pgdir where
  free := ⟨[p], h.free⟩
  keep j _ hpj := h.dir j (by rintro rfl; exact h.absent hpj)
  table j _ hpj := by
    rcases h.cases hpj with rfl | ⟨-, -, hj'⟩
    · rw [h.table]
      exact .inr h.mem_free
    · exact .inl hj'
  count := by
    rw [h.free, h.tables hi, List.length_cons]
    omega
  outside q hq := h.same q (fun heq => hq.notFree (heq ▸ h.mem_free)) hq.ne_dir

end

end AddsTable

/-- `walkpgdir` with `alloc`. It fails only if there is no free page. -/
theorem walkpgdir_alloc (h : Sep k pgdir) (hv : v < nPages) :
    (walkpgdir k pgdir (v * pgSize) true = (k, none) ∧ k.free = [] ∧
      InuOs.walkpgdir k.free (dirOf k pgdir) v true = none) ∨
    ∃ k', walkpgdir k pgdir (v * pgSize) true =
        (k', some (k'.mem pgdir (v / 1024) / pgSize, v % 1024)) ∧ Walked k k' pgdir v := by
  obtain ⟨hpdx, hptx⟩ := pdx_ptx hv
  unfold walkpgdir InuOs.walkpgdir
  rw [hpdx, hptx, dirOf_pde, vm_pdx]
  dsimp only
  split
  · next hp =>
    refine .inr ⟨k, by rw [pteAddr_div], h, hp, rfl, .refl k pgdir, ?_⟩
    rw [InuOs.walkpgdir, dirOf_pde, vm_pdx, tableAt_of_present hv hp]
    rfl
  · next hp =>
    rw [tableAt_of_not_present hp]
    cases hfree : k.free with
    | nil =>
      left
      simp [Kernel.kalloc, InuOs.kalloc, hfree]
    | cons p free =>
      right
      have hadds := addsTable h hp hfree
      have hv' := div_lt_of_lt_nPages hv
      refine ⟨_, ?_, hadds.sep h, hadds.present, hadds.map h hv', hadds.grown hv', ?_⟩
      · have hkalloc : k.kalloc = some (p, { k with free := free }) := by
          rw [Kernel.kalloc, hfree]
          rfl
        rw [hkalloc, store_mem_self, (pde_word p).2]
        rfl
      · rw [InuOs.walkpgdir, dirOf_pde, vm_pdx, tableAt_of_not_present hp, hadds.dirOf h hv', hfree]
        rfl

/-- `walkpgdir` without `alloc`. -/
theorem walkpgdir_lookup (hv : v < nPages) :
    (walkpgdir k pgdir (v * pgSize) false).2 =
      if Present (k.mem pgdir (v / 1024)) then some (k.mem pgdir (v / 1024) / pgSize, v % 1024)
      else none := by
  obtain ⟨hpdx, hptx⟩ := pdx_ptx hv
  unfold walkpgdir
  rw [hpdx, hptx]
  dsimp only
  split
  · rw [pteAddr_div]
  · rfl

/-! ## `mappages` -/

/-- The map `f` with `n` pages from `v` on replaced. -/
def mapRange (f : ℕ → Option (Page × ℕ)) (v n : ℕ) (g : ℕ → Option (Page × ℕ)) :
    ℕ → Option (Page × ℕ) :=
  fun u => if v ≤ u ∧ u < v + n then g (u - v) else f u

theorem mapRange_zero (f : ℕ → Option (Page × ℕ)) (v : ℕ) (g : ℕ → Option (Page × ℕ)) :
    mapRange f v 0 g = f := by
  funext u
  rw [mapRange, if_neg (by omega)]

theorem mapRange_succ (f : ℕ → Option (Page × ℕ)) (v n : ℕ) (g : ℕ → Option (Page × ℕ)) :
    mapRange (Function.update f v (g 0)) (v + 1) n (fun i => g (i + 1)) =
      mapRange f v (n + 1) g := by
  funext u
  unfold mapRange
  rcases eq_or_ne u v with rfl | hne
  · rw [if_neg (by omega), if_pos (by omega), Function.update_self, Nat.sub_self]
  · rw [Function.update_of_ne hne]
    by_cases hu : v + 1 ≤ u ∧ u < v + 1 + n
    · rw [if_pos hu, if_pos (by omega)]
      exact congrArg g (by omega)
    · rw [if_neg hu, if_neg (by omega)]

/-- The entry that `mappages` makes for page `i` of the range. -/
def entry (pa perm i : ℕ) : ℕ := (pa + i * pgSize) % 2 ^ 32 ||| perm ||| pteP

theorem entry_zero (perm : ℕ) (hpa : pa < 2 ^ 32) : entry pa perm 0 = pa ||| perm ||| pteP := by
  rw [entry, Nat.zero_mul, Nat.add_zero, Nat.mod_eq_of_lt hpa]

theorem entry_succ (pa perm i : ℕ) :
    entry ((pa + pgSize) % 2 ^ 32) perm i = entry pa perm (i + 1) := by
  rw [entry, entry, Nat.mod_add_mod, Nat.succ_mul, Nat.add_assoc, Nat.add_comm pgSize]

/-- The frame and the flags of an entry that `mappages` makes. -/
theorem decode_entry (hpa : pa % pgSize = 0) (hperm : perm < pgSize) (i : ℕ) :
    decode (entry pa perm i) = some ((pa + i * pgSize) % 2 ^ 32 / pgSize, perm ||| pteP) := by
  have hflags : perm ||| pteP < pgSize := by
    rw [show pgSize = 2 ^ 12 by decide] at hperm ⊢
    exact Nat.or_lt_two_pow hperm (by decide)
  have haligned : (pa + i * pgSize) % 2 ^ 32 % pgSize = 0 := by
    unfold pgSize at hpa ⊢
    omega
  obtain ⟨hdiv, hmod⟩ := or_flags haligned hflags
  rw [decode, entry, if_pos (present_or_pteP _), Nat.or_assoc, hdiv, hmod]

/-- The flags that `InuOs.Vm` knows. -/
def flags (writable user : Bool) : ℕ := (if writable then pteW else 0) ||| if user then pteU else 0

theorem pteOf_entry {writable user : Bool} (hpa : pa % pgSize = 0) (hlt : pa < 2 ^ 32) :
    (decode (entry pa (flags writable user) 0)).map pteOf = some ⟨pa / pgSize, writable, user⟩ := by
  have hbits : ∀ writable user, flags writable user < pgSize ∧
      (flags writable user ||| pteP).testBit 1 = writable ∧
      (flags writable user ||| pteP).testBit 2 = user := by decide
  obtain ⟨hflags, hwritable, huser⟩ := hbits writable user
  rw [decode_entry hpa hflags, Nat.zero_mul, Nat.add_zero, Nat.mod_eq_of_lt hlt, Option.map_some,
    pteOf, hwritable, huser]

/-- What the loop of `mappages` leaves behind, for `n + 1` pages from `v` on. -/
structure Mapped (k : Kernel) (pgdir : Page) (v n pa perm : ℕ) (r : ℤ × Kernel) : Prop where
  sep : Sep r.2 pgdir
  grown : Grown k r.2 pgdir
  map : (r.1 = 0 ∧
      pageMap r.2 pgdir = mapRange (pageMap k pgdir) v (n + 1) fun i => decode (entry pa perm i)) ∨
    (r.1 = -1 ∧ r.2.free = [] ∧ ∃ m ≤ n,
      pageMap r.2 pgdir = mapRange (pageMap k pgdir) v m fun i => decode (entry pa perm i))
  vm : ∀ writable user, perm = flags writable user → pa % pgSize = 0 → pa + n * pgSize < 2 ^ 32 →
    InuOs.mapLoop k.free (dirOf k pgdir) (pa / pgSize) writable user (List.range' v (n + 1)) =
      pure (r.2.free, dirOf r.2 pgdir, decide (r.1 = 0))

/-- The turn for page `v`, in `InuOs.Vm`. -/
def VmTurn (k k' : Kernel) (pgdir : Page) (v pa perm : ℕ) : Prop :=
  ∀ writable user, perm = flags writable user → pa % pgSize = 0 → ∀ vs,
    InuOs.mapLoop k.free (dirOf k pgdir) (pa / pgSize) writable user (v :: vs) =
      InuOs.mapLoop k'.free (dirOf k' pgdir) (pa / pgSize + 1) writable user vs

/-- The turn for page `v`, and the others. -/
theorem Mapped.succ {r : ℤ × Kernel} (hgrown : Grown k k' pgdir)
    (hmap : pageMap k' pgdir = Function.update (pageMap k pgdir) v (decode (entry pa perm 0)))
    (hvm : VmTurn k k' pgdir v pa perm)
    (h : Mapped k' pgdir (v + 1) n ((pa + pgSize) % 2 ^ 32) perm r) :
    Mapped k pgdir v (n + 1) pa perm r := by
  have hrange (m : ℕ) : mapRange (pageMap k' pgdir) (v + 1) m
      (fun i => decode (entry ((pa + pgSize) % 2 ^ 32) perm i)) =
      mapRange (pageMap k pgdir) v (m + 1) fun i => decode (entry pa perm i) := by
    simp only [entry_succ]
    rw [hmap]
    exact mapRange_succ _ v m fun i => decode (entry pa perm i)
  refine ⟨h.sep, hgrown.trans h.grown, ?_, fun writable user hperm hpa hend => ?_⟩
  · rcases h.map with ⟨hr, hm⟩ | ⟨hr, hfree, m, hle, hm⟩
    · exact .inl ⟨hr, by rw [hm, hrange]⟩
    · exact .inr ⟨hr, hfree, m + 1, by omega, by rw [hm, hrange]⟩
  · have hnext : (pa + pgSize) % 2 ^ 32 = pa + pgSize := Nat.mod_eq_of_lt (by lia)
    have hrest := h.vm writable user hperm
    rw [hnext, Nat.add_mod_right, Nat.add_div_right pa (by decide)] at hrest
    rw [List.range'_succ, hvm writable user hperm hpa]
    exact hrest hpa (by lia)

/-- `mappages` panics only if a page of the range is mapped already. -/
def Remap (k : Kernel) (pgdir : Page) (v n : ℕ) (e : Stop) : Prop :=
  e = .panic .remap ∧ ∃ i ≤ n, (pageMap k pgdir (v + i)).isSome

/-- The entry of page `v` is stored in the table that `walkpgdir` returned. -/
theorem Walked.store (h : Walked k k' pgdir v) (hv : v < nPages) (w : ℕ) :
    Sep (k'.setPte pgdir v w) pgdir ∧ Grown k (k'.setPte pgdir v w) pgdir ∧
      pageMap (k'.setPte pgdir v w) pgdir = Function.update (pageMap k pgdir) v (decode w) := by
  have hv' := div_lt_of_lt_nPages hv
  refine ⟨h.sep.store (h.sep.ne _ hv' h.present) _ _, h.grown.store h.sep hv' h.present _ _, ?_⟩
  rw [pageMap_store h.sep hv h.present, h.map]

theorem Walked.vmTurn (h : Walked k k' pgdir v) (hv : v < nPages)
    (habsent : ¬ Present (k'.mem (k'.mem pgdir (v / 1024) / pgSize) (v % 1024)))
    (hpa : pa < 2 ^ 32) : VmTurn k (k'.setPte pgdir v (entry pa perm 0)) pgdir v pa perm := by
  rintro writable user rfl haligned vs
  have hnone : (dirOf k' pgdir).pteAt v = none := by
    rw [dirOf_pteAt, pageMap_of_present hv h.present, decode_eq_none.mpr habsent]
    rfl
  rw [InuOs.mapLoop, h.vm, dirOf_store h.sep hv h.present, pteOf_entry haligned hpa]
  dsimp only
  rw [hnone]
  rfl

theorem mapLoop_spec {fuel : ℕ} (hs : Sep k pgdir) (hv : v + n < nPages) (hpa : pa < 2 ^ 32)
    (hfuel : n < fuel) :
    Meets (mapLoop pgdir ((v + n) * pgSize) perm fuel (v * pgSize) pa k) (Remap k pgdir v n)
      (Mapped k pgdir v n pa perm) := by
  induction fuel generalizing v n pa k with
  | zero => exact absurd hfuel (Nat.not_lt_zero n)
  | succ fuel ih =>
    have hv' : v < nPages := (Nat.le_add_right v n).trans_lt hv
    rw [mapLoop]
    rcases walkpgdir_alloc hs hv' with ⟨hwalk, hfree, hvm⟩ | ⟨k', hwalk, hwalked⟩
    · rw [hwalk]
      refine Meets.pure ⟨hs, .refl k pgdir, .inr ⟨rfl, hfree, 0, Nat.zero_le n, ?_⟩, ?_⟩
      · rw [mapRange_zero]
      · intro writable user _ _ _
        rw [List.range'_succ, InuOs.mapLoop, hvm]
        rfl
    · rw [hwalk]
      dsimp only
      split
      · next hpresent =>
        refine Meets.throw ⟨rfl, 0, Nat.zero_le n, ?_⟩
        rw [Nat.add_zero, ← hwalked.map, pageMap_of_present hv' hwalked.present, decode,
          if_pos hpresent]
        rfl
      · next habsent =>
        obtain ⟨hsep, hgrown, hmap⟩ := hwalked.store hv' (pa ||| perm ||| pteP)
        rw [← entry_zero perm hpa] at hmap hsep hgrown ⊢
        have hvm : VmTurn k _ pgdir v pa perm := hwalked.vmTurn hv' habsent hpa
        split
        · next hlast =>
          obtain rfl : n = 0 := by
            have := Nat.eq_of_mul_eq_mul_right (by decide) hlast
            omega
          refine Meets.pure ⟨hsep, hgrown, .inl ⟨rfl, ?_⟩, fun writable user hperm haligned _ => ?_⟩
          · rw [hmap, ← mapRange_succ, mapRange_zero]
          · exact hvm writable user hperm haligned []
        · next hlast =>
          obtain ⟨n, rfl⟩ : ∃ m, n = m + 1 := by
            refine Nat.exists_eq_succ_of_ne_zero ?_
            rintro rfl
            exact hlast rfl
          have hnext : (v * pgSize + pgSize) % 2 ^ 32 = (v + 1) * pgSize := by
            rw [nPages_eq] at hv
            unfold pgSize
            omega
          have hstop : v + (n + 1) = v + 1 + n := by omega
          rw [hnext, hstop]
          refine ((ih hsep (by omega) (Nat.mod_lt _ (by decide)) (by omega)).mono fun r hr =>
            hr.succ hgrown hmap hvm).mono_error ?_
          rintro e ⟨rfl, i, hi, hsome⟩
          refine ⟨rfl, i + 1, by omega, ?_⟩
          rwa [hmap, Function.update_of_ne (by omega), Nat.add_assoc, Nat.add_comm 1 i] at hsome

/-- The pages of the range `[va, va + size)`. -/
theorem mappages_eq (k : Kernel) (pgdir : Page) (pa perm : ℕ) (hsize : 0 < size)
    (hend : va + size ≤ 2 ^ 32) :
    mappages k pgdir va size pa perm =
      mapLoop pgdir ((va / pgSize + ((va + size - 1) / pgSize - va / pgSize)) * pgSize) perm nPages
        (va / pgSize * pgSize) pa k := by
  have hlast : (va + size + (2 ^ 32 - 1)) % 2 ^ 32 = va + size - 1 := by omega
  have hle : va / pgSize ≤ (va + size - 1) / pgSize := Nat.div_le_div_right (by omega)
  rw [mappages, pgRoundDown, pgRoundDown, hlast, Nat.add_sub_cancel' hle]

/-- **`mappages`.** It maps the pages of the range, or only a front part of them if there is no free
page for a table. -/
theorem mappages_spec (perm : ℕ) (hs : Sep k pgdir) (hsize : 0 < size) (hend : va + size ≤ 2 ^ 32)
    (hpa : pa < 2 ^ 32) :
    Meets (mappages k pgdir va size pa perm)
      (Remap k pgdir (va / pgSize) ((va + size - 1) / pgSize - va / pgSize))
      (Mapped k pgdir (va / pgSize) ((va + size - 1) / pgSize - va / pgSize) pa perm) := by
  have hle : va / pgSize ≤ (va + size - 1) / pgSize := Nat.div_le_div_right (by omega)
  have hlt : (va + size - 1) / pgSize < nPages := by
    rw [nPages_eq, Nat.div_lt_iff_lt_mul (by decide)]
    unfold pgSize
    omega
  rw [mappages_eq k pgdir pa perm hsize hend]
  exact mapLoop_spec hs (by rwa [Nat.add_sub_cancel' hle]) hpa ((Nat.sub_le ..).trans_lt hlt)

end InuOs.Paging
