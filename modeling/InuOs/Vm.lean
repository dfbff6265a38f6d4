import InuOs.Param

/-!
# Page allocator and page tables (`kalloc.c`, `vm.c`)

Physical memory is seen in pages, named by their frame number, and a function that may allocate
takes the free list and returns what is left of it.

* A `PageDir` is a page directory with the page tables it points to. Only present entries are kept;
  a cleared one is `none`. `pdx` and `ptx` split a virtual page number as `PDX` and `PTX` split an
  address.
* What user pages hold is left out: no branch of the code depends on it.
* The large constants are `irreducible`, so that no proof counts to them by unfolding.
* `copyuvm`, `allocuvm`, `exec` and `setupkvm` map pages one at a time, so that `kalloc` can fail
  between any two steps; each function returns with what it has then done.
-/

namespace InuOs

/-! ## Constants -/

/-- `PGSIZE`. -/
def pgSize : ℕ := 4096

/-- `KERNBASE`. -/
@[irreducible] def kernBase : ℕ := 0x80000000

/-- `EXTMEM`. -/
def extMem : ℕ := 0x100000

/-- `KERNLINK`. -/
def kernLink : ℕ := kernBase + extMem

/-- `PHYSTOP`. -/
@[irreducible] def phyStop : ℕ := 0x20000000

/-- `DEVSPACE`. -/
@[irreducible] def devSpace : ℕ := 0xFE000000

/-- `PCI_BAR_BASE`. -/
def pciBarBase : ℕ := 0x80000000

/-- `PCI_VP_OFFSET`. -/
def pciVpOffset : ℕ := 0x40000000

/-- The virtual page numbers below `KERNBASE`. -/
@[irreducible] def userPages : ℕ := 524288

/-- `NPDENTRIES`, also `NPTENTRIES`. -/
@[irreducible] def npdEntries : ℕ := 1024

/-- A physical page, by its frame number. -/
abbrev Page : Type := ℕ

/-- `PGROUNDUP(n) / PGSIZE`. -/
def pgRoundUp (n : ℕ) : ℕ := (n + (pgSize - 1)) / pgSize

/-- The sizes of user memory: at most `KERNBASE`. -/
abbrev UserSize : Type := Fin (kernBase + 1)

instance (priority := 2000) : NeZero (kernBase + 1) := inferInstance

/-- What the linker and the firmware decide: the symbols `data` and `end`, and the frame buffer. -/
structure Platform : Type where
  /-- the symbol `data` -/
  data : ℕ
  /-- the first page after the symbol `end` -/
  kend : Page
  /-- `gpu.pvram_addr` -/
  pvramAddr : ℕ
  /-- `gpu.vram_size` -/
  vramSize : ℕ
  kend_pos : 0 < kend
  /-- kernel.ld aligns `data` -/
  data_aligned : data % pgSize = 0
  data_gt : kernLink < data
  data_lt : data < kernBase + phyStop
  vramSize_pos : 0 < vramSize
  /-- the frame buffer fits between the PCI window and `DEVSPACE` -/
  vramSize_le : vramSize ≤ devSpace - (pciBarBase + pciVpOffset + 0x10000000)

/-! ## The allocator -/

/-- The pages that `freerange` gives to the allocator. -/
def Platform.Managed (c : Platform) (p : Page) : Prop := c.kend ≤ p ∧ p < phyStop / pgSize

instance (c : Platform) (p : Page) : Decidable (c.Managed p) := inferInstanceAs (Decidable (_ ∧ _))

/-- `kalloc`. -/
def kalloc : List Page → Option (Page × List Page)
  | [] => none
  | p :: free => some (p, free)

/-- `kfree`. -/
def kfree (c : Platform) (free : List Page) (p : Page) : Except Panic (List Page) :=
  if c.Managed p then pure (p :: free) else throw .kfree

/-! ## Page tables -/

/-- A present page-table entry. -/
structure Pte : Type where
  /-- `PTE_ADDR` -/
  page : Page
  /-- `PTE_W` -/
  writable : Bool
  /-- `PTE_U` -/
  user : Bool
  deriving DecidableEq, Repr

/-- A page table and the page it lies in. -/
structure PageTable : Type where
  page : Page
  /-- the present entries -/
  pte : ℕ → Option Pte

/-- A page directory and the page it lies in. -/
structure PageDir : Type where
  page : Page
  /-- the page tables of the present entries -/
  pde : ℕ → Option PageTable

/-- `PDX` of a virtual page number. -/
def pdx (v : ℕ) : ℕ := v / npdEntries

theorem lt_pdx_succ_mul (v : ℕ) : v < (pdx v + 1) * npdEntries := by
  unfold pdx npdEntries
  omega

/-- `PTX` of a virtual page number. -/
def ptx (v : ℕ) : ℕ := v % npdEntries

namespace PageDir

/-- The entry for a virtual page, if its page table is there and it is present. -/
def pteAt (d : PageDir) (v : ℕ) : Option Pte := (d.pde (pdx v)).bind fun t => t.pte (ptx v)

/-- Store the entry for a virtual page whose page table is there. -/
def setPte (d : PageDir) (v : ℕ) (e : Option Pte) : PageDir :=
  let t := (d.pde (pdx v)).map fun t => { t with pte := Function.update t.pte (ptx v) e }
  { d with pde := Function.update d.pde (pdx v) t }

/-- Install an empty page table. -/
def addTable (d : PageDir) (k : ℕ) (p : Page) : PageDir :=
  { d with pde := Function.update d.pde k (some ⟨p, fun _ => none⟩) }

end PageDir

/-- `walkpgdir`: `none` is the null pointer; otherwise the page table of `v` is there. -/
def walkpgdir (free : List Page) (d : PageDir) (v : ℕ) (alloc : Bool) :
    Option (List Page × PageDir) :=
  match d.pde (pdx v) with
  | some _ => some (free, d)
  | none =>
    if alloc then (kalloc free).map fun (p, free) => (free, d.addTable (pdx v) p)
    else none

/-- The loop of `mappages` over the virtual pages `vs`. A failure is `false`, and keeps the entries
made so far. -/
def mapLoop (free : List Page) (d : PageDir) (pa : Page) (writable user : Bool) :
    List ℕ → Except Panic (List Page × PageDir × Bool)
  | [] => pure (free, d, true)
  | v :: vs =>
    match walkpgdir free d v true with
    | none => pure (free, d, false)
    | some (free, d) =>
      if (d.pteAt v).isSome then throw .remap
      else mapLoop free (d.setPte v (some ⟨pa, writable, user⟩)) (pa + 1) writable user vs

/-- The number of virtual pages. -/
@[irreducible] def nPages : ℕ := 1048576

theorem userPages_lt : userPages < nPages := by
  unfold userPages nPages
  decide

/-- The `n` virtual pages from `v` on, past the top of the address space if need be. -/
def pagesFrom : ℕ → ℕ → List ℕ
  | _, 0 => []
  | v, n + 1 => v :: pagesFrom ((v + 1) % nPages) n

/-- The pages that `mappages` maps: from `PGROUNDDOWN(va)` to `PGROUNDDOWN(va + size - 1)`, in
32 bits. -/
def spanned (va size : ℕ) : List ℕ :=
  let a := va / pgSize
  let last := (va + size + (2 ^ 32 - 1)) % 2 ^ 32 / pgSize
  pagesFrom a ((last + nPages - a) % nPages + 1)

/-- `mappages`. -/
def mappages (free : List Page) (d : PageDir) (va size pa : ℕ) (writable user : Bool) :
    Except Panic (List Page × PageDir × Bool) :=
  mapLoop free d (pa / pgSize) writable user (spanned va size)

/-! ## Freeing an address space -/

/-- The loop of `deallocuvm`, from page `v` up to page `stop`. -/
def deallocLoop (c : Platform) (free : List Page) (d : PageDir) (v stop : ℕ) :
    Except Panic (List Page × PageDir) :=
  if _hv : v < stop then
    match d.pde (pdx v) with
    | none => deallocLoop c free d ((pdx v + 1) * npdEntries) stop
    | some _ =>
      match d.pteAt v with
      | none => deallocLoop c free d (v + 1) stop
      | some e => do
        if e.page = 0 then throw .kfree
        let free ← kfree c free e.page
        deallocLoop c free (d.setPte v none) (v + 1) stop
  else pure (free, d)
termination_by stop - v
decreasing_by
  · have hlt := lt_pdx_succ_mul v
    omega
  · omega
  · omega

/-- `deallocuvm`. -/
def deallocuvm (c : Platform) (free : List Page) (d : PageDir) (oldsz : UserSize) (newsz : ℕ) :
    Except Panic (List Page × PageDir × UserSize) :=
  if h : oldsz.1 ≤ newsz then pure (free, d, oldsz)
  else do
    let (free, d) ← deallocLoop c free d (pgRoundUp newsz) (pgRoundUp oldsz)
    pure (free, d, ⟨newsz, (not_le.mp h).trans oldsz.2⟩)

/-- The loop of `freevm` over the entries `ks` of the page directory. -/
def freeTables (c : Platform) (free : List Page) (d : PageDir) : List ℕ → Except Panic (List Page)
  | [] => pure free
  | k :: ks =>
    match d.pde k with
    | none => freeTables c free d ks
    | some t => do
      let free ← kfree c free t.page
      freeTables c free d ks

/-- `freevm`. -/
def freevm (c : Platform) (free : List Page) (d : PageDir) : Except Panic (List Page) := do
  let (free, d, _) ← deallocuvm c free d (Fin.last kernBase) 0
  let free ← freeTables c free d (List.range npdEntries)
  kfree c free d.page

/-! ## The kernel's part -/

/-- An entry of `kmap`. -/
structure Kmap : Type where
  virt : ℕ
  physStart : ℕ
  physEnd : ℕ
  writable : Bool

/-- `phys_end - phys_start`, in 32 bits. -/
def Kmap.size (k : Kmap) : ℕ := (k.physEnd + 2 ^ 32 - k.physStart) % 2 ^ 32

/-- `kmap`, with the frame buffer in place. -/
def Platform.kmap (c : Platform) : List Kmap :=
  [⟨kernBase, 0, extMem, true⟩,
   ⟨kernLink, kernLink - kernBase, c.data - kernBase, false⟩,
   ⟨c.data, c.data - kernBase, phyStop, true⟩,
   ⟨devSpace - c.vramSize, c.pvramAddr, c.pvramAddr + c.vramSize, true⟩,
   ⟨pciBarBase + pciVpOffset, pciBarBase, 0x10000000 + pciBarBase, true⟩,
   ⟨devSpace, devSpace, 0, true⟩]

/-- The loop of `setupkvm`. -/
def kmapLoop (free : List Page) (d : PageDir) :
    List Kmap → Except Panic (List Page × PageDir × Bool)
  | [] => pure (free, d, true)
  | k :: ks => do
    let (free, d, ok) ← mappages free d k.virt k.size k.physStart k.writable false
    if ok then kmapLoop free d ks else pure (free, d, false)

/-- `setupkvm`. -/
def setupkvm (c : Platform) (free : List Page) : Except Panic (List Page × Option PageDir) :=
  match kalloc free with
  | none => pure (free, none)
  | some (p, free) =>
    if devSpace < kernBase + phyStop then throw .phystopTooHigh
    else do
      let (free, d, ok) ← kmapLoop free ⟨p, fun _ => none⟩ c.kmap
      if ok then pure (free, some d)
      else do
        let free ← freevm c free d
        pure (free, none)

/-! ## User memory -/

/-- The loop of `allocuvm` over `n` pages from `v` on. -/
def allocLoop (c : Platform) (free : List Page) (d : PageDir) :
    ℕ → ℕ → Except Panic (List Page × PageDir × Bool × Option Page)
  | _, 0 => pure (free, d, true, none)
  | v, n + 1 =>
    match kalloc free with
    | none => pure (free, d, false, none)
    | some (mem, free) => do
      let (free, d, ok) ← mapLoop free d mem true true [v]
      if ok then allocLoop c free d (v + 1) n else pure (free, d, false, some mem)

/-- `allocuvm`; 0 is the error. -/
def allocuvm (c : Platform) (free : List Page) (d : PageDir) (oldsz : UserSize) (newsz : ℕ) :
    Except Panic (List Page × PageDir × UserSize) :=
  if h : kernBase ≤ newsz then pure (free, d, 0)
  else if newsz < oldsz then pure (free, d, oldsz)
  else do
    let (free, d, ok, mem) ←
      allocLoop c free d (pgRoundUp oldsz) (pgRoundUp newsz - pgRoundUp oldsz)
    let newsz : UserSize := ⟨newsz, by omega⟩
    if ok then pure (free, d, newsz)
    else do
      let (free, d, _) ← deallocuvm c free d newsz oldsz
      -- the page that `mappages` could not map
      match mem with
      | none => pure (free, d, 0)
      | some mem => do
        let free ← kfree c free mem
        pure (free, d, 0)

/-- The loop of `copyuvm`: copy `n` pages of `src` from `v` on into `d`. -/
def copyLoop (free : List Page) (src d : PageDir) :
    ℕ → ℕ → Except Panic (List Page × PageDir × Bool)
  | _, 0 => pure (free, d, true)
  | v, n + 1 =>
    match src.pde (pdx v) with
    | none => throw .copyuvmExist
    | some _ =>
      match src.pteAt v with
      | none => throw .copyuvmPresent
      | some e =>
        match kalloc free with
        | none => pure (free, d, false)
        | some (mem, free) => do
          let (free, d, ok) ← mapLoop free d mem e.writable e.user [v]
          if ok then copyLoop free src d (v + 1) n else pure (free, d, false)

/-- `copyuvm`. -/
def copyuvm (c : Platform) (free : List Page) (src : PageDir) (sz : UserSize) :
    Except Panic (List Page × Option PageDir) := do
  let (free, kvm) ← setupkvm c free
  match kvm with
  | none => pure (free, none)
  | some d => do
    let (free, d, ok) ← copyLoop free src d 0 (pgRoundUp sz)
    if ok then pure (free, some d)
    else do
      let free ← freevm c free d
      pure (free, none)

/-- `clearpteu`. -/
def clearpteu (d : PageDir) (v : ℕ) : Except Panic PageDir :=
  match d.pde (pdx v) with
  | none => throw .clearpteu
  | some _ => pure (d.setPte v ((d.pteAt v).map fun e => { e with user := false }))

/-- `uva2ka`: whether the page is there and the user may use it. It reads the entry that `walkpgdir`
points to, even if that is none. -/
def uva2ka (d : PageDir) (v : ℕ) : Except Panic Bool :=
  match d.pde (pdx v) with
  | none => throw .badPointer
  | some _ => pure ((d.pteAt v).any (·.user))

/-- `copyout`. -/
def copyout (d : PageDir) (va len : ℕ) : Except Panic Bool :=
  if _hlen : len = 0 then pure true
  else do
    let ok ← uva2ka d (va / pgSize)
    if !ok then pure false
    else
      let n := min (pgSize - va % pgSize) len
      copyout d ((va / pgSize + 1) * pgSize % 2 ^ 32) (len - n)
termination_by len
decreasing_by
  have hmod : va % pgSize < pgSize := Nat.mod_lt va (by decide)
  omega

end InuOs
