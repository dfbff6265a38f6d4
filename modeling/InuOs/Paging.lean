import InuOs.Vm

/-!
# Page tables in memory (`vm.c`)

`InuOs.Vm` takes a page directory with its tables for one value. Here they lie in physical memory: a
page directory is a page of 1024 words, an entry of it is the address of another such page, and
every function reads and writes words. Whether two tables are the same page is then a question.

* Addresses and words are numbers below `2 ^ 32`; sums and differences are taken modulo `2 ^ 32`.
* `kalloc` returns a page with whatever it holds; `kfree` fills it with junk.
* The loops of `mappages` and `deallocuvm` end by comparing addresses. They take a number of turns
  that is enough for the address to come around; `Stop.endless` says that this happened.
-/

namespace InuOs.Paging

/-! ## Addresses and words -/

/-- `PDX` -/
def pdx (va : ℕ) : ℕ := va / 2 ^ 22 % 1024

/-- `PTX` -/
def ptx (va : ℕ) : ℕ := va / 2 ^ 12 % 1024

/-- `PGADDR` -/
def pgAddr (d t o : ℕ) : ℕ := (d <<< 22 ||| t <<< 12 ||| o) % 2 ^ 32

/-- `PGROUNDUP` -/
def pgRoundUp (sz : ℕ) : ℕ := (sz + (pgSize - 1)) % 2 ^ 32 / pgSize * pgSize

/-- `PGROUNDDOWN` -/
def pgRoundDown (a : ℕ) : ℕ := a / pgSize * pgSize

/-- `PTE_P` -/
def pteP : ℕ := 1

/-- `PTE_W` -/
def pteW : ℕ := 2

/-- `PTE_U` -/
def pteU : ℕ := 4

/-- `*pte & PTE_P` -/
def Present (w : ℕ) : Prop := w &&& pteP ≠ 0

instance (w : ℕ) : Decidable (Present w) := inferInstanceAs (Decidable (_ ≠ _))

/-- `PTE_ADDR` -/
def pteAddr (w : ℕ) : ℕ := w / pgSize * pgSize

/-- `*pte &= ~PTE_U` -/
def clearU (w : ℕ) : ℕ := w - (w &&& pteU)

/-! ## Memory -/

/-- Physical memory, as words of pages, and the free list. -/
structure Kernel : Type where
  mem : Page → ℕ → ℕ
  free : List Page

/-- Why a function does not return. -/
inductive Stop : Type where
  | panic (p : Panic)
  /-- the loop has come around -/
  | endless
  deriving DecidableEq, Repr

namespace Kernel

/-- Store a word. -/
def store (k : Kernel) (p : Page) (i w : ℕ) : Kernel :=
  { k with mem := Function.update k.mem p (Function.update (k.mem p) i w) }

/-- `memset(p, 0, PGSIZE)` -/
def clear (k : Kernel) (p : Page) : Kernel := { k with mem := Function.update k.mem p fun _ => 0 }

/-- `kalloc` -/
def kalloc (k : Kernel) : Option (Page × Kernel) :=
  (InuOs.kalloc k.free).map fun (p, free) => (p, { k with free := free })

/-- `kfree`: the page is filled with ones, and its first word links the free list. -/
def kfree (c : Platform) (k : Kernel) (p : Page) : Except Stop Kernel :=
  match InuOs.kfree c k.free p with
  | .error e => throw (.panic e)
  | .ok free =>
    let next := (k.free.head?.map fun q => q * pgSize + kernBase).getD 0
    pure ⟨Function.update k.mem p (Function.update (fun _ => 0x01010101) 0 next), free⟩

end Kernel

/-! ## The functions -/

/-- `walkpgdir`: the page table and the index in it, or the null pointer. -/
def walkpgdir (k : Kernel) (pgdir : Page) (va : ℕ) (alloc : Bool) : Kernel × Option (Page × ℕ) :=
  let pde := k.mem pgdir (pdx va)
  if Present pde then (k, some (pteAddr pde / pgSize, ptx va))
  else if !alloc then (k, none)
  else
    match k.kalloc with
    | none => (k, none)
    | some (pgtab, k) =>
      ((k.clear pgtab).store pgdir (pdx va) (pgtab * pgSize ||| pteP ||| pteW ||| pteU),
        some (pgtab, ptx va))

/-- The loop of `mappages`, in at most so many turns. -/
def mapLoop (pgdir : Page) (last perm : ℕ) : ℕ → ℕ → ℕ → Kernel → Except Stop (ℤ × Kernel)
  | 0, _, _, _ => throw .endless
  | fuel + 1, a, pa, k =>
    match walkpgdir k pgdir a true with
    | (k, none) => pure (-1, k)
    | (k, some (pgtab, i)) =>
      if Present (k.mem pgtab i) then throw (.panic .remap)
      else
        let k := k.store pgtab i (pa ||| perm ||| pteP)
        if a = last then pure (0, k)
        else mapLoop pgdir last perm fuel ((a + pgSize) % 2 ^ 32) ((pa + pgSize) % 2 ^ 32) k

/-- `mappages` -/
def mappages (k : Kernel) (pgdir : Page) (va size pa perm : ℕ) : Except Stop (ℤ × Kernel) :=
  mapLoop pgdir (pgRoundDown ((va + size + (2 ^ 32 - 1)) % 2 ^ 32)) perm nPages
  (pgRoundDown va) pa k

/-- The loop of `deallocuvm`, in at most so many turns. -/
def deallocLoop (c : Platform) (pgdir : Page) (oldsz : ℕ) : ℕ → ℕ → Kernel → Except Stop Kernel
  | 0, _, _ => throw .endless
  | fuel + 1, a, k =>
    if a < oldsz then
      match (walkpgdir k pgdir a false).2 with
      | none =>
        let a := (pgAddr (pdx a + 1) 0 0 + (2 ^ 32 - pgSize)) % 2 ^ 32
        deallocLoop c pgdir oldsz fuel ((a + pgSize) % 2 ^ 32) k
      | some (pgtab, i) =>
        if Present (k.mem pgtab i) then
          let pa := pteAddr (k.mem pgtab i)
          if pa = 0 then throw (.panic .kfree)
          else do
            let k ← k.kfree c (pa / pgSize)
            deallocLoop c pgdir oldsz fuel ((a + pgSize) % 2 ^ 32) (k.store pgtab i 0)
        else deallocLoop c pgdir oldsz fuel ((a + pgSize) % 2 ^ 32) k
    else pure k

/-- `deallocuvm` -/
def deallocuvm (c : Platform) (k : Kernel) (pgdir : Page) (oldsz newsz : ℕ) :
    Except Stop (ℕ × Kernel) :=
  if oldsz ≤ newsz then pure (oldsz, k)
  else do
    let k ← deallocLoop c pgdir oldsz (nPages + 1) (pgRoundUp newsz) k
    pure (newsz, k)

/-- The loop of `allocuvm`, in at most so many turns: whether it got to the end, and otherwise the
page that could not be mapped. -/
def allocLoop (pgdir : Page) (newsz : ℕ) :
    ℕ → ℕ → Kernel → Except Stop (Kernel × Bool × Option Page)
  | 0, _, _ => throw .endless
  | fuel + 1, a, k =>
    if a < newsz then
      match k.kalloc with
      | none => pure (k, false, none)
      | some (mem, k) => do
        let (r, k) ← mappages (k.clear mem) pgdir a pgSize (mem * pgSize) (pteW ||| pteU)
        if r < 0 then pure (k, false, some mem)
        else allocLoop pgdir newsz fuel ((a + pgSize) % 2 ^ 32) k
    else pure (k, true, none)

/-- `allocuvm` -/
def allocuvm (c : Platform) (k : Kernel) (pgdir : Page) (oldsz newsz : ℕ) :
    Except Stop (ℕ × Kernel) :=
  if kernBase ≤ newsz then pure (0, k)
  else if newsz < oldsz then pure (oldsz, k)
  else do
    let (k, ok, mem) ← allocLoop pgdir newsz (nPages + 1) (pgRoundUp oldsz) k
    if ok then pure (newsz, k)
    else do
      let (_, k) ← deallocuvm c k pgdir newsz oldsz
      match mem with
      | none => pure (0, k)
      | some mem => do
        let k ← k.kfree c mem
        pure (0, k)

/-- The loop of `freevm` over the entries of the page directory. -/
def freeTables (c : Platform) (pgdir : Page) : List ℕ → Kernel → Except Stop Kernel
  | [], k => pure k
  | i :: is, k =>
    if Present (k.mem pgdir i) then do
      let k ← k.kfree c (pteAddr (k.mem pgdir i) / pgSize)
      freeTables c pgdir is k
    else freeTables c pgdir is k

/-- `freevm` -/
def freevm (c : Platform) (k : Kernel) (pgdir : Page) : Except Stop Kernel := do
  let (_, k) ← deallocuvm c k pgdir kernBase 0
  let k ← freeTables c pgdir (List.range 1024) k
  k.kfree c pgdir

/-- The loop of `setupkvm`. -/
def kmapLoop (pgdir : Page) : List Kmap → Kernel → Except Stop (ℤ × Kernel)
  | [], k => pure (0, k)
  | m :: ms, k => do
    let (r, k) ← mappages k pgdir m.virt m.size m.physStart (if m.writable then pteW else 0)
    if r < 0 then pure (-1, k) else kmapLoop pgdir ms k

/-- `setupkvm` -/
def setupkvm (c : Platform) (k : Kernel) : Except Stop (Option Page × Kernel) :=
  match k.kalloc with
  | none => pure (none, k)
  | some (pgdir, k) =>
    if devSpace < kernBase + phyStop then throw (.panic .phystopTooHigh)
    else do
      let (r, k) ← kmapLoop pgdir c.kmap (k.clear pgdir)
      if r < 0 then do
        let k ← freevm c k pgdir
        pure (none, k)
      else pure (some pgdir, k)

/-- `clearpteu` -/
def clearpteu (k : Kernel) (pgdir : Page) (uva : ℕ) : Except Stop Kernel :=
  match (walkpgdir k pgdir uva false).2 with
  | none => throw (.panic .clearpteu)
  | some (pgtab, i) => pure (k.store pgtab i (clearU (k.mem pgtab i)))

end InuOs.Paging
