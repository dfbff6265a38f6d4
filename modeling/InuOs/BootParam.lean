import InuOs.Lib.Writes
import InuOs.Vm

/-!
# Boot parameters (`loader.c`, `mp_uefi.c`, `graphic.c`)

The loader reserves one page at `0x50000`, writes a `struct boot_param` and a copy of the MADT
there, and starts the kernel, which reads them through a declaration of its own. The loader declares
64-bit fields; the kernel declares 32-bit fields with padding between them.

* `loaderLayout` and `kernelLayout` are the two declarations. They have the same size and agree
  where it matters, so that the kernel reads what the loader wrote (`graphicInit_handOver`,
  `madt_handOver`).
* The address of the copy is `boot_param+sizeof(struct boot_param)`, where the addition counts in
  structures and not in bytes. The copy starts 98 * 98 bytes after the structure, past the end of
  the reserved page: `handsOver_iff` says that the hand-over stays in the page for an empty MADT
  only.
-/

namespace InuOs.Boot

/-! ## The two declarations -/

/-- Fields of `struct graphic_config`, which has 64-bit fields on both sides. -/
inductive GraphicField : Type where
  | frameBase
  | frameSize
  | horizontalResolution
  | verticalResolution
  | pixelsPerLine
  deriving DecidableEq

/-- `struct graphic_config`. -/
def graphicLayout : List (GraphicField × ℕ) :=
  [(.frameBase, 8), (.frameSize, 8), (.horizontalResolution, 8), (.verticalResolution, 8),
    (.pixelsPerLine, 8)]

/-- Fields of `struct gdt`, of 8 bytes together on both sides. -/
inductive GdtField : Type where
  | limit
  | base1
  | base2
  | accessByte
  | flags
  | base3
  deriving DecidableEq

/-- `struct gdt`. -/
def gdtLayout : List (GdtField × ℕ) :=
  [(.limit, 2), (.base1, 2), (.base2, 1), (.accessByte, 1), (.flags, 1), (.base3, 1)]

/-- Fields of `struct gdt_desc`. -/
inductive GdtDescField : Type where
  | size
  | gdtAddr
  deriving DecidableEq

/-- `struct gdt_desc`. -/
def gdtDescLayout : List (GdtDescField × ℕ) := [(.size, 2), (.gdtAddr, 8)]

/-- Fields of the loader's `struct boot_param`. -/
inductive LoaderField : Type where
  | kernelEntry
  | madtAddr
  | graphicConfig
  | bootstrapGdt
  | bootstrapGdtDesc
  | kernelAddr
  deriving DecidableEq

/-- The loader's `struct boot_param`. -/
def loaderLayout : List (LoaderField × ℕ) :=
  [(.kernelEntry, 8), (.madtAddr, 8), (.graphicConfig, layoutSize graphicLayout),
    (.bootstrapGdt, layoutSize gdtLayout * 3), (.bootstrapGdtDesc, layoutSize gdtDescLayout),
    (.kernelAddr, 8)]

/-- Fields of the kernel's `struct boot_param`. -/
inductive KernelField : Type where
  | kernelEntry
  | padding1
  | madtAddr
  | padding2
  | graphicConfig
  | bootstrapGdt
  | bootstrapGdtDesc
  | kernelAddr
  deriving DecidableEq

/-- The kernel's `struct boot_param`. -/
def kernelLayout : List (KernelField × ℕ) :=
  [(.kernelEntry, 4), (.padding1, 4), (.madtAddr, 4), (.padding2, 4),
    (.graphicConfig, layoutSize graphicLayout), (.bootstrapGdt, layoutSize gdtLayout * 3),
    (.bootstrapGdtDesc, layoutSize gdtDescLayout), (.kernelAddr, 8)]

/-! ## The loader -/

/-- `BootParamAddr`, and `BOOTPARAM` in the kernel. -/
def bootParamAddr : ℕ := 0x50000

/-- The size of the page reserved by `AllocatePages`. -/
def pageBytes : ℕ := 4096

/-- `sizeof(struct boot_param)` in the loader. -/
def bootParamSize : ℕ := layoutSize loaderLayout

/-- The values of `struct graphic_config` as `GetGraphicMode` fills it in. -/
abbrev GraphicConfig : Type := GraphicField → UInt64

/-- A table of the XSDT: its signature, and the `h->len` bytes from its header on. -/
structure Sdt : Type where
  sig : List UInt8
  bytes : List UInt8
  deriving DecidableEq

/-- `!AsciiStrnCmp(h->sig,"APIC",4)` -/
def Sdt.IsMadt (t : Sdt) : Prop := t.sig = [0x41, 0x50, 0x49, 0x43]

instance (t : Sdt) : Decidable t.IsMadt := inferInstanceAs (Decidable (_ = _))

/-- The address of a field of the loader's structure. -/
def loaderAddr (f : LoaderField) : ℕ := bootParamAddr + layoutOffset loaderLayout f

/-- `boot_param+sizeof(struct boot_param)`: the sum counts structures. -/
def madtCopyAddr : ℕ := bootParamAddr + bootParamSize * layoutSize loaderLayout

/-- `boot_param->graphic_config = gconfig` -/
def graphicWrite (config : GraphicConfig) : Write where
  addr := loaderAddr .graphicConfig
  bytes := packed graphicLayout fun f => (config f).toNat

/-- The writes for one table of the XSDT. -/
def tableWrites (t : Sdt) : List Write :=
  if t.IsMadt then [⟨loaderAddr .madtAddr, leBytes 8 madtCopyAddr⟩, ⟨madtCopyAddr, t.bytes⟩]
  else []

/-- The fields of entry `i` of `bootstrap_gdt`. -/
def gdtWrites (i : ℕ) (value : GdtField → ℕ) : List Write :=
  gdtLayout.map fun (f, n) =>
    ⟨loaderAddr .bootstrapGdt + layoutSize gdtLayout * i + layoutOffset gdtLayout f,
      leBytes n (value f)⟩

/-- `set_gdt` -/
def setGdt (type base lim : UInt32) : GdtField → ℕ
  | .limit => ((lim >>> 12) &&& 0xFFFF).toNat
  | .base1 => (base &&& 0xFFFF).toNat
  | .base2 => ((base >>> 16) &&& 0xFF).toNat
  | .accessByte => (0x90 ||| type).toNat
  | .flags => ((0xC0 : UInt32) ||| ((lim >>> 28) &&& 0xF)).toNat
  | .base3 => ((base >>> 24) &&& 0xFF).toNat

/-- The writes after the tables: the kernel address and the bootstrap descriptor table. -/
def lateWrites (kernelBase : UInt64) : List Write :=
  [⟨loaderAddr .kernelAddr, leBytes 8 kernelBase.toNat⟩,
    ⟨loaderAddr .bootstrapGdtDesc + layoutOffset gdtDescLayout .size,
      leBytes 2 (layoutSize gdtLayout * 3)⟩,
    ⟨loaderAddr .bootstrapGdtDesc + layoutOffset gdtDescLayout .gdtAddr,
      leBytes 8 (loaderAddr .bootstrapGdt)⟩] ++
    gdtWrites 0 (fun _ => 0) ++ gdtWrites 1 (setGdt (0x8 ||| 0x2) 0x0 0xffffffff) ++
    gdtWrites 2 (setGdt 0x2 0x0 0xffffffff)

/-- What `UefiMain` writes for the kernel, in order. -/
def uefiMain (kernelBase : UInt64) (config : GraphicConfig) (tables : List Sdt) : List Write :=
  ⟨loaderAddr .kernelEntry, leBytes 8 kernelBase.toNat⟩ :: graphicWrite config ::
    (tables.flatMap tableWrites ++ lateWrites kernelBase)

/-! ## The kernel -/

/-- The address of a field of the kernel's structure. -/
def kernelAddr (f : KernelField) : ℕ := bootParamAddr + layoutOffset kernelLayout f

/-- `struct gpu`. -/
structure Gpu : Type where
  pvramAddr : ℕ
  vvramAddr : ℕ
  vramSize : ℕ
  horizontalResolution : ℕ
  verticalResolution : ℕ
  pixelsPerLine : ℕ
  deriving DecidableEq

/-- A field of `graphic_config`, as a `uint`. -/
def graphicUint (m : ℕ → UInt8) (f : GraphicField) : ℕ :=
  leRead m (kernelAddr .graphicConfig + layoutOffset graphicLayout f) 8 % 2 ^ 32

/-- `graphic_init` -/
def graphicInit (m : ℕ → UInt8) : Gpu where
  pvramAddr := graphicUint m .frameBase
  vvramAddr := (devSpace + 2 ^ 32 - graphicUint m .frameSize) % 2 ^ 32
  vramSize := graphicUint m .frameSize
  horizontalResolution := graphicUint m .horizontalResolution &&& 0xFFFFFFFF
  verticalResolution := graphicUint m .verticalResolution &&& 0xFFFFFFFF
  pixelsPerLine := graphicUint m .pixelsPerLine &&& 0xFFFFFFFF

/-- `boot_param->madt_addr` in `mpinit_uefi`. -/
def madtAddr (m : ℕ → UInt8) : ℕ := leRead m (kernelAddr .madtAddr) 4

/-! ## Agreement -/

/-- The declarations agree on the size of the structure and on the fields that are handed over. -/
theorem layouts_agree :
    layoutSize kernelLayout = layoutSize loaderLayout ∧
      kernelAddr .madtAddr = loaderAddr .madtAddr ∧
      kernelAddr .graphicConfig = loaderAddr .graphicConfig := by
  decide

/-- The writes after the tables stay behind `graphic_config` and inside the structure. -/
theorem lateWrites_within (kernelBase : UInt64) :
    ∀ w ∈ lateWrites kernelBase,
      bootParamAddr + 56 ≤ w.addr ∧ w.addr + w.bytes.length ≤ bootParamAddr + bootParamSize := by
  -- neither the addresses nor the lengths depend on the values
  have hspans : (lateWrites kernelBase).map (fun w => (w.addr, w.bytes.length)) =
      (lateWrites 0).map fun w => (w.addr, w.bytes.length) := rfl
  have hzero : ∀ p ∈ (lateWrites 0).map fun w => (w.addr, w.bytes.length),
      bootParamAddr + 56 ≤ p.1 ∧ p.1 + p.2 ≤ bootParamAddr + bootParamSize := by decide
  rw [← hspans] at hzero
  exact fun w hw => hzero _ (List.mem_map_of_mem hw)

section HandOver

variable (kernelBase : UInt64) (config : GraphicConfig) {before after : List Sdt} {madt : Sdt}

/-- The tables of an XSDT with one MADT. -/
structure OneMadt (before : List Sdt) (madt : Sdt) (after : List Sdt) : Prop where
  before : ∀ t ∈ before, ¬t.IsMadt
  madt : madt.IsMadt
  after : ∀ t ∈ after, ¬t.IsMadt

theorem uefiMain_eq (h : OneMadt before madt after) :
    uefiMain kernelBase config (before ++ madt :: after) =
      ⟨loaderAddr .kernelEntry, leBytes 8 kernelBase.toNat⟩ :: graphicWrite config ::
        ⟨loaderAddr .madtAddr, leBytes 8 madtCopyAddr⟩ :: ⟨madtCopyAddr, madt.bytes⟩ ::
        lateWrites kernelBase := by
  have hnone : ∀ ts : List Sdt, (∀ t ∈ ts, ¬t.IsMadt) → ts.flatMap tableWrites = [] := by
    intro ts hts
    exact List.flatMap_eq_nil_iff.mpr fun t ht => if_neg (hts t ht)
  have htables : (before ++ madt :: after).flatMap tableWrites =
      [⟨loaderAddr .madtAddr, leBytes 8 madtCopyAddr⟩, ⟨madtCopyAddr, madt.bytes⟩] := by
    rw [List.flatMap_append, List.flatMap_cons, hnone _ h.before, hnone _ h.after, tableWrites,
      if_pos h.madt]
    rfl
  rw [uefiMain, htables]
  rfl

/-- The writes after a part of the structure in front of the descriptor table are apart from it. -/
theorem apart_later {a n : ℕ} (ha : a + n ≤ bootParamAddr + 56) (bytes : List UInt8) :
    ∀ w ∈ (⟨madtCopyAddr, bytes⟩ : Write) :: lateWrites kernelBase, w.Apart a n := by
  have hcopy : bootParamAddr + 56 ≤ madtCopyAddr := by decide
  refine List.forall_mem_cons.mpr ⟨.inl (ha.trans hcopy), fun w hw => .inl (ha.trans ?_)⟩
  exact (lateWrites_within kernelBase w hw).1

variable (h : OneMadt before madt after) (m : ℕ → UInt8)
include h

/-- The kernel finds the address of the copy. -/
theorem madtAddr_handOver :
    madtAddr (applyAll (uefiMain kernelBase config (before ++ madt :: after)) m) =
      madtCopyAddr := by
  have hread : ∀ i < 4, applyAll (uefiMain kernelBase config (before ++ madt :: after)) m
      (loaderAddr .madtAddr + i) = (leBytes 8 madtCopyAddr).getD i 0 := by
    intro i hi
    rw [uefiMain_eq kernelBase config h]
    exact applyAll_get [_, _] ⟨loaderAddr .madtAddr, leBytes 8 madtCopyAddr⟩
      (by rw [length_leBytes]; omega)
      (apart_later kernelBase (by rw [length_leBytes]; decide) madt.bytes)
  rw [madtAddr, layouts_agree.2.1, leRead_eq (by decide) hread]
  decide

/-- The kernel finds the MADT, byte for byte. -/
theorem madt_handOver {i : ℕ} (hi : i < madt.bytes.length) :
    applyAll (uefiMain kernelBase config (before ++ madt :: after)) m (madtCopyAddr + i) =
      madt.bytes.getD i 0 := by
  have hsize : bootParamAddr + bootParamSize ≤ madtCopyAddr := by decide
  rw [uefiMain_eq kernelBase config h]
  refine applyAll_get [_, _, _] ⟨madtCopyAddr, madt.bytes⟩ hi fun w hw => .inr ?_
  exact (lateWrites_within kernelBase w hw).2.trans hsize

/-- The kernel reads each value of the frame buffer that fits in 32 bits. -/
theorem graphicUint_handOver {f : GraphicField} (hf : (config f).toNat < 2 ^ 32) :
    graphicUint (applyAll (uefiMain kernelBase config (before ++ madt :: after)) m) f =
      (config f).toNat := by
  have hmem : (f, 8) ∈ graphicLayout := by cases f <;> decide
  have hnodup : (graphicLayout.map Prod.fst).Nodup := by decide
  have hread : ∀ i < 8, applyAll (uefiMain kernelBase config (before ++ madt :: after)) m
      (loaderAddr .graphicConfig + layoutOffset graphicLayout f + i) =
        (leBytes 8 (config f).toNat).getD i 0 := by
    intro i hi
    have hle := layoutOffset_add_le hmem hnodup
    have hget : (graphicWrite config).bytes.getD (layoutOffset graphicLayout f + i) 0 =
        (leBytes 8 (config f).toNat).getD i 0 :=
      packed_getD hmem hnodup hi fun f => (config f).toNat
    rw [uefiMain_eq kernelBase config h, Nat.add_assoc, ← hget]
    refine applyAll_get [_] (graphicWrite config) ?_ (List.forall_mem_cons.mpr ⟨.inr ?_, ?_⟩)
    · rw [graphicWrite, length_packed]
      omega
    · exact (by decide : loaderAddr .madtAddr + 8 ≤ loaderAddr .graphicConfig)
    · refine apart_later kernelBase ?_ madt.bytes
      exact (by decide :
        loaderAddr .graphicConfig + layoutSize graphicLayout ≤ bootParamAddr + 56)
  have hpow : (256 : ℕ) ^ 8 = 2 ^ 64 := by decide
  rw [graphicUint, layouts_agree.2.2, leRead_eq le_rfl hread, hpow]
  omega

end HandOver

/-! ## Inside the page -/

/-- The `struct gpu` for the values the loader found. -/
def GraphicConfig.gpu (config : GraphicConfig) : Gpu where
  pvramAddr := (config .frameBase).toNat
  vvramAddr := (devSpace + 2 ^ 32 - (config .frameSize).toNat) % 2 ^ 32
  vramSize := (config .frameSize).toNat
  horizontalResolution := (config .horizontalResolution).toNat
  verticalResolution := (config .verticalResolution).toNat
  pixelsPerLine := (config .pixelsPerLine).toNat

/-- The hand-over is right: what is written stays inside the page, the copy of the MADT is apart
from the structure, and the kernel obtains the values and the MADT. -/
structure HandsOver (config : GraphicConfig) (madt : Sdt) (ws : List Write) (m : ℕ → UInt8) :
    Prop where
  inside : ∀ w ∈ ws, w.Within bootParamAddr pageBytes
  apart : (⟨madtAddr (applyAll ws m), madt.bytes⟩ : Write).Apart bootParamAddr bootParamSize
  graphic : graphicInit (applyAll ws m) = config.gpu
  madt : ∀ i < madt.bytes.length,
    applyAll ws m (madtAddr (applyAll ws m) + i) = madt.bytes.getD i 0

/-- **The hand-over is right exactly for an empty MADT.** For every kernel address, every frame
buffer with 32-bit values, every XSDT with one MADT of any length, and every memory. -/
theorem handsOver_iff (kernelBase : UInt64) (config : GraphicConfig)
    (hconfig : ∀ f, (config f).toNat < 2 ^ 32) (before after : List Sdt) (madt : Sdt)
    (h : OneMadt before madt after) (m : ℕ → UInt8) :
    HandsOver config madt (uefiMain kernelBase config (before ++ madt :: after)) m ↔
      madt.bytes = [] := by
  have hmask : ∀ f, (config f).toNat &&& 0xFFFFFFFF = (config f).toNat := by
    intro f
    have hand := Nat.and_two_pow_sub_one_eq_mod (config f).toNat 32
    rw [Nat.mod_eq_of_lt (hconfig f)] at hand
    exact hand
  constructor
  · intro hover
    have hinside := hover.inside
    rw [uefiMain_eq kernelBase config h] at hinside
    have hcopy := (Write.within_iff _ _ _).mp (hinside ⟨madtCopyAddr, madt.bytes⟩ (by simp))
    rcases hcopy with hnil | ⟨-, hend⟩
    · exact hnil
    · have hpast : bootParamAddr + pageBytes < madtCopyAddr := by decide
      dsimp only at hend
      omega
  · intro hnil
    constructor
    case inside =>
      have hearly : ∀ w ∈ [(⟨loaderAddr .kernelEntry, leBytes 8 kernelBase.toNat⟩ : Write),
          graphicWrite config, ⟨loaderAddr .madtAddr, leBytes 8 madtCopyAddr⟩],
          bootParamAddr ≤ w.addr ∧ w.addr + w.bytes.length ≤ bootParamAddr + bootParamSize := by
        simp only [List.forall_mem_cons, List.not_mem_nil, false_implies, implies_true, and_true,
          length_leBytes, graphicWrite, length_packed]
        decide
      have hpage : bootParamSize ≤ pageBytes := by decide
      intro w hw
      rw [uefiMain_eq kernelBase config h] at hw
      rw [Write.within_iff]
      simp only [List.mem_cons] at hw hearly
      rcases hw with hw | hw | hw | hw | hw
      · have := hearly w (.inl hw)
        exact .inr (by omega)
      · have := hearly w (.inr (.inl hw))
        exact .inr (by omega)
      · have := hearly w (.inr (.inr (.inl hw)))
        exact .inr (by omega)
      · exact .inl (by rw [hw, hnil])
      · have := lateWrites_within kernelBase w hw
        exact .inr (by omega)
    case apart =>
      rw [madtAddr_handOver kernelBase config h]
      exact .inl (show bootParamAddr + bootParamSize ≤ madtCopyAddr by decide)
    case graphic =>
      simp only [graphicInit, graphicUint_handOver kernelBase config h m (hconfig _), hmask]
      rfl
    case madt =>
      intro i hi
      rw [madtAddr_handOver kernelBase config h, madt_handOver kernelBase config h m hi]

/-- A MADT without records: the header with its length, the address of the local APIC and the
flags. -/
def madtBytes (len : UInt8) : List UInt8 :=
  [0x41, 0x50, 0x49, 0x43, len, 0, 0, 0, 3, 0xc1 - len] ++ List.replicate 26 0x20 ++
    [0x00, 0x00, 0xe0, 0xfe, 1, 0, 0, 0]

/-- The loader reads the signature, and copies as many bytes as the header says. -/
def exampleMadt (len : UInt8) : Sdt := ⟨(madtBytes len).take 4, (madtBytes len).take len.toNat⟩

theorem oneMadt_exampleMadt (len : UInt8) : OneMadt [] (exampleMadt len) [] :=
  ⟨nofun, rfl, nofun⟩

/-- A MADT that says it is empty is handed over. -/
theorem handsOver_empty :
    OneMadt [] (exampleMadt 0) [] ∧
      HandsOver (fun _ => 1024) (exampleMadt 0)
        (uefiMain 0x100000 (fun _ => 1024) ([] ++ exampleMadt 0 :: [])) fun _ => 0 :=
  ⟨oneMadt_exampleMadt 0,
    (handsOver_iff 0x100000 (fun _ => 1024) (fun _ => by decide) [] [] (exampleMadt 0)
      (oneMadt_exampleMadt 0) fun _ => 0).mpr rfl⟩

/-- A MADT of 44 bytes, the smallest one, is copied to `0x52584`, 5508 bytes past the end of the
page. -/
theorem not_handsOver_smallest :
    (⟨0x52584, madtBytes 44⟩ : Write) ∈ uefiMain 0x100000 (fun _ => 1024) [exampleMadt 44] ∧
      ¬HandsOver (fun _ => 1024) (exampleMadt 44)
        (uefiMain 0x100000 (fun _ => 1024) [exampleMadt 44]) fun _ => 0 := by
  have hwrite : (⟨0x52584, madtBytes 44⟩ : Write) ∈
      uefiMain 0x100000 (fun _ => 1024) [exampleMadt 44] := by decide
  exact ⟨hwrite, fun hover => absurd (hover.inside _ hwrite) (by decide)⟩

end InuOs.Boot
