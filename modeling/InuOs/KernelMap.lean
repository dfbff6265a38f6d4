import InuOs.PageTables
import InuOs.BootParam

/-!
# Where the kernel finds its devices (`vm.c`, `graphic.c`)

`setupkvm` maps the six regions of `kmap`; the drivers then use virtual addresses that they compute
for themselves. `translate` is what the processor makes of an address, so that both sides can be
compared byte by byte.

`mappages` rounds the virtual address of a region down to a page, but takes the physical one as it
is. A region whose two addresses have different offsets in their pages is therefore mapped with that
difference (`translate_of_setup`). Of `kmap` only the frame buffer can be such a region: it ends at
`DEVSPACE`, so that it begins in the middle of a page unless its size is a number of pages.
-/

namespace InuOs.Paging

open Boot (Gpu graphicInit)
open Machine (qemu)

/-- The physical address of a virtual one, as the processor finds it. -/
def translate (k : Kernel) (pgdir : Page) (va : ℕ) : Option ℕ :=
  (pageMap k pgdir (va / pgSize)).map fun e => e.1 * pgSize + va % pgSize

/-! ## The frame buffer -/

/-- `struct graphic_pixel`, but for the byte that is not drawn. -/
structure GraphicPixel : Type where
  blue : UInt8
  green : UInt8
  red : UInt8

/-- `pixel_addr` in `graphic_draw_pixel`, in 32 bits; `x` and `y` are the bits of the two `int`s. -/
def pixelAddr (gpu : Gpu) (x y : UInt32) : ℕ :=
  4 * (y.toNat * gpu.pixelsPerLine + x.toNat) % 2 ^ 32

/-- `graphic_draw_pixel`: the stores it makes. -/
def graphicDrawPixel (gpu : Gpu) (x y : UInt32) (buffer : GraphicPixel) : List (ℕ × UInt8) :=
  let pixel := (gpu.vvramAddr + pixelAddr gpu x y) % 2 ^ 32
  [(pixel, buffer.blue), (pixel + 1, buffer.green), (pixel + 2, buffer.red)]

/-! ## One region -/

variable {c : Platform} {k k' : Kernel} {pgdir : Page}

/-- Byte `j` of a region: `mappages` has rounded the virtual address down. -/
theorem translate_of_setup (h : Setup c k pgdir) {m : Kmap} (hm : m ∈ c.kmap)
    (hphys : m.physStart % pgSize = 0) {j : ℕ} (hj : j < m.size) :
    translate k pgdir (m.virt + j) = some ((m.physStart + m.virt % pgSize + j) % 2 ^ 32) := by
  have hcovers : Kmap.Covers m ((m.virt + j) / pgSize) :=
    ⟨Nat.div_le_div_right (Nat.le_add_right ..), Nat.div_le_div_right (by omega)⟩
  have hperm : (if m.writable then pteW else 0) < pgSize := by
    split <;> decide
  rw [translate, h.kernel m hm _ hcovers, decode_entry hphys hperm, Option.map_some,
    Option.some_inj]
  unfold pgSize at hphys ⊢
  omega

/-- `setupkvm` leaves in memory what `InuOs.setupkvm` returns. -/
theorem setupkvm_agrees (hfree : FreeList c k.free) (hpvram : c.pvramAddr % pgSize = 0)
    (hend : c.pvramAddr + c.vramSize ≤ 2 ^ 32)
    (hok : setupkvm c k = .ok (some pgdir, k')) :
    InuOs.setupkvm c k.free = .ok (k'.free, some (dirOf k' pgdir)) := by
  unfold setupkvm Kernel.kalloc at hok
  cases hk : k.free with
  | nil =>
    rw [hk] at hok
    cases hok
  | cons p free =>
    rw [hk] at hfree hok
    dsimp only [InuOs.kalloc, Option.map_some] at hok
    rw [if_neg not_phystopTooHigh] at hok
    obtain ⟨⟨r, k₁⟩, hloop, hok⟩ := exists_of_bind_eq_ok hok
    have hpos := c.vramSize_pos
    have hr := (kmapLoop_kmap rfl hfree (by omega)).of_ok hloop
    split at hok
    · obtain ⟨_, -, hok⟩ := exists_of_bind_eq_ok hok
      cases hok
    · next hret =>
      cases hok
      have hvm := hr.vm fun m hm => ⟨(kmap_place hm).aligned hpvram, (kmap_place hm).fits hend⟩
      have hzero : r = 0 := hr.ret.elim And.left fun h => absurd h.1 (by omega)
      rw [dirOf_clear, hzero] at hvm
      rw [InuOs.setupkvm, InuOs.kalloc]
      dsimp only
      rw [if_neg not_phystopTooHigh, show InuOs.kmapLoop free _ _ = _ from hvm]
      rfl

/-! ## The whole map -/

/-- The entry of the frame buffer. -/
def vramEntry (c : Platform) : Kmap :=
  ⟨devSpace - c.vramSize, c.pvramAddr, c.pvramAddr + c.vramSize, true⟩

theorem vram_mem (c : Platform) : vramEntry c ∈ c.kmap := by
  simp [Platform.kmap, vramEntry]

theorem size_vram (c : Platform) : (vramEntry c).size = c.vramSize := by
  have hle := c.vramSize_le
  unfold devSpace at hle
  rw [Kmap.size, vramEntry]
  dsimp only
  omega

/-- The frame buffer as `setupkvm` and the graphics driver see it. -/
structure SameFrameBuffer (c : Platform) (gpu : Gpu) : Prop where
  pvramAddr : c.pvramAddr = gpu.pvramAddr
  vramSize : c.vramSize = gpu.vramSize

/-- `graphic_init` and `setupkvm` compute the same virtual address. -/
theorem vvramAddr_graphicInit {m : ℕ → UInt8} (h : SameFrameBuffer c (graphicInit m)) :
    (graphicInit m).vvramAddr = (vramEntry c).virt := by
  have hle := c.vramSize_le
  have hsize : c.vramSize = Boot.graphicUint m .frameSize := h.vramSize
  rw [graphicInit, vramEntry]
  dsimp only
  unfold devSpace at hle ⊢
  omega

/-- Every region of `kmap` is mapped byte by byte, and so is the frame buffer at the address that
the driver uses, and every pixel drawn inside of it. -/
structure ExactKernelMap (c : Platform) (gpu : Gpu) (k : Kernel) (pgdir : Page) : Prop where
  regions : ∀ m ∈ c.kmap, ∀ j < m.size,
    translate k pgdir (m.virt + j) = some ((m.physStart + j) % 2 ^ 32)
  frameBuffer : ∀ j < gpu.vramSize,
    translate k pgdir (gpu.vvramAddr + j) = some ((gpu.pvramAddr + j) % 2 ^ 32)
  pixels : ∀ x y buffer, pixelAddr gpu x y + 3 ≤ gpu.vramSize →
    ∀ w ∈ graphicDrawPixel gpu x y buffer, ∃ j < gpu.vramSize,
      w.1 = gpu.vvramAddr + j ∧ translate k pgdir w.1 = some ((gpu.pvramAddr + j) % 2 ^ 32)

/-- A pixel inside of the frame buffer goes to three addresses of it. -/
theorem graphicDrawPixel_inside {gpu : Gpu} {x y : UInt32} {buffer : GraphicPixel}
    (hin : pixelAddr gpu x y + 3 ≤ gpu.vramSize) (hend : gpu.vvramAddr + gpu.vramSize ≤ 2 ^ 32)
    {w : ℕ × UInt8} (hw : w ∈ graphicDrawPixel gpu x y buffer) :
    ∃ j < gpu.vramSize, w.1 = gpu.vvramAddr + j := by
  rw [graphicDrawPixel, Nat.mod_eq_of_lt (by omega)] at hw
  simp only [List.mem_cons, List.not_mem_nil, or_false] at hw
  rcases hw with rfl | rfl | rfl
  · exact ⟨pixelAddr gpu x y, by omega, rfl⟩
  · exact ⟨pixelAddr gpu x y + 1, by omega, rfl⟩
  · exact ⟨pixelAddr gpu x y + 2, by omega, rfl⟩

/-- **The kernel's map is exact precisely if the frame buffer has a whole number of pages.** For
every place of `data`, every page-aligned frame buffer that fits below `DEVSPACE`, every boot
parameters that describe it and every free list: `setupkvm` never panics, and each directory it
returns maps every byte of every region of `kmap` where `kmap` says, and the frame buffer where the
driver expects it, if and only if the size of the frame buffer is a multiple of the page size. -/
theorem kernelMap_exact_iff (c : Platform) (hpvram : c.pvramAddr % pgSize = 0)
    (hpvram' : c.pvramAddr < 2 ^ 32) (m : ℕ → UInt8) (hgpu : SameFrameBuffer c (graphicInit m))
    (k : Kernel) (hfree : FreeList c k.free) :
    (∃ r k', setupkvm c k = .ok (r, k')) ∧
      ∀ pgdir k', setupkvm c k = .ok (some pgdir, k') →
        (ExactKernelMap c (graphicInit m) k' pgdir ↔ c.vramSize % pgSize = 0) := by
  have hspec := setupkvm_spec hfree hpvram'
  obtain ⟨⟨r, k₁⟩, hok, -⟩ := hspec.exists_ok fun _ => id
  refine ⟨⟨r, k₁, hok⟩, fun pgdir k' hok' => ?_⟩
  have hsetup : Setup c k' pgdir := hspec.of_ok hok' pgdir rfl
  have hvvram := vvramAddr_graphicInit hgpu
  have hregion {e : Kmap} (he : e ∈ c.kmap) {j : ℕ} (hj : j < e.size) :=
    translate_of_setup hsetup he ((kmap_place he).aligned hpvram) hj
  constructor
  · -- the first byte of the frame buffer
    intro hexact
    have hfirst := hexact.regions _ (vram_mem c) 0 (by rw [size_vram]; exact c.vramSize_pos)
    rw [hregion (vram_mem c) (by rw [size_vram]; exact c.vramSize_pos), Option.some_inj] at hfirst
    have hle := c.vramSize_le
    rw [vramEntry] at hfirst
    dsimp only at hfirst
    unfold devSpace at hle hfirst
    unfold pgSize at hfirst ⊢
    omega
  · intro hsize
    have hregions : ∀ e ∈ c.kmap, ∀ j < e.size,
        translate k' pgdir (e.virt + j) = some ((e.physStart + j) % 2 ^ 32) := by
      intro e he j hj
      rw [hregion he hj, (kmap_place he).virt hsize, Nat.add_zero]
    have hframe : ∀ j < (graphicInit m).vramSize,
      translate k' pgdir ((graphicInit m).vvramAddr + j) =
        some (((graphicInit m).pvramAddr + j) % 2 ^ 32) := by
      intro j hj
      rw [hvvram, ← hgpu.pvramAddr]
      exact hregions _ (vram_mem c) j (by rwa [size_vram, hgpu.vramSize])
    refine ⟨hregions, hframe, fun x y buffer hin w hw => ?_⟩
    have hend : (graphicInit m).vvramAddr + (graphicInit m).vramSize ≤ 2 ^ 32 := by
      rw [hvvram, ← hgpu.vramSize, ← size_vram]
      exact (c.kmap_spec (vram_mem c)).2.2
    obtain ⟨j, hj, heq⟩ := graphicDrawPixel_inside hin hend hw
    exact ⟨j, hj, heq, by rw [heq]; exact hframe j hj⟩

/-! ## Two frame buffers -/

/-- Boot parameters with a frame buffer at `0x80000000` and its size in the given three bytes. -/
def bootMemory (size₀ size₁ size₂ : UInt8) : ℕ → UInt8 := fun a =>
  let o := a - Boot.kernelAddr .graphicConfig
  if o = 3 then 0x80
  else if o = 8 then size₀
  else if o = 9 then size₁
  else if o = 10 then size₂
  else 0

/-- A kernel with 2000 free pages. -/
def freshKernel : Kernel := ⟨fun _ _ => 0, List.range' 0x200 2000⟩

theorem freeList_freshKernel {c : Platform} (hkend : c.kend = 0x200) :
    FreeList c freshKernel.free := by
  refine ⟨List.nodup_range', fun p hp => ?_⟩
  have hp' := List.mem_range'_1.mp hp
  refine ⟨hkend ▸ hp'.1, hp'.2.trans ?_⟩
  unfold phyStop
  decide

/-- Three megabytes. -/
theorem kernelMap_exact_qemu :
    ∃ pgdir k, setupkvm qemu freshKernel = .ok (some pgdir, k) ∧
      ExactKernelMap qemu (graphicInit (bootMemory 0 0 0x30)) k pgdir := by
  have hfree : FreeList qemu freshKernel.free := freeList_freshKernel rfl
  obtain ⟨pgdir, k, hok, -⟩ := setupkvm_total hfree (by decide) (by simp [freshKernel])
  refine ⟨pgdir, k, hok, ((kernelMap_exact_iff qemu (by decide) (by decide) (bootMemory 0 0 0x30) ?_
    freshKernel hfree).2 pgdir k hok).mpr (by decide)⟩
  exact ⟨by decide +kernel, by decide +kernel⟩

/-- A machine whose screen has 800 by 600 pixels, in 1920000 bytes. -/
def svga : Platform :=
  { qemu with
    vramSize := 1920000
    vramSize_pos := by decide
    vramSize_le := by
      unfold devSpace pciBarBase pciVpOffset
      omega }

/-- The first pixel of the screen is drawn 1024 bytes behind the start of the frame buffer. -/
theorem svga_not_exact :
    ∃ pgdir k, setupkvm svga freshKernel = .ok (some pgdir, k) ∧
      SameFrameBuffer svga (graphicInit (bootMemory 0 0x4c 0x1d)) ∧
      (graphicInit (bootMemory 0 0x4c 0x1d)).pvramAddr = 0x80000000 ∧
      translate k pgdir (graphicInit (bootMemory 0 0x4c 0x1d)).vvramAddr =
      some (0x80000000 + 1024) := by
  have hgpu : SameFrameBuffer svga (graphicInit (bootMemory 0 0x4c 0x1d)) :=
    ⟨by decide +kernel, by decide +kernel⟩
  obtain ⟨pgdir, k, hok, hsetup, -⟩ :=
    setupkvm_total (freeList_freshKernel (c := svga) rfl) (by decide) (by simp [freshKernel])
  refine ⟨pgdir, k, hok, hgpu, hgpu.pvramAddr.symm, ?_⟩
  have hfirst := translate_of_setup hsetup (vram_mem svga) (by decide)
    (j := 0) (by rw [size_vram]; decide)
  rw [vvramAddr_graphicInit hgpu, ← Nat.add_zero (vramEntry svga).virt, hfirst]
  simp only [vramEntry, svga, qemu]
  unfold devSpace
  decide

end InuOs.Paging
