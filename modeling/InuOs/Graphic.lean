import InuOs.KernelMap

/-!
# Drawing on the console (`console.c`, `font.c`, `graphic.c`)

`graphic_putc` keeps a cell number, from 0 up to one past the last cell of the grid, and draws
glyphs of 15 by 30 pixels. A character scrolls before it is drawn if the position is past the last
cell; a newline moves first and scrolls then. Both leave a position on the grid or one past it
(`graphicPutc_range`), so that every pixel is on a screen of 800 by 600.

The addresses are those of the frame buffer: byte `j` of it for some `j` below its size (`Inside`).
-/

namespace InuOs.Graphic

open Boot (Gpu)
open Paging (GraphicPixel pixelAddr graphicDrawPixel)

/-! ## The frame buffer -/

/-- The addresses of `n` bytes. -/
def addresses (start n : ℕ) : List ℕ := (List.range n).map fun i => (start + i) % 2 ^ 32

/-- `graphic_scroll_up`: the addresses that its `memmove` and its `memset` touch. -/
def graphicScrollUp (gpu : Gpu) (height : ℕ) : List ℕ :=
  let addrDiff := 4 * gpu.pixelsPerLine * height % 2 ^ 32
  let rest := (gpu.vramSize + 2 ^ 32 - addrDiff) % 2 ^ 32
  addresses gpu.vvramAddr rest ++ addresses (gpu.vvramAddr + addrDiff) rest ++
    addresses (gpu.vvramAddr + gpu.vramSize + 2 ^ 32 - addrDiff) addrDiff

/-- `black_pixel` -/
def blackPixel : GraphicPixel := ⟨0, 0, 0⟩

/-- `white_pixel` -/
def whitePixel : GraphicPixel := ⟨0xFF, 0xFF, 0xFF⟩

/-- The place and the colour of a pixel. -/
structure Pixel : Type where
  x : ℤ
  y : ℤ
  colour : GraphicPixel

/-- `font_render`: the pixels it draws. `font` is what is read for `font_bin[index-0x20][i]`. -/
def fontRender (font : ℤ → ℕ → UInt16) (x y index : ℤ) : List Pixel :=
  (List.range 30).flatMap fun (i : ℕ) =>
    (List.range 15).map fun (k : ℕ) =>
      -- `j` counts down from 14
      let j : ℕ := 14 - k
      { x := x + (14 - j)
        y := y + i
        colour :=
          if (font (index - 0x20) i).toNat &&& 2 ^ j = 2 ^ j then whitePixel else blackPixel }

/-! ## The console -/

/-- `BACKSPACE` -/
def backspace : ℤ := 0x100

/-- `CONSOLE_HORIZONTAL_MAX` -/
def consoleHorizontalMax : ℤ := 53

/-- `CONSOLE_VERTICAL_MAX` -/
def consoleVerticalMax : ℤ := 20

/-- `FONT_WIDTH` -/
def fontWidth : ℤ := 15

/-- `FONT_HEIGHT` -/
def fontHeight : ℤ := 30

/-- A call that `graphic_putc` makes. -/
inductive Draw : Type where
  | scrollUp (height : ℕ)
  | render (x y index : ℤ)
  deriving DecidableEq, Repr

/-- `console_pos -= CONSOLE_HORIZONTAL_MAX; graphic_scroll_up(30)`, past the end of the grid. -/
def scroll (pos : ℤ) : ℤ × List Draw :=
  if pos ≥ consoleVerticalMax * consoleHorizontalMax then
    (pos - consoleHorizontalMax, [.scrollUp 30])
  else (pos, [])

/-- `graphic_putc`, from `console_pos`. -/
def graphicPutc (pos c : ℤ) : ℤ × List Draw :=
  if c = 10 then scroll (pos + (consoleHorizontalMax - pos.tmod consoleHorizontalMax))
  else if c = backspace then (if pos > 0 then pos - 1 else pos, [])
  else
    let (pos, draws) := scroll pos
    let x := pos.tmod consoleHorizontalMax * fontWidth + 2
    let y := pos.tdiv consoleHorizontalMax * fontHeight
    (pos + 1, draws ++ [.render x y c])

/-- The initial `console_pos`. -/
def consolePos : ℤ := consoleHorizontalMax * consoleVerticalMax

/-- A sequence of calls of `graphic_putc`. -/
def putcs : ℤ → List ℤ → ℤ × List Draw
  | pos, [] => (pos, [])
  | pos, c :: cs =>
    let (pos, draws) := graphicPutc pos c
    let (pos, more) := putcs pos cs
    (pos, draws ++ more)

/-- The pixels that a call draws. -/
def Draw.pixels (font : ℤ → ℕ → UInt16) : Draw → List Pixel
  | .scrollUp _ => []
  | .render x y index => fontRender font x y index

/-- The addresses that a call touches. -/
def Draw.touched (gpu : Gpu) (font : ℤ → ℕ → UInt16) : Draw → List ℕ
  | .scrollUp height => graphicScrollUp gpu height
  | .render x y index => (fontRender font x y index).flatMap fun p =>
    (graphicDrawPixel gpu (UInt32.ofInt p.x) (UInt32.ofInt p.y) p.colour).map Prod.fst

/-! ## Cells -/

/-- `console_pos` is a cell, or one past the last cell. -/
def OnGrid (pos : ℤ) : Prop := 0 ≤ pos ∧ pos ≤ consoleHorizontalMax * consoleVerticalMax

/-- A glyph that is drawn is on the screen. -/
def Draw.OnScreen : Draw → Prop
  | .scrollUp height => height = 30
  | .render x y _ => 0 ≤ x ∧ x + 15 ≤ 800 ∧ 0 ≤ y ∧ y + 30 ≤ 600

/-- Scrolling brings a position back to the grid, also from the row below it. -/
theorem scroll_range (pos : ℤ) (h₀ : 0 ≤ pos) (h₁ : pos ≤ 1060 + 53) :
    0 ≤ (scroll pos).1 ∧ (scroll pos).1 ≤ 1060 ∧ (pos ≤ 1060 → (scroll pos).1 < 1060) ∧
      ∀ d ∈ (scroll pos).2, d.OnScreen := by
  unfold scroll consoleVerticalMax consoleHorizontalMax
  split_ifs with h
  · refine ⟨by omega, by omega, fun _ => by omega, ?_⟩
    simp [Draw.OnScreen]
  · exact ⟨by omega, by omega, fun _ => by omega, List.forall_mem_nil _⟩

variable {pos : ℤ} {d : Draw} {font : ℤ → ℕ → UInt16} {p : Pixel} {gpu : Gpu} {a : ℕ}

/-- **One call**: the position stays on the grid, and what is drawn is on the screen. -/
theorem graphicPutc_range (h : OnGrid pos) (c : ℤ) :
    OnGrid (graphicPutc pos c).1 ∧ ∀ d ∈ (graphicPutc pos c).2, d.OnScreen := by
  obtain ⟨h₀, h₁⟩ := h
  have h₁ : pos ≤ 1060 := h₁
  have hmod : pos.tmod 53 = pos % 53 := Int.tmod_eq_emod_of_nonneg h₀
  unfold graphicPutc OnGrid
  split_ifs with hnl hbs hpos
  · unfold consoleHorizontalMax consoleVerticalMax
    rw [hmod]
    obtain ⟨hlo, hhi, -, hdraw⟩ := scroll_range (pos + (53 - pos % 53)) (by omega) (by omega)
    exact ⟨⟨hlo, hhi⟩, hdraw⟩
  · exact ⟨⟨by dsimp only; omega, by dsimp only; exact (by omega : pos - 1 ≤ 1060)⟩,
      List.forall_mem_nil _⟩
  · exact ⟨⟨h₀, h₁⟩, List.forall_mem_nil _⟩
  · obtain ⟨hlo, -, hlt, hdraw⟩ := scroll_range pos h₀ (by omega)
    -- the cell that is drawn, after scrolling
    generalize hp : (scroll pos).1 = p at hlo hlt
    have hmod' : p.tmod 53 = p % 53 := Int.tmod_eq_emod_of_nonneg hlo
    have hdiv' : p.tdiv 53 = p / 53 := Int.tdiv_eq_ediv_of_nonneg hlo
    dsimp only
    rw [hp]
    unfold consoleHorizontalMax consoleVerticalMax fontWidth fontHeight
    refine ⟨⟨by omega, by omega⟩, List.forall_mem_append.mpr ⟨hdraw, ?_⟩⟩
    refine List.forall_mem_singleton.mpr ⟨by omega, by omega, by omega, by omega⟩

/-- **Any sequence of calls.** -/
theorem putcs_range (h : OnGrid pos) (cs : List ℤ) :
    OnGrid (putcs pos cs).1 ∧ ∀ d ∈ (putcs pos cs).2, d.OnScreen := by
  induction cs generalizing pos with
  | nil => exact ⟨h, List.forall_mem_nil _⟩
  | cons c cs ih =>
    obtain ⟨hpos, hdraw⟩ := graphicPutc_range h c
    obtain ⟨hpos', hdraw'⟩ := ih hpos
    exact ⟨hpos', List.forall_mem_append.mpr ⟨hdraw, hdraw'⟩⟩

/-! ## Pixels and addresses -/

/-- A pixel on a screen of 800 by 600. -/
def Pixel.OnScreen (p : Pixel) : Prop := 0 ≤ p.x ∧ p.x < 800 ∧ 0 ≤ p.y ∧ p.y < 600

theorem Draw.OnScreen.pixels (h : d.OnScreen) (hp : p ∈ d.pixels font) : p.OnScreen := by
  cases d with
  | scrollUp height => exact absurd hp List.not_mem_nil
  | render x y index =>
    obtain ⟨hx₀, hx₁, hy₀, hy₁⟩ := h
    obtain ⟨i, hi, hp⟩ := List.mem_flatMap.mp hp
    obtain ⟨k, hk, rfl⟩ := List.mem_map.mp hp
    rw [List.mem_range] at hi hk
    refine ⟨?_, ?_, ?_, ?_⟩ <;> (dsimp only; omega)

/-- Room for 600 lines of at least 800 pixels. -/
structure Fits (gpu : Gpu) : Prop where
  width : 800 ≤ gpu.pixelsPerLine
  height : 4 * (600 * gpu.pixelsPerLine) ≤ gpu.vramSize
  /-- `vram_size` is a `uint` -/
  uint : gpu.vramSize < 2 ^ 32

/-- An address of the frame buffer. -/
def Inside (gpu : Gpu) (a : ℕ) : Prop :=
  ∃ j < gpu.vramSize, a % 2 ^ 32 = (gpu.vvramAddr + j) % 2 ^ 32

theorem inside_of_mem_addresses {start n k : ℕ}
    (hstart : start % 2 ^ 32 = (gpu.vvramAddr + k) % 2 ^ 32) (hn : k + n ≤ gpu.vramSize)
    (ha : a ∈ addresses start n) : Inside gpu a := by
  obtain ⟨i, hi, rfl⟩ := List.mem_map.mp ha
  rw [List.mem_range] at hi
  exact ⟨k + i, by omega, by omega⟩

/-- **Scrolling** by no more than the frame buffer touches nothing else. -/
theorem inside_of_mem_graphicScrollUp (h : Fits gpu) (ha : a ∈ graphicScrollUp gpu 30) :
    Inside gpu a := by
  have hsize := h.uint
  have hheight := h.height
  have hdiff : 4 * gpu.pixelsPerLine * 30 % 2 ^ 32 = 120 * gpu.pixelsPerLine := by omega
  have hrest : (gpu.vramSize + 2 ^ 32 - 120 * gpu.pixelsPerLine) % 2 ^ 32 =
      gpu.vramSize - 120 * gpu.pixelsPerLine := by omega
  rw [graphicScrollUp, hdiff, hrest] at ha
  rcases List.mem_append.mp ha with ha | ha
  · rcases List.mem_append.mp ha with ha | ha
    · exact inside_of_mem_addresses (k := 0) rfl (by omega) ha
    · exact inside_of_mem_addresses (k := 120 * gpu.pixelsPerLine) rfl (by omega) ha
  · exact inside_of_mem_addresses (k := gpu.vramSize - 120 * gpu.pixelsPerLine) (by omega)
      (by omega) ha

theorem toNat_ofInt {z : ℤ} (h₀ : 0 ≤ z) (h₁ : z < 2 ^ 32) : (UInt32.ofInt z).toNat = z.toNat := by
  obtain ⟨n, rfl⟩ := Int.eq_ofNat_of_zero_le h₀
  simp only [UInt32.ofInt, UInt32.toNat_ofNat', Int.toNat_natCast]
  omega

/-- **A pixel on the screen** is drawn in the frame buffer. -/
theorem inside_of_mem_graphicDrawPixel (h : Fits gpu) (hp : p.OnScreen) {w : ℕ × UInt8}
    (hw : w ∈ graphicDrawPixel gpu (UInt32.ofInt p.x) (UInt32.ofInt p.y) p.colour) :
    Inside gpu w.1 := by
  obtain ⟨hx₀, hx₁, hy₀, hy₁⟩ := hp
  have hsize := h.uint
  have hheight := h.height
  have hwidth := h.width
  have hrow : p.y.toNat * gpu.pixelsPerLine ≤ 599 * gpu.pixelsPerLine :=
    Nat.mul_le_mul_right _ (by omega)
  have haddr : pixelAddr gpu (UInt32.ofInt p.x) (UInt32.ofInt p.y) =
      4 * (p.y.toNat * gpu.pixelsPerLine + p.x.toNat) := by
    rw [pixelAddr, toNat_ofInt hx₀ (by omega), toNat_ofInt hy₀ (by omega)]
    exact Nat.mod_eq_of_lt (by omega)
  rw [graphicDrawPixel, haddr] at hw
  simp only [List.mem_cons, List.not_mem_nil, or_false] at hw
  rcases hw with rfl | rfl | rfl
  · exact ⟨4 * (p.y.toNat * gpu.pixelsPerLine + p.x.toNat), by omega, by dsimp only; omega⟩
  · exact ⟨4 * (p.y.toNat * gpu.pixelsPerLine + p.x.toNat) + 1, by omega, by dsimp only; omega⟩
  · exact ⟨4 * (p.y.toNat * gpu.pixelsPerLine + p.x.toNat) + 2, by omega, by dsimp only; omega⟩

theorem Draw.OnScreen.touched (hd : d.OnScreen) (h : Fits gpu) (ha : a ∈ d.touched gpu font) :
    Inside gpu a := by
  cases d with
  | scrollUp height =>
    obtain rfl : height = 30 := hd
    exact inside_of_mem_graphicScrollUp h ha
  | render x y index =>
    obtain ⟨p, hp, ha⟩ := List.mem_flatMap.mp ha
    obtain ⟨w, hw, rfl⟩ := List.mem_map.mp ha
    exact inside_of_mem_graphicDrawPixel h (hd.pixels hp) hw

/-- **Drawing stays on the screen.** For every sequence of calls of `graphic_putc`, with any
arguments and any font: `console_pos` stays between 0 and the number of cells, every pixel is on a
screen of 800 by 600, and every address that is touched in a frame buffer with room for such a
screen is one of the frame buffer. -/
theorem graphic_putc_on_screen (cs : List ℤ) (font : ℤ → ℕ → UInt16) :
    (0 ≤ (putcs consolePos cs).1 ∧
      (putcs consolePos cs).1 ≤ consoleHorizontalMax * consoleVerticalMax) ∧
    (∀ d ∈ (putcs consolePos cs).2, ∀ p ∈ d.pixels font,
      0 ≤ p.x ∧ p.x < 800 ∧ 0 ≤ p.y ∧ p.y < 600) ∧
    ∀ gpu, Fits gpu → ∀ d ∈ (putcs consolePos cs).2, ∀ a ∈ d.touched gpu font, Inside gpu a := by
  have hstart : OnGrid consolePos := ⟨by decide, by decide⟩
  obtain ⟨hpos, hdraw⟩ := putcs_range hstart cs
  exact ⟨hpos, fun d hd p hp => (hdraw d hd).pixels hp,
    fun gpu hgpu d hd a ha => (hdraw d hd).touched hgpu ha⟩

/-- A screen of 800 by 600 in a frame buffer of its size. -/
def svga : Gpu where
  pvramAddr := 0x80000000
  vvramAddr := 0xFE000000 - 1920000
  vramSize := 1920000
  horizontalResolution := 800
  verticalResolution := 600
  pixelsPerLine := 800

/-- A font whose characters are a stroke on the left. -/
def strokeFont (_ : ℤ) (_ : ℕ) : UInt16 := 0x4000

/-- The first character scrolls, and is drawn in the last row. -/
theorem graphic_putc_on_screen_svga :
    (putcs consolePos [65]).2 = [.scrollUp 30, .render 2 570 65] ∧
      ((Draw.render 2 570 65).pixels strokeFont).head? = some ⟨2, 570, whitePixel⟩ ∧
      ∀ d ∈ (putcs consolePos [65]).2, ∀ a ∈ d.touched svga strokeFont, Inside svga a :=
  ⟨by decide, rfl, (graphic_putc_on_screen [65] strokeFont).2.2 svga
    ⟨by decide, by decide, by decide⟩⟩

end InuOs.Graphic
