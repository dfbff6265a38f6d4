import Mathlib.Algebra.BigOperators.Group.List.Basic
import Mathlib.Data.List.Pairwise
import Mathlib.Data.List.Perm.Basic
import Mathlib.Tactic.Ring

/-!
# Blocks that share out a memory

An allocator shares out the regions it has obtained among blocks. `Tiles u regions blocks` says that
it does so exactly: no block is empty, the blocks are apart, each lies in the regions, and together
they have as many units as the regions. A unit has `u` bytes.

Allocators change the blocks by joining neighbours (`Tiles.join`), by cutting one (`Tiles.cut`) and
by obtaining another region (`Tiles.grow`); the order of the blocks does not matter (`Tiles.perm`).
-/

namespace InuOs

/-- A block: its address, and its size in units. -/
structure MemBlock : Type where
  addr : ℕ
  size : ℕ
  deriving DecidableEq

variable {u : ℕ}

/-- The address behind a block. -/
def MemBlock.stop (u : ℕ) (b : MemBlock) : ℕ := b.addr + u * b.size

/-- The byte lies in the block. -/
def MemBlock.Covers (u : ℕ) (b : MemBlock) (x : ℕ) : Prop := b.addr ≤ x ∧ x < b.stop u

/-- The blocks have no byte in common. -/
def MemBlock.Apart (u : ℕ) (b c : MemBlock) : Prop := b.stop u ≤ c.addr ∨ c.stop u ≤ b.addr

theorem MemBlock.Apart.symm {b c : MemBlock} (h : b.Apart u c) : c.Apart u b := Or.symm h

instance : Std.Symm (MemBlock.Apart u) := ⟨fun _ _ => MemBlock.Apart.symm⟩

/-- Two blocks as one. -/
def MemBlock.join (b c : MemBlock) : MemBlock := ⟨b.addr, b.size + c.size⟩

theorem MemBlock.stop_join {b c : MemBlock} (h : b.stop u = c.addr) :
    (b.join c).stop u = c.stop u := by
  simp only [stop, join] at h ⊢
  rw [← h]
  ring

/-- The units of a list of blocks. -/
def units (blocks : List MemBlock) : ℕ := (blocks.map MemBlock.size).sum

/-- The blocks share out the regions. -/
structure Tiles (u : ℕ) (regions blocks : List MemBlock) : Prop where
  pos : ∀ b ∈ blocks, 0 < b.size
  apart : blocks.Pairwise (MemBlock.Apart u)
  inside : ∀ b ∈ blocks, ∀ x, b.Covers u x → ∃ r ∈ regions, r.Covers u x
  units : units blocks = units regions

namespace Tiles

variable {regions blocks blocks' : List MemBlock} {b c r : MemBlock} (hu : 0 < u)

theorem nil : Tiles u [] [] := ⟨nofun, .nil, nofun, rfl⟩

theorem perm (h : Tiles u regions blocks) (hperm : blocks.Perm blocks') :
    Tiles u regions blocks' where
  pos b hb := h.pos b (hperm.mem_iff.mpr hb)
  apart := hperm.pairwise h.apart MemBlock.Apart.symm
  inside b hb := h.inside b (hperm.mem_iff.mpr hb)
  units := (hperm.map MemBlock.size).sum_eq.symm.trans h.units

include hu in
/-- A block of the tiling is not empty. -/
theorem addr_lt_stop (h : Tiles u regions blocks) (hb : b ∈ blocks) : b.addr < b.stop u :=
  Nat.lt_add_of_pos_right (Nat.mul_pos hu (h.pos b hb))

include hu in
/-- Join two neighbours. -/
theorem join (h : Tiles u regions (b :: c :: blocks)) (hbc : b.stop u = c.addr) :
    Tiles u regions (b.join c :: blocks) := by
  have hlt : ∀ d ∈ blocks, d.addr < d.stop u := fun d hd =>
    h.addr_lt_stop hu (List.mem_cons_of_mem _ (List.mem_cons_of_mem _ hd))
  obtain ⟨hpos, hapart, hinside, hunits⟩ := h
  simp only [List.forall_mem_cons, List.pairwise_cons] at hpos hapart hinside
  have hstop := MemBlock.stop_join hbc
  refine ⟨?_, ?_, ?_, ?_⟩
  · exact List.forall_mem_cons.mpr ⟨Nat.add_pos_left hpos.1 _, hpos.2.2⟩
  · refine List.pairwise_cons.mpr ⟨fun d hd => ?_, hapart.2.2⟩
    have hb := hapart.1.2 d hd
    have hc := hapart.2.1 d hd
    have hd := hlt d hd
    simp only [MemBlock.Apart, hstop] at hb hc ⊢
    simp only [MemBlock.join]
    omega
  · refine List.forall_mem_cons.mpr ⟨fun x hx => ?_, hinside.2.2⟩
    rcases Nat.lt_or_ge x c.addr with hlt | hge
    · exact hinside.1 x ⟨hx.1, hbc ▸ hlt⟩
    · exact hinside.2.1 x ⟨hge, hstop ▸ hx.2⟩
  · rw [← hunits]
    simp only [InuOs.units, MemBlock.join, List.map_cons, List.sum_cons]
    omega

/-- Cut a block in two. -/
theorem cut {a m n : ℕ} (h : Tiles u regions (⟨a, m + n⟩ :: blocks)) (hm : 0 < m) (hn : 0 < n) :
    Tiles u regions (⟨a, m⟩ :: ⟨a + u * m, n⟩ :: blocks) := by
  obtain ⟨hpos, hapart, hinside, hunits⟩ := h
  simp only [List.forall_mem_cons, List.pairwise_cons] at hpos hapart hinside
  have hstop : a + u * (m + n) = a + u * m + u * n := by ring
  simp only [MemBlock.Covers, MemBlock.stop, hstop] at hinside
  simp only [MemBlock.Apart, MemBlock.stop, hstop] at hapart
  refine ⟨?_, ?_, ?_, ?_⟩
  · exact List.forall_mem_cons.mpr ⟨hm, List.forall_mem_cons.mpr ⟨hn, hpos.2⟩⟩
  · refine List.pairwise_cons.mpr ⟨List.forall_mem_cons.mpr ⟨.inl le_rfl, fun d hd => ?_⟩,
      List.pairwise_cons.mpr ⟨fun d hd => ?_, hapart.2⟩⟩
    all_goals
      have had := hapart.1 d hd
      simp only [MemBlock.Apart, MemBlock.stop]
      omega
  · refine List.forall_mem_cons.mpr ⟨fun x hx => ?_, List.forall_mem_cons.mpr ⟨fun x hx => ?_, ?_⟩⟩
    · simp only [MemBlock.Covers, MemBlock.stop] at hx
      exact hinside.1 x (by omega)
    · simp only [MemBlock.Covers, MemBlock.stop] at hx
      exact hinside.1 x (by omega)
    · exact hinside.2
  · rw [← hunits]
    simp only [InuOs.units, List.map_cons, List.sum_cons]
    omega

include hu in
/-- Every block is below what is above the regions. -/
theorem stop_le (h : Tiles u regions blocks) {a : ℕ} (ha : ∀ r ∈ regions, r.stop u ≤ a)
    (hb : b ∈ blocks) : b.stop u ≤ a := by
  have hlt := h.addr_lt_stop hu hb
  obtain ⟨r, hr, -, hlast⟩ := h.inside b hb (b.stop u - 1) ⟨by omega, by omega⟩
  have := ha r hr
  omega

include hu in
/-- Every block is above what is below the regions. -/
theorem le_addr (h : Tiles u regions blocks) {a : ℕ} (ha : ∀ r ∈ regions, a ≤ r.addr)
    (hb : b ∈ blocks) : a ≤ b.addr := by
  obtain ⟨r, hr, hle, -⟩ := h.inside b hb b.addr ⟨le_rfl, h.addr_lt_stop hu hb⟩
  exact (ha r hr).trans hle

include hu in
/-- Obtain a region above the others. -/
theorem grow (h : Tiles u regions blocks) (hr : 0 < r.size)
    (habove : ∀ r' ∈ regions, r'.stop u ≤ r.addr) : Tiles u (r :: regions) (r :: blocks) where
  pos := List.forall_mem_cons.mpr ⟨hr, h.pos⟩
  apart := List.pairwise_cons.mpr ⟨fun _ hb => .inr (h.stop_le hu habove hb), h.apart⟩
  inside := by
    refine List.forall_mem_cons.mpr ⟨fun x hx => ⟨r, List.mem_cons_self, hx⟩, fun b hb x hx => ?_⟩
    obtain ⟨r', hr', hx'⟩ := h.inside b hb x hx
    exact ⟨r', List.mem_cons_of_mem _ hr', hx'⟩
  units := congrArg (r.size + ·) h.units

theorem apart_of_ne (h : Tiles u regions blocks) (hb : b ∈ blocks) (hc : c ∈ blocks) (hne : b ≠ c) :
    b.Apart u c :=
  h.apart.forall hb hc hne

include hu in
/-- No two blocks have one address. -/
theorem nodup (h : Tiles u regions blocks) : (blocks.map MemBlock.addr).Nodup := by
  refine List.pairwise_map.mpr (h.apart.imp_of_mem fun {b c} hb hc hapart heq => ?_)
  have hblt := h.addr_lt_stop hu hb
  have hclt := h.addr_lt_stop hu hc
  rcases hapart with hapart | hapart <;> omega

end Tiles

end InuOs
