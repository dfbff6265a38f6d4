import InuOs.Lib.Tiling
import InuOs.Lib.Circular

/-!
# The user heap (`umalloc.c`)

Free memory is a circular list of blocks in address order that starts with the static header `base`.
A block begins with a `Header`, eight bytes with a pointer and a size in units of eight bytes.

* The memory is seen as headers: `ptr` and `size` are the two fields of the header at an address.
  All headers that are used lie on multiples of eight in the heap, or at `base` below it, so no two
  overlap.
* `sbrk` fails, or returns an address of its choice. What is asked of it is in `Sbrk`: a multiple of
  eight above `base` and all earlier regions, which `got` records.
* The loops run on fuel, and `none` is running out of it. `Returns` is what happens with any amount
  of fuel from some amount on.
* Between calls a program stores what it likes in the blocks it holds: `Step.store`.
-/

namespace InuOs.Umalloc

open Circular

/-- The heap: the headers in memory, `freep`, and the regions that `sbrk` returned. -/
structure Heap : Type where
  ptr : ℕ → ℕ
  size : ℕ → ℕ
  freep : ℕ
  got : List MemBlock

namespace Heap

/-- `p->s.ptr = v` -/
def setPtr (h : Heap) (p v : ℕ) : Heap := { h with ptr := Function.update h.ptr p v }

/-- `p->s.size = v` -/
def setSize (h : Heap) (p v : ℕ) : Heap := { h with size := Function.update h.size p v }

/-- `freep = p` -/
def setFreep (h : Heap) (p : ℕ) : Heap := { h with freep := p }

section Fields

variable (h : Heap) (p v : ℕ)

@[simp] theorem setPtr_ptr : (h.setPtr p v).ptr = Function.update h.ptr p v := rfl

@[simp] theorem setPtr_got : (h.setPtr p v).got = h.got := rfl

@[simp] theorem setSize_ptr : (h.setSize p v).ptr = h.ptr := rfl

@[simp] theorem setSize_got : (h.setSize p v).got = h.got := rfl

@[simp] theorem setFreep_ptr : (h.setFreep p).ptr = h.ptr := rfl

@[simp] theorem setFreep_got : (h.setFreep p).got = h.got := rfl

end Fields

/-! ## `free` -/

/-- The loop of `free` ends at `p`, by its condition or by `break`. -/
def insertsAt (h : Heap) (bp p : ℕ) : Bool :=
  (p < bp && bp < h.ptr p) || (h.ptr p ≤ p && (p < bp || bp < h.ptr p))

/-- Link the block to the one above it, or join them. -/
def joinUpper (h : Heap) (bp p : ℕ) : Heap :=
  if bp + 8 * h.size bp = h.ptr p then
    (h.setSize bp (h.size bp + h.size (h.ptr p))).setPtr bp (h.ptr (h.ptr p))
  else h.setPtr bp (h.ptr p)

/-- Link the block to the one below it, or join them. -/
def joinLower (h : Heap) (bp p : ℕ) : Heap :=
  if p + 8 * h.size p = bp then (h.setSize p (h.size p + h.size bp)).setPtr p (h.ptr bp)
  else h.setPtr p bp

/-- `free` -/
def free (h : Heap) (fuel ap : ℕ) : Option Heap :=
  (search h.ptr (h.insertsAt (ap - 8)) fuel h.freep).map fun p =>
    ((h.joinUpper (ap - 8) p).joinLower (ap - 8) p).setFreep p

end Heap

/-! ## `malloc` -/

/-- What `sbrk` does: given the regions it has returned and a number of bytes, it fails or returns
the address of a fresh region. -/
structure Sbrk (base : ℕ) : Type where
  answer : List MemBlock → ℕ → Option ℕ
  fresh : ∀ {got n a}, answer got n = some a →
    8 ∣ a ∧ base + 8 ≤ a ∧ ∀ r ∈ got, r.stop 8 ≤ a

/-- The units for a request: its bytes, rounded up, and the header. -/
def nunits (nbytes : ℕ) : ℕ := (nbytes + 8 - 1) % 2 ^ 32 / 8 + 1

namespace Heap

variable {base : ℕ}

/-- `morecore`, with the null pointer if `sbrk` fails. -/
def morecore (h : Heap) (fuel : ℕ) (sbrk : Sbrk base) (nu : ℕ) : Option (Heap × ℕ) :=
  let nu := if nu < 4096 then 4096 else nu
  let bytes := nu * 8 % 2 ^ 32
  match sbrk.answer h.got bytes with
  | none => some (h, 0)
  | some p =>
    let h : Heap := { h with got := ⟨p, bytes / 8⟩ :: h.got }
    ((h.setSize p nu).free fuel (p + 8)).map fun h => (h, h.freep)

/-- Take `nunits` from the block at `p`, which `prevp` points to: the whole block or its tail. -/
def take (h : Heap) (nunits prevp p : ℕ) : Heap × ℕ :=
  if h.size p = nunits then ((h.setPtr prevp (h.ptr p)).setFreep prevp, p + 8)
  else
    let rest := h.size p - nunits
    let q := p + 8 * rest
    (((h.setSize p rest).setSize q nunits).setFreep prevp, q + 8)

/-- The loop of `malloc`. -/
def mallocLoop (sbrk : Sbrk base) (nunits : ℕ) : ℕ → Heap → ℕ → ℕ → Option (Heap × ℕ)
  | 0, _, _, _ => none
  | fuel + 1, h, prevp, p =>
    if nunits ≤ h.size p then some (h.take nunits prevp p)
    else if p = h.freep then do
      let (h, p) ← h.morecore fuel sbrk nunits
      if p = 0 then some (h, 0) else mallocLoop sbrk nunits fuel h p (h.ptr p)
    else mallocLoop sbrk nunits fuel h p (h.ptr p)

/-- The list of `base` alone, if there is none yet. -/
def start (h : Heap) (base : ℕ) : Heap :=
  if h.freep = 0 then ((h.setPtr base base).setFreep base).setSize base 0 else h

/-- `malloc` -/
def malloc (h : Heap) (fuel : ℕ) (sbrk : Sbrk base) (nbytes : ℕ) : Option (Heap × ℕ) :=
  let h := h.start base
  mallocLoop sbrk (nunits nbytes) fuel h h.freep (h.ptr h.freep)

end Heap

/-! ## A program -/

/-- A pointer that a program holds, and the bytes it asked for. -/
structure Live : Type where
  ptr : ℕ
  bytes : ℕ
  deriving DecidableEq

/-- The block of a pointer. -/
def Live.block (l : Live) : MemBlock := ⟨l.ptr - 8, nunits l.bytes⟩

/-- The heap, and the pointers that the program holds. -/
structure State : Type where
  heap : Heap
  live : List Live

/-- Before the first call: `base` and `freep` are zero, the memory above is arbitrary. -/
def Initial (s : State) : Prop := s.heap.freep = 0 ∧ s.heap.got = [] ∧ s.live = []

/-- The call returns, given enough fuel. -/
def Returns {α : Type} (call : ℕ → Option α) (r : α) : Prop :=
  ∃ enough, ∀ fuel, enough ≤ fuel → call fuel = some r

/-- The headers are the same except for what a store to the bytes of `l` reaches. -/
def Heap.SameOutside (l : Live) (h h' : Heap) : Prop :=
  h'.freep = h.freep ∧ h'.got = h.got ∧
    ∀ a, a + 8 ≤ l.ptr ∨ l.ptr + l.bytes ≤ a → h'.ptr a = h.ptr a ∧ h'.size a = h.size a

/-- A step of a program. -/
inductive Step (base : ℕ) : State → State → Prop
  /-- `malloc` of up to `2 ^ 30` bytes fails -/
  | fail {s : State} {h : Heap} {n : ℕ} (sbrk : Sbrk base) (hn : n ≤ 2 ^ 30)
    (hcall : Returns (s.heap.malloc · sbrk n) (h, 0)) : Step base s ⟨h, s.live⟩
  /-- `malloc` of up to `2 ^ 30` bytes returns a pointer -/
  | malloc {s : State} {h : Heap} {n r : ℕ} (sbrk : Sbrk base) (hn : n ≤ 2 ^ 30)
    (hcall : Returns (s.heap.malloc · sbrk n) (h, r)) (hr : r ≠ 0) :
    Step base s ⟨h, ⟨r, n⟩ :: s.live⟩
  /-- `free` of a pointer that the program holds -/
  | free {s : State} {h : Heap} {l : Live} (hl : l ∈ s.live)
    (hcall : Returns (s.heap.free · l.ptr) h) : Step base s ⟨h, s.live.erase l⟩
  /-- a store to a block that the program holds -/
  | store {s : State} {h : Heap} {l : Live} (hl : l ∈ s.live) (hsame : s.heap.SameOutside l h) :
    Step base s ⟨h, s.live⟩

end InuOs.Umalloc
