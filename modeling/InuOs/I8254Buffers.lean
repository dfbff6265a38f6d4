import InuOs.I8254

/-!
# The buffers of the network card (`i8254.c`)

`i8254_init_send` and `i8254_init_recv` are meant to give each of the 256 descriptors half a page of
its own, from 128 pages. Their loops set the descriptors `i` and `i + 1` and advance by one, so that
the second half of each page but the last is overwritten by the next page, and the descriptors past
128 are never set (`initBuffers_get`).

`privateBuffers_iff` says when the buffers come out as meant all the same: when the descriptor page
held the missing halves, in any order, before it was allocated.
-/

namespace InuOs

/-! ## The receive ring -/

/-- `I8254_RECV_DESC_NUM`. -/
def i8254RecvDescNum : UInt32 := 256

/-- `struct i8254_recv_desc`. -/
structure I8254RecvDesc : Type where
  /-- physical address of the buffer -/
  bufAddr : UInt32
  /-- upper half of the buffer address -/
  padding : UInt32
  len : UInt16
  chkSum : UInt16
  status : UInt8
  errors : UInt8
  special : UInt16
  deriving DecidableEq, Repr

/-- The receive registers and descriptors. -/
structure RxRing : Type where
  rdh : UInt32
  rdt : UInt32
  desc : ℕ → I8254RecvDesc

/-- `i8254_init_recv`: its loop over the buffers is that of `i8254_init_send`. -/
def i8254InitRecv (pages : List UInt32) (junk : ℕ → UInt32) : RxRing where
  rdh := 0
  rdt := i8254RecvDescNum
  desc i :=
    { bufAddr := initBuffers 0 (pages.take (i8254RecvDescNum / 2).toNat) junk i
      padding := 0, len := 0, chkSum := 0, status := 0, errors := 0, special := 0 }

section Rings

variable (pages : List UInt32) (junk : ℕ → UInt32) (mem : Memory)

theorem i8254InitSend_bufAddr :
    (fun i => ((i8254InitSend pages junk mem).desc i).bufAddr) =
      initBuffers 0 (pages.take 128) junk := rfl

end Rings

/-! ## What the loop sets -/

section Loop

variable {i j k : ℕ} {pages : List UInt32} {buf : ℕ → UInt32}

theorem initBuffers_of_gt (h : j < i) : initBuffers i pages buf j = buf j := by
  induction pages generalizing i buf with
  | nil => rfl
  | cons p ps ih =>
    rw [initBuffers, ih (by omega), Function.update_of_ne (by omega),
      Function.update_of_ne (by omega)]

/-- Each turn's first descriptor keeps its page. -/
theorem initBuffers_add (h : k < pages.length) : initBuffers i pages buf (i + k) = pages[k] := by
  induction pages generalizing i k buf with
  | nil => simp at h
  | cons p ps ih =>
    rw [initBuffers]
    cases k with
    | zero =>
      rw [initBuffers_of_gt (by omega), Function.update_of_ne (by omega), Nat.add_zero,
        Function.update_self, List.getElem_cons_zero]
    | succ k =>
      have hshift : i + (k + 1) = i + 1 + k := by omega
      rw [hshift, ih (Nat.lt_of_succ_lt_succ h), List.getElem_cons_succ]

/-- The last turn's second descriptor keeps its half. -/
theorem initBuffers_succ (h : pages.length = k + 1) :
    initBuffers i pages buf (i + (k + 1)) = pages[k] + 0x800 := by
  induction pages generalizing i k buf with
  | nil => simp at h
  | cons p ps ih =>
    rw [initBuffers]
    cases k with
    | zero =>
      obtain rfl : ps = [] := List.eq_nil_of_length_eq_zero (Nat.succ.inj h)
      rw [initBuffers, Function.update_self, List.getElem_cons_zero]
    | succ k =>
      have hshift : i + (k + 1 + 1) = i + 1 + (k + 1) := by omega
      rw [hshift, ih (Nat.succ.inj h), List.getElem_cons_succ]

/-- The buffer address of each descriptor, from 128 pages: a page, the second half of the last page,
or what the descriptor page held. -/
theorem initBuffers_get (buf : ℕ → UInt32) (hlen : pages.length = 128) :
    (∀ k < 128, initBuffers 0 pages buf k = pages.getD k 0) ∧
      initBuffers 0 pages buf 128 = pages.getD 127 0 + 0x800 ∧
      ∀ k, 128 < k → initBuffers 0 pages buf k = buf k := by
  refine ⟨fun k hk => ?_, ?_, fun k hk => initBuffers_of_lt (by omega)⟩
  · have hk' : k < pages.length := hlen ▸ hk
    have hget : initBuffers 0 pages buf (0 + k) = pages[k] := initBuffers_add hk'
    rwa [Nat.zero_add, ← List.getD_eq_getElem _ 0 hk'] at hget
  · have hlast : 127 < pages.length := by omega
    have hget : initBuffers 0 pages buf (0 + (127 + 1)) = pages[127] + 0x800 :=
      initBuffers_succ hlen
    rwa [Nat.zero_add, ← List.getD_eq_getElem _ 0 hlast] at hget

end Loop

/-! ## Private buffers -/

/-- The 2048 bytes from each descriptor's address lie inside one of the pages, and no two
descriptors share a byte. -/
structure PrivateBuffers (pages : List UInt32) (buf : ℕ → UInt32) : Prop where
  inside : ∀ i < 256, ∃ p ∈ pages,
    p.toNat ≤ (buf i).toNat ∧ (buf i).toNat + 2048 ≤ p.toNat + 4096
  disjoint : ∀ i < 256, ∀ j < 256, i ≠ j →
    (buf i).toNat + 2048 ≤ (buf j).toNat ∨ (buf j).toNat + 2048 ≤ (buf i).toNat

/-- The descriptors past 128 held the second halves of the other pages. -/
structure SecondHalves (pages : List UInt32) (junk : ℕ → UInt32) : Prop where
  half : ∀ i, 128 < i → i < 256 → ∃ k < 127, junk i = pages.getD k 0 + 0x800
  inj : ∀ i j, 128 < i → i < 256 → 128 < j → j < 256 → junk i = junk j → i = j

/-- The pages `kalloc` returned: 128 of them, distinct and aligned. -/
structure BufferPages (pages : List UInt32) : Prop where
  length : pages.length = 128
  nodup : pages.Nodup
  aligned : ∀ p ∈ pages, p.toNat % 4096 = 0

section Pages

variable {pages : List UInt32} (hpages : BufferPages pages)
include hpages

theorem BufferPages.toNat_half {p : UInt32} (hp : p ∈ pages) :
    (p + 0x800).toNat = p.toNat + 2048 := by
  have hlt := p.toNat_lt
  have hal := hpages.aligned p hp
  rw [UInt32.toNat_add]
  simp only [UInt32.reduceToNat]
  omega

theorem BufferPages.getD_mem {k : ℕ} (hk : k < 128) : pages.getD k 0 ∈ pages := by
  have hk' : k < pages.length := hpages.length ▸ hk
  rw [List.getD_eq_getElem _ _ hk']
  exact List.getElem_mem hk'

theorem BufferPages.getD_inj {k l : ℕ} (hk : k < 128) (hl : l < 128)
    (h : pages.getD k 0 = pages.getD l 0) : k = l := by
  have hk' : k < pages.length := hpages.length ▸ hk
  have hl' : l < pages.length := hpages.length ▸ hl
  rw [List.getD_eq_getElem _ _ hk', List.getD_eq_getElem _ _ hl'] at h
  exact (List.Nodup.getElem_inj_iff hpages.nodup).mp h

/-- Private buffers leave only the missing halves for the descriptors past 128. -/
theorem BufferPages.secondHalves {junk : ℕ → UInt32}
    (hprivate : PrivateBuffers pages (initBuffers 0 pages junk)) : SecondHalves pages junk := by
  obtain ⟨hfirst, hlast, hjunk⟩ := initBuffers_get junk hpages.length
  constructor
  case half =>
    intro i hi hlt
    obtain ⟨p, hp, hlow, hhigh⟩ := hprivate.inside i hlt
    rw [hjunk i hi] at hlow hhigh
    obtain ⟨k, hk, rfl⟩ := List.getElem_of_mem hp
    have hk128 : k < 128 := hpages.length ▸ hk
    have hhalf := hpages.toNat_half hp
    rw [← List.getD_eq_getElem _ 0 hk] at hlow hhigh hhalf
    -- the first half of the page belongs to descriptor `k`
    have hapart := hprivate.disjoint i hlt k (by omega) (by omega)
    rw [hjunk i hi, hfirst k hk128] at hapart
    have heq : junk i = pages.getD k 0 + 0x800 := by
      rw [← UInt32.toNat_inj, hhalf]
      omega
    refine ⟨k, ?_, heq⟩
    by_contra hge
    obtain rfl : k = 127 := by omega
    have hshare := hprivate.disjoint i hlt 128 (by decide) (by omega)
    rw [hjunk i hi, hlast, heq] at hshare
    omega
  case inj =>
    intro i j hi hilt hj hjlt heq
    by_contra hne
    have hshare := hprivate.disjoint i hilt j hjlt hne
    rw [hjunk i hi, hjunk j hj, heq] at hshare
    omega

/-- With the missing halves in place, each descriptor has half a page and no two the same. -/
theorem BufferPages.privateBuffers {junk : ℕ → UInt32} (hjunk : SecondHalves pages junk) :
    PrivateBuffers pages (initBuffers 0 pages junk) := by
  obtain ⟨hfirst, hlast, hrest⟩ := initBuffers_get junk hpages.length
  have hsecond : ∀ i < 256, 128 ≤ i → ∃ k < 128, (k = 127 ↔ i = 128) ∧
      initBuffers 0 pages junk i = pages.getD k 0 + 0x800 := by
    intro i hi hge
    rcases eq_or_lt_of_le hge with rfl | hgt
    · exact ⟨127, by decide, by decide, hlast⟩
    · obtain ⟨k, hk, heq⟩ := hjunk.half i hgt hi
      exact ⟨k, by omega, by omega, (hrest i hgt).trans heq⟩
  -- whether a descriptor has a first or a second half shows in its address
  have hplace : ∀ i < 256, ∃ p ∈ pages, (initBuffers 0 pages junk i).toNat =
      p.toNat + if i < 128 then 0 else 2048 := by
    intro i hi
    split
    · next hlt => exact ⟨_, hpages.getD_mem hlt, by rw [hfirst i hlt, Nat.add_zero]⟩
    · next hge =>
      obtain ⟨k, hk, -, heq⟩ := hsecond i hi (by omega)
      exact ⟨_, hpages.getD_mem hk, by rw [heq, hpages.toNat_half (hpages.getD_mem hk)]⟩
  have hinj : ∀ i < 256, ∀ j < 256,
      initBuffers 0 pages junk i = initBuffers 0 pages junk j → i = j := by
    intro i hi j hj heq
    obtain ⟨p, hp, hpi⟩ := hplace i hi
    obtain ⟨q, hq, hqj⟩ := hplace j hj
    have hp' := hpages.aligned p hp
    have hq' := hpages.aligned q hq
    rw [← heq] at hqj
    have hsame : i < 128 ↔ j < 128 := by
      split at hpi <;> split at hqj <;> omega
    by_cases hlt : i < 128
    · rw [hfirst i hlt, hfirst j (hsame.mp hlt)] at heq
      exact hpages.getD_inj hlt (hsame.mp hlt) heq
    · obtain ⟨k, hk, hk127, hki⟩ := hsecond i hi (by omega)
      obtain ⟨l, hl, hl127, hlj⟩ := hsecond j hj (by omega)
      have hkl : k = l := by
        refine hpages.getD_inj hk hl ?_
        rw [hki, hlj] at heq
        exact add_right_cancel heq
      by_cases hi128 : i = 128
      · omega
      · rw [hrest i (by omega), hrest j (by omega)] at heq
        exact hjunk.inj i j (by omega) hi (by omega) hj heq
  constructor
  case inside =>
    intro i hi
    obtain ⟨p, hp, hpi⟩ := hplace i hi
    refine ⟨p, hp, ?_⟩
    split at hpi <;> omega
  case disjoint =>
    intro i hi j hj hne
    obtain ⟨p, hp, hpi⟩ := hplace i hi
    obtain ⟨q, hq, hqj⟩ := hplace j hj
    have hp' := hpages.aligned p hp
    have hq' := hpages.aligned q hq
    have haddr : (initBuffers 0 pages junk i).toNat ≠ (initBuffers 0 pages junk j).toNat :=
      fun h => hne (hinj i hi j hj (UInt32.toNat_inj.mp h))
    split at hpi <;> split at hqj <;> omega

end Pages

/-- **Every descriptor owns a private buffer exactly when the descriptor page held the missing
halves.** For all pages `kalloc` returns and every prior content of the descriptor pages, of both
rings. -/
theorem privateBuffers_iff (pages : List UInt32) (hpages : BufferPages pages) (junk : ℕ → UInt32)
    (mem : Memory) :
    (PrivateBuffers pages (fun i => ((i8254InitSend pages junk mem).desc i).bufAddr) ↔
        SecondHalves pages junk) ∧
      (PrivateBuffers pages (fun i => ((i8254InitRecv pages junk).desc i).bufAddr) ↔
        SecondHalves pages junk) := by
  have htake : pages.take 128 = pages := List.take_of_length_le (by rw [hpages.length])
  have hiff : PrivateBuffers pages (initBuffers 0 (pages.take 128) junk) ↔
      SecondHalves pages junk := by
    rw [htake]
    exact ⟨hpages.secondHalves, hpages.privateBuffers⟩
  exact ⟨hiff, hiff⟩

theorem bufferPages_examplePages : BufferPages examplePages where
  length := by simp [examplePages]
  nodup := by
    refine List.Nodup.map_on (fun k hk l hl heq => ?_) List.nodup_range
    rw [List.mem_range] at hk hl
    rw [← UInt32.toNat_inj, UInt32.toNat_ofNat', UInt32.toNat_ofNat'] at heq
    omega
  aligned := by
    intro p hp
    obtain ⟨k, hk, rfl⟩ := List.mem_map.mp hp
    rw [UInt32.toNat_ofNat']
    omega

/-- A descriptor page that held the missing halves gives private buffers. -/
theorem privateBuffers_lucky :
    BufferPages examplePages ∧
      PrivateBuffers examplePages (fun i => ((i8254InitSend examplePages
        (fun i => examplePages.getD (i - 129) 0 + 0x800) (fun _ => 0)).desc i).bufAddr) := by
  refine ⟨bufferPages_examplePages,
    (privateBuffers_iff examplePages bufferPages_examplePages _ _).1.mpr ⟨?_, ?_⟩⟩
  · intro i hi hlt
    exact ⟨i - 129, by omega, rfl⟩
  · intro i j hi hilt hj hjlt heq
    have hinj := bufferPages_examplePages.getD_inj (k := i - 129) (l := j - 129) (by omega)
      (by omega) (add_right_cancel heq)
    omega

/-- A descriptor page that held zeros leaves the address zero in descriptor 129, outside all
pages. -/
theorem not_privateBuffers_zero :
    ((i8254InitSend examplePages (fun _ => 0) (fun _ => 0)).desc 129).bufAddr = 0 ∧
      ¬PrivateBuffers examplePages
        (fun i => ((i8254InitSend examplePages (fun _ => 0) (fun _ => 0)).desc i).bufAddr) ∧
      ¬PrivateBuffers examplePages
        (fun i => ((i8254InitRecv examplePages (fun _ => 0)).desc i).bufAddr) := by
  have hzero : initBuffers 0 (examplePages.take 128) (fun _ => 0) 129 = 0 :=
    initBuffers_of_lt (by simp [examplePages])
  have hsend := congrFun (i8254InitSend_bufAddr examplePages (fun _ => 0) fun _ => 0) 129
  have hnot : ¬PrivateBuffers examplePages (initBuffers 0 (examplePages.take 128) fun _ => 0) := by
    intro hprivate
    obtain ⟨p, hp, hlow, -⟩ := hprivate.inside 129 (by decide)
    obtain ⟨k, hk, rfl⟩ := List.mem_map.mp hp
    rw [List.mem_range] at hk
    rw [hzero, UInt32.toNat_ofNat', UInt32.toNat_zero] at hlow
    omega
  exact ⟨hsend.trans hzero, hnot, hnot⟩

end InuOs
