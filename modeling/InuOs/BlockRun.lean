import InuOs.FileLoops

/-!
# The file system keeps every block owned once

The invariant of `InuOs.BlockOwner` through `readi`, `writei`, `itrunc` and the directory and cache
operations, and from there through every run of them.

* `readi` stays below the size of the file, so its `bmap`s allocate nothing and the in-core inode
  stays equal to the one on disk.
* `writei` allocates only behind the end of the file; then the size grows and `iupdate` stores the
  new block numbers, otherwise there are none.
* `itrunc` frees each place of the inode once, and only then clears them on the disk.
-/

namespace InuOs

variable {sb : Superblock} {d : Disk}

variable {i n bn j k : ℕ} {d' : Disk} {done : List ℕ} {ip : Dinode} {s : Fs}

/-! ## Reading and writing one inode -/

/-- `bmap` inside the file changes nothing. -/
theorem WellFormed.bmap_inside (h : WellFormed sb d) (hi : i < sb.ninodes)
    (htype : (sb.dinode d i).type ≠ 0) (hlt : bn < blocks (sb.dinode d i).size.toNat) :
    Meets (bmap sb d (sb.dinode d i) bn) NotFreeing fun r => r.1 = d ∧ r.2.1 = sb.dinode d i := by
  by_cases hbn : bn < maxFile
  · rw [bmap_of_ptr hbn ((h.slots i hi htype bn hbn).mpr hlt)]
    exact Meets.pure ⟨rfl, rfl⟩
  · have hdir : ¬ bn < nDirect := fun hlt => hbn (hlt.trans (by decide))
    have hind : ¬ bn - nDirect < nIndirect := by
      unfold maxFile at hbn
      omega
    rw [bmap, if_neg hdir, if_neg hind]
    exact Meets.throw (by rintro ⟨⟩)

theorem WellFormed.readiLoop (h : WellFormed sb d) (hi : i < sb.ninodes)
    (htype : (sb.dinode d i).type ≠ 0) (off n : ℕ)
    (hend : off + n ≤ bSize * blocks (sb.dinode d i).size.toNat) :
    Meets (readiLoop sb d (sb.dinode d i) off n) NotFreeing
      fun r => r.1 = d ∧ r.2.1 = sb.dinode d i := by
  induction n using Nat.strong_induction_on generalizing off with
  | _ n ih =>
    rw [InuOs.readiLoop]
    split
    · exact Meets.pure ⟨rfl, rfl⟩
    · next hn =>
      have hbn : off / bSize < blocks (sb.dinode d i).size.toNat := by
        rw [Nat.div_lt_iff_lt_mul (by decide), Nat.mul_comm]
        omega
      refine (h.bmap_inside hi htype hbn).bind ?_
      rintro ⟨d₁, ip₁, a⟩ ⟨hd, hip⟩
      obtain rfl : d₁ = d := hd
      obtain rfl : ip₁ = sb.dinode d₁ i := hip
      have hm := chunk_pos hn off
      have hle := chunk_le n off
      refine (ih (n - chunk n off) (by omega) (off + chunk n off) (by omega)).bind ?_
      rintro ⟨d₂, ip₂, rest⟩ ⟨hd, hip⟩
      exact Meets.pure ⟨hd, hip⟩

/-- An operation on inode `i` ends with disk `d'` and in-core inode `ip`, which is the one on
disk. -/
structure Local (sb : Superblock) (i : ℕ) (d d' : Disk) (ip : Dinode) : Prop where
  wellFormed : WellFormed sb d'
  self : sb.dinode d' i = ip
  type : ip.type = (sb.dinode d i).type
  other : ∀ j < sb.ninodes, j ≠ i → sb.dinode d' j = sb.dinode d j

theorem Local.refl (h : WellFormed sb d) : Local sb i d d (sb.dinode d i) :=
  ⟨h, rfl, rfl, fun _ _ _ => rfl⟩

/-- After a write that ends at `stop`, the slots below the end of the file are filled, and no
others. -/
theorem WellFormed.wrote_slots {off stop : ℕ} {src : List UInt8} {d₁ : Disk} (h : WellFormed sb d)
    (hi : i < sb.ninodes) (htype : (sb.dinode d i).type ≠ 0)
    (hw : Wrote sb (sb.dinode d) d i off src (d₁, ip, stop))
    (hoff : off ≤ (sb.dinode d i).size.toNat) (hn : n < maxFile) :
    ip.ptr d₁ (place n) ≠ 0 ↔ n < blocks (max (sb.dinode d i).size.toNat (off + src.length)) := by
  have hold := h.slots i hi htype n hn
  rw [lt_blocks_iff] at hold ⊢
  rw [lt_max_iff]
  constructor
  · intro hptr
    by_cases hin : place n ∈ rangePlaces off src.length
    · obtain ⟨bn, -, hlt, heq | ⟨heq, -⟩⟩ := mem_rangePlaces hin
      · exact .inr (place_inj.mp heq ▸ hlt)
      · exact absurd heq (place_ne_nDirect n)
    · rw [hw.rest _ hin] at hptr
      exact .inl (hold.mp hptr)
  · intro hlt
    by_cases hin : n * bSize < (sb.dinode d i).size.toNat
    · have hptr := hold.mpr hin
      rwa [hw.keep _ hptr]
    · have hlt := hlt.resolve_left hin
      exact hw.covers (by omega) n (Nat.div_le_of_le_mul (by rw [Nat.mul_comm]; omega)) hlt

/-- An inode is stored, with a size that goes with its blocks. -/
theorem WellFormed.settled {d₁ : Disk} {ip₁ : Dinode} {S : Finset ℕ} (h : WellFormed sb d)
    (hs : Settled sb d i d₁ ip₁ d' ip) (hg : Gains sb (sb.dinode d) d i S ip₁ d₁)
    (htype : ip.type = (sb.dinode d i).type)
    (hslots : ∀ n < maxFile, (ip₁.ptr d₁ (place n) ≠ 0 ↔ n < blocks ip.size.toNat)) :
    Local sb i d d' ip := by
  refine ⟨⟨hs.held, fun j hj ht n hn => ?_⟩, hs.self, htype, hs.dinode_other⟩
  rcases eq_or_ne j i with rfl | hne
  · rw [hs.self, hs.ptr]
    exact hslots n hn
  · rw [hs.dinode_other j hj hne] at ht ⊢
    rw [(hs.other j hj ht hne).1, hg.other j hj ht hne]
    exact h.slots j hj ht n hn

/-- The fields that are no block numbers are stored. -/
theorem WellFormed.iupdate (h : WellFormed sb d) (hsb : sb.Layout) (hi : i < sb.ninodes)
    (htype : (sb.dinode d i).type ≠ 0) (hip : ip.type = (sb.dinode d i).type)
    (haddrs : ip.addrs = (sb.dinode d i).addrs) (hsize : ip.size = (sb.dinode d i).size) :
    Local sb i d (InuOs.iupdate sb d i ip) ip := by
  have hg := Gains.refl h.held i ∅
  refine h.settled (hg.settled_iupdate hsb hi htype hip haddrs) hg hip fun n hn => ?_
  rw [hsize]
  exact h.slots i hi htype n hn

section OneInode

variable (h : WellFormed sb d) (hsb : sb.Layout) {i : ℕ} (hi : i < sb.ninodes)
  (htype : (sb.dinode d i).type ≠ 0) (dev : Devsw)

include h hsb hi htype

omit hsb in
theorem readi_spec (off n : ℕ) :
    Meets (readi sb dev d (sb.dinode d i) off n) NotFreeing
      fun r => r.1 = d ∧ r.2.1 = sb.dinode d i := by
  unfold readi
  split
  · split <;> exact Meets.pure ⟨rfl, rfl⟩
  · split
    · exact Meets.pure ⟨rfl, rfl⟩
    · next hoff =>
      refine Meets.bind (h.readiLoop hi htype off _ ?_) ?_
      · have hfit := (blocks_le_iff (n := (sb.dinode d i).size.toNat)).mp le_rfl
        split <;> omega
      · rintro ⟨d', ip, data⟩ hsame
        exact Meets.pure hsame

theorem writei_spec (off : ℕ) (src : List UInt8) :
    Meets (writei sb dev d i (sb.dinode d i) off src) NotFreeing
      fun r => Local sb i d r.1 r.2.1 := by
  unfold writei
  split
  · split <;> exact Meets.pure (.refl h)
  · split
    · exact Meets.pure (.refl h)
    · next hoff =>
      split
      · exact Meets.pure (.refl h)
      · next hmax =>
        refine ((writeiLoop_wrote h.held hsb hi htype off src (by omega)).mono_error ?_).bind ?_
        · rintro e ⟨rfl, -⟩ ⟨⟩
        rintro ⟨d', ip, stop⟩ hw
        obtain rfl : stop = off + src.length := hw.stop
        obtain ⟨addrs, hfields⟩ := hw.fields
        have hslots (n : ℕ) (hn : n < maxFile) := h.wrote_slots hi htype hw (by omega) hn
        obtain rfl : ip = { sb.dinode d i with addrs := addrs } := hfields
        dsimp only at hslots ⊢
        split
        · next hgrow =>
          refine Meets.pure (h.settled (hw.settled_iupdate hsb hi htype rfl rfl) hw.toGains rfl ?_)
          rw [max_eq_right hgrow.2.le] at hslots
          rwa [UInt32.toNat_ofNat', Nat.mod_eq_of_lt (by omega)]
        · next hin =>
          have hend : off + src.length ≤ (sb.dinode d i).size.toNat := by omega
          -- the blocks are all there
          have hsame := hw.same fun bn _ hlt =>
            (h.slots i hi htype bn (lt_of_mul_lt_mul_right (by omega) (Nat.zero_le bSize))).mpr
              (lt_blocks_iff.mpr (by omega))
          dsimp only at hsame
          rw [hsame] at hw hslots ⊢
          rw [max_eq_left hend] at hslots
          exact Meets.pure (h.settled (hw.settled hsb hi) hw.toGains rfl hslots)

end OneInode

/-! ## Truncation -/

/-- The places `ks` of inode `i` have been freed in the map; nothing else happened since `d`. -/
structure Freed (sb : Superblock) (i : ℕ) (d : Disk) (ks : List ℕ) (d' : Disk) : Prop where
  exact : Exact sb.IsData
    (fun p => if p.1 = i ∧ p.2 ∈ ks then none else sb.own (sb.dinode d) d p) (sb.bit d')
  metadata : ∀ b < sb.dataStart, sb.bit d' b = true
  block : ∀ c, sb.dataStart ≤ c → d' c = d c
  dinode : ∀ j < sb.ninodes, sb.dinode d' j = sb.dinode d j

namespace Freed

variable {i : ℕ} {ks : List ℕ} {d' : Disk}

theorem nil (h : WellFormed sb d) : Freed sb i d [] d where
  exact := h.exact.congr (fun p => by simp) fun _ _ => rfl
  metadata := h.metadata
  block _ _ := rfl
  dinode _ _ := rfl

/-- An empty place. -/
theorem skip (h : Freed sb i d ks d') (hempty : (sb.dinode d i).ptr d k = 0) :
    Freed sb i d (k :: ks) d' := { h with
  exact := by
    refine h.exact.congr (fun p => ?_) fun _ _ => rfl
    obtain ⟨j, k'⟩ := p
    by_cases hp : j = i ∧ k' = k
    · obtain ⟨rfl, rfl⟩ := hp
      have hnone : sb.own (sb.dinode d) d (j, k') = none := if_neg fun hc => hc.2.2 hempty
      simp [hnone]
    · have hiff : (j = i ∧ k' ∈ k :: ks) ↔ (j = i ∧ k' ∈ ks) := by
        rw [List.mem_cons]
        tauto
      simp only [hiff] }

/-- A place that holds a block, and has not been freed yet. -/
theorem bfree (h : Freed sb i d ks d') (hsb : sb.Layout) (hi : i < sb.ninodes)
    (htype : (sb.dinode d i).type ≠ 0) (hk : k ∉ ks) (hptr : (sb.dinode d i).ptr d k ≠ 0) :
    Meets (bfree sb d' ((sb.dinode d i).ptr d k)) NotFreeing (Freed sb i d (k :: ks)) := by
  have hown : (if i = i ∧ k ∈ ks then none else sb.own (sb.dinode d) d (i, k)) =
      some ((sb.dinode d i).ptr d k).toNat := by
    rw [if_neg fun hc => hk hc.2]
    exact Held.own_ptr hi htype hptr
  have hdata := h.exact.mem (p := (i, k)) hown
  unfold InuOs.bfree
  rw [if_pos (h.exact.used_of_own (p := (i, k)) hown)]
  refine Meets.pure ⟨?_, ?_, ?_, ?_⟩
  · refine (h.exact.release (p := (i, k)) hown).congr (fun p => ?_) fun b _ =>
      Superblock.bit_clearBit ..
    obtain ⟨j, k'⟩ := p
    by_cases hp : (j, k') = (i, k)
    · obtain ⟨rfl, rfl⟩ := Prod.mk.inj hp
      simp
    · have hiff : (j = i ∧ k' ∈ k :: ks) ↔ (j = i ∧ k' ∈ ks) := by
        rw [List.mem_cons]
        have hne : ¬ (j = i ∧ k' = k) := fun hc => hp (Prod.ext hc.1 hc.2)
        tauto
      simp only [Function.update_of_ne hp, hiff]
  · intro b hb
    rw [Superblock.bit_clearBit, Function.update_of_ne (hb.trans_le hdata.1).ne]
    exact h.metadata b hb
  · intro c hc
    rw [Superblock.Layout.data_clearBit hdata.2 hc, h.block c hc]
  · intro j hj
    rw [hsb.dinode_clearBit hj, h.dinode j hj]

end Freed

section Itrunc

variable (hsb : sb.Layout) {i : ℕ} (hi : i < sb.ninodes) (htype : (sb.dinode d i).type ≠ 0)

include hsb hi htype

theorem itruncDirect_spec {ks : List ℕ} (hks : ks.Nodup) (hdir : ∀ k ∈ ks, k < nDirect)
    (hdone : ∀ k ∈ ks, k ∉ done) (h : Freed sb i d done d')
    (hip : ∀ k ∈ ks, ip.addr k = (sb.dinode d i).addr k) :
    Meets (itruncDirect sb d' ip ks) NotFreeing fun r =>
      Freed sb i d (ks.reverse ++ done) r.1 ∧ (∃ addrs, r.2 = { ip with addrs := addrs }) ∧
        ∀ j < 13, r.2.addr j = if j ∈ ks then 0 else ip.addr j := by
  induction ks generalizing done d' ip with
  | nil => exact Meets.pure ⟨h, ⟨_, rfl⟩, fun j _ => by simp⟩
  | cons k ks ih =>
    obtain ⟨hk, hnodup⟩ := List.nodup_cons.mp hks
    simp only [List.forall_mem_cons] at hdir hdone hip
    have hptr : (sb.dinode d i).ptr d k = ip.addr k := by
      rw [Dinode.ptr_direct hdir.1.le, hip.1]
    have hrest : ∀ k' ∈ ks, k' ∉ k :: done := by
      intro k' hk' hmem
      rcases List.mem_cons.mp hmem with rfl | hmem
      · exact hk hk'
      · exact hdone.2 k' hk' hmem
    rw [itruncDirect]
    split
    · next hzero =>
      refine (ih hnodup hdir.2 hrest (h.skip (hptr.trans hzero)) hip.2).mono ?_
      rintro r ⟨hfreed, hfields, haddr⟩
      refine ⟨by simpa using hfreed, hfields, fun j hj => ?_⟩
      rw [haddr j hj]
      rcases eq_or_ne j k with rfl | hne
      · simp [hzero]
      · simp [hne]
    · next hne =>
      rw [← hptr] at hne ⊢
      refine (h.bfree hsb hi htype hdone.1 hne).bind fun d₁ hd₁ => ?_
      have hip' : ∀ k' ∈ ks, (ip.setAddr k 0).addr k' = (sb.dinode d i).addr k' := by
        intro k' hk'
        have hlt : k' < 13 := (hdir.2 k' hk').trans (by decide)
        have hkk : k' ≠ k := fun heq => hk (heq ▸ hk')
        rw [Dinode.addr_setAddr _ _ hlt, if_neg hkk, hip.2 k' hk']
      refine (ih hnodup hdir.2 hrest hd₁ hip').mono ?_
      rintro r ⟨hfreed, ⟨addrs, hfields⟩, haddr⟩
      refine ⟨by simpa using hfreed, ⟨addrs, hfields⟩, fun j hj => ?_⟩
      rw [haddr j hj, Dinode.addr_setAddr _ _ hj]
      rcases eq_or_ne j k with rfl | hjk
      · simp
      · simp [hjk]

theorem itruncIndirect_spec (hw : WellFormed sb d) (hind : (sb.dinode d i).addr nDirect ≠ 0)
    {js : List ℕ} (hjs : js.Nodup) (hlt : ∀ j ∈ js, j < nIndirect)
    (hdone : ∀ j ∈ js, j + (nDirect + 1) ∉ done) (h : Freed sb i d done d') :
    Meets (itruncIndirect sb d' ((sb.dinode d i).addr nDirect).toNat js) NotFreeing
      (Freed sb i d ((js.map (· + (nDirect + 1))).reverse ++ done)) := by
  induction js generalizing done d' with
  | nil => exact Meets.pure h
  | cons j js ih =>
    obtain ⟨hj, hnodup⟩ := List.nodup_cons.mp hjs
    simp only [List.forall_mem_cons] at hlt hdone
    have hptr : (d' ((sb.dinode d i).addr nDirect).toNat).getWord j =
        (sb.dinode d i).ptr d (j + (nDirect + 1)) := by
      have hmax : j + (nDirect + 1) ≤ maxFile := by
        unfold maxFile
        omega
      rw [h.block _ (hw.held.isData_indirect hi htype hind).1,
        Dinode.ptr_indirect (by omega) hmax hind, Nat.add_sub_cancel]
    have hrest : ∀ j' ∈ js, j' + (nDirect + 1) ∉ (j + (nDirect + 1)) :: done := by
      intro j' hj' hmem
      rcases List.mem_cons.mp hmem with heq | hmem
      · exact hj (Nat.add_right_cancel heq ▸ hj')
      · exact hdone.2 j' hj' hmem
    rw [itruncIndirect, hptr]
    split
    · next hzero =>
      refine (ih hnodup hlt.2 hrest (h.skip hzero)).mono fun r hr => ?_
      simpa using hr
    · next hne =>
      refine (h.bfree hsb hi htype hdone.1 hne).bind fun d₁ hd₁ => ?_
      refine (ih hnodup hlt.2 hrest hd₁).mono fun r hr => ?_
      simpa using hr

theorem itruncRest_spec (hw : WellFormed sb d) (hdone : ∀ k ∈ done, k < nDirect)
    (h : Freed sb i d done d') (hip : ip.addr nDirect = (sb.dinode d i).addr nDirect) :
    Meets (itruncRest sb d' ip) NotFreeing fun r =>
      (∃ ks, (∀ k ∈ done, k ∈ ks) ∧ (∀ k, nDirect ≤ k → (sb.dinode d i).ptr d k ≠ 0 → k ∈ ks) ∧
        Freed sb i d ks r.1) ∧ (∃ addrs, r.2 = { ip with addrs := addrs }) ∧
        ∀ j < 13, r.2.addr j = if j = nDirect then 0 else ip.addr j := by
  have hptr : (sb.dinode d i).ptr d nDirect = (sb.dinode d i).addr nDirect :=
    Dinode.ptr_direct le_rfl
  unfold itruncRest
  rw [hip]
  split
  · next hzero =>
    refine Meets.pure ⟨⟨done, fun _ hk => hk, fun k hk hne => ?_, h⟩, ⟨_, rfl⟩, fun j _ => ?_⟩
    · rcases hk.eq_or_lt with rfl | hlt
      · exact absurd (hptr.trans hzero) hne
      · exact absurd (Dinode.ptr_eq_zero_of_indirect hlt hzero) hne
    · split
      · next heq => rw [heq, hip, hzero]
      · rfl
  · next hind =>
    refine (itruncIndirect_spec hsb hi htype hw hind List.nodup_range
      (fun j hj => List.mem_range.mp hj) (fun j _ hmem => ?_) h).bind fun d₁ hd₁ => ?_
    · have := hdone _ hmem
      omega
    rw [← hptr] at hind ⊢
    refine (hd₁.bfree hsb hi htype ?_ hind).bind fun d₂ hd₂ => ?_
    · intro hmem
      simp only [List.mem_append, List.mem_reverse, List.mem_map, List.mem_range] at hmem
      rcases hmem with ⟨j, -, hj⟩ | hmem
      · omega
      · exact absurd (hdone _ hmem) (lt_irrefl _)
    · refine Meets.pure ⟨⟨_, fun k hk => ?_, fun k hk hne => ?_, hd₂⟩, ⟨_, rfl⟩, fun j hj => ?_⟩
      · simp [hk]
      · rcases hk.eq_or_lt with rfl | hlt
        · simp
        · have hmax : k ≤ maxFile := by
            by_contra hgt
            exact hne (Dinode.ptr_eq_zero_of_large (not_le.mp hgt))
          simp only [List.mem_cons, List.mem_append, List.mem_reverse, List.mem_map,
            List.mem_range]
          refine .inr (.inl ⟨k - (nDirect + 1), ?_, by omega⟩)
          unfold maxFile at hmax
          omega
      · exact Dinode.addr_setAddr _ _ hj

end Itrunc

/-- An inode without content. -/
def Dinode.Empty (ip : Dinode) : Prop := (∀ k < 13, ip.addr k = 0) ∧ ip.size = 0

theorem Dinode.Empty.ptr (h : ip.Empty) (k : ℕ) : ip.ptr d k = 0 := by
  rcases lt_or_ge nDirect k with hk | hk
  · exact ptr_eq_zero_of_indirect hk (h.1 _ (by decide))
  · rw [ptr_direct hk]
    exact h.1 k (Nat.lt_succ_of_le hk)

section

variable (hw : WellFormed sb d) (hsb : sb.Layout) {i : ℕ} (hi : i < sb.ninodes)
include hw hsb hi

/-- **Clearing.** Nothing counts as held by inode `i` any more, and an empty inode is stored. -/
theorem WellFormed.clear
    (hexact : Exact sb.IsData
      (fun p => if p.1 = i then none else sb.own (sb.dinode d) d p) (sb.bit d'))
    (hmeta : ∀ b < sb.dataStart, sb.bit d' b = true) (hblock : ∀ c, sb.dataStart ≤ c → d' c = d c)
    (hdinode : ∀ j < sb.ninodes, sb.dinode d' j = sb.dinode d j) (hip : ip.Empty) :
    WellFormed sb (sb.putDinode d' i ip) := by
  have hself : sb.dinode (sb.putDinode d' i ip) i = ip := by
    rw [Superblock.dinode_putDinode, if_pos rfl]
  have hother : ∀ j < sb.ninodes, j ≠ i →
      sb.dinode (sb.putDinode d' i ip) j = sb.dinode d j := by
    intro j hj hne
    rw [Superblock.dinode_putDinode, if_neg hne, hdinode j hj]
  have hptr : ∀ j < sb.ninodes, (sb.dinode d j).type ≠ 0 → ∀ k,
      (sb.dinode d j).ptr (sb.putDinode d' i ip) k = (sb.dinode d j).ptr d k := by
    intro j hj ht k
    refine Dinode.ptr_congr fun hind => ?_
    have hdata := hw.held.isData_indirect hj ht hind
    rw [hsb.data_putDinode hi hdata.1, hblock _ hdata.1]
  refine ⟨⟨hexact.congr ?_ fun b _ => hsb.bit_putDinode hi, ?_⟩, ?_⟩
  · rintro ⟨j, k⟩
    rcases eq_or_ne j i with rfl | hne
    · refine Eq.trans (if_neg fun hc => hc.2.2 ?_) (if_pos rfl).symm
      rw [hself]
      exact hip.ptr k
    · rw [if_neg hne]
      by_cases hj : j < sb.ninodes ∧ (sb.dinode d j).type ≠ 0
      · simp only [Superblock.own, hother j hj.1 hne, hptr j hj.1 hj.2]
      · rw [Superblock.own_eq_none hj]
        refine Superblock.own_eq_none fun hc => hj ⟨hc.1, ?_⟩
        rw [← hother j hc.1 hne]
        exact hc.2
  · intro b hb
    rw [hsb.bit_putDinode hi]
    exact hmeta b hb
  · intro j hj ht n hn
    rcases eq_or_ne j i with rfl | hne
    · rw [hself] at ht ⊢
      have hzero : blocks ip.size.toNat = 0 := by rw [hip.2]; rfl
      rw [hip.ptr, hzero]
      simp
    · rw [hother j hj hne] at ht ⊢
      rw [hptr j hj ht]
      exact hw.slots j hj ht n hn

/-- An inode that holds nothing is replaced by an empty one. -/
theorem WellFormed.putDinode_empty (hold : (sb.dinode d i).type = 0 ∨ (sb.dinode d i).Empty)
    (hip : ip.Empty) : WellFormed sb (sb.putDinode d i ip) := by
  refine hw.clear hsb hi (hw.exact.congr ?_ fun _ _ => rfl) hw.metadata (fun _ _ => rfl)
    (fun _ _ => rfl) hip
  rintro ⟨j, k⟩
  split
  · next hji =>
    obtain rfl : j = i := hji
    refine (if_neg fun hc => ?_).symm
    rcases hold with hfree | hempty
    · exact hc.2.1 hfree
    · exact hc.2.2 (hempty.ptr k)
  · rfl

theorem itrunc_spec (htype : (sb.dinode d i).type ≠ 0) :
    Meets (itrunc sb d i (sb.dinode d i)) NotFreeing fun r =>
      Local sb i d r.1 r.2 ∧ r.2.Empty := by
  refine (itruncDirect_spec hsb hi htype List.nodup_range (fun k hk => List.mem_range.mp hk)
    (fun _ _ hmem => by cases hmem) (Freed.nil hw) fun _ _ => rfl).bind ?_
  rintro ⟨d₁, ip₁⟩ ⟨hd₁, ⟨addrs₁, hip₁⟩, haddr₁⟩
  have hind : ip₁.addr nDirect = (sb.dinode d i).addr nDirect := by
    rw [haddr₁ _ (by decide), if_neg (by simp)]
  refine (itruncRest_spec hsb hi htype hw (by simp) hd₁ hind).bind ?_
  rintro ⟨d₂, ip₂⟩ ⟨⟨ks, hdone, hks, hd₂⟩, ⟨addrs₂, hip₂⟩, haddr₂⟩
  have hempty : Dinode.Empty { ip₂ with size := 0 } := by
    refine ⟨fun k hk => ?_, rfl⟩
    have hk₂ : ip₂.addr k = 0 := by
      rw [haddr₂ k hk, haddr₁ k hk]
      split
      · rfl
      · next hne =>
        have hlt : k < nDirect := lt_of_le_of_ne (Nat.le_of_lt_succ hk) hne
        rw [if_pos (List.mem_range.mpr hlt)]
    exact hk₂
  refine Meets.pure ⟨⟨hw.clear hsb hi (hd₂.exact.congr ?_ fun _ _ => rfl) hd₂.metadata hd₂.block
    hd₂.dinode hempty, ?_, ?_, ?_⟩, hempty⟩
  · rintro ⟨j, k⟩
    rcases eq_or_ne j i with rfl | hne
    · rw [if_pos rfl]
      split
      · rfl
      · next hk =>
        -- a place that was not freed was empty
        refine (if_neg fun hc => hk ⟨rfl, ?_⟩).symm
        rcases lt_or_ge k nDirect with hlt | hge
        · exact hdone k (by simpa using hlt)
        · exact hks k hge hc.2.2
    · rw [if_neg hne, if_neg fun hc => hne hc.1]
  · rw [iupdate, Superblock.dinode_putDinode, if_pos rfl]
  · have ht₁ : ip₁.type = (sb.dinode d i).type := by rw [show ip₁ = _ from hip₁]
    have ht₂ : ip₂.type = ip₁.type := by rw [show ip₂ = _ from hip₂]
    exact ht₂.trans ht₁
  · intro j hj hne
    rw [iupdate, Superblock.dinode_putDinode, if_neg hne, hd₂.dinode j hj]

end

/-! ## Directories -/

section Directory

variable (h : WellFormed sb d) {i : ℕ} (hi : i < sb.ninodes)
  (htype : (sb.dinode d i).type ≠ 0) (dev : Devsw)

include h hi htype

theorem dirlookupLoop_spec (name : List UInt8) (count off : ℕ) :
    Meets (dirlookupLoop sb dev name d (sb.dinode d i) count off) NotFreeing
      fun r => r.1 = d ∧ r.2.1 = sb.dinode d i := by
  induction count generalizing off with
  | zero => exact Meets.pure ⟨rfl, rfl⟩
  | succ count ih =>
    refine (readi_spec h hi htype dev off direntSize).bind ?_
    rintro ⟨d', dp, r, de⟩ ⟨hd, hdp⟩
    obtain rfl : d' = d := hd
    obtain rfl : dp = sb.dinode d' i := hdp
    dsimp only
    split
    · exact Meets.throw (by rintro ⟨⟩)
    · split
      · exact ih _
      · split
        · exact Meets.pure ⟨rfl, rfl⟩
        · exact ih _

theorem dirlookup_spec (name : List UInt8) :
    Meets (dirlookup sb dev d (sb.dinode d i) name) NotFreeing
      fun r => r.1 = d ∧ r.2.1 = sb.dinode d i := by
  unfold dirlookup
  split
  · exact Meets.throw (by rintro ⟨⟩)
  · exact dirlookupLoop_spec h hi htype dev name _ 0

theorem dirlinkLoop_spec (count off : ℕ) :
    Meets (dirlinkLoop sb dev d (sb.dinode d i) count off) NotFreeing
      fun r => r.1 = d ∧ r.2.1 = sb.dinode d i := by
  induction count generalizing off with
  | zero => exact Meets.pure ⟨rfl, rfl⟩
  | succ count ih =>
    refine (readi_spec h hi htype dev off direntSize).bind ?_
    rintro ⟨d', dp, r, de⟩ ⟨hd, hdp⟩
    obtain rfl : d' = d := hd
    obtain rfl : dp = sb.dinode d' i := hdp
    dsimp only
    split
    · exact Meets.throw (by rintro ⟨⟩)
    · split
      · exact Meets.pure ⟨rfl, rfl⟩
      · exact ih _

end Directory

/-! ## An image -/

/-- The image of an empty file system: the metadata is marked and no inode is allocated. -/
def emptyImage (sb : Superblock) : Disk :=
  (List.range sb.dataStart).foldl sb.setBit fun _ => zeroBlock

/-- The super block that mkfs writes. -/
def mkfsSuperblock : Superblock where
  size := fsSize
  ninodes := 200
  inodestart := 32
  bmapstart := 58

theorem layout_mkfsSuperblock : mkfsSuperblock.Layout := ⟨by decide, by decide, by decide⟩

theorem bit_foldl_setBit (bs : List ℕ) (d : Disk) (b : ℕ) :
    sb.bit (bs.foldl sb.setBit d) b = (decide (b ∈ bs) || sb.bit d b) := by
  induction bs generalizing d with
  | nil => simp
  | cons c bs ih =>
    rw [List.foldl_cons, ih, Superblock.bit_setBit]
    rcases eq_or_ne b c with rfl | hne
    · simp
    · simp [hne]

theorem dinode_foldl_setBit (hsb : sb.Layout) (bs : List ℕ) (d : Disk) (hi : i < sb.ninodes) :
    sb.dinode (bs.foldl sb.setBit d) i = sb.dinode d i := by
  induction bs generalizing d with
  | nil => rfl
  | cons c bs ih => rw [List.foldl_cons, ih, hsb.dinode_setBit hi]

theorem type_emptyImage (hsb : sb.Layout) (hi : i < sb.ninodes) :
    (sb.dinode (emptyImage sb) i).type = 0 := by
  rw [emptyImage, dinode_foldl_setBit hsb _ _ hi]
  simp only [Superblock.dinode, Block.dinode, Dinode.ofWords, zeroBlock_getWord]
  rfl

theorem bit_emptyImage (b : ℕ) : sb.bit (emptyImage sb) b = decide (b < sb.dataStart) := by
  have hzero : sb.bit (fun _ => zeroBlock) b = false := by
    simp [Superblock.bit, Bytes.testBit_eq, Bytes.byte, zeroBlock]
  rw [emptyImage, bit_foldl_setBit, hzero]
  simp

/-- Without an inode only the metadata is in use. -/
theorem wellFormed_of_free (htype : ∀ i < sb.ninodes, (sb.dinode d i).type = 0)
    (hbit : ∀ b < max sb.dataStart sb.size, sb.bit d b = decide (b < sb.dataStart)) :
    WellFormed sb d := by
  have hnone (p : ℕ × ℕ) : sb.own (sb.dinode d) d p = none :=
    Superblock.own_eq_none fun hc => hc.2 (htype p.1 hc.1)
  refine ⟨⟨⟨?_, ?_, ?_⟩, ?_⟩, fun i hi ht => absurd (htype i hi) ht⟩
  · intro p b hp
    rw [hnone] at hp
    cases hp
  · intro p q b hp
    rw [hnone] at hp
    cases hp
  · intro b hb
    simp [hbit b (lt_max_of_lt_right hb.2), hnone, hb.1]
  · intro b hb
    simp [hbit b (lt_max_of_lt_left hb), hb]

theorem wellFormed_emptyImage (hsb : sb.Layout) : WellFormed sb (emptyImage sb) :=
  wellFormed_of_free (fun _ hi => type_emptyImage hsb hi) fun b _ => bit_emptyImage b

/-! ## The inode cache -/

namespace Fs

/-- The image is well formed and every valid entry of the cache is what the disk holds. -/
structure Coherent (sb : Superblock) (s : Fs) : Prop where
  wellFormed : WellFormed sb s.disk
  core : ∀ {i ip}, s.core i = some ip →
    i < sb.ninodes ∧ sb.dinode s.disk i = ip ∧ ip.type ≠ 0

namespace Coherent

variable {s : Fs} (hs : s.Coherent sb)

include hs

/-- An operation on one inode, with the entry that it leaves. -/
theorem store (hi : i < sb.ninodes) (htype : (sb.dinode s.disk i).type ≠ 0)
    (hl : Local sb i s.disk d' ip) : (s.store i d' ip).Coherent sb where
  wellFormed := hl.wellFormed
  core {j jp} hj := by
    rcases eq_or_ne j i with rfl | hne
    · have hself : (s.store j d' ip).core j = some ip := Function.update_self ..
      obtain rfl : ip = jp := Option.some.inj (hself.symm.trans hj)
      exact ⟨hi, hl.self, hl.type ▸ htype⟩
    · have hsame : (s.store i d' ip).core j = s.core j := Function.update_of_ne hne ..
      obtain ⟨hjlt, hjp, ht⟩ := hs.core (hsame.symm.trans hj)
      exact ⟨hjlt, (hl.other j hjlt hne).trans hjp, ht⟩

/-- An entry that is thrown away; the inode on disk may have changed. -/
theorem forget (hd' : WellFormed sb d')
    (hother : ∀ j < sb.ninodes, j ≠ i → sb.dinode d' j = sb.dinode s.disk j) (ref : ℕ → ℕ) :
    Coherent sb ⟨d', Function.update s.core i none, ref⟩ where
  wellFormed := hd'
  core {j jp} hj := by
    rcases eq_or_ne j i with rfl | hne
    · cases (Function.update_self ..).symm.trans hj
    · obtain ⟨hjlt, hjp, ht⟩ := hs.core ((Function.update_of_ne hne ..).symm.trans hj)
      exact ⟨hjlt, (hother j hjlt hne).trans hjp, ht⟩

theorem iget (i : ℕ) : (s.iget i).Coherent sb := by
  unfold Fs.iget
  split
  · exact ⟨hs.wellFormed, hs.core⟩
  · exact hs.forget hs.wellFormed (fun _ _ _ => rfl) _

/-- After `ilock` the entry is valid. -/
theorem ilock (hi : i < sb.ninodes) :
    Meets (s.ilock sb i) NotFreeing fun r => ∃ s', r = (s', sb.dinode s'.disk i) ∧
      s'.Coherent sb ∧ (sb.dinode s'.disk i).type ≠ 0 := by
  unfold Fs.ilock
  split
  · next ip hip =>
    obtain ⟨-, hdisk, ht⟩ := hs.core hip
    exact Meets.pure ⟨s, by rw [hdisk], hs, hdisk ▸ ht⟩
  · dsimp only
    split
    · exact Meets.throw (by rintro ⟨⟩)
    · next htype =>
      exact Meets.pure ⟨_, rfl, hs.store hi htype (.refl hs.wellFormed), htype⟩

theorem iputLast (hsb : sb.Layout) (i : ℕ) :
    Meets (s.iputLast sb i) NotFreeing (Coherent sb) := by
  unfold Fs.iputLast
  split
  · exact Meets.pure hs
  · next ip hip =>
    split
    · obtain ⟨hi, rfl, htype⟩ := hs.core hip
      refine (itrunc_spec hs.wellFormed hsb hi htype).bind ?_
      rintro ⟨d', ip'⟩ ⟨hl, hempty⟩
      have hold : (sb.dinode d' i).Empty := hl.self ▸ hempty
      refine Meets.pure (hs.forget ?_ (fun j hj hne => ?_) _)
      · exact hl.wellFormed.putDinode_empty hsb hi (.inr hold) hempty
      · rw [iupdate, Superblock.dinode_putDinode, if_neg hne]
        exact hl.other j hj hne
    · exact Meets.pure hs

theorem iput (hsb : sb.Layout) (i : ℕ) : Meets (s.iput sb i) NotFreeing (Coherent sb) :=
  (hs.iputLast hsb i).bind fun _ hs' => Meets.pure ⟨hs'.wellFormed, hs'.core⟩

theorem ialloc (hsb : sb.Layout) (type : UInt16) :
    Meets (s.ialloc sb type) NotFreeing fun r => r.1.Coherent sb := by
  unfold Fs.ialloc
  split
  · exact Meets.throw (by rintro ⟨⟩)
  · next i hfind =>
    have hi : i < sb.ninodes :=
      List.mem_range.mp (List.mem_of_mem_drop (List.mem_of_find?_eq_some hfind))
    have hfree : (sb.dinode s.disk i).type = 0 := by simpa using List.find?_some hfind
    refine Meets.pure (Coherent.iget ⟨?_, fun {j jp} hj => ?_⟩ i)
    · exact hs.wellFormed.putDinode_empty hsb hi (.inl hfree) ⟨fun _ _ => by
        simp [freshDinode, Dinode.addr], rfl⟩
    · obtain ⟨hjlt, hjp, ht⟩ := hs.core hj
      -- a free inode has no valid entry
      have hne : j ≠ i := by
        rintro rfl
        exact ht (hjp ▸ hfree)
      exact ⟨hjlt, by rw [Superblock.dinode_putDinode, if_neg hne, hjp], ht⟩

theorem dirlink (hsb : sb.Layout) (dev : Devsw) (hi : i < sb.ninodes)
    (htype : (sb.dinode s.disk i).type ≠ 0) (name : List UInt8) (inum : ℕ) :
    Meets (s.dirlink sb dev i (sb.dinode s.disk i) name inum) NotFreeing
      fun r => r.1.Coherent sb := by
  refine (dirlookup_spec hs.wellFormed hi htype dev name).bind ?_
  rintro ⟨d', dp, found⟩ ⟨hd, hdp⟩
  obtain rfl : d' = s.disk := hd
  obtain rfl : dp = sb.dinode s.disk i := hdp
  cases found with
  | some entry =>
    obtain ⟨ino, off⟩ := entry
    have hstore := hs.store hi htype (.refl hs.wellFormed)
    exact ((hstore.iget ino).iput hsb ino).bind fun s' hs' => Meets.pure hs'
  | none =>
    refine (dirlinkLoop_spec hs.wellFormed hi htype dev _ 0).bind ?_
    rintro ⟨d', dp, off⟩ ⟨hd, hdp⟩
    obtain rfl : d' = s.disk := hd
    obtain rfl : dp = sb.dinode s.disk i := hdp
    refine (writei_spec hs.wellFormed hsb hi htype dev off (direntBytes inum name)).bind ?_
    rintro ⟨d', dp, r⟩ hl
    dsimp only
    split
    · exact Meets.throw (by rintro ⟨⟩)
    · exact Meets.pure (hs.store hi htype hl)

end Coherent

/-! ## Runs -/

/-- The state after boot from an image: nothing is cached. -/
def boot (d : Disk) : Fs := { disk := d, core := fun _ => none, ref := fun _ => 0 }

/-- What the system calls ask of this layer. The operations on the content of an inode work on one
that `ilock` has read. -/
inductive Op (sb : Superblock) : Type where
  | iget (i : ℕ)
  | ialloc (type : UInt16)
  | readi (i : Fin sb.ninodes) (off n : ℕ)
  | writei (i : Fin sb.ninodes) (off : ℕ) (src : List UInt8)
  | dirlink (i : Fin sb.ninodes) (name : List UInt8) (inum : ℕ)
  /-- `unlink` clears the entry at `off` -/
  | clear (i : Fin sb.ninodes) (off : ℕ)
  /-- `create`, `link` and `unlink` set these fields and call `iupdate` -/
  | iupdate (i : Fin sb.ninodes) (major minor nlink : UInt16)
  | iput (i : ℕ)

/-- One operation. -/
def step (sb : Superblock) (dev : Devsw) (s : Fs) : Op sb → Except Panic Fs
  | .iget i => pure (s.iget i)
  | .ialloc type => do
    let (s, _) ← s.ialloc sb type
    pure s
  | .readi i off n => do
    let (s, ip) ← s.ilock sb i
    let (d, ip, _) ← InuOs.readi sb dev s.disk ip off n
    pure (s.store i d ip)
  | .writei i off src => do
    let (s, ip) ← s.ilock sb i
    let (d, ip, _) ← InuOs.writei sb dev s.disk i ip off src
    pure (s.store i d ip)
  | .dirlink i name inum => do
    let (s, dp) ← s.ilock sb i
    let (s, _) ← s.dirlink sb dev i dp name inum
    pure s
  | .clear i off => do
    let (s, dp) ← s.ilock sb i
    let (d, dp, _) ← InuOs.writei sb dev s.disk i dp off (List.replicate direntSize 0)
    pure (s.store i d dp)
  | .iupdate i major minor nlink => do
    let (s, ip) ← s.ilock sb i
    let ip := { ip with major := major, minor := minor, nlink := nlink }
    pure (s.store i (InuOs.iupdate sb s.disk i ip) ip)
  | .iput i => s.iput sb i

/-- A sequence of operations. -/
def run (sb : Superblock) (dev : Devsw) (s : Fs) (ops : List (Op sb)) : Except Panic Fs :=
  ops.foldlM (step sb dev) s

theorem Coherent.step (hs : s.Coherent sb) (hsb : sb.Layout) (dev : Devsw) (op : Op sb) :
    Meets (s.step sb dev op) NotFreeing (Coherent sb) := by
  cases op with
  | iget i => exact Meets.pure (hs.iget i)
  | ialloc type => exact (hs.ialloc hsb type).bind fun _ hr => Meets.pure hr
  | readi i off n =>
    refine (hs.ilock i.2).bind ?_
    rintro _ ⟨s, rfl, hs, htype⟩
    refine (readi_spec hs.wellFormed i.2 htype dev off n).bind ?_
    rintro ⟨d', ip', r⟩ ⟨hd, hip⟩
    obtain rfl : d' = s.disk := hd
    obtain rfl : ip' = sb.dinode s.disk i := hip
    exact Meets.pure (hs.store i.2 htype (.refl hs.wellFormed))
  | writei i off src =>
    refine (hs.ilock i.2).bind ?_
    rintro _ ⟨s, rfl, hs, htype⟩
    exact (writei_spec hs.wellFormed hsb i.2 htype dev off src).bind fun r hr =>
      Meets.pure (hs.store i.2 htype hr)
  | dirlink i name inum =>
    refine (hs.ilock i.2).bind ?_
    rintro _ ⟨s, rfl, hs, htype⟩
    exact (hs.dirlink hsb dev i.2 htype name inum).bind fun r hr => Meets.pure hr
  | clear i off =>
    refine (hs.ilock i.2).bind ?_
    rintro _ ⟨s, rfl, hs, htype⟩
    exact (writei_spec hs.wellFormed hsb i.2 htype dev off _).bind fun r hr =>
      Meets.pure (hs.store i.2 htype hr)
  | iupdate i major minor nlink =>
    refine (hs.ilock i.2).bind ?_
    rintro _ ⟨s, rfl, hs, htype⟩
    exact Meets.pure (hs.store i.2 htype (hs.wellFormed.iupdate hsb i.2 htype rfl rfl rfl))
  | iput i => exact hs.iput hsb i

theorem Coherent.run (hs : s.Coherent sb) (hsb : sb.Layout) (dev : Devsw) (ops : List (Op sb)) :
    Meets (s.run sb dev ops) NotFreeing (Coherent sb) := by
  induction ops generalizing s with
  | nil => exact Meets.pure hs
  | cons op ops ih =>
    exact (hs.step hsb dev op).bind fun s' hs' => ih hs'

/-- **Block ownership.** From a well-formed image, whatever the system calls do to inodes and
directories, every image on the way is well formed and no block is freed twice. -/
theorem wellFormed_run (sb : Superblock) (hsb : sb.Layout) (dev : Devsw) (d : Disk)
    (h : WellFormed sb d) (ops : List (Op sb)) :
    (∀ s, (boot d).run sb dev ops = .ok s → WellFormed sb s.disk) ∧
      (boot d).run sb dev ops ≠ .error .freeingFreeBlock := by
  have hboot : (boot d).Coherent sb := ⟨h, by rintro i ip ⟨⟩⟩
  have hrun := hboot.run hsb dev ops
  exact ⟨fun s hs => (hrun.of_ok hs).wellFormed, fun he => hrun.of_error he rfl⟩

/-- A directory is made, gets an entry and is freed again, on an image with mkfs's super block. -/
theorem wellFormed_run_mkfs :
    WellFormed mkfsSuperblock (emptyImage mkfsSuperblock) ∧
      mkfsSuperblock.Layout ∧
      (∀ s, (boot (emptyImage mkfsSuperblock)).run mkfsSuperblock ⟨fun _ => none, fun _ => none⟩
        [.ialloc tDir, .dirlink ⟨1, by decide⟩ [46] 1, .iput 1] = .ok s →
          WellFormed mkfsSuperblock s.disk) ∧
      ((boot (emptyImage mkfsSuperblock)).run mkfsSuperblock ⟨fun _ => none, fun _ => none⟩
        [.ialloc tDir, .dirlink ⟨1, by decide⟩ [46] 1, .iput 1]).isOk := by
  have hsb := layout_mkfsSuperblock
  refine ⟨wellFormed_emptyImage hsb, hsb,
    (wellFormed_run _ hsb _ _ (wellFormed_emptyImage hsb) _).1, ?_⟩
  decide +kernel

end Fs

end InuOs
