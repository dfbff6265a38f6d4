import InuOs.FileData
import Mathlib.Order.Interval.Finset.Nat

/-!
# The loops of `readi` and `writei`

The loops go over the blocks of a range of bytes. On blocks that are there the loop of `readi`
returns the bytes of the range and changes nothing (`readiLoop_total`). The loop of `writei` splices
its bytes into the content of one file (`Wrote`); it fails only if there are too few free blocks for
what is missing in the range (`writeiLoop_wrote`).

Between two turns of `writei` the in-core inode is ahead of the one on disk, so its invariant is
stated for inodes `ino` that need not be those on the disk. `Settled` says that the disk has caught
up: the loop has allocated nothing, or `iupdate` has stored the inode.
-/

namespace InuOs

open Flat

variable {sb : Superblock} {ino : ℕ → Dinode} {d : Disk} {i bn : ℕ}

/-! ## One block -/

theorem byte_paste (b : Block) (o : ℕ) (src : List UInt8) {x : ℕ} (hx : x < bSize) :
    (b.paste o src).byte x = splice b.byte o src x := by
  simp only [Bytes.byte, dif_pos hx, Block.paste, splice]

theorem chunk_le (n off : ℕ) : chunk n off ≤ n := Nat.min_le_left ..

variable {n o j : ℕ} {ip : Dinode}

/-- A chunk lies in one block. -/
theorem div_mod_of_lt_chunk {off k : ℕ} (hk : k < chunk n off) :
    (off + k) / bSize = off / bSize ∧ (off + k) % bSize = off % bSize + k := by
  have hlt : off % bSize + k < bSize := by
    have hle : chunk n off ≤ bSize - off % bSize := Nat.min_le_right ..
    omega
  have hsplit : off + k = off % bSize + k + bSize * (off / bSize) := by
    have hdiv := Nat.div_add_mod off bSize
    omega
  rw [hsplit]
  constructor
  · rw [Nat.add_mul_div_left _ _ (by decide), Nat.div_eq_of_lt hlt, Nat.zero_add]
  · rw [Nat.add_mul_mod_self_left, Nat.mod_eq_of_lt hlt]

/-- Pasting a chunk into a block is splicing it into the file. -/
theorem splice_byte_chunk (f : ℕ → UInt8) (b : Block) {off : ℕ} (src : List UInt8)
    (ho : o / bSize = off / bSize) (hf : f o = b.byte (o % bSize)) :
    splice b.byte (off % bSize) src (o % bSize) = splice f off src o := by
  have hdo := Nat.div_add_mod o bSize
  have hdoff := Nat.div_add_mod off bSize
  rw [ho] at hdo
  unfold splice
  rw [hf]
  by_cases hle : off ≤ o
  · rw [if_pos hle, if_pos (by omega), show o % bSize - off % bSize = o - off by omega]
  · rw [if_neg hle, if_neg (by omega)]

section Block

variable (h : Held sb ino d) (hi : i < sb.ninodes) (htype : (ino i).type ≠ 0)
  (hptr : (ino i).ptr d (place bn) ≠ 0) (blk : Block)

include h hi htype hptr

theorem Held.update_data (hsb : sb.Layout) :
    Held sb ino (Function.update d ((ino i).ptr d (place bn)).toNat blk) :=
  h.of_ptr hsb (fun _ _ => rfl) (fun _ hj ht _ => h.ptr_update_data hi htype hj ht hptr blk)
    fun _ hb => Superblock.Layout.bit_update hb (h.isData_ptr hi htype hptr).1

/-- A block of the file is written. -/
theorem Held.gains_data (hsb : sb.Layout) (S : Finset ℕ) :
    Gains sb ino d i S (ino i) (Function.update d ((ino i).ptr d (place bn)).toNat blk) := by
  have hdata := h.isData_ptr hi htype hptr
  have hkeep (j : ℕ) (hj : j < sb.ninodes) (ht : (ino j).type ≠ 0) (k : ℕ) :=
    h.ptr_update_data (k := k) hi htype hj ht hptr blk
  refine ⟨?_, fun k _ => hkeep i hi htype k, fun k _ => hkeep i hi htype k,
    fun j hj ht _ => hkeep j hj ht,
    fun j hj => hsb.dinode_update hj ((Nat.le_add_right _ _).trans hdata.1), ⟨_, rfl⟩,
      fun T _ => ?_⟩
  · rw [Function.update_eq_self]
    exact h.update_data hi htype hptr blk hsb
  · have hmissing : (ino i).missing (Function.update d ((ino i).ptr d (place bn)).toNat blk) T =
        (ino i).missing d T := Finset.filter_congr fun k _ => by rw [hkeep i hi htype]
    have hfree : freeBlocks sb (Function.update d ((ino i).ptr d (place bn)).toNat blk) =
        freeBlocks sb d := Finset.filter_congr fun b hb => by
      rw [Superblock.Layout.bit_update (Finset.mem_range.mp hb) hdata.1]
    rw [Budget, hmissing, hfree]

theorem content_update_self (ho : o / bSize = bn) :
    (ino i).content (Function.update d ((ino i).ptr d (place bn)).toNat blk) o =
      blk.byte (o % bSize) := by
  rw [Dinode.content, h.ptr_update_data hi htype hi htype hptr, ho, if_neg hptr,
    Function.update_self]

theorem content_update_of_ne (hj : j < sb.ninodes) (htypej : (ino j).type ≠ 0)
    (hne : (j, o / bSize) ≠ (i, bn)) :
    (ino j).content (Function.update d ((ino i).ptr d (place bn)).toNat blk) o =
      (ino j).content d o := by
  rw [Dinode.content, Dinode.content, h.ptr_update_data hi htype hj htypej hptr]
  split
  · rfl
  · next hptrj =>
    have hblock : ((ino j).ptr d (place (o / bSize))).toNat ≠ ((ino i).ptr d (place bn)).toNat := by
      intro heq
      have hown := Held.own_ptr hj htypej hptrj
      rw [heq] at hown
      obtain ⟨hji, hplace⟩ := Prod.mk.inj (h.exact.inj hown (Held.own_ptr hi htype hptr))
      exact hne (by rw [hji, place_inj.mp hplace])
    rw [Function.update_of_ne hblock]

end Block

/-! ## Reading -/

/-- The blocks of the range `[off, off + n)` are there. -/
def Dinode.Covers (ip : Dinode) (d : Disk) (off n : ℕ) : Prop :=
  ∀ bn, off / bSize ≤ bn → bn * bSize < off + n → ip.ptr d (place bn) ≠ 0

theorem slice_eq_content (off n : ℕ) (hptr : ip.ptr d (place (off / bSize)) ≠ 0) :
    (d (ip.ptr d (place (off / bSize))).toNat).slice (off % bSize) (chunk n off) =
      (List.range (chunk n off)).map fun k => ip.content d (off + k) := by
  refine List.map_congr_left fun k hk => ?_
  obtain ⟨hdiv, hmod⟩ := div_mod_of_lt_chunk (List.mem_range.mp hk)
  rw [Dinode.content, hdiv, hmod, if_neg hptr]

theorem map_range_add {α : Type} (f : ℕ → α) {m : ℕ} (h : m ≤ n) :
    (List.range m).map f ++ (List.range (n - m)).map (fun k => f (m + k)) =
    (List.range n).map f := by
  obtain ⟨r, rfl⟩ := Nat.exists_eq_add_of_le h
  rw [Nat.add_sub_cancel_left, List.range_add, List.map_append, List.map_map]
  rfl

theorem div_lt_maxFile {off : ℕ} (hn : n ≠ 0) (hmax : off + n ≤ maxFile * bSize) :
    off / bSize < maxFile := by
  rw [Nat.div_lt_iff_lt_mul (by decide)]
  omega

theorem readiLoop_total (off n : ℕ) (hmax : off + n ≤ maxFile * bSize)
    (hcovers : ip.Covers d off n) :
    readiLoop sb d ip off n = .ok (d, ip, (List.range n).map fun k => ip.content d (off + k)) := by
  induction n using Nat.strong_induction_on generalizing off with
  | _ n ih =>
    rw [readiLoop]
    split
    · next hn =>
      subst hn
      rfl
    · next hn =>
      have hpos := chunk_pos hn off
      have hle := chunk_le n off
      have hptr := hcovers (off / bSize) le_rfl (by have := Nat.div_mul_le_self off bSize; omega)
      have hrest : ip.Covers d (off + chunk n off) (n - chunk n off) := fun bn hbn hend =>
        hcovers bn ((Nat.div_le_div_right (Nat.le_add_right ..)).trans hbn) (by omega)
      rw [bmap_of_ptr (div_lt_maxFile hn hmax) hptr]
      change (readiLoop sb d ip (off + chunk n off) (n - chunk n off) >>= fun r =>
        pure (r.1, r.2.1, _ ++ r.2.2)) = _
      rw [ih (n - chunk n off) (by omega) (off + chunk n off) (by omega) hrest,
        slice_eq_content off n hptr]
      change Except.ok (d, ip, _) = _
      simp only [Nat.add_assoc]
      rw [map_range_add (fun k => ip.content d (off + k)) hle]

/-! ## Places of a range -/

/-- The places that a transfer of `n` bytes at `off` looks at. -/
def rangePlaces (off n : ℕ) : Finset ℕ :=
  (Finset.Ico (off / bSize) (blocks (off + n))).biUnion bmapPlaces

theorem bmapPlaces_subset_rangePlaces {off : ℕ} (hbn : off / bSize ≤ bn)
    (hlt : bn * bSize < off + n) : bmapPlaces bn ⊆ rangePlaces off n := by
  exact Finset.subset_biUnion_of_mem bmapPlaces (Finset.mem_Ico.mpr ⟨hbn, lt_blocks_iff.mpr hlt⟩)

theorem rangePlaces_mono {off off' m : ℕ} (hoff : off ≤ off') (hend : off' + m ≤ off + n) :
    rangePlaces off' m ⊆ rangePlaces off n :=
  Finset.biUnion_subset_biUnion_of_subset_left _
    (Finset.Ico_subset_Ico (Nat.div_le_div_right hoff) (Nat.div_le_div_right (by omega)))

/-- A block of a place of the range, or the indirect block in front of it. -/
theorem mem_rangePlaces {off k : ℕ} (hk : k ∈ rangePlaces off n) :
    ∃ bn, off / bSize ≤ bn ∧ bn * bSize < off + n ∧
      (k = place bn ∨ k = nDirect ∧ nDirect ≤ bn) := by
  obtain ⟨bn, hbn, hk⟩ := Finset.mem_biUnion.mp hk
  obtain ⟨hle, hlt⟩ := Finset.mem_Ico.mp hbn
  refine ⟨bn, hle, lt_blocks_iff.mp hlt, ?_⟩
  unfold bmapPlaces at hk
  split at hk
  · exact .inl (Finset.mem_singleton.mp hk)
  · next hdir =>
    rcases Finset.mem_insert.mp hk with hk | hk
    · exact .inr ⟨hk, Nat.le_of_not_lt hdir⟩
    · exact .inl (Finset.mem_singleton.mp hk)

/-- A place behind the indirect block has a block only if there is an indirect block. -/
theorem Dinode.addr_ne_zero (hdir : nDirect ≤ bn) (hptr : ip.ptr d (place bn) ≠ 0) :
    ip.addr nDirect ≠ 0 := fun hzero =>
  hptr (ptr_eq_zero_of_indirect (by have := place_of_le hdir; omega) hzero)

/-- Nothing is missing where the blocks are there. -/
theorem Dinode.Covers.missing_eq_empty {off : ℕ} (h : ip.Covers d off n) :
    ip.missing d (rangePlaces off n) = ∅ := by
  refine Finset.filter_eq_empty_iff.mpr fun k hk => ?_
  obtain ⟨bn, hbn, hlt, rfl | ⟨rfl, hdir⟩⟩ := mem_rangePlaces hk
  · exact h bn hbn hlt
  · exact addr_ne_zero hdir (h bn hbn hlt)

/-! ## Writing -/

/-- What the loop of `writei` leaves behind. -/
structure Wrote (sb : Superblock) (ino : ℕ → Dinode) (d : Disk) (i off : ℕ) (src : List UInt8)
    (r : Disk × Dinode × ℕ) : Prop
    extends Gains sb ino d i (rangePlaces off src.length) r.2.1 r.1 where
  stop : r.2.2 = off + src.length
  content : r.2.1.content r.1 = splice ((ino i).content d) off src
  content_other : ∀ j < sb.ninodes, (ino j).type ≠ 0 → j ≠ i →
  (ino j).content r.1 = (ino j).content d
  covers : 0 < src.length → r.2.1.Covers r.1 off src.length
  same : (ino i).Covers d off src.length → r.2.1 = ino i

theorem Held.wrote_nil (h : Held sb ino d) (i off : ℕ) :
    Wrote sb ino d i off [] (d, ino i, off) where
  toGains := .refl h i _
  stop := rfl
  content := (splice_nil _ _).symm
  content_other _ _ _ _ := rfl
  covers hpos := absurd hpos (Nat.lt_irrefl 0)
  same _ := rfl

/-- A range that lies in one block. -/
theorem eq_of_mem_chunk {off : ℕ} (hn : n ≠ 0) (hle : bn * bSize < off + chunk n off)
    (hbn : off / bSize ≤ bn) : bn = off / bSize := by
  have hpos := chunk_pos hn off
  have hdiv : (off + (chunk n off - 1)) / bSize = off / bSize :=
    (div_mod_of_lt_chunk (Nat.sub_lt hpos Nat.one_pos)).1
  have hlast : bn ≤ (off + (chunk n off - 1)) / bSize := by
    rw [Nat.le_div_iff_mul_le (by decide)]
    omega
  omega

/-- A chunk goes into a block that is there. -/
theorem Held.wrote_chunk (h : Held sb ino d) (hsb : sb.Layout) (hi : i < sb.ninodes)
    (htype : (ino i).type ≠ 0) {off : ℕ} {src : List UInt8} (hn : n ≠ 0)
    (hsrc : src.length = chunk n off) (hptr : (ino i).ptr d (place (off / bSize)) ≠ 0) :
    Wrote sb ino d i off src
      (Function.update d ((ino i).ptr d (place (off / bSize))).toNat
        ((d ((ino i).ptr d (place (off / bSize))).toNat).paste (off % bSize) src), ino i,
        off + chunk n off) where
  toGains := h.gains_data hi htype hptr _ hsb _
  stop := by rw [hsrc]
  content := by
    funext o
    by_cases ho : o / bSize = off / bSize
    · rw [content_update_self h hi htype hptr _ ho, byte_paste _ _ _ (Nat.mod_lt o (by decide))]
      refine splice_byte_chunk _ _ _ ho ?_
      rw [Dinode.content, ho, if_neg hptr]
    · rw [content_update_of_ne h hi htype hptr _ hi htype fun heq => ho (congrArg Prod.snd heq)]
      refine (splice_of_notMem ?_).symm
      by_contra hin
      obtain ⟨k, rfl⟩ := Nat.exists_eq_add_of_le (show off ≤ o by omega)
      exact ho (div_mod_of_lt_chunk (show k < chunk n off by omega)).1
  content_other j hj ht hji := by
    funext o
    exact content_update_of_ne h hi htype hptr _ hj ht fun heq => hji (congrArg Prod.fst heq)
  covers _ bn hbn hend := by
    rw [hsrc] at hend
    obtain rfl := eq_of_mem_chunk hn hend hbn
    rwa [h.ptr_update_data hi htype hi htype hptr]
  same _ := rfl

namespace Wrote

variable {off : ℕ} {src src' : List UInt8} {r r' : Disk × Dinode × ℕ}

/-- Blocks were allocated first. -/
theorem of_grows {S : Finset ℕ} {ip : Dinode} {d₁ : Disk} (hgrows : Grows sb ino d i S ip d₁)
    (h : Wrote sb (Function.update ino i ip) d₁ i off src r) (hi : i < sb.ninodes)
    (htype : (ino i).type ≠ 0) (hS : S ⊆ rangePlaces off src.length)
    (hsame : (ino i).Covers d off src.length → ip = ino i ∧ d₁ = d) :
    Wrote sb ino d i off src r := by
  have hself : Function.update ino i ip i = ip := Function.update_self ..
  have hother (j : ℕ) (hne : j ≠ i) : Function.update ino i ip j = ino j :=
    Function.update_of_ne hne ..
  refine ⟨(hgrows.toGains.trans h.toGains).mono (Finset.union_subset hS subset_rfl), h.stop, ?_,
    fun j hj ht hne => ?_, h.covers, fun hcovers => ?_⟩
  · rw [h.content]
    congr 1
    funext o
    exact hgrows.content i hi htype o
  · have hnew := h.content_other j hj (by rwa [hother j hne]) hne
    rw [hother j hne] at hnew
    rw [hnew]
    funext o
    have hold := hgrows.content j hj ht o
    rwa [hother j hne] at hold
  · obtain ⟨rfl, rfl⟩ := hsame hcovers
    have hr := h.same
    rw [hself] at hr
    exact hr hcovers

/-- One piece after the other. -/
theorem append (h : Wrote sb ino d i off src r)
    (h' : Wrote sb (Function.update ino i r.2.1) r.1 i (off + src.length) src' r')
    (hsrc : 0 < src.length) : Wrote sb ino d i off (src ++ src') r' := by
  have hself : Function.update ino i r.2.1 i = r.2.1 := Function.update_self ..
  have hother (j : ℕ) (hne : j ≠ i) : Function.update ino i r.2.1 j = ino j :=
    Function.update_of_ne hne ..
  refine ⟨(h.toGains.trans h'.toGains).mono ?_, ?_, ?_, fun j hj ht hne => ?_,
    fun _ bn hbn hlt => ?_, fun hcovers => ?_⟩
  · rw [List.length_append]
    exact Finset.union_subset (rangePlaces_mono le_rfl (by omega))
      (rangePlaces_mono (Nat.le_add_right ..) (by omega))
  · rw [h'.stop, List.length_append, Nat.add_assoc]
  · rw [h'.content, hself, h.content, splice_append]
  · have hnew := h'.content_other j hj (by rwa [hother j hne]) hne
    rw [hother j hne] at hnew
    rw [hnew, h.content_other j hj ht hne]
  · rw [List.length_append, ← Nat.add_assoc] at hlt
    by_cases hin : bn * bSize < off + src.length
    · have hptr := h.covers hsrc bn hbn hin
      rwa [h'.keep _ (by rwa [hself]), hself]
    · refine h'.covers (by omega) bn ?_ hlt
      exact Nat.div_le_of_le_mul (by rw [Nat.mul_comm]; omega)
  · rw [List.length_append] at hcovers
    have hfirst := h.same fun bn hbn hlt => hcovers bn hbn (by omega)
    have hsecond := h'.same
    rw [hself] at hsecond
    refine (hsecond fun bn hbn hlt => ?_).trans hfirst
    have hold := hcovers bn ((Nat.div_le_div_right (Nat.le_add_right ..)).trans hbn) (by omega)
    rwa [h.keep _ hold]

end Wrote

/-- The loop of `writei` fails only if there are too few free blocks for what is missing in the
range. -/
theorem writeiLoop_wrote (h : Held sb ino d) (hsb : sb.Layout) (hi : i < sb.ninodes)
    (htype : (ino i).type ≠ 0) (off : ℕ) (src : List UInt8)
    (hmax : off + src.length ≤ maxFile * bSize) :
    Meets (writeiLoop sb d (ino i) off src) (Short sb d (ino i) (rangePlaces off src.length))
      (Wrote sb ino d i off src) := by
  induction hlen : src.length using Nat.strong_induction_on generalizing d ino off src with
  | _ n ih =>
    rw [writeiLoop]
    split
    · next hnil =>
      obtain rfl := List.length_eq_zero_iff.mp hnil
      exact Meets.pure (h.wrote_nil i off)
    · next hne =>
      have hpos := chunk_pos hne off
      have hle := chunk_le src.length off
      have hstart := Nat.div_mul_le_self off bSize
      have hlength : (src.take (chunk src.length off)).length = chunk src.length off := by
        rw [List.length_take, Nat.min_eq_left hle]
      have hfirst : off / bSize * bSize < off + (src.take (chunk src.length off)).length := by omega
      have hplaces := bmapPlaces_subset_rangePlaces le_rfl hfirst
      have hrange : rangePlaces off (src.take (chunk src.length off)).length ⊆
          rangePlaces off n := rangePlaces_mono le_rfl (by omega)
      refine ((bmap_maps h hsb hi htype (div_lt_maxFile hne hmax)).mono_error
        fun _ => Short.mono (hplaces.trans hrange)).bind ?_
      rintro ⟨d₁, ip, a⟩ ⟨hgrows, hplace, hptr, hsame⟩
      dsimp only at hgrows hplace hptr hsame ⊢
      subst hplace
      have hself : Function.update ino i ip i = ip := Function.update_self ..
      have htype' : (Function.update ino i ip i).type ≠ 0 := by rwa [hself, hgrows.type]
      -- this turn
      have hchunk := hgrows.held.wrote_chunk hsb hi htype' hne hlength (by rwa [hself])
      rw [hself] at hchunk
      have hwrote := Wrote.of_grows hgrows hchunk hi htype hplaces fun hcovers =>
        hsame (hcovers _ le_rfl hfirst)
      -- the turns that follow
      have hlen' : (src.drop (chunk src.length off)).length = src.length - chunk src.length off :=
        List.length_drop ..
      have hrest := ih (src.length - chunk src.length off) (by omega) hwrote.held
        (by rwa [hself] at htype' ⊢) (off + chunk src.length off) (src.drop (chunk src.length off))
        (by rw [hlen']; omega) hlen'
      rw [hself] at hrest
      refine (hrest.mono_error fun _ hshort => hwrote.short hrange (hshort.mono ?_)).mono
        fun r hr => ?_
      · exact rangePlaces_mono (Nat.le_add_right ..) (by omega)
      · have happend := hwrote.append (by rwa [hlength]) (by omega)
        rwa [List.take_append_drop] at happend

/-! ## Write-back -/

section WriteBack

variable {d : Disk} (htype : ip.type = (ino i).type)
  (haddrs : ip.addrs = (ino i).addrs) (hino : ∀ j < sb.ninodes, j ≠ i → ino j = sb.dinode d j)

include hino

include htype in
theorem type_putDinode (hj : j < sb.ninodes) :
    (sb.dinode (sb.putDinode d i ip) j).type = (ino j).type := by
  rw [Superblock.dinode_putDinode]
  rcases eq_or_ne j i with rfl | hne
  · rw [if_pos rfl, htype]
  · rw [if_neg hne, hino j hj hne]

include haddrs in
/-- The block numbers of the in-core inode are stored. -/
theorem Held.ptr_putDinode (h : Held sb ino d) (hsb : sb.Layout) (hi : i < sb.ninodes)
    (hj : j < sb.ninodes) (ht : (ino j).type ≠ 0) (k : ℕ) :
    (sb.dinode (sb.putDinode d i ip) j).ptr (sb.putDinode d i ip) k = (ino j).ptr d k := by
  have hindirect : (ino j).ptr (sb.putDinode d i ip) k = (ino j).ptr d k :=
    Dinode.ptr_congr fun hind => hsb.data_putDinode hi (h.isData_indirect hj ht hind).1
  rw [← hindirect, Superblock.dinode_putDinode]
  rcases eq_or_ne j i with rfl | hne
  · rw [if_pos rfl, Dinode.ptr_of_addrs haddrs]
  · rw [if_neg hne, hino j hj hne]

include haddrs in
/-- The bytes are those of the in-core inode. -/
theorem Held.content_putDinode (h : Held sb ino d) (hsb : sb.Layout) (hi : i < sb.ninodes)
    (hj : j < sb.ninodes) (ht : (ino j).type ≠ 0) :
    (sb.dinode (sb.putDinode d i ip) j).content (sb.putDinode d i ip) = (ino j).content d := by
  funext o
  rw [Dinode.content, Dinode.content, h.ptr_putDinode haddrs hino hsb hi hj ht]
  split
  · rfl
  · next hptr => rw [hsb.data_putDinode hi (h.isData_ptr hj ht hptr).1]

include htype haddrs in
theorem Held.putDinode (h : Held sb ino d) (hsb : sb.Layout) (hi : i < sb.ninodes) :
    Held sb (sb.dinode (sb.putDinode d i ip)) (sb.putDinode d i ip) :=
  h.of_ptr hsb (fun _ hj => type_putDinode htype hino hj)
    (fun _ hj ht k => h.ptr_putDinode haddrs hino hsb hi hj ht k) fun _ _ => hsb.bit_putDinode hi

end WriteBack

/-- The loop has ended with `d₁` and `ip₁`; `d'` and `ip` are the same but for the inode on disk,
which is `ip` now. -/
structure Settled (sb : Superblock) (d : Disk) (i : ℕ) (d₁ : Disk) (ip₁ : Dinode) (d' : Disk)
    (ip : Dinode) : Prop where
  held : Held sb (sb.dinode d') d'
  self : sb.dinode d' i = ip
  dinode_other : ∀ j < sb.ninodes, j ≠ i → sb.dinode d' j = sb.dinode d j
  free : freeBlocks sb d' = freeBlocks sb d₁
  ptr : ∀ k, ip.ptr d' k = ip₁.ptr d₁ k
  content : ip.content d' = ip₁.content d₁
  other : ∀ j < sb.ninodes, (sb.dinode d j).type ≠ 0 → j ≠ i →
    (∀ k, (sb.dinode d j).ptr d' k = (sb.dinode d j).ptr d₁ k) ∧
      (sb.dinode d j).content d' = (sb.dinode d j).content d₁

namespace Gains

variable {S : Finset ℕ} {ip₁ : Dinode} {d₁ : Disk}

/-- No block was allocated. -/
theorem settled (h : Gains sb (sb.dinode d) d i S (sb.dinode d i) d₁) (hsb : sb.Layout)
    (hi : i < sb.ninodes) : Settled sb d i d₁ (sb.dinode d i) d₁ (sb.dinode d i) where
  held := by
    have hheld := h.held
    rw [Function.update_eq_self] at hheld
    exact hheld.of_ptr hsb (fun j hj => by rw [h.dinode j hj])
      (fun j hj _ k => by rw [h.dinode j hj]) fun _ _ => rfl
  self := h.dinode i hi
  dinode_other j hj _ := h.dinode j hj
  free := rfl
  ptr _ := rfl
  content := rfl
  other _ _ _ _ := ⟨fun _ => rfl, rfl⟩

/-- `iupdate` stores the block numbers of the in-core inode. -/
theorem settled_iupdate (h : Gains sb (sb.dinode d) d i S ip₁ d₁) (hsb : sb.Layout)
    (hi : i < sb.ninodes) (htype : (sb.dinode d i).type ≠ 0) (hip : ip.type = ip₁.type)
    (haddrs : ip.addrs = ip₁.addrs) : Settled sb d i d₁ ip₁ (iupdate sb d₁ i ip) ip := by
  have hself : Function.update (sb.dinode d) i ip₁ i = ip₁ := Function.update_self ..
  have hold (j : ℕ) (hne : j ≠ i) : Function.update (sb.dinode d) i ip₁ j = sb.dinode d j :=
    Function.update_of_ne hne ..
  have hino (j : ℕ) (hj : j < sb.ninodes) (hne : j ≠ i) :
      Function.update (sb.dinode d) i ip₁ j = sb.dinode d₁ j := by rw [hold j hne, h.dinode j hj]
  have htype₁ : ip₁.type ≠ 0 := by rwa [h.type]
  rw [← hself] at hip haddrs
  have hself' : sb.dinode (iupdate sb d₁ i ip) i = ip := by
    rw [iupdate, Superblock.dinode_putDinode, if_pos rfl]
  have hother' (j : ℕ) (hj : j < sb.ninodes) (hne : j ≠ i) :
      sb.dinode (iupdate sb d₁ i ip) j = sb.dinode d j := by
    rw [iupdate, Superblock.dinode_putDinode, if_neg hne, h.dinode j hj]
  refine ⟨h.held.putDinode hip haddrs hino hsb hi, hself', hother', ?_, fun k => ?_, ?_,
    fun j hj ht hne => ⟨fun k => ?_, ?_⟩⟩
  · exact Finset.filter_congr fun b _ => by rw [iupdate, hsb.bit_putDinode hi]
  · have hptr := h.held.ptr_putDinode haddrs hino hsb hi hi (by rwa [hself]) k
    rwa [hself, ← iupdate, hself'] at hptr
  · have hcontent := h.held.content_putDinode haddrs hino hsb hi hi (by rwa [hself])
    rwa [hself, ← iupdate, hself'] at hcontent
  · have hptr := h.held.ptr_putDinode haddrs hino hsb hi hj (by rwa [hold j hne]) k
    rwa [hold j hne, ← iupdate, hother' j hj hne] at hptr
  · have hcontent := h.held.content_putDinode haddrs hino hsb hi hj (by rwa [hold j hne])
    rwa [hold j hne, ← iupdate, hother' j hj hne] at hcontent

end Gains

end InuOs
