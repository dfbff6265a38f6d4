import InuOs.FileWrite
import Mathlib.Algebra.Order.BigOperators.Group.Finset

/-!
# What one write reports

`filewrite` with nobody else at work on the file. Each chunk is a transaction of its own, so that a
chunk that does not fit any more leaves the ones before it in the file, and the call returns -1 all
the same.

* `filewriteLoop` is the loop; `fits off n` is how many of `n` bytes it stores from offset `off` on.
  `filewriteLoop_spec` says that it stores exactly these.
* `exists_exec_filewrite` — the call is a run of the steps of `InuOs.FileWrite`.
* Free blocks are counted over the whole call: what a chunk takes was missing before, so that the
  call returns exactly if there are blocks for all that it stores (`FileWritten.missing_le`).
* `filewrite_reports_iff` — the result of the call agrees with what it did unless the call is
  `Torn`.
-/

namespace InuOs

open Flat FileWrite Run

variable {sb : Superblock} {ino : ℕ → Dinode} {d d' : Disk} {i : ℕ}

variable {ip : Dinode} {off n : ℕ} {r : Disk × Dinode × ℕ × List UInt8}

/-! ## The call -/

/-- The loop of `filewrite`, for the bytes that are left: the offset it leaves and the bytes it has
not written. -/
def filewriteLoop (sb : Superblock) (dev : Devsw) (i : ℕ) (d : Disk) (ip : Dinode) (off : ℕ)
    (data : List UInt8) : Except Panic (Disk × Dinode × ℕ × List UInt8) :=
  if _hdata : data = [] then pure (d, ip, off, [])
  else do
    let (d, ip, r) ← writei sb dev d i ip off (data.take maxChunk)
    let off := if 0 < r then off + r.toNat else off
    if r < 0 then pure (d, ip, off, data)
    else if r ≠ (data.take maxChunk).length then throw .shortFilewrite
    else filewriteLoop sb dev i d ip off (data.drop maxChunk)
termination_by data.length
decreasing_by
  have hpos := List.length_pos_of_ne_nil _hdata
  have hchunk : 0 < maxChunk := by decide
  rw [List.length_drop]
  omega

/-- `filewrite` on a file with the inode `i`. -/
def filewrite (sb : Superblock) (dev : Devsw) (i : ℕ) (d : Disk) (ip : Dinode) (off : ℕ)
    (data : List UInt8) : Except Panic (Disk × Dinode × ℕ × ℤ) := do
  let (d, ip, off, rest) ← filewriteLoop sb dev i d ip off data
  pure (d, ip, off, if rest = [] then (data.length : ℤ) else -1)

/-- How many of `n` bytes the loop stores: all of them, or the chunks that fit into the largest
file. -/
def fits (off n : ℕ) : ℕ :=
  if off + n ≤ maxFile * bSize then n else (maxFile * bSize - off) / maxChunk * maxChunk

theorem maxChunk_pos : 0 < maxChunk := by decide

theorem fits_le (off n : ℕ) (hoff : off ≤ maxFile * bSize) :
    off + fits off n ≤ maxFile * bSize := by
  unfold fits
  split
  · assumption
  · have := Nat.div_mul_le_self (maxFile * bSize - off) maxChunk
    omega

/-- A chunk that fits, and what fits after it. -/
theorem fits_of_chunk (hchunk : off + min maxChunk n ≤ maxFile * bSize) :
    fits off n = min maxChunk n + fits (off + min maxChunk n) (n - min maxChunk n) := by
  unfold fits
  by_cases hall : off + n ≤ maxFile * bSize
  · rw [if_pos hall, if_pos (by omega)]
    omega
  · have hmin : min maxChunk n = maxChunk := by omega
    rw [hmin] at hchunk ⊢
    rw [if_neg hall, if_neg (by omega),
      show maxFile * bSize - off = maxFile * bSize - (off + maxChunk) + maxChunk by omega,
      Nat.add_div_right _ maxChunk_pos, Nat.succ_mul, Nat.add_comm]

/-- A chunk that does not fit. -/
theorem fits_eq_zero (hchunk : maxFile * bSize < off + min maxChunk n) : fits off n = 0 := by
  have hpos := maxChunk_pos
  unfold fits
  rw [if_neg (by omega), Nat.div_eq_of_lt (by omega), Nat.zero_mul]

/-- What the loop leaves behind: the bytes that fit are in the file, and the blocks that were taken
for them were missing before. -/
structure FileWritten (sb : Superblock) (d : Disk) (i off : ℕ) (data : List UInt8)
    (r : Disk × Dinode × ℕ × List UInt8) : Prop where
  bytes : fileBytes sb r.1 i = writeAt (fileBytes sb d i) off (data.take (fits off data.length))
  stop : r.2.2.1 = off + fits off data.length
  rest : r.2.2.2 = data.drop (fits off data.length)
  sound : Sound sb r.1
  self : sb.dinode r.1 i = r.2.1
  type : r.2.1.type = (sb.dinode d i).type
  size : off + fits off data.length ≤ r.2.1.size.toNat
  budget : ∀ T, rangePlaces off (fits off data.length) ⊆ T → Budget sb T (sb.dinode d i) d r.2.1 r.1

namespace FileWritten

variable {off : ℕ} {data : List UInt8}

/-- Nothing fits. -/
theorem of_fits_eq_zero (hzero : fits off data.length = 0) (h : Sound sb d)
    (hoff : off ≤ (sb.dinode d i).size.toNat) :
    FileWritten sb d i off data (d, sb.dinode d i, off, data) where
  bytes := by rw [hzero, List.take_zero, writeAt_nil]
  stop := by rw [hzero, Nat.add_zero]
  rest := by rw [hzero, List.drop_zero]
  sound := h
  self := rfl
  type := rfl
  size := by rwa [hzero, Nat.add_zero]
  budget _ _ := rfl

/-- A chunk, and what follows it. -/
theorem of_chunk (hchunk : off + min maxChunk data.length ≤ maxFile * bSize)
    (hoff : off ≤ (sb.dinode d i).size.toNat)
    (hstored : Stored sb d i off (data.take maxChunk) d' ip)
    (h : FileWritten sb d' i (off + min maxChunk data.length) (data.drop maxChunk) r) :
    FileWritten sb d i off data r := by
  have hlength : (data.take maxChunk).length = min maxChunk data.length := List.length_take
  have hdrop : (data.drop maxChunk).length = data.length - min maxChunk data.length := by
    rw [List.length_drop]
    omega
  have hsplit := fits_of_chunk hchunk
  obtain ⟨hbytes, hstop, hrest, hsound, hself, htype, hsize, hbudget⟩ := h
  rw [hdrop] at hbytes hstop hrest hsize hbudget
  generalize hmore : fits (off + min maxChunk data.length)
    (data.length - min maxChunk data.length) = more at hsplit hbytes hstop hrest hsize hbudget
  have htake : data.take maxChunk ++ (data.drop maxChunk).take more =
      data.take (fits off data.length) := by
    by_cases hall : maxChunk ≤ data.length
    · rw [hsplit, Nat.min_eq_left hall, List.take_add]
    · have hle : data.length ≤ maxChunk := by omega
      rw [hsplit, Nat.min_eq_right hle, List.take_of_length_le hle, List.drop_eq_nil_of_le hle,
        List.take_nil, List.append_nil, List.take_of_length_le (Nat.le_add_right ..)]
  have hskip : (data.drop maxChunk).drop more = data.drop (fits off data.length) := by
    by_cases hall : maxChunk ≤ data.length
    · rw [hsplit, Nat.min_eq_left hall, List.drop_drop]
    · have hle : data.length ≤ maxChunk := by omega
      rw [hsplit, Nat.min_eq_right hle, List.drop_eq_nil_of_le hle, List.drop_nil,
        List.drop_eq_nil_of_le (Nat.le_add_right ..)]
  have hinside : off ≤ (fileBytes sb d i).length := by
    rw [fileBytes, List.length_map, List.length_range]
    exact hoff
  obtain ⟨addrs, size, hip⟩ := hstored.fields
  refine ⟨?_, ?_, ?_, hsound, hself, ?_, ?_, fun T hT => ?_⟩
  · rw [hbytes, hstored.bytes, ← hlength, writeAt_append hinside, htake]
  · rw [hstop, hsplit, Nat.add_assoc]
  · rw [hrest, hskip]
  · rw [htype, hstored.self, hip]
  · rwa [hsplit, ← Nat.add_assoc]
  · have hfirst := hstored.budget T ((rangePlaces_mono le_rfl (by omega)).trans hT)
    have hsecond := hbudget T ((rangePlaces_mono (Nat.le_add_right ..) (by omega)).trans hT)
    rw [hstored.self] at hsecond
    unfold Budget at hfirst hsecond ⊢
    omega

/-- A call that returns had free blocks for all that it has stored. -/
theorem missing_le (h : FileWritten sb d i off data r) (hi : i < sb.ninodes)
    (htype : (sb.dinode d i).type ≠ 0) :
    ((sb.dinode d i).missing d (rangePlaces off (fits off data.length))).card ≤
      (freeBlocks sb d).card := by
  have hnone := h.sound.missing_eq_empty hi (by rwa [h.self, h.type]) (by rw [h.self]; exact h.size)
  have hbudget := h.budget _ subset_rfl
  rw [h.self] at hnone
  rw [Budget, hnone, Finset.card_empty] at hbudget
  omega

end FileWritten

/-- **The loop of `filewrite`** stores the bytes that fit, and fails only if there are too few free
blocks for them. -/
theorem filewriteLoop_spec (hsb : sb.Layout) (h : Sound sb d) (hi : i < sb.ninodes)
    (htype : (sb.dinode d i).type ≠ 0) (hdev : (sb.dinode d i).type ≠ tDev) (dev : Devsw)
    (off : ℕ) (data : List UInt8) (hoff : off ≤ (sb.dinode d i).size.toNat) :
    Meets (filewriteLoop sb dev i d (sb.dinode d i) off data)
      (Short sb d (sb.dinode d i) (rangePlaces off (fits off data.length)))
      (FileWritten sb d i off data) := by
  induction hlen : data.length using Nat.strong_induction_on generalizing d off data with
  | _ n ih =>
    subst hlen
    have hsize := h.size_le hi htype
    have hmax32 : maxFile * bSize < 2 ^ 32 := by decide
    have hlength : (data.take maxChunk).length = min maxChunk data.length := List.length_take
    have hdrop : (data.drop maxChunk).length = data.length - min maxChunk data.length := by
      rw [List.length_drop]
      omega
    rw [filewriteLoop]
    split
    · next hnil =>
      subst hnil
      have hzero : fits off ([] : List UInt8).length = 0 := if_pos (by rw [List.length_nil]; omega)
      exact Meets.pure (.of_fits_eq_zero hzero h hoff)
    next hne =>
    have hpos := List.length_pos_of_ne_nil hne
    have hchunk := maxChunk_pos
    by_cases hout : maxFile * bSize < off + min maxChunk data.length
    · rw [writei_of_out hdev dev (.inr (.inr (by rw [hlength]; exact hout)))]
      exact Meets.pure (.of_fits_eq_zero (fits_eq_zero hout) h hoff)
    have hfit : off + min maxChunk data.length ≤ maxFile * bSize := Nat.le_of_not_lt hout
    have hmore := fits_of_chunk hfit
    have hplaces : rangePlaces off (data.take maxChunk).length ⊆
        rangePlaces off (fits off data.length) := rangePlaces_mono le_rfl (by omega)
    refine ((writei_stored hsb h hi htype hdev dev off (data.take maxChunk) (by omega)).mono_error
      fun _ => Short.mono hplaces).bind ?_
    rintro ⟨d₁, ip, w⟩ ⟨hw, hstored⟩
    obtain rfl : w = ((data.take maxChunk).length : ℤ) := hw
    dsimp only at hstored ⊢
    obtain ⟨addrs, size, hip⟩ := hstored.fields
    have htype₁ : (sb.dinode d₁ i).type = (sb.dinode d i).type := by rw [hstored.self, hip]
    rw [if_neg (by omega), if_neg (not_not.mpr rfl), if_pos (by rw [hlength]; omega),
      Int.toNat_natCast, hlength, ← hstored.self]
    have hrest := ih _ (by rw [hdrop]; omega) hstored.sound (by rwa [htype₁]) (by rwa [htype₁])
      (off + min maxChunk data.length) (data.drop maxChunk) ?_ rfl
    · refine (hrest.mono_error fun e hshort => ?_).mono fun r hr => hr.of_chunk hfit hoff hstored
      have hrange : rangePlaces (off + min maxChunk data.length)
          (fits (off + min maxChunk data.length) (data.drop maxChunk).length) ⊆
          rangePlaces off (fits off data.length) :=
        rangePlaces_mono (Nat.le_add_right ..) (by rw [hdrop]; omega)
      have hshort := hshort.mono hrange
      have hbudget := hstored.budget _ hplaces
      rw [hstored.self] at hshort
      have hless := hshort.2
      unfold Budget at hbudget
      exact ⟨hshort.1, by omega⟩
    · rw [hstored.self, hstored.size, hlength]
      exact le_max_right ..

/-! ## The call as a run -/

section Alone

variable {π : Type} [DecidableEq π] {dev : Devsw} {i : ℕ} {p : π}

/-- One turn of the loop: the four steps of a process that finds the file unlocked. -/
theorem exec_turn {s : State π} {c : Call} {d : Disk} {w : ℤ} (hpc : s.pc p = .loop c n)
    (hlt : n < c.data.length) (hlock : s.lock = none)
    (hw : InuOs.writei sb dev s.disk i s.ip s.off (c.piece n) = .ok (d, ip, w))
    (hret : w < 0 ∨ w = (c.piece n).length) :
    ∃ s', exec (step sb dev i) s [.ilock p, .writei p, .advance p, .iunlock p] = some s' ∧
      s'.disk = d ∧ s'.ip = ip ∧ s'.off = (if 0 < w then s.off + w.toNat else s.off) ∧
      s'.lock = none ∧ s'.result = s.result ∧ s'.calls = s.calls ∧
      s'.pc p = if w < 0 then .exit c n else .loop c (n + w.toNat) := by
  let s₁ : State π := { s with lock := some p, pc := Function.update s.pc p (.locked c n) }
  have h₁ : step sb dev i s (.ilock p) = some s₁ := by
    simp only [step, hpc]
    exact if_pos ⟨hlt, hlock⟩
  have h₂ := step_writei (s := s₁) (p := p) (Function.update_self ..) hw
  rw [exec_cons, h₁, Option.bind_some, exec_cons, h₂, Option.bind_some, exec_cons]
  simp only [step, Function.update_self, Option.bind_some, exec_cons, exec_nil]
  rcases hret with hneg | rfl
  · rw [if_pos hneg, if_pos hneg]
    exact ⟨_, rfl, rfl, rfl, rfl, rfl, rfl, rfl, Function.update_self ..⟩
  · have hnn : ¬ (((c.piece n).length : ℤ) < 0) := by omega
    rw [if_neg hnn, if_pos rfl, if_neg hnn]
    exact ⟨_, rfl, rfl, rfl, rfl, rfl, rfl, rfl, Function.update_self ..⟩

/-- `filewrite` by process `p` is at the end of its loop, with the bytes `rest` not written. -/
structure LoopEnd (p : π) (c : Call) (s : State π) (r : Disk × Dinode × ℕ × List UInt8)
    (s' : State π) : Prop where
  disk : s'.disk = r.1
  ip : s'.ip = r.2.1
  off : s'.off = r.2.2.1
  calls : s'.calls = s.calls
  result : s'.result = s.result
  pc : ∃ n, c.data.drop n = r.2.2.2 ∧ (s'.pc p = .exit c n ∧ n < c.data.length ∨
    s'.pc p = .loop c n ∧ n = c.data.length)

/-- The process that takes a step. -/
def FileWrite.Event.proc : Event π → π
  | .call p _ | .ilock p | .writei p | .advance p | .iunlock p | .ret p => p

/-- The turns of the loop are steps of the process. -/
theorem exists_exec_filewriteLoop (c : Call) (n : ℕ) (hn : n ≤ c.data.length) (s : State π)
    (hpc : s.pc p = .loop c n) (hlock : s.lock = none)
    (hok : filewriteLoop sb dev i s.disk s.ip s.off (c.data.drop n) = .ok r) :
    ∃ es s', (∀ e ∈ es, e.proc = p) ∧ exec (step sb dev i) s es = some s' ∧ LoopEnd p c s r s' := by
  induction hlen : c.data.length - n using Nat.strong_induction_on generalizing n s with
  | _ m ih =>
    have hchunk := maxChunk_pos
    rw [filewriteLoop] at hok
    split at hok
    · next hnil =>
      cases hok
      have hend := List.drop_eq_nil_iff.mp hnil
      exact ⟨[], s, List.forall_mem_nil _, rfl, rfl, rfl, rfl, rfl, rfl, n,
        hnil, .inr ⟨hpc, by omega⟩⟩
    · next hne =>
      have hlt : n < c.data.length := by
        by_contra hge
        exact hne (List.drop_eq_nil_of_le (by omega))
      obtain ⟨⟨d, ip, w⟩, hw, hok⟩ := exists_of_bind_eq_ok hok
      dsimp only at hok
      split at hok
      · next hneg =>
        cases hok
        obtain ⟨s', hexec, hd, hip, hoff, -, hresult, hcalls, hpc'⟩ :=
          exec_turn hpc hlt hlock hw (.inl hneg)
        rw [if_pos hneg] at hpc'
        exact ⟨_, s', by simp [Event.proc], hexec, hd, hip, hoff, hcalls, hresult, n, rfl,
          .inl ⟨hpc', hlt⟩⟩
      · next hnn =>
        split at hok
        · cases hok
        · next hall =>
          have hall : w = (c.piece n).length := not_not.mp hall
          obtain ⟨s', hexec, hd, hip, hoff, hlock', hresult, hcalls, hpc'⟩ :=
            exec_turn hpc hlt hlock hw (.inr hall)
          rw [if_neg hnn] at hpc'
          have hlength : (c.piece n).length = min maxChunk (c.data.length - n) := by
            rw [Call.piece, List.length_take, List.length_drop]
          rw [List.drop_drop] at hok
          have hdrop : c.data.drop (n + maxChunk) = c.data.drop (n + w.toNat) := by
            by_cases hle : maxChunk ≤ c.data.length - n
            · rw [hall, hlength, Int.toNat_natCast, Nat.min_eq_left hle]
            · rw [List.drop_eq_nil_of_le (by omega), List.drop_eq_nil_of_le (by omega)]
          rw [hdrop, ← hd, ← hip, ← hoff] at hok
          obtain ⟨es, s'', hes, hexec', hend⟩ := ih _ (by omega) (n + w.toNat) (by omega) s' hpc'
            hlock' hok rfl
          refine ⟨[.ilock p, .writei p, .advance p, .iunlock p] ++ es, s'', ?_,
            by rw [exec_append, hexec]; exact hexec', hend.disk, hend.ip, hend.off,
            hend.calls.trans hcalls, hend.result.trans hresult, hend.pc⟩
          exact List.forall_mem_append.mpr ⟨by simp [Event.proc], hes⟩

/-- **`filewrite` is the run of a process that nobody disturbs**: whenever the function returns,
there is a run of the system made of steps of that process alone, with the same outcome. -/
theorem exists_exec_filewrite (s : State π) (hpc : s.pc p = .out) (hlock : s.lock = none)
    (data : List UInt8) {d : Disk} {r : ℤ}
    (hok : filewrite sb dev i s.disk s.ip s.off data = .ok (d, ip, off, r)) :
    ∃ es s', (∀ e ∈ es, e.proc = p) ∧ exec (step sb dev i) s es = some s' ∧ s'.disk = d ∧
      s'.ip = ip ∧ s'.off = off ∧ s'.result s.calls.length = some r := by
  obtain ⟨⟨d, ip, off, rest⟩, hloop, hok⟩ := exists_of_bind_eq_ok hok
  cases hok
  let c : Call := ⟨s.calls.length, data⟩
  let s₁ : State π := { s with
    calls := s.calls ++ [data]
    pc := Function.update s.pc p (.loop c 0) }
  have hcall : step sb dev i s (.call p data) = some s₁ := by
    simp only [step, hpc]
    rfl
  obtain ⟨es, s', hes, hexec, hend⟩ := exists_exec_filewriteLoop c 0 (Nat.zero_le _) s₁
    (Function.update_self ..) hlock hloop
  obtain ⟨n, hrest, hpc'⟩ := hend.pc
  have hret : step sb dev i s' (.ret p) = some (s'.finish p c n) := by
    rcases hpc' with ⟨hpc', -⟩ | ⟨hpc', hn⟩
    · simp only [step, hpc']
    · simp only [step, hpc']
      exact if_neg (by omega)
  refine ⟨.call p data :: es ++ [.ret p], s'.finish p c n, ?_, ?_, hend.disk, hend.ip, hend.off, ?_⟩
  · exact List.forall_mem_append.mpr ⟨List.forall_mem_cons.mpr ⟨rfl, hes⟩, by simp [Event.proc]⟩
  · rw [List.cons_append, exec_cons, hcall, Option.bind_some, exec_append, hexec, Option.bind_some,
      exec_cons, hret]
    rfl
  · have hiff : n = c.data.length ↔ rest = [] := by
      rw [← show c.data.drop n = rest from hrest, List.drop_eq_nil_iff]
      omega
    simp only [State.finish, hiff]
    exact Function.update_self ..

end Alone

/-- All data blocks of the image are free. -/
theorem card_freeBlocks_oneFile : 941 ≤ (freeBlocks mkfsSuperblock oneFile).card := by
  have hsub : Finset.Ico 59 1000 ⊆ freeBlocks mkfsSuperblock oneFile := by
    intro b hb
    obtain ⟨hge, hlt⟩ := Finset.mem_Ico.mp hb
    refine Finset.mem_filter.mpr ⟨Finset.mem_range.mpr hlt, ?_⟩
    rw [oneFile, layout_mkfsSuperblock.bit_putDinode (by decide), bit_emptyImage]
    exact decide_eq_false (Nat.not_lt.mpr hge)
  have hcard := Finset.card_le_card hsub
  rwa [Nat.card_Ico] at hcard

theorem card_rangePlaces_le (off n : ℕ) :
    (rangePlaces off n).card ≤ (blocks (off + n) - off / bSize) * 2 := by
  have hle := Finset.card_biUnion_le_card_mul
    (Finset.Ico (off / bSize) (blocks (off + n))) bmapPlaces 2 fun bn _ => by
      unfold bmapPlaces
      split
      · exact (Finset.card_singleton _).le.trans (by decide)
      · exact Finset.card_le_two
  rwa [Nat.card_Ico] at hle

theorem fileBytes_oneFile : fileBytes mkfsSuperblock oneFile 1 = [] := rfl

/-- The empty file of the image has room for all that fits into a file. -/
theorem filewriteLoop_oneFile (dev : Devsw) (data : List UInt8) :
    ∃ r, filewriteLoop mkfsSuperblock dev 1 oneFile (Fs.freshDinode 2) 0 data = .ok r ∧
      FileWritten mkfsSuperblock oneFile 1 0 data r := by
  have hone : mkfsSuperblock.dinode oneFile 1 = Fs.freshDinode 2 := dinode_oneFile 1
  have hle := fits_le 0 data.length (Nat.zero_le _)
  rw [Nat.zero_add] at hle
  have hfree : ((mkfsSuperblock.dinode oneFile 1).missing oneFile
      (rangePlaces 0 (maxFile * bSize))).card ≤ (freeBlocks mkfsSuperblock oneFile).card := by
    have hmissing := (Finset.card_filter_le (rangePlaces 0 (maxFile * bSize)) fun k =>
      (mkfsSuperblock.dinode oneFile 1).ptr oneFile k = 0).trans (card_rangePlaces_le 0 _)
    have hblocks : (blocks (0 + maxFile * bSize) - 0 / bSize) * 2 = 280 := by decide
    have hfree := card_freeBlocks_oneFile
    rw [Dinode.missing]
    omega
  have hplaces : rangePlaces 0 (fits 0 data.length) ⊆ rangePlaces 0 (maxFile * bSize) :=
    rangePlaces_mono le_rfl (by omega)
  rw [← hone]
  refine (filewriteLoop_spec layout_mkfsSuperblock sound_oneFile (by decide) (by rw [hone]; decide)
    (by rw [hone]; decide) dev 0 data (Nat.zero_le _)).exists_ok fun _ hshort => ?_
  exact absurd hshort.2 (Nat.not_lt.mpr ((Dinode.missing_mono _ _ hplaces).trans hfree))

/-- 2000 bytes are written to an empty file, in two chunks. -/
theorem exists_exec_filewrite_two_chunks :
    ∃ es s', (∀ e ∈ es, e.proc = ()) ∧
      exec (step mkfsSuperblock ⟨fun _ => none, fun _ => none⟩ 1)
        ⟨oneFile, Fs.freshDinode 2, 0, none, fun _ => .out, [], [], fun _ => none⟩ es = some s' ∧
      s'.off = 2000 ∧ s'.result 0 = some 2000 ∧
      fileBytes mkfsSuperblock s'.disk 1 = List.replicate 2000 7 := by
  have hfits : fits 0 2000 = 2000 := by decide
  obtain ⟨⟨d, ip, off, rest⟩, hloop, hbytes, hstop, hrest, -⟩ :=
    filewriteLoop_oneFile ⟨fun _ => none, fun _ => none⟩ (List.replicate 2000 7)
  rw [List.length_replicate, hfits] at hbytes hstop hrest
  have hnil : rest = [] := hrest.trans (List.drop_eq_nil_of_le (by rw [List.length_replicate]))
  rw [List.take_replicate, fileBytes_oneFile, writeAt, List.take_nil,
    List.drop_nil, List.nil_append, List.append_nil] at hbytes
  obtain ⟨es, s', hes, hexec, hd, -, hoff, hresult⟩ := exists_exec_filewrite (p := ())
    ⟨oneFile, Fs.freshDinode 2, 0, none, fun _ => .out, [], [], fun _ => none⟩ rfl rfl
    (List.replicate 2000 7) (by rw [filewrite, hloop]; rfl)
  refine ⟨es, s', hes, hexec, hoff.trans hstop, hresult.trans ?_, hd ▸ hbytes⟩
  rw [if_pos hnil, List.length_replicate]
  rfl

/-! ## The result -/

/-- The result agrees with what was done: all `n` bytes are in the file at the old offset, which has
moved on by `n`; or the file and the offset are as before. -/
def Reported (sb : Superblock) (d : Disk) (i off : ℕ) (data : List UInt8) (d' : Disk) (off' : ℕ)
    (r : ℤ) : Prop :=
  (r = data.length ∧ fileBytes sb d' i = writeAt (fileBytes sb d i) off data ∧
      off' = off + data.length) ∨
    (r = -1 ∧ fileBytes sb d' i = fileBytes sb d i ∧ off' = off)

/-- The first chunk fits into the largest file, but not all of the bytes do. -/
def Torn (size off n : ℕ) : Prop :=
  off ≤ size ∧ off + maxChunk ≤ maxFile * bSize ∧ maxFile * bSize < off + n

/-- A call that begins behind the end of the file. -/
theorem filewrite_of_lt (dev : Devsw) (off : ℕ) (data : List UInt8)
    (hdev : (sb.dinode d i).type ≠ tDev) (hoff : (sb.dinode d i).size.toNat < off) :
    filewrite sb dev i d (sb.dinode d i) off data =
      .ok (d, sb.dinode d i, off, if data = [] then (data.length : ℤ) else -1) := by
  rw [filewrite, filewriteLoop]
  split
  · next hnil =>
    rfl
  · next hne =>
    rw [writei_of_out hdev dev (.inl hoff)]
    change Except.ok (d, sb.dinode d i, off, if data = [] then (data.length : ℤ) else -1) = _
    rw [if_neg hne]

/-- The result of a call that stores bytes agrees with what it did unless the call is torn. -/
theorem FileWritten.reported_iff {data : List UInt8} (h : FileWritten sb d i off data r)
    (hoff : off ≤ maxFile * bSize) (hsize : off ≤ (sb.dinode d i).size.toNat) :
    Reported sb d i off data r.1 r.2.2.1 (if r.2.2.2 = [] then (data.length : ℤ) else -1) ↔
      ¬ Torn (sb.dinode d i).size.toNat off data.length := by
  obtain ⟨hbytes, hstop, hrest, -⟩ := h
  have hchunk := maxChunk_pos
  by_cases hall : off + data.length ≤ maxFile * bSize
  · have hfits : fits off data.length = data.length := if_pos hall
    rw [hfits, List.take_length] at hbytes
    rw [hfits] at hstop
    rw [hfits, List.drop_length] at hrest
    refine iff_of_true (.inl ⟨if_pos hrest, hbytes, hstop⟩) ?_
    rintro ⟨-, -, hlt⟩
    omega
  · have hfits : fits off data.length = (maxFile * bSize - off) / maxChunk * maxChunk := if_neg hall
    have hle := fits_le off data.length hoff
    have hleft : r.2.2.2 ≠ [] := by
      rw [hrest]
      intro hnil
      have := List.drop_eq_nil_iff.mp hnil
      omega
    rw [if_neg hleft]
    by_cases htorn : off + maxChunk ≤ maxFile * bSize
    · -- some chunks are in the file
      have hsome : 0 < fits off data.length := by
        rw [hfits]
        exact Nat.mul_pos (Nat.div_pos (by omega) hchunk) hchunk
      refine iff_of_false ?_ (not_not.mpr ⟨hsize, htorn, by omega⟩)
      rintro (⟨hret, -⟩ | ⟨-, -, hsame⟩)
      · exact absurd hret (by omega)
      · omega
    · have hzero : fits off data.length = 0 := by
        rw [hfits, Nat.div_eq_of_lt (by omega), Nat.zero_mul]
      rw [hzero, List.take_zero, writeAt_nil] at hbytes
      rw [hzero, Nat.add_zero] at hstop
      exact iff_of_true (.inr ⟨rfl, hbytes, hstop⟩) fun ht => htorn ht.2.1

/-- **A write reports what it did, unless it is torn.** For every regular file of a sound image,
every offset and all bytes: `filewrite` returns exactly if it begins behind the end of the file or
there are free blocks for the bytes that fit into the largest file; otherwise `balloc` panics. If it
returns, its result agrees with what it did exactly if it is not the case that a first chunk fits
and the whole does not. -/
theorem filewrite_reports_iff (sb : Superblock) (hsb : sb.Layout)
    (d : Disk) (h : Sound sb d) (i : ℕ)
    (hi : i < sb.ninodes) (htype : (sb.dinode d i).type ≠ 0) (hdev : (sb.dinode d i).type ≠ tDev)
    (dev : Devsw) (off : ℕ) (data : List UInt8) :
    ((sb.dinode d i).size.toNat < off ∨
        ((sb.dinode d i).missing d (rangePlaces off (fits off data.length))).card ≤
          (freeBlocks sb d).card →
      ∃ d' ip off' r, filewrite sb dev i d (sb.dinode d i) off data = .ok (d', ip, off', r) ∧
        (Reported sb d i off data d' off' r ↔ ¬ Torn (sb.dinode d i).size.toNat off data.length)) ∧
    (off ≤ (sb.dinode d i).size.toNat ∧ (freeBlocks sb d).card <
        ((sb.dinode d i).missing d (rangePlaces off (fits off data.length))).card →
      filewrite sb dev i d (sb.dinode d i) off data = .error .ballocOutOfBlocks) := by
  by_cases hoff : (sb.dinode d i).size.toNat < off
  · refine ⟨fun _ => ⟨_, _, _, _, filewrite_of_lt dev off data hdev hoff, iff_of_true ?_ fun ht =>
      ?_⟩, fun hshort => absurd hshort.1 (Nat.not_le.mpr hoff)⟩
    · split
      · next hnil =>
        subst hnil
        exact .inl ⟨rfl, (writeAt_nil _ _).symm, rfl⟩
      · exact .inr ⟨rfl, rfl, rfl⟩
    · exact absurd ht.1 (Nat.not_le.mpr hoff)
  have hsize := Nat.le_of_not_lt hoff
  have hloop := filewriteLoop_spec hsb h hi htype hdev dev off data hsize
  rw [filewrite]
  cases hok : filewriteLoop sb dev i d (sb.dinode d i) off data with
  | error e =>
    obtain ⟨rfl, hshort⟩ := hloop.of_error hok
    exact ⟨fun hroom => absurd hshort (Nat.not_lt.mpr (hroom.resolve_left hoff)), fun _ => rfl⟩
  | ok r =>
    have hw := hloop.of_ok hok
    refine ⟨fun _ => ⟨_, _, _, _, rfl, ?_⟩, fun hshort => ?_⟩
    · exact hw.reported_iff (hsize.trans (h.size_le hi htype)) hsize
    · exact absurd hshort.2 (Nat.not_lt.mpr (hw.missing_le hi htype))

/-- Three bytes are written to an empty file. -/
theorem filewrite_reports_three :
    ∃ d' ip off' r, filewrite mkfsSuperblock ⟨fun _ => none, fun _ => none⟩ 1 oneFile
        (mkfsSuperblock.dinode oneFile 1) 0 [7, 8, 9] = .ok (d', ip, off', r) ∧
      Reported mkfsSuperblock oneFile 1 0 [7, 8, 9] d' off' r := by
  have hone : mkfsSuperblock.dinode oneFile 1 = Fs.freshDinode 2 := dinode_oneFile 1
  obtain ⟨d', ip, off', r, hok, hiff⟩ := (filewrite_reports_iff mkfsSuperblock layout_mkfsSuperblock
    oneFile sound_oneFile 1 (by decide) (by rw [hone]; decide) (by rw [hone]; decide)
    ⟨fun _ => none, fun _ => none⟩ 0 [7, 8, 9]).1 (.inr missing_oneFile)
  refine ⟨d', ip, off', r, hok, hiff.mpr ?_⟩
  rintro ⟨-, -, hlt⟩
  exact absurd hlt (by decide)

/-- One byte too many for the largest file is written to an empty one: the call returns -1, with
70656 bytes in the file and the offset behind them. -/
theorem filewrite_torn :
    ∃ d' ip, filewrite mkfsSuperblock ⟨fun _ => none, fun _ => none⟩ 1 oneFile
        (mkfsSuperblock.dinode oneFile 1) 0 (List.replicate 71681 7) = .ok (d', ip, 70656, -1) ∧
      fileBytes mkfsSuperblock oneFile 1 = [] ∧
      fileBytes mkfsSuperblock d' 1 = List.replicate 70656 7 := by
  have hone : mkfsSuperblock.dinode oneFile 1 = Fs.freshDinode 2 := dinode_oneFile 1
  have hfits : fits 0 71681 = 70656 := by decide
  obtain ⟨⟨d', ip, off', rest⟩, hok, hbytes, hstop, hrest, -⟩ :=
    filewriteLoop_oneFile ⟨fun _ => none, fun _ => none⟩ (List.replicate 71681 7)
  rw [List.length_replicate, hfits] at hbytes hstop hrest
  rw [List.drop_replicate] at hrest
  rw [List.take_replicate, fileBytes_oneFile, writeAt, List.take_nil,
    List.drop_nil, List.nil_append, List.append_nil] at hbytes
  subst hstop hrest
  rw [hone]
  exact ⟨d', ip, by rw [filewrite, hok]; rfl, fileBytes_oneFile, hbytes⟩

end InuOs
