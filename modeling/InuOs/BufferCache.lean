import InuOs.BioInv

/-!
# Coherence of the buffer cache

`Coherent` says where the bytes are that were last stored in a block: a buffer with `B_VALID` has
them, except while they are being changed, and what is not on the disk is in a buffer with
`B_DIRTY`. So a buffer can be taken from a block without `B_DIRTY` and nothing is lost.

This needs that the devices in use are on different disks: the driver tells device numbers apart by
their lowest bit only (`place`). `bread_of_other_device` has two runs where they are not.
-/

namespace InuOs.Bio

open InuOs.DList InuOs.Lock InuOs.Run

variable {ι α : Type} [Fintype ι] [DecidableEq ι] {s s' : State ι α} {i j : ι} {b c : ℕ} {k : ℕ × ℕ}
  {a a₀ : Pc} {e : Event ι α} {x : Buf α} {D : Set ℕ}

/-! ## The data -/

/-- What the buffers and the disks have to do with the bytes that were last stored. `D` are the
devices in use. -/
structure Coherent (D : Set ℕ) (s : State ι α) : Prop where
  valid_of_dirty : ∀ b, (s.bufs b).dirty = true → (s.bufs b).valid = true
  valid_of_reads : ∀ i b, (s.pc i).Reads b → (s.bufs b).valid = true
  dirty_of_writes : ∀ i b, (s.pc i).Writes b → (s.bufs b).dirty = true
  data : ∀ b < nBuf, (s.bufs b).valid = true → (∀ i, ¬ (s.pc i).Modifies b) →
    (s.bufs b).data = s.last (s.bufs b).key
  disk : ∀ k : ℕ × ℕ, k.1 ∈ D →
    (∃ b < nBuf, (s.bufs b).key = k ∧ (s.bufs b).dirty = true) ∨ s.disk (place k) = s.last k
  used : ∀ b, (s.bufs b).dev ≠ 0 → (s.bufs b).dev ∈ D

/-- Two states of a buffer that differ in nothing but `refcnt`. -/
def Buf.Same (x y : Buf α) : Prop :=
  x.valid = y.valid ∧ x.dirty = y.dirty ∧ x.key = y.key ∧ x.data = y.data

namespace Coherent

omit [Fintype ι] in
/-- A use goes on that has changed no data and changes none. -/
theorem frame (hs : Coherent D s) (hbefore : s.pc i = a₀) (hpc : s'.pc = Function.update s.pc i a)
    (hmod : ∀ c, ¬ a₀.Modifies c) (hreads : ∀ c, a.Reads c → (s.bufs c).valid = true)
    (hwrites : ∀ c, ¬ a.Writes c) (hbufs : ∀ c, (s'.bufs c).Same (s.bufs c))
    (hdisk : s'.disk = s.disk) (hlast : s'.last = s.last) : Coherent D s' where
  valid_of_dirty b hb := by
    obtain ⟨hvalid, hdirty, -⟩ := hbufs b
    rw [hvalid]
    exact hs.valid_of_dirty b (hdirty ▸ hb)
  valid_of_reads j b hj := by
    obtain ⟨hvalid, -⟩ := hbufs b
    rw [hpc] at hj
    rw [hvalid]
    rcases eq_or_ne j i with rfl | hne
    · rw [Function.update_self] at hj
      exact hreads b hj
    · rw [Function.update_of_ne hne] at hj
      exact hs.valid_of_reads j b hj
  dirty_of_writes j b hj := by
    obtain ⟨-, hdirty, -⟩ := hbufs b
    rw [hpc] at hj
    rw [hdirty]
    rcases eq_or_ne j i with rfl | hne
    · rw [Function.update_self] at hj
      exact absurd hj (hwrites b)
    · rw [Function.update_of_ne hne] at hj
      exact hs.dirty_of_writes j b hj
  data b hb hv hno := by
    obtain ⟨hvalid, -, hkey, hdata⟩ := hbufs b
    rw [hdata, hkey, hlast]
    refine hs.data b hb (hvalid ▸ hv) fun j hj => ?_
    rcases eq_or_ne j i with rfl | hne
    · exact hmod b (hbefore ▸ hj)
    · refine hno j ?_
      rwa [hpc, Function.update_of_ne hne]
  disk k hk := by
    rw [hdisk, hlast]
    rcases hs.disk k hk with ⟨b, hb, hkey, hdirty⟩ | hsame
    · obtain ⟨-, hdirty', hkey', -⟩ := hbufs b
      exact .inl ⟨b, hb, hkey'.trans hkey, hdirty'.trans hdirty⟩
    · exact .inr hsame
  used b hb := by
    obtain ⟨-, -, hkey, -⟩ := hbufs b
    have hdev : (s'.bufs b).dev = (s.bufs b).dev := congrArg Prod.fst hkey
    rw [hdev] at hb ⊢
    exact hs.used b hb

omit [Fintype ι] in
/-- A use goes on and changes buffer `b`, whose data nobody else has. -/
theorem change (hs : Coherent D s) (hbefore : s.pc i = a₀) (hpc : s'.pc = Function.update s.pc i a)
    (hbufs : s'.bufs = Function.update s.bufs b x) (halone : ∀ j ≠ i, ¬ (s.pc j).Reads b)
    (hmod : ∀ c ≠ b, ¬ a₀.Modifies c) (ha : ∀ c, a.Reads c → c = b)
    (hdirty : x.dirty = true → x.valid = true)
    (hreads : a.Reads b → x.valid = true) (hwrites : a.Writes b → x.dirty = true)
    (hdata : x.valid = true → ¬ a.Modifies b → x.data = s'.last x.key)
    (hlast : ∀ c < nBuf, c ≠ b → s'.last (s.bufs c).key = s.last (s.bufs c).key)
    (hdisk : ∀ k : ℕ × ℕ, k.1 ∈ D → (b < nBuf ∧ k = x.key ∧ x.dirty = true) ∨
      (((s.bufs b).key = k → (s.bufs b).dirty = false) ∧
        s'.disk (place k) = s.disk (place k) ∧ s'.last k = s.last k) ∨
      s'.disk (place k) = s'.last k)
    (hused : x.dev ≠ 0 → x.dev ∈ D) : Coherent D s' := by
  have hself : s'.bufs b = x := by rw [hbufs, Function.update_self]
  have hoff (c : ℕ) (hne : c ≠ b) : s'.bufs c = s.bufs c := by rw [hbufs, Function.update_of_ne hne]
  have hpcself : s'.pc i = a := by rw [hpc, Function.update_self]
  have hpcoff (j : ι) (hne : j ≠ i) : s'.pc j = s.pc j := by rw [hpc, Function.update_of_ne hne]
  constructor
  · intro c hc
    rcases eq_or_ne c b with rfl | hne
    · rw [hself] at hc ⊢
      exact hdirty hc
    · rw [hoff c hne] at hc ⊢
      exact hs.valid_of_dirty c hc
  · intro j c hj
    rcases eq_or_ne j i with rfl | hji
    · rw [hpcself] at hj
      obtain rfl := ha c hj
      rw [hself]
      exact hreads hj
    · rw [hpcoff j hji] at hj
      rcases eq_or_ne c b with rfl | hne
      · exact absurd hj (halone j hji)
      · rw [hoff c hne]
        exact hs.valid_of_reads j c hj
  · intro j c hj
    rcases eq_or_ne j i with rfl | hji
    · rw [hpcself] at hj
      obtain rfl := ha c hj.reads
      rw [hself]
      exact hwrites hj
    · rw [hpcoff j hji] at hj
      rcases eq_or_ne c b with rfl | hne
      · exact absurd hj.reads (halone j hji)
      · rw [hoff c hne]
        exact hs.dirty_of_writes j c hj
  · intro c hc hvalid hno
    rcases eq_or_ne c b with rfl | hne
    · rw [hself] at hvalid ⊢
      exact hdata hvalid (hpcself ▸ hno i)
    · rw [hoff c hne] at hvalid ⊢
      rw [hlast c hc hne]
      refine hs.data c hc hvalid fun j hj => ?_
      rcases eq_or_ne j i with rfl | hji
      · exact hmod c hne (hbefore ▸ hj)
      · exact hno j (hpcoff j hji ▸ hj)
  · intro k hk
    rcases hdisk k hk with ⟨hb, rfl, hd⟩ | ⟨hclean, hsame, hsame'⟩ | hsame
    · exact .inl ⟨b, hb, by rw [hself], by rw [hself, hd]⟩
    · rw [hsame, hsame']
      rcases hs.disk k hk with ⟨c, hc, hck, hcd⟩ | hold
      · have hcb : c ≠ b := by
          rintro rfl
          rw [hclean hck] at hcd
          cases hcd
        exact .inl ⟨c, hc, by rw [hoff c hcb, hck], by rw [hoff c hcb, hcd]⟩
      · exact .inr hold
    · exact .inr hsame
  · intro c hc
    rcases eq_or_ne c b with rfl | hne
    · rw [hself] at hc ⊢
      exact hused hc
    · rw [hoff c hne] at hc ⊢
      exact hs.used c hc

/-- A use that has the lock of buffer `b` goes on and changes this buffer. -/
theorem touch (hs : Coherent D s) (hinv : Inv s) (hbefore : s.pc i = a₀)
    (hpc : s'.pc = Function.update s.pc i a) (hhas : a₀.Has b) (ha : ∀ c, a.Reads c → c = b)
    (hbufs : s'.bufs = Function.update s.bufs b x)
    (hkey : x.key = (s.bufs b).key) (hdirty : x.dirty = true → x.valid = true)
    (hreads : a.Reads b → x.valid = true) (hwrites : a.Writes b → x.dirty = true)
    (hdata : x.valid = true → ¬ a.Modifies b → x.data = s'.last x.key)
    (hlast : ∀ k, k ≠ (s.bufs b).key → s'.last k = s.last k)
    (hdisk : ∀ k : ℕ × ℕ, k.1 ∈ D → (k = x.key ∧ x.dirty = true) ∨
      (k ≠ x.key ∧ s'.disk (place k) = s.disk (place k)) ∨ s'.disk (place k) = s'.last k) :
    Coherent D s' := by
  have hhas' : (s.pc i).Has b := hbefore ▸ hhas
  obtain ⟨hb, hdev⟩ := hinv.of_has hhas'
  refine hs.change hbefore hpc hbufs (fun j hne hj => hne ((hinv.lock b).unique hj.has hhas'))
    (fun c hne hc => hne (hhas.eq hc.reads.has)) ha hdirty hreads hwrites hdata
    (fun c hc hne => hlast _ fun heq => hne (hinv.unique b hb c hc hdev heq.symm).symm)
    (fun k hk => ?_) fun hx => ?_
  · rcases hdisk k hk with ⟨rfl, hd⟩ | ⟨hne, hsame⟩ | hsame
    · exact .inl ⟨hb, rfl, hd⟩
    · rw [hkey] at hne
      exact .inr (.inl ⟨fun heq => absurd heq.symm hne, hsame, hlast k hne⟩)
    · exact .inr (.inr hsame)
  · have hsame : x.dev = (s.bufs b).dev := congrArg Prod.fst hkey
    rw [hsame] at hx ⊢
    exact hs.used b hx

omit [DecidableEq ι] in
/-- A block that is in a buffer without `B_DIRTY` is on the disk. -/
theorem disk_of_clean (hs : Coherent D s) (hinv : Inv s) (hb : b < nBuf) (hdev : (s.bufs b).dev ≠ 0)
    (hclean : (s.bufs b).dirty = false) : s.disk (place (s.bufs b).key) =
    s.last (s.bufs b).key := by
  rcases hs.disk (s.bufs b).key (hs.used b hdev) with ⟨c, hc, hkey, hdirty⟩ | hsame
  · obtain rfl := hinv.unique b hb c hc hdev hkey.symm
    rw [hclean] at hdirty
    cases hdirty
  · exact hsame

omit [DecidableEq ι] in
/-- The data of a buffer whose lock is with a use that has changed nothing. -/
theorem data_of_has (hs : Coherent D s) (hinv : Inv s) (hhas : (s.pc i).Has b)
    (hmod : ¬ (s.pc i).Modifies b) (hvalid : (s.bufs b).valid = true) :
    (s.bufs b).data = s.last (s.bufs b).key := by
  refine hs.data b (hinv.of_has hhas).1 hvalid fun j hj => ?_
  obtain rfl := (hinv.lock b).unique hj.reads.has hhas
  exact hmod hj

omit [Fintype ι] in
/-- `bget`, with a buffer that is taken from another block. -/
theorem recycle (hs : Coherent D s) (hidle : s.pc i = .idle) (hk : k.1 ∈ D)
    (hunused : ∀ j, (s.pc j).buf ≠ some b) (hclean : (s.bufs b).dirty = false)
    (hkey : x.key = k) (hvalid : x.valid = false) (hdirty : x.dirty = false) :
    Coherent D ((s.setBuf b x).goto i (.wait b k)) := by
  have hidle' (c : ℕ) : ¬ Pc.idle.Modifies c := id
  refine hs.change hidle rfl rfl (fun j _ hj => ?_) (fun c _ => hidle' c) (fun _ hc => hc.elim)
    (by simp [hdirty]) (fun hr => hr.elim) (fun hw => hw.elim) (by simp [hvalid])
    (fun _ _ _ => rfl) (fun k' _ => .inr (.inl ⟨fun _ => hclean, rfl, rfl⟩)) fun _ => ?_
  · obtain ⟨k, hasked⟩ := hj.has.asked
    exact hunused j (Pc.buf_of_asked hasked)
  · rwa [show x.dev = k.1 from congrArg Prod.fst hkey]

omit [Fintype ι] in
/-- A use goes on that has no data, and no buffer changes but in `refcnt`. -/
theorem frame_refcnt (hs : Coherent D s) (hbefore : s.pc i = a₀)
    (hpc : s'.pc = Function.update s.pc i a) (hmod : ∀ c, ¬ a₀.Modifies c)
    (hreads : ∀ c, ¬ a.Reads c)
    (hbufs : s'.bufs = Function.update s.bufs b x) (hsame : x.Same (s.bufs b))
    (hdisk : s'.disk = s.disk) (hlast : s'.last = s.last) : Coherent D s' := by
  refine hs.frame hbefore hpc hmod (fun c hc => absurd hc (hreads c))
    (fun c hc => hreads c hc.reads) (fun c => ?_) hdisk hlast
  rw [hbufs]
  rcases eq_or_ne c b with rfl | hne
  · rwa [Function.update_self]
  · rw [Function.update_of_ne hne]
    exact ⟨rfl, rfl, rfl, rfl⟩

/-- The buffer of a use gets the bytes of its block. -/
theorem fill (hs : Coherent D s) (hinv : Inv s) (hpc : s.pc i = .locked b k)
    (hvalid : (s.bufs b).valid = false) (h : s.iderw b = some s') :
    Coherent D (s'.goto i (.ready b k false)) := by
  have hhas : (s.pc i).Has b := by
    rw [hpc]
    rfl
  obtain ⟨hb, hdev⟩ := hinv.of_has hhas
  rcases iderw_cases h with ⟨hdirty, -⟩ | ⟨hclean, -, rfl⟩
  · rw [hs.valid_of_dirty b hdirty] at hvalid
    cases hvalid
  · have hdisk := hs.disk_of_clean hinv hb hdev hclean
    refine hs.touch hinv hpc rfl rfl (fun _ hc => hc.symm) rfl (by rfl)
      (fun _ => rfl) (fun _ => rfl) nofun (fun _ _ => hdisk) (fun _ _ => rfl) fun k' _ => ?_
    by_cases heq : k' = (s.bufs b).key
    · subst heq
      exact .inr (.inr hdisk)
    · exact .inr (.inl ⟨heq, rfl⟩)

/-- The buffer of a use goes to the disk. -/
theorem flush (hs : Coherent D s) (hinv : Inv s) (hD : Set.InjOn (· % 2) D)
    (hpc : s.pc i = .write b k) (h : s.iderw b = some s') :
    Coherent D (s'.goto i (.ready b k false)) := by
  have hhas : (s.pc i).Has b := by
    rw [hpc]
    rfl
  have hdirty : (s.bufs b).dirty = true := hs.dirty_of_writes i b (by rw [hpc]; rfl)
  have hdata := hs.data_of_has hinv hhas (by rw [hpc]; exact id) (hs.valid_of_dirty b hdirty)
  rcases iderw_cases h with ⟨-, rfl⟩ | ⟨hclean, -⟩
  · refine hs.touch hinv hpc rfl rfl (fun _ hc => hc.symm) rfl (by rfl) nofun (fun _ => rfl)
      nofun (fun _ _ => hdata) (fun _ _ => rfl) fun k' hk' => ?_
    change _ ∨ (_ ∧ Function.update s.disk _ _ (place k') = _) ∨
      Function.update s.disk _ _ (place k') = _
    by_cases heq : k' = (s.bufs b).key
    · subst heq
      rw [Function.update_self]
      exact .inr (.inr hdata)
    · have hplace : place k' ≠ place (s.bufs b).key := by
        intro hplace
        obtain ⟨hmod, hblockno⟩ := Prod.mk.inj hplace
        exact heq (Prod.ext (hD hk' (hs.used b (hinv.of_has hhas).2) hmod) hblockno)
      rw [Function.update_of_ne hplace]
      exact .inr (.inl ⟨heq, rfl⟩)
  · rw [hdirty] at hclean
    cases hclean

/-- The data of a buffer is stored. -/
theorem store (hs : Coherent D s) (hinv : Inv s) {m : Bool} (hpc : s.pc i = .ready b k m)
    (ha : ∀ c, a.Reads c → c = b) : Coherent D ((s.store b).goto i a) := by
  have hvalid : (s.bufs b).valid = true := hs.valid_of_reads i b (by rw [hpc]; rfl)
  have hlast : ((s.store b).goto i a).last (s.bufs b).key = (s.bufs b).data :=
    Function.update_self ..
  refine hs.touch hinv hpc rfl rfl ha rfl (by rfl) (fun _ => hvalid) (fun _ => hvalid)
    (fun _ => rfl) (fun _ _ => hlast.symm) (fun k' hk' => Function.update_of_ne hk' ..)
    fun k' _ => ?_
  by_cases heq : k' = (s.bufs b).key
  · exact .inl ⟨heq, rfl⟩
  · exact .inr (.inl ⟨heq, rfl⟩)

/-- The data of a buffer is changed. -/
theorem modify (hs : Coherent D s) (hinv : Inv s) {m : Bool} (hpc : s.pc i = .ready b k m) (v : α) :
    Coherent D ((s.setBuf b { s.bufs b with data := v }).goto i (.ready b k true)) := by
  have hhas : (s.pc i).Has b := by
    rw [hpc]
    rfl
  obtain ⟨hb, hdev⟩ := hinv.of_has hhas
  have hvalid : (s.bufs b).valid = true := hs.valid_of_reads i b (by rw [hpc]; rfl)
  refine hs.touch hinv hpc rfl rfl (fun _ hc => hc.symm) rfl (by rfl) (fun _ => hvalid)
    (fun _ => hvalid) nofun (fun _ hmod => absurd ⟨rfl, rfl⟩ hmod) (fun _ _ => rfl) fun k' _ => ?_
  by_cases heq : k' = (s.bufs b).key
  · subst heq
    rcases Bool.eq_false_or_eq_true (s.bufs b).dirty with hdirty | hclean
    · exact .inl ⟨rfl, hdirty⟩
    · exact .inr (.inr (hs.disk_of_clean hinv hb hdev hclean))
  · exact .inr (.inl ⟨heq, rfl⟩)

/-- The data behind every step. -/
theorem step (hs : Coherent D s) (hinv : Inv s) (hD : Set.InjOn (· % 2) D) (hdev : e.Uses D)
    (h : step s e = some s') : Coherent D s' := by
  cases moves_of_step h with
  | hit hpc hfound =>
    exact hs.frame_refcnt hpc rfl (fun _ => id) (fun _ => id) rfl
      ⟨by rfl, by rfl, by rfl, by rfl⟩ rfl rfl
  | @recycle i b k hpc hnone hunused =>
    obtain ⟨-, hzero, hclean⟩ := hinv.unused_spec hunused
    refine hs.recycle hpc (hdev i k rfl) (fun j hj => ?_) hclean rfl rfl rfl
    exact absurd hzero (hinv.refcnt_pos hj).ne'
  | acquire hpc hfree =>
    exact hs.frame hpc rfl (fun _ => id) nofun nofun (fun _ => ⟨rfl, rfl, rfl, rfl⟩) rfl rfl
  | readHit hpc hvalid =>
    refine hs.frame hpc rfl (fun _ => id) ?_ nofun (fun _ => ⟨rfl, rfl, rfl, rfl⟩) rfl rfl
    rintro _ rfl
    exact hvalid
  | readMiss hpc hvalid hm => exact hs.fill hinv hpc hvalid hm
  | modify hpc => exact hs.modify hinv hpc _
  | bwrite hpc => exact hs.store hinv hpc fun _ hc => hc.symm
  | iderw hpc hm => exact hs.flush hinv hD hpc hm
  | logWrite hpc => exact hs.store hinv hpc fun _ hc => hc.symm
  | release hpc =>
    exact hs.frame hpc rfl nofun nofun nofun (fun _ => ⟨rfl, rfl, rfl, rfl⟩) rfl rfl
  | brelse hpc =>
    exact hs.frame_refcnt hpc rfl (fun _ => id) (fun _ => id) rfl
      ⟨by rfl, by rfl, by rfl, by rfl⟩ rfl rfl

/-- `bread` returns the bytes that were last stored. -/
theorem bread (hs : Coherent D s) (hinv : Inv s) (hD : Set.InjOn (· % 2) D)
    (hpc : s.pc i = .locked b k) (h : Bio.step s (.bread i) = some s') :
    s'.pc i = .ready b k false ∧ (s'.bufs b).key = k ∧ (s'.bufs b).data = s.last k := by
  have huses {D : Set ℕ} : (Event.bread i : Event ι α).Uses D := nofun
  have hs' := hs.step hinv hD huses h
  have hinv' := hinv.step huses h
  have hafter : s'.pc i = .ready b k false ∧ s'.last = s.last := by
    cases moves_of_step h with
    | readHit hpc' =>
      obtain ⟨rfl, rfl⟩ := Pc.locked.inj (hpc.symm.trans hpc')
      exact ⟨Function.update_self .., rfl⟩
    | readMiss hpc' _ hm =>
      obtain ⟨rfl, rfl⟩ := Pc.locked.inj (hpc.symm.trans hpc')
      refine ⟨Function.update_self .., ?_⟩
      rcases iderw_cases hm with ⟨-, rfl⟩ | ⟨-, -, rfl⟩ <;> rfl
  obtain ⟨hready, hlast⟩ := hafter
  obtain ⟨hkey, -⟩ := hinv'.asked i b k (by rw [hready]; rfl)
  have hdata := hs'.data_of_has hinv' (i := i) (b := b) (by rw [hready]; rfl)
    (by rw [hready]; nofun)
    (hs'.valid_of_reads i b (by rw [hready]; rfl))
  rw [hkey, hlast] at hdata
  exact ⟨hready, hkey, hdata⟩

end Coherent

omit [Fintype ι] [DecidableEq ι] in
theorem Coherent.binit (D : Set ℕ) (disk : ℕ × ℕ → α) (havedisk1 : Bool) (data : ℕ → α) :
    Coherent D (binit (ι := ι) disk havedisk1 data) where
  valid_of_dirty := nofun
  valid_of_reads _ _ h := h.elim
  dirty_of_writes _ _ h := h.elim
  data := nofun
  disk _ _ := .inr rfl
  used _ hdev := absurd rfl hdev

omit [DecidableEq ι] [Fintype ι] in
/-- `iderw` does not panic for a block of the file system that is to be read. -/
theorem iderw_isSome (hvalid : (s.bufs b).valid = false) (hblockno : (s.bufs b).blockno < fsSize)
    (hdisk : s.havedisk1 = true) : (s.iderw b).isSome := by
  unfold State.iderw
  rw [if_neg (by simp [hvalid, hdisk, hblockno])]
  split <;> rfl

theorem bread_isSome (hs : Inv s) (hpc : s.pc i = .locked b k) (hblockno : k.2 < fsSize)
    (hdisk : s.havedisk1 = true) : (step s (.bread i)).isSome := by
  obtain ⟨rfl, -⟩ := hs.asked i b k (by rw [hpc]; rfl)
  dsimp only [step]
  rw [hpc]
  dsimp only
  split
  · rfl
  · next hvalid =>
    rw [Option.isSome_map]
    exact iderw_isSome (by simpa using hvalid) hblockno hdisk

/-! ## Runs -/

/-- **The buffer cache.** In a run from `binit` that asks for no block of device `0`, the links form
a circular list of all the buffers, each once. A block is in one buffer at most, and a buffer that
is in use or has `B_DIRTY` goes to no other block. If the devices in use are on different disks,
`bread` returns the bytes that were last stored in the block. -/
theorem buffer_cache_run {disk : ℕ × ℕ → α} {havedisk1 : Bool} {data : ℕ → α}
    {es : List (Event ι α)} (hdev : ∀ e ∈ es, e.Uses {d | d ≠ 0})
    (h : exec step (binit disk havedisk1 data) es = some s) :
    (∃ l, Circular s.links head l ∧ l.Perm (List.range nBuf)) ∧
    (∀ b < nBuf, ∀ c < nBuf, (s.bufs b).dev ≠ 0 → (s.bufs b).key = (s.bufs c).key → b = c) ∧
    (∀ e s', step s e = some s' → ∀ b, (s.bufs b).dirty = true ∨ 0 < (s.bufs b).refcnt →
      (s'.bufs b).key = (s.bufs b).key) ∧
    ∀ D : Set ℕ, Set.InjOn (· % 2) D → (∀ e ∈ es, e.Uses D) →
      ∀ i b k, s.pc i = .locked b k →
        (k.2 < fsSize → s.havedisk1 = true → (step s (.bread i)).isSome) ∧
        ∀ s', step s (.bread i) = some s' →
          s'.pc i = .ready b k false ∧ (s'.bufs b).key = k ∧ (s'.bufs b).data = s.last k := by
  have hinv : Inv s := exec_invariant_of_forall (fun _ _ _ hs he => hs.step he)
    (Inv.binit disk havedisk1 data) hdev h
  refine ⟨hinv.ring, hinv.unique, fun e s' hstep b hb => key_step hinv hstep hb,
    fun D hD hes i b k hpc => ⟨bread_isSome hinv hpc, fun s' hread => ?_⟩⟩
  have hcoh : Inv s ∧ Coherent D s := exec_invariant_of_forall
    (I := fun s => Inv s ∧ Coherent D s) (P := fun e => e.Uses {d | d ≠ 0} ∧ e.Uses D)
    (fun _ _ _ hs he hstep => ⟨hs.1.step he.1 hstep, hs.2.step hs.1 hD he.2 hstep⟩)
    ⟨Inv.binit disk havedisk1 data, Coherent.binit D disk havedisk1 data⟩
    (fun e he => ⟨hdev e he, hes e he⟩) h
  exact hcoh.2.bread hinv hD hpc hread

/-- A use that reads a block. -/
def readBlock (i : ι) (k : ℕ × ℕ) : List (Event ι α) := [.bget i k, .acquire i, .bread i]

/-- `brelse` -/
def giveUp (i : ι) : List (Event ι α) := [.release i, .brelse i]

/-- A use that stores `v` in a block, with `bwrite`. -/
def writeBlock (i : ι) (k : ℕ × ℕ) (v : α) : List (Event ι α) :=
  readBlock i k ++ [.modify i v, .bwrite i, .iderw i] ++ giveUp i

/-- A block is stored and read again. -/
theorem buffer_cache_run_block_five :
    ∃ s s' : State (Fin 1) ℕ,
      exec step (binit (fun _ => 0) true fun _ => 0)
        (writeBlock 0 (1, 5) 7 ++ [.bget 0 (1, 5), .acquire 0]) = some s ∧
      s.last (1, 5) = 7 ∧ step s (.bread 0) = some s' ∧ (s'.bufs 0).data = s.last (1, 5) := by
  have hrun : (exec step (binit (ι := Fin 1) (fun _ => 0) true fun _ => 0)
      (writeBlock 0 (1, 5) 7 ++ [.bget 0 (1, 5), .acquire 0])).map
        (fun s => (s.pc 0, s.havedisk1, s.last (1, 5))) = some (.locked 0 (1, 5), true, 7) := by
    decide +kernel
  obtain ⟨s, hs, hstate⟩ := Option.map_eq_some_iff.mp hrun
  obtain ⟨hpc, hdisk, hlast⟩ : s.pc 0 = .locked 0 (1, 5) ∧ s.havedisk1 = true ∧
    s.last (1, 5) = 7 := by
    simpa using hstate
  have huses (D : Set ℕ) (hD : 1 ∈ D) :
      ∀ e ∈ writeBlock (0 : Fin 1) (1, 5) 7 ++ [.bget 0 (1, 5), .acquire 0], e.Uses D := by
    simp [writeBlock, readBlock, giveUp, Event.Uses, hD]
  obtain ⟨hsome, hread⟩ := (buffer_cache_run (huses _ Nat.one_ne_zero) hs).2.2.2 {1}
    (Set.injOn_singleton _ 1) (huses _ rfl) 0 0 (1, 5) hpc
  obtain ⟨s', hs'⟩ := Option.isSome_iff_exists.mp (hsome (by decide) hdisk)
  exact ⟨s, s', hs, hlast, hs', (hread s' hs').2.2⟩

/-- Device numbers `1` and `3` are the same disk to the driver. Block `5` of device `3` is never
stored, and what `bread` returns for it is neither what was on the disk at first, nor, when it was
in the cache already, what is on the disk now. -/
theorem bread_of_other_device :
    ((exec step (binit (fun _ => 0) true fun _ => 0)
        (writeBlock (0 : Fin 1) (1, 5) 1 ++ readBlock 0 (3, 5))).map fun s =>
      (s.pc 0, (s.bufs 1).data, s.last (3, 5))) = some (.ready 1 (3, 5) false, 1, 0) ∧
    ((exec step (binit (fun _ => 0) true fun _ => 0)
        (readBlock (0 : Fin 1) (3, 5) ++ giveUp 0 ++ writeBlock 0 (1, 5) 1 ++
          readBlock 0 (3, 5))).map fun s =>
      (s.pc 0, (s.bufs 0).data, s.disk (place (3, 5)))) = some (.ready 0 (3, 5) false, 0, 1) := by
  constructor
  · decide +kernel
  · decide +kernel

/-- **`refcnt`** counts the processes that use the buffer. -/
theorem refcnt_run {disk : ℕ × ℕ → α} {havedisk1 : Bool} {data : ℕ → α} {es : List (Event ι α)}
    (hdev : ∀ e ∈ es, e.Uses {d | d ≠ 0})
    (h : exec step (binit disk havedisk1 data) es = some s) (b : ℕ) :
    (s.bufs b).refcnt = ∑ i, (s.pc i).refs b := by
  have hinv : Inv s := exec_invariant_of_forall (fun _ _ _ hs he => hs.step he)
    (Inv.binit disk havedisk1 data) hdev h
  exact hinv.count b

/-- Two processes use one block. -/
theorem refcnt_run_bget : ∃ s : State (Fin 2) ℕ,
    exec step (binit (fun _ => 0) true fun _ => 0)
        [.bget 0 (1, 5), .acquire 0, .bread 0, .bget 1 (1, 5)] = some s ∧
      (s.bufs 0).refcnt = 2 ∧ ∑ i, (s.pc i).refs 0 = 2 := by
  have hrun : (exec step (binit (ι := Fin 2) (fun _ => 0) true fun _ => 0)
      [.bget 0 (1, 5), .acquire 0, .bread 0, .bget 1 (1, 5)]).map (fun s => (s.bufs 0).refcnt) =
        some 2 := by decide +kernel
  obtain ⟨s, hs, hcount⟩ := Option.map_eq_some_iff.mp hrun
  exact ⟨s, hs, hcount, (refcnt_run (by simp [Event.Uses]) hs 0).symm.trans hcount⟩

end InuOs.Bio
