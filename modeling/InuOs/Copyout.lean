import InuOs.Lib.Memory
import InuOs.Vm

/-!
# Copying to user pages (`uva2ka` and `copyout`)

`InuOs.Vm` follows which pages `copyout` reaches. Here it also copies: a page directory is a value
as there, and the pages are seen through the kernel's own addresses, where frame `pa` lies at
`P2V(pa)`.

* `copyout` is the loop of the source, page by page; `copyBytes` writes byte by byte.
  `copyout_outcome` connects them and says how the loop ends.
* `uva2ka` reads the entry `walkpgdir` points to, even if the page table is missing and `walkpgdir`
  returned the null pointer. `copyout_safe_iff` says when that happens, and that the only other way
  to go wrong is a directory that maps two addresses of the range to one byte.
-/

namespace InuOs.Copy

/-! ## The functions -/

/-- `P2V`. -/
def p2v (p : Page) : UInt32 := UInt32.ofNat (p * pgSize) + UInt32.ofNat kernBase

/-- `uva2ka`, for a virtual page: the kernel address of its frame, or the null pointer. -/
def uva2ka (d : PageDir) (v : ℕ) : Except Panic UInt32 :=
  match d.pde (pdx v) with
  | none => throw .badPointer
  | some t =>
    match t.pte (ptx v) with
    | none => pure 0
    | some e => if e.user then pure (p2v e.page) else pure 0

/-- `copyout` of the `len` bytes in `buf`. -/
def copyout (d : PageDir) (va : ℕ) (buf : List UInt8) (m : Memory) : Except Panic (ℤ × Memory) :=
  if _hbuf : buf = [] then pure (0, m)
  else do
    let pa0 ← uva2ka d (va / pgSize)
    if pa0 = 0 then pure (-1, m)
    else
      let n := min (pgSize - va % pgSize) buf.length
      copyout d ((va / pgSize + 1) * pgSize % 2 ^ 32) (buf.drop n)
        (m.store (pa0 + UInt32.ofNat (va % pgSize)) (buf.take n))
termination_by buf.length
decreasing_by
  have hmod : va % pgSize < pgSize := Nat.mod_lt va (by decide)
  have hpos := List.length_pos_of_ne_nil _hbuf
  rw [List.length_drop]
  omega

/-! ## Pages of a range -/

/-- The page table of page `v` exists. -/
def HasTable (d : PageDir) (v : ℕ) : Prop := (d.pde (pdx v)).isSome = true

/-- Page `v` is present with `PTE_U`. -/
def UserPage (d : PageDir) (v : ℕ) : Prop := ∃ e, d.pteAt v = some e ∧ e.user = true

/-- The kernel address of the frame of a page. -/
def frameAddr (d : PageDir) (v : ℕ) : UInt32 := ((d.pteAt v).map fun e => p2v e.page).getD 0

/-- `uva2ka` returns an address. -/
def Good (d : PageDir) (v : ℕ) : Prop := UserPage d v ∧ frameAddr d v ≠ 0

/-- The page of byte `i` of a range. -/
def pageAt (va i : ℕ) : ℕ := (va + i) % 2 ^ 32 / pgSize

/-- The kernel address of a byte. -/
def byteAddr (d : PageDir) (va : ℕ) : UInt32 :=
  frameAddr d (va / pgSize) + UInt32.ofNat (va % pgSize)

variable {d : PageDir} {v va : ℕ} {buf : List UInt8} {m : Memory}

theorem Good.hasTable (h : Good d v) : HasTable d v := by
  obtain ⟨⟨e, he, -⟩, -⟩ := h
  obtain ⟨t, ht, -⟩ := Option.bind_eq_some_iff.mp he
  rw [HasTable, ht]
  rfl

/-- **`uva2ka`** dereferences the null pointer exactly if there is no table. -/
theorem uva2ka_of_not_hasTable (h : ¬HasTable d v) : uva2ka d v = throw .badPointer := by
  have hnone : d.pde (pdx v) = none := by simpa [HasTable] using h
  rw [uva2ka, hnone]

theorem uva2ka_of_hasTable (h : HasTable d v) :
    uva2ka d v = pure (if (d.pteAt v).any (·.user) then frameAddr d v else 0) := by
  obtain ⟨t, ht⟩ := Option.isSome_iff_exists.mp h
  have hpte : d.pteAt v = t.pte (ptx v) := by rw [PageDir.pteAt, ht]; rfl
  rw [uva2ka, ht, frameAddr, hpte]
  dsimp only
  cases t.pte (ptx v) with
  | none => rfl
  | some e => cases huser : e.user <;> simp [huser]

theorem userPage_iff : UserPage d v ↔ (d.pteAt v).any (·.user) = true := by
  rw [Option.any_eq_true_iff_get, UserPage]
  cases d.pteAt v <;> simp

theorem uva2ka_of_good (h : Good d v) : uva2ka d v = pure (frameAddr d v) := by
  rw [uva2ka_of_hasTable h.hasTable, if_pos (userPage_iff.mp h.1)]

theorem uva2ka_of_not_good (ht : HasTable d v) (h : ¬Good d v) : uva2ka d v = pure 0 := by
  rw [uva2ka_of_hasTable ht]
  split
  · next huser =>
    have hzero : frameAddr d v = 0 := by
      by_contra hne
      exact h ⟨userPage_iff.mpr huser, hne⟩
    rw [hzero]
  · rfl

/-! ## Byte by byte -/

/-- Write the bytes of `buf` to the addresses from `va` on. -/
def copyBytes (d : PageDir) : ℕ → List UInt8 → Memory → Memory
  | _, [], m => m
  | va, b :: bs, m => copyBytes d ((va + 1) % 2 ^ 32) bs (Function.update m (byteAddr d va) b)

theorem copyBytes_append (bs cs : List UInt8) (hva : va < 2 ^ 32) :
    copyBytes d va (bs ++ cs) m =
      copyBytes d ((va + bs.length) % 2 ^ 32) cs (copyBytes d va bs m) := by
  induction bs generalizing va m with
  | nil => rw [List.nil_append, List.length_nil, Nat.add_zero, Nat.mod_eq_of_lt hva, copyBytes]
  | cons b bs ih =>
    rw [List.cons_append, copyBytes, copyBytes, ih (Nat.mod_lt _ (by decide)), List.length_cons]
    congr 1
    omega

/-- A `memmove` inside a page. -/
theorem store_eq_copyBytes (bs : List UInt8) (hva : va < 2 ^ 32)
    (hpage : va % pgSize + bs.length ≤ pgSize) :
    m.store (byteAddr d va) bs = copyBytes d va bs m := by
  induction bs generalizing va m with
  | nil =>
    funext x
    simp [Memory.store, copyBytes]
  | cons b bs ih =>
    rw [List.length_cons] at hpage
    unfold pgSize at hpage
    rw [copyBytes, Memory.store_cons (by omega)]
    cases bs with
    | nil =>
      funext x
      simp [Memory.store, copyBytes]
    | cons b' bs =>
      rw [List.length_cons] at hpage
      have hnext : (va + 1) % 2 ^ 32 = va + 1 := by omega
      have haddr : byteAddr d va + 1 = byteAddr d (va + 1) := by
        have hdiv : (va + 1) / pgSize = va / pgSize := by unfold pgSize; omega
        have hmod : (va + 1) % pgSize = va % pgSize + 1 := by unfold pgSize; omega
        rw [byteAddr, byteAddr, hdiv, hmod, add_assoc, UInt32.ofNat_add]
        rfl
      rw [hnext, haddr]
      exact ih (by omega) (by rw [List.length_cons]; unfold pgSize; omega)

/-! ## How the loop ends -/

/-- The ways `copyout` ends: at the first page that is not good, with a null pointer dereferenced if
its table is missing and with -1 otherwise; or at the end of the range. -/
inductive Outcome (d : PageDir) (va : ℕ) (buf : List UInt8) (m : Memory) :
    Except Panic (ℤ × Memory) → Prop where
  | crash (i : ℕ) (hi : i < buf.length) (hgood : ∀ j < i, Good d (pageAt va j))
      (htable : ¬HasTable d (pageAt va i)) : Outcome d va buf m (throw .badPointer)
  | fail (i : ℕ) (hi : i < buf.length) (hgood : ∀ j < i, Good d (pageAt va j))
      (htable : HasTable d (pageAt va i)) (hbad : ¬Good d (pageAt va i)) :
      Outcome d va buf m (pure (-1, copyBytes d va (buf.take i) m))
  | done (hgood : ∀ j < buf.length, Good d (pageAt va j)) :
      Outcome d va buf m (pure (0, copyBytes d va buf m))

/-- One turn: the first `n` bytes, up to the end of a page or of the range, are copied. -/
theorem Outcome.turn {n : ℕ} {r : Except Panic (ℤ × Memory)} (hva : va < 2 ^ 32)
    (hn : n = min (pgSize - va % pgSize) buf.length) (hgood : Good d (va / pgSize))
    (h : Outcome d ((va / pgSize + 1) * pgSize % 2 ^ 32) (buf.drop n)
      (copyBytes d va (buf.take n) m) r) : Outcome d va buf m r := by
  have hfirst : ∀ j < n, Good d (pageAt va j) := by
    intro j hj
    have hpage : pageAt va j = va / pgSize := by
      unfold pageAt pgSize at *
      omega
    rwa [hpage]
  have hlen : (buf.drop n).length = buf.length - n := List.length_drop
  -- if bytes are left, the first ones end a page
  have hnext : n < buf.length → (va + n) % 2 ^ 32 = (va / pgSize + 1) * pgSize % 2 ^ 32 := by
    intro hlt
    unfold pgSize at *
    congr 1
    omega
  have hshift : ∀ i, n < buf.length →
      pageAt ((va / pgSize + 1) * pgSize % 2 ^ 32) i = pageAt va (n + i) := by
    intro i hlt
    rw [pageAt, pageAt, ← hnext hlt]
    congr 1
    omega
  have hbefore : ∀ i, n < buf.length →
      (∀ j < i, Good d (pageAt ((va / pgSize + 1) * pgSize % 2 ^ 32) j)) →
      ∀ j < n + i, Good d (pageAt va j) := by
    intro i hlt hrest j hj
    by_cases hjn : j < n
    · exact hfirst j hjn
    · have hgoodj := hrest (j - n) (by omega)
      rwa [hshift _ hlt, Nat.add_sub_cancel' (by omega)] at hgoodj
  have hcopy : ∀ i, n < buf.length →
      copyBytes d ((va / pgSize + 1) * pgSize % 2 ^ 32) ((buf.drop n).take i)
        (copyBytes d va (buf.take n) m) = copyBytes d va (buf.take (n + i)) m := by
    intro i hlt
    rw [List.take_add, copyBytes_append _ _ hva, List.length_take,
      Nat.min_eq_left hlt.le, hnext hlt]
  cases h with
  | crash i hi hgood htable =>
    have hlt : n < buf.length := by omega
    rw [hshift i hlt] at htable
    exact .crash (n + i) (by omega) (hbefore i hlt hgood) htable
  | fail i hi hgood htable hbad =>
    have hlt : n < buf.length := by omega
    rw [hshift i hlt] at htable hbad
    rw [hcopy i hlt]
    exact .fail (n + i) (by omega) (hbefore i hlt hgood) htable hbad
  | done hgood =>
    by_cases hlt : n < buf.length
    · have hall := hcopy (buf.drop n).length hlt
      rw [List.take_length, hlen, Nat.add_sub_cancel' hlt.le, List.take_length] at hall
      rw [hall]
      refine .done fun j hj => hbefore (buf.drop n).length hlt hgood j ?_
      omega
    · have hall : n = buf.length := by omega
      rw [hall, List.drop_length, List.take_length, copyBytes]
      exact .done fun j hj => hfirst j (hall ▸ hj)

/-- **The loop of `copyout`** copies byte by byte up to the first page that is not good. -/
theorem copyout_outcome (d : PageDir) {va : ℕ} (hva : va < 2 ^ 32) (buf : List UInt8) (m : Memory) :
    Outcome d va buf m (copyout d va buf m) := by
  induction hlen : buf.length using Nat.strong_induction_on generalizing va buf m with
  | _ len ih =>
    rw [copyout]
    by_cases hbuf : buf = []
    · rw [dif_pos hbuf, hbuf]
      exact .done nofun
    · have hpos := List.length_pos_of_ne_nil hbuf
      have hzero : pageAt va 0 = va / pgSize := by rw [pageAt, Nat.add_zero, Nat.mod_eq_of_lt hva]
      rw [dif_neg hbuf]
      by_cases htable : HasTable d (va / pgSize)
      · by_cases hgood : Good d (va / pgSize)
        · have hmod : va % pgSize < pgSize := Nat.mod_lt va (by decide)
          rw [uva2ka_of_good hgood, pure_bind, if_neg hgood.2]
          refine Outcome.turn hva rfl hgood ?_
          dsimp only
          rw [← byteAddr, store_eq_copyBytes _ hva (by rw [List.length_take]; omega)]
          exact ih _ (by rw [List.length_drop]; omega) (Nat.mod_lt _ (by decide)) _ _ rfl
        · rw [uva2ka_of_not_good htable hgood, pure_bind, if_pos rfl]
          exact .fail 0 hpos nofun (by rwa [hzero]) (by rwa [hzero])
      · rw [uva2ka_of_not_hasTable htable]
        exact .crash 0 hpos nofun (by rwa [hzero])

/-! ## What is copied -/

/-- A byte that no address of the range stands for is not written. -/
theorem copyBytes_of_ne (buf : List UInt8) {a : UInt32} (hva : va < 2 ^ 32)
    (ha : ∀ i < buf.length, byteAddr d ((va + i) % 2 ^ 32) ≠ a) :
    copyBytes d va buf m a = m a := by
  induction buf generalizing va m with
  | nil => rfl
  | cons b bs ih =>
    have hzero := ha 0 (by simp)
    rw [Nat.add_zero, Nat.mod_eq_of_lt hva] at hzero
    rw [copyBytes, ih (Nat.mod_lt _ (by decide)), Function.update_of_ne hzero.symm]
    intro i hi
    have hsucc := ha (i + 1) (by rw [List.length_cons]; omega)
    rwa [show (va + (i + 1)) % 2 ^ 32 = ((va + 1) % 2 ^ 32 + i) % 2 ^ 32 by omega] at hsucc

/-- Addresses of the range that stand for the same byte get the same value. -/
def NoClash (d : PageDir) (va : ℕ) (buf : List UInt8) : Prop :=
  ∀ i < buf.length, ∀ j < buf.length,
    byteAddr d ((va + i) % 2 ^ 32) = byteAddr d ((va + j) % 2 ^ 32) → buf[i]? = buf[j]?

/-- The bytes of the range equal the buffer exactly if no two of its addresses clash. -/
theorem copyBytes_eq_iff (hva : va < 2 ^ 32) (buf : List UInt8) :
    (∀ i < buf.length, some (copyBytes d va buf m (byteAddr d ((va + i) % 2 ^ 32))) = buf[i]?) ↔
      NoClash d va buf := by
  constructor
  · intro h i hi j hj hclash
    rw [← h i hi, ← h j hj, hclash]
  · induction buf using List.reverseRecOn with
    | nil => intro _ i hi; exact absurd hi (Nat.not_lt_zero i)
    | append_singleton bs b ih =>
      intro hno i hi
      rw [List.length_append, List.length_singleton] at hi
      have hlast : (bs ++ [b])[bs.length]? = some b := by simp
      rw [copyBytes_append _ _ hva, copyBytes, copyBytes]
      by_cases hclash : byteAddr d ((va + i) % 2 ^ 32) = byteAddr d ((va + bs.length) % 2 ^ 32)
      · rw [hclash, Function.update_self, ← hlast]
        exact (hno i (by simp; omega) bs.length (by simp) hclash).symm
      · have hne : i ≠ bs.length := fun heq => hclash (by rw [heq])
        have hlt : i < bs.length := by omega
        rw [Function.update_of_ne hclash, List.getElem?_append_left hlt]
        refine ih (fun k hk l hl heq => ?_) i hlt
        have hkl := hno k (by simp; omega) l (by simp; omega) heq
        rwa [List.getElem?_append_left hk, List.getElem?_append_left hl] at hkl

/-! ## Safety -/

/-- What `copyout` may do: return 0 with every page of the range a user page, the bytes of the range
equal to the buffer and no other byte changed; or return -1 with no byte changed outside the user
pages of the range. It never dereferences a null pointer. -/
def Safe (d : PageDir) (va : ℕ) (buf : List UInt8) (m : Memory) :
    Except Panic (ℤ × Memory) → Prop
  | .error _ => False
  | .ok (r, m') =>
    (r = 0 ∧ (∀ i < buf.length, UserPage d (pageAt va i)) ∧
      (∀ i < buf.length, some (m' (byteAddr d ((va + i) % 2 ^ 32))) = buf[i]?) ∧
      ∀ a, (∀ i < buf.length, byteAddr d ((va + i) % 2 ^ 32) ≠ a) → m' a = m a) ∨
    (r = -1 ∧ ∀ a, m' a ≠ m a → ∃ i < buf.length, UserPage d (pageAt va i) ∧
      ∃ o < pgSize, a = frameAddr d (pageAt va i) + UInt32.ofNat o)

/-- The page table of every page that the loop reaches exists. -/
def Reaches (d : PageDir) (va : ℕ) (buf : List UInt8) : Prop :=
  ∀ i < buf.length, (∀ j < i, Good d (pageAt va j)) → HasTable d (pageAt va i)

/-- **`copyout` is safe exactly if the tables it reaches exist and, where it reaches the end, no two
addresses of the range clash.** For every page directory, every range, also one that wraps, and
every buffer. -/
theorem copyout_safe_iff (d : PageDir) (va : ℕ) (hva : va < 2 ^ 32) (buf : List UInt8)
    (m : Memory) :
    Safe d va buf m (copyout d va buf m) ↔
      Reaches d va buf ∧ ((∀ i < buf.length, Good d (pageAt va i)) → NoClash d va buf) := by
  have hspec := copyout_outcome d hva buf m
  generalize copyout d va buf m = r at hspec
  cases hspec with
  | crash i hi hgood htable =>
    exact iff_of_false id fun hcond => htable (hcond.1 i hi hgood)
  | fail i hi hgood htable hbad =>
    refine iff_of_true (.inr ⟨rfl, fun a ha => ?_⟩) ⟨fun k hk hbefore => ?_, fun hall => ?_⟩
    · have hwritten : ∃ j < (buf.take i).length, byteAddr d ((va + j) % 2 ^ 32) = a := by
        by_contra hnone
        push Not at hnone
        exact ha (copyBytes_of_ne _ hva hnone)
      obtain ⟨j, hj, rfl⟩ := hwritten
      rw [List.length_take] at hj
      exact ⟨j, by omega, (hgood j (by omega)).1, _, Nat.mod_lt _ (by decide), rfl⟩
    · rcases Nat.lt_trichotomy k i with hlt | rfl | hgt
      · exact (hgood k hlt).hasTable
      · exact htable
      · exact absurd (hbefore i hgt) hbad
    · exact absurd (hall i hi) hbad
  | done hgood =>
    have hreach : Reaches d va buf := fun i hi _ => (hgood i hi).hasTable
    constructor
    · rintro (⟨-, -, heq, -⟩ | ⟨hret, -⟩)
      · exact ⟨hreach, fun _ => (copyBytes_eq_iff hva buf).mp heq⟩
      · cases hret
    · rintro ⟨-, hno⟩
      exact .inl ⟨rfl, fun i hi => (hgood i hi).1, (copyBytes_eq_iff hva buf).mpr (hno hgood),
        fun a ha => copyBytes_of_ne buf hva ha⟩

/-- A directory that maps page `v` to frame `v`, writable for the user. -/
def identityDir : PageDir where
  page := 0
  pde i := some ⟨0, fun j => some ⟨i * 1024 + j, true, true⟩⟩

/-- Two bytes at the top of the address space and two at its bottom. -/
theorem copyout_safe_wrap :
    2 ^ 32 - 2 < 2 ^ 32 ∧
      Safe identityDir (2 ^ 32 - 2) [1, 2, 3, 4] (fun _ => 0)
        (copyout identityDir (2 ^ 32 - 2) [1, 2, 3, 4] fun _ => 0) := by
  refine ⟨by decide, (copyout_safe_iff identityDir _ (by decide) _ _).mpr ⟨?_, fun _ => ?_⟩⟩
  · exact fun i _ _ => rfl
  · unfold NoClash
    decide +kernel

/-- A directory without tables: the null pointer is dereferenced. -/
theorem not_copyout_safe :
    copyout ⟨0, fun _ => none⟩ 0 [1] (fun _ => 0) = throw .badPointer ∧
      ¬Safe ⟨0, fun _ => none⟩ 0 [1] (fun _ => 0)
        (copyout ⟨0, fun _ => none⟩ 0 [1] fun _ => 0) := by
  have hcrash : copyout ⟨0, fun _ => none⟩ 0 [1] (fun _ => 0) = throw .badPointer := by
    rw [copyout, dif_neg (by decide)]
    rfl
  rw [hcrash]
  exact ⟨rfl, id⟩

/-! ## Without the bytes -/

/-- `InuOs.copyout` is this function without its memory, for directories whose frames are all seen
at an address other than null. -/
theorem copyout_erase (d : PageDir) (hframes : ∀ v e, d.pteAt v = some e → p2v e.page ≠ 0)
    (va : ℕ) (buf : List UInt8) (m : Memory) :
    (copyout d va buf m).map (fun r => decide (r.1 = 0)) = InuOs.copyout d va buf.length := by
  induction hlen : buf.length using Nat.strong_induction_on generalizing va buf m with
  | _ len ih =>
    rw [copyout, InuOs.copyout]
    by_cases hbuf : buf = []
    · rw [dif_pos hbuf, dif_pos (by rw [← hlen, hbuf]; rfl)]
      rfl
    · have hpos := List.length_pos_of_ne_nil hbuf
      rw [dif_neg hbuf, dif_neg (by omega)]
      by_cases htable : HasTable d (va / pgSize)
      · obtain ⟨t, ht⟩ := Option.isSome_iff_exists.mp htable
        have hvm : InuOs.uva2ka d (va / pgSize) =
            pure ((d.pteAt (va / pgSize)).any (·.user)) := by rw [InuOs.uva2ka, ht]
        rw [uva2ka_of_hasTable htable, hvm, pure_bind, pure_bind]
        cases hpte : d.pteAt (va / pgSize) with
        | none => rfl
        | some e =>
          have hframe : frameAddr d (va / pgSize) ≠ 0 := by
            rw [frameAddr, hpte]
            exact hframes _ _ hpte
          have hmod : va % pgSize < pgSize := Nat.mod_lt va (by decide)
          cases huser : e.user with
          | false => simp [huser]; rfl
          | true =>
            simp only [Option.any_some, huser, if_true, hframe, if_false, Bool.not_true,
              Bool.false_eq_true]
            rw [ih _ _ _ _ _ List.length_drop, hlen]
            omega
      · have hnone : d.pde (pdx (va / pgSize)) = none := by simpa [HasTable] using htable
        rw [uva2ka_of_not_hasTable htable, InuOs.uva2ka, hnone]
        rfl

end InuOs.Copy
