import InuOs.Lib.While
import Mathlib.Algebra.Order.Ring.Nat
import Mathlib.Data.List.Basic
import Mathlib.Data.List.GetD
import Mathlib.Data.List.Nodup

/-!
# The table of processors (`mp_uefi.c`, `loader.c`)

The firmware lists the processors and the I/O APICs in a table, the MADT: a header of 44 bytes and
records of different lengths. Both the loader and the kernel walk over the records, the loader to
print them and the kernel to fill `cpus`. They do not look at what kind of record there is but for
the five cases of a `switch`, and they go on by the length that the record gives for itself.

* A record that is none of the five kinds, or gives its length as 0, holds the walk for ever;
  otherwise it ends (`madt_walk_ends_iff`).
* `cpus` gets the first processors of the table (`mpinitUefi_spec`), those that the firmware has
  marked as not enabled among them.
-/

namespace InuOs.Madt

open While (Ends)

/-- `NCPU` -/
def nCpu : ℕ := 4

/-- `sizeof(struct uefi_madt)` -/
def headerSize : ℕ := 44

/-- `madt->len`, in a table whose byte at offset `i` is `m i`. -/
def len (m : ℕ → UInt8) : ℕ :=
  (m 4).toNat + 256 * ((m 5).toNat + 256 * ((m 6).toNat + 256 * (m 7).toNat))

/-! ## The kernel -/

/-- The variable `i` of `mpinit_uefi`, and what it sets. -/
structure Mp : Type where
  i : ℕ
  ncpu : ℕ
  /-- `cpus[k].apicid` -/
  apicid : ℕ → UInt8
  ioapicid : UInt8

/-- `i += record_len` -/
def Mp.skip (m : ℕ → UInt8) (s : Mp) : Mp := { s with i := (s.i + (m (s.i + 1)).toNat) % 2 ^ 32 }

/-- The body of the loop of `mpinit_uefi`. -/
def mpBody (m : ℕ → UInt8) (s : Mp) : Mp :=
  match (m s.i).toNat with
  | 0 =>
    let lapicId := m (s.i + 3)
    if s.ncpu < nCpu then
      { s with apicid := Function.update s.apicid s.ncpu lapicId, ncpu := s.ncpu + 1 }.skip m
    else s.skip m
  | 1 => { s with ioapicid := m (s.i + 2) }.skip m
  | 2 => s.skip m
  | 4 => s.skip m
  | 5 => { s with i := (s.i + 0xC) % 2 ^ 32 }
  | _ => s

/-- `mpinit_uefi` before its loop; `cpus` and `ioapicid` are zero at the start. -/
def mpInit : Mp := ⟨headerSize, 0, fun _ => 0, 0⟩

/-- `mpinit_uefi` ends in `t`. -/
def MpinitUefi (m : ℕ → UInt8) (t : Mp) : Prop := Ends (fun s => s.i < len m) (mpBody m) mpInit t

/-! ## The loader -/

/-- The body of the loop of `UefiMain`, without what it prints; here `i` has 64 bits. -/
def loaderBody (m : ℕ → UInt8) (i : ℕ) : ℕ :=
  match (m i).toNat with
  | 0 => (i + (m (i + 1)).toNat) % 2 ^ 64
  | 1 => (i + (m (i + 1)).toNat) % 2 ^ 64
  | 2 => (i + (m (i + 1)).toNat) % 2 ^ 64
  | 4 => (i + (m (i + 1)).toNat) % 2 ^ 64
  | 5 => (i + 0xC) % 2 ^ 64
  | _ => i

/-- The loop of `UefiMain` ends with `i` at `t`. -/
def LoaderWalk (m : ℕ → UInt8) (t : ℕ) : Prop := Ends (fun i => i < len m) (loaderBody m) 0x2C t

/-! ## How far a record takes the walk -/

/-- What is added to `i` at a record. -/
def advance (m : ℕ → UInt8) (i : ℕ) : ℕ :=
  match (m i).toNat with
  | 0 | 1 | 2 | 4 => (m (i + 1)).toNat
  | 5 => 12
  | _ => 0

variable {m : ℕ → UInt8}

theorem advance_lt (m : ℕ → UInt8) (i : ℕ) : advance m i < 256 := by
  have := (m (i + 1)).toNat_lt
  unfold advance
  split <;> omega

theorem len_lt (m : ℕ → UInt8) : len m < 2 ^ 32 := by
  have h₄ := (m 4).toNat_lt
  have h₅ := (m 5).toNat_lt
  have h₆ := (m 6).toNat_lt
  have h₇ := (m 7).toNat_lt
  unfold len
  omega

theorem mpBody_i (m : ℕ → UInt8) (s : Mp) (h : s.i < 2 ^ 32) :
    (mpBody m s).i = (s.i + advance m s.i) % 2 ^ 32 := by
  unfold mpBody advance
  split
  · split <;> rfl
  · rfl
  · rfl
  · rfl
  · rfl
  · exact (Nat.mod_eq_of_lt h).symm

theorem loaderBody_eq (m : ℕ → UInt8) (i : ℕ) (h : i < 2 ^ 64) :
    loaderBody m i = (i + advance m i) % 2 ^ 64 := by
  unfold loaderBody advance
  split
  · rfl
  · rfl
  · rfl
  · rfl
  · rfl
  · exact (Nat.mod_eq_of_lt h).symm

/-- The offsets of a table at which the walk looks for a record. -/
inductive Visited (m : ℕ → UInt8) : ℕ → Prop where
  | first : Visited m headerSize
  | next {i : ℕ} : Visited m i → i < len m → Visited m (i + advance m i)

/-- Every record that the walk comes to is of one of the five kinds and has a length. -/
def AllAdvance (m : ℕ → UInt8) : Prop := ∀ i, Visited m i → i < len m → 0 < advance m i

/-- **A walk over the records**, in a loop whose offset has `w` bits. -/
theorem walk_ends_iff {σ : Type} {off : σ → ℕ} {body : σ → σ} {w : ℕ} (hw : len m + 255 ≤ 2 ^ w)
    (hbody : ∀ s, off s < len m → off (body s) = (off s + advance m (off s)) % 2 ^ w) {s₀ : σ}
    (h₀ : off s₀ = headerSize) :
    (∃ t, Ends (fun s => off s < len m) body s₀ t) ↔ AllAdvance m := by
  have hnext (s : σ) (hlt : off s < len m) : off (body s) = off s + advance m (off s) := by
    have := advance_lt m (off s)
    rw [hbody s hlt, Nat.mod_eq_of_lt (by omega)]
  constructor
  · rintro ⟨t, ht⟩ i hi hlt
    -- the loop comes to every offset that is visited, and stays at one that does not advance
    have hreached : ∃ s, While.Reached (fun s => off s < len m) body s₀ s ∧ off s = i := by
      clear hlt
      induction hi with
      | first => exact ⟨s₀, .start, h₀⟩
      | next _ hlt ih =>
        obtain ⟨s, hs, rfl⟩ := ih
        exact ⟨body s, .turn hs hlt, hnext s hlt⟩
    obtain ⟨s, hs, rfl⟩ := hreached
    by_contra hstuck
    refine While.not_ends_of_invariant (I := fun r => off r = off s)
      (fun r hr => ?_) rfl (hs.ends ht)
    have hlt' : off r < len m := by rwa [hr]
    refine ⟨hlt', ?_⟩
    rw [hnext r hlt', hr]
    omega
  · intro hall
    refine While.exists_ends_of_measure (I := fun s => Visited m (off s))
      (fun s => len m - off s) ?_ ?_
    · intro s hs hlt
      have hpos := hall _ hs hlt
      rw [hnext s hlt]
      exact ⟨.next hs hlt, by omega⟩
    · rw [h₀]
      exact .first

/-- A table with two processors, whose second one has the flags `flags`. -/
def twoProcessors (flags : UInt8) (i : ℕ) : UInt8 :=
  if i = 4 then 60 else if i = 45 ∨ i = 53 then 8 else if i = 48 then 1 else if i = 55 then 1
  else if i = 56 then flags else 0

/-- A table with a record for an x2APIC, as firmware gives it for a processor with a large id. -/
def x2apic (i : ℕ) : UInt8 := if i = 4 then 60 else if i = 44 then 9 else if i = 45 then 16 else 0

/-- **The walk ends** exactly for tables without a record that holds it up. -/
theorem madt_walk_ends_iff (m : ℕ → UInt8) (hlen : len m + 255 ≤ 2 ^ 32) :
    ((∃ t, MpinitUefi m t) ↔ AllAdvance m) ∧ ((∃ t, LoaderWalk m t) ↔ AllAdvance m) := by
  constructor
  · refine walk_ends_iff hlen (fun s hs => mpBody_i m s ?_) rfl
    omega
  · refine walk_ends_iff (w := 64) (by omega) (fun i hi => loaderBody_eq m i ?_) rfl
    omega

theorem madt_walk_ends_two :
    (∃ t, MpinitUefi (twoProcessors 1) t) ∧ ∃ t, LoaderWalk (twoProcessors 1) t := by
  have hvisited (i : ℕ) (hi : Visited (twoProcessors 1) i) : i = 44 ∨ i = 52 ∨ i = 60 := by
    induction hi with
    | first => exact .inl rfl
    | next _ hlt ih =>
      rcases ih with rfl | rfl | rfl
      · exact .inr (.inl (by decide))
      · exact .inr (.inr (by decide))
      · exact absurd hlt (by decide)
  have hall : AllAdvance (twoProcessors 1) := by
    intro i hi hlt
    rcases hvisited i hi with rfl | rfl | rfl
    · decide
    · decide
    · exact absurd hlt (by decide)
  obtain ⟨hkernel, hloader⟩ := madt_walk_ends_iff (twoProcessors 1) (by decide)
  exact ⟨hkernel.mpr hall, hloader.mpr hall⟩

/-- An x2APIC is none of the five kinds, and neither loop ends. -/
theorem x2apic_not_ends : (¬∃ t, MpinitUefi x2apic t) ∧ ¬∃ t, LoaderWalk x2apic t := by
  have hlen := len_lt x2apic
  have hstuck : ¬AllAdvance x2apic :=
    fun hall => absurd (hall headerSize .first (by decide)) (by decide)
  constructor
  · intro hends
    refine hstuck
      ((walk_ends_iff (w := 32) (by decide) (fun s hs => mpBody_i x2apic s ?_) rfl).mp hends)
    omega
  · intro hends
    refine hstuck
      ((walk_ends_iff (w := 64) (by decide) (fun i hi => loaderBody_eq x2apic i ?_) rfl).mp hends)
    omega

/-! ## The list of processors -/

/-- The records at the offsets `rs` follow each other from offset `i` to `j`, and all are of the
five kinds. -/
inductive Records (m : ℕ → UInt8) : ℕ → List ℕ → ℕ → Prop where
  | nil (i : ℕ) : Records m i [] i
  | cons {i j : ℕ} {rs : List ℕ} : (m i).toNat ∈ [0, 1, 2, 4, 5] → 0 < (m (i + 1)).toNat →
      ((m i).toNat = 5 → (m (i + 1)).toNat = 12) → Records m (i + (m (i + 1)).toNat) rs j →
      Records m i (i :: rs) j

/-- The records of processors, in order. -/
def procRecords (m : ℕ → UInt8) (rs : List ℕ) : List ℕ := rs.filter fun r => (m r).toNat = 0

/-- The APIC ids of the processor records. -/
def processors (m : ℕ → UInt8) (rs : List ℕ) : List UInt8 :=
  (procRecords m rs).map fun r => m (r + 3)

/-- The ids of the I/O APIC records, in order. -/
def ioapics (m : ℕ → UInt8) (rs : List ℕ) : List UInt8 :=
  (rs.filter fun r => (m r).toNat = 1).map fun r => m (r + 2)

/-- Bit 0 of `flags` -/
def Enabled (m : ℕ → UInt8) (r : ℕ) : Prop := (m (r + 4)).toNat % 2 = 1

instance (m : ℕ → UInt8) (r : ℕ) : Decidable (Enabled m r) := inferInstanceAs (Decidable (_ = _))

/-- The APIC ids of the processors that can be used. -/
def usable (m : ℕ → UInt8) (rs : List ℕ) : List UInt8 :=
  ((procRecords m rs).filter (Enabled m ·)).map fun r => m (r + 3)

/-- What is in `cpus`. -/
def Mp.cpus (s : Mp) : List UInt8 := (List.range s.ncpu).map s.apicid

theorem length_cpus (s : Mp) : s.cpus.length = s.ncpu := by
  rw [Mp.cpus, List.length_map, List.length_range]

/-- A processor is entered if there is room. -/
theorem cpus_push (s : Mp) (id : UInt8) :
    ({ s with apicid := Function.update s.apicid s.ncpu id, ncpu := s.ncpu + 1 } : Mp).cpus =
      s.cpus ++ [id] := by
  have hself : Function.update s.apicid s.ncpu id s.ncpu = id := Function.update_self ..
  rw [Mp.cpus, Mp.cpus, List.range_succ, List.map_append, List.map_singleton]
  dsimp only
  rw [hself]
  congr 1
  refine List.map_congr_left fun k hk => Function.update_of_ne ?_ ..
  exact Nat.ne_of_lt (List.mem_range.mp hk)

theorem processors_singleton (m : ℕ → UInt8) (i : ℕ) :
    processors m [i] = if (m i).toNat = 0 then [m (i + 3)] else [] := by
  unfold processors procRecords
  by_cases h : (m i).toNat = 0 <;> simp [h]

theorem ioapics_singleton (m : ℕ → UInt8) (i : ℕ) :
    ioapics m [i] = if (m i).toNat = 1 then [m (i + 2)] else [] := by
  unfold ioapics
  by_cases h : (m i).toNat = 1 <;> simp [h]

/-- What the kernel has noted after a list of records. -/
structure Noted (m : ℕ → UInt8) (rs : List ℕ) (s t : Mp) : Prop where
  ncpu_le : t.ncpu ≤ nCpu
  cpus : t.cpus = (s.cpus ++ processors m rs).take nCpu
  ioapicid : t.ioapicid = (ioapics m rs).getLastD s.ioapicid

variable {s t : Mp} {i j : ℕ} {rs : List ℕ}

/-- A record that is neither a processor nor an I/O APIC. -/
theorem Noted.of_other (h₀ : (m i).toNat ≠ 0) (h₁ : (m i).toNat ≠ 1) (hs : s.ncpu ≤ nCpu)
    (hcpus : t.cpus = s.cpus) (hio : t.ioapicid = s.ioapicid) : Noted m [i] s t := by
  have hlen := length_cpus s
  have hlen' := length_cpus t
  rw [hcpus, hlen] at hlen'
  refine ⟨by omega, ?_, ?_⟩
  · rw [processors_singleton, if_neg h₀, List.append_nil, List.take_of_length_le (by omega), hcpus]
  · rw [ioapics_singleton, if_neg h₁, hio]
    rfl

/-- **One record.** -/
theorem mpBody_noted (s : Mp) (hs : s.ncpu ≤ nCpu) : Noted m [s.i] s (mpBody m s) := by
  have hlen := length_cpus s
  have hproc := processors_singleton m s.i
  have hio := ioapics_singleton m s.i
  unfold mpBody
  split
  · next hkind =>
    rw [hkind, if_pos rfl] at hproc
    rw [hkind, if_neg (by decide)] at hio
    split
    · next hroom =>
      refine ⟨hroom, ?_, by rw [hio]; rfl⟩
      rw [hproc, List.take_of_length_le (by rw [List.length_append, List.length_singleton]; omega)]
      exact cpus_push s (m (s.i + 3))
    · next hfull =>
      refine ⟨hs, ?_, by rw [hio]; rfl⟩
      rw [List.take_append_of_le_length (by omega), List.take_of_length_le (by omega)]
      rfl
  · next hkind =>
    rw [hkind, if_neg (by decide)] at hproc
    rw [hkind, if_pos rfl] at hio
    refine ⟨hs, ?_, by rw [hio]; rfl⟩
    rw [hproc, List.append_nil, List.take_of_length_le (by omega)]
    rfl
  · exact .of_other (by omega) (by omega) hs rfl rfl
  · exact .of_other (by omega) (by omega) hs rfl rfl
  · exact .of_other (by omega) (by omega) hs rfl rfl
  · next h₀ h₁ _ _ _ => exact .of_other h₀ h₁ hs rfl rfl

/-- One record, and those behind it. -/
theorem Noted.cons {r : Mp} (h : Noted m [i] s r) (h' : Noted m rs r t) :
    Noted m (i :: rs) s t := by
  have hproc : processors m (i :: rs) = processors m [i] ++ processors m rs := by
    rw [processors, processors, processors, ← List.map_append,
      procRecords, procRecords, procRecords,
      ← List.filter_append, List.singleton_append]
  have hio : ioapics m (i :: rs) = ioapics m [i] ++ ioapics m rs := by
    rw [ioapics, ioapics, ioapics, ← List.map_append, ← List.filter_append, List.singleton_append]
  refine ⟨h'.ncpu_le, ?_, ?_⟩
  · have htake (xs ys : List UInt8) : (xs.take nCpu ++ ys).take nCpu = (xs ++ ys).take nCpu := by
      rw [List.take_append, List.take_append, List.take_take, Nat.min_self, List.length_take]
      congr 2
      omega
    rw [h'.cpus, h.cpus, hproc, ← List.append_assoc, htake]
  · rw [h'.ioapicid, h.ioapicid, hio, ioapics_singleton]
    split
    · cases ioapics m rs with
      | nil => rfl
      | cons b bs => rfl
    · rfl

theorem advance_of_kind (hkind : (m i).toNat ∈ [0, 1, 2, 4, 5])
    (hfive : (m i).toNat = 5 → (m (i + 1)).toNat = 12) : advance m i = (m (i + 1)).toNat := by
  simp only [List.mem_cons, List.not_mem_nil, or_false] at hkind
  unfold advance
  rcases hkind with h | h | h | h | h
  · rw [h]
    rfl
  · rw [h]
    rfl
  · rw [h]
    rfl
  · rw [h]
    rfl
  · rw [hfive h, h]
    rfl

theorem Records.le (h : Records m i rs j) : i ≤ j := by
  induction h with
  | nil => exact Nat.le_refl _
  | cons _ _ _ _ ih => omega

theorem Records.ends (h : Records m i rs j) (hj : j = len m) (hi : s.i = i) (hs : s.ncpu ≤ nCpu) :
    ∃ t, Ends (fun s => s.i < len m) (mpBody m) s t ∧ Noted m rs s t := by
  have hlt := len_lt m
  induction h generalizing s with
  | nil i =>
    refine ⟨s, .done (by omega), hs, ?_, rfl⟩
    have hlen := length_cpus s
    rw [processors, procRecords, List.filter_nil, List.map_nil, List.append_nil,
      List.take_of_length_le (by omega)]
  | @cons i j rs hkind hpos hfive hrest ih =>
    have hle := hrest.le
    have hnoted := mpBody_noted (m := m) s hs
    rw [hi] at hnoted
    have hnext : (mpBody m s).i = i + (m (i + 1)).toNat := by
      rw [mpBody_i m s (by omega), hi, advance_of_kind hkind hfive, Nat.mod_eq_of_lt (by omega)]
    obtain ⟨t, ht, hnoted'⟩ := ih hj hnext hnoted.ncpu_le
    refine ⟨t, (While.ends_body_iff (s := s) ?_).mp ht, hnoted.cons hnoted'⟩
    omega

/-- **`mpinit_uefi`**: `cpus` has the first processors of the table, and `ioapicid` the last I/O
APIC. -/
theorem mpinitUefi_spec (h : Records m headerSize rs (len m)) :
    ∃ t, MpinitUefi m t ∧ t.cpus = (processors m rs).take nCpu ∧
      ∀ id ∈ (ioapics m rs).getLast?, t.ioapicid = id := by
  obtain ⟨t, ht, hnoted⟩ := h.ends rfl (s := mpInit) rfl (Nat.zero_le _)
  refine ⟨t, ht, hnoted.cpus, fun id hid => ?_⟩
  rw [hnoted.ioapicid, List.getLastD_eq_getLast?, hid]
  rfl

/-- `ncpu` and `cpus` list the first `NCPU` of the processors `ids`. -/
def Mp.Lists (t : Mp) (ids : List UInt8) : Prop :=
  t.ncpu = min nCpu ids.length ∧ ∀ k < t.ncpu, ids[k]? = some (t.apicid k)

theorem lists_iff {ids : List UInt8} : t.Lists ids ↔ t.cpus = ids.take nCpu := by
  have hget (k : ℕ) (hk : k < t.ncpu) : t.cpus[k]? = some (t.apicid k) := by
    rw [Mp.cpus, List.getElem?_map, List.getElem?_range hk]
    rfl
  constructor
  · rintro ⟨hncpu, hids⟩
    have hlen : t.cpus.length = (ids.take nCpu).length := by
      rw [length_cpus, hncpu, List.length_take]
    refine List.ext_getElem? fun k => ?_
    by_cases hk : k < t.ncpu
    · rw [hget k hk, List.getElem?_take_of_lt (by omega), hids k hk]
    · rw [List.getElem?_eq_none (by rw [length_cpus]; omega),
        List.getElem?_eq_none (by rw [← hlen, length_cpus]; omega)]
  · intro hcpus
    have hncpu : t.ncpu = min nCpu ids.length := by
      rw [← length_cpus t, hcpus, List.length_take]
    refine ⟨hncpu, fun k hk => ?_⟩
    rw [← hget k hk, hcpus, List.getElem?_take_of_lt (by omega)]

/-- Filtering keeps the front part of a list if the filter holds there. -/
theorem take_filter_of_forall {l : List ℕ} {p : ℕ → Prop} [DecidablePred p] {n : ℕ}
    (h : ∀ r ∈ l.take n, p r) : (l.filter (p ·)).take n = l.take n := by
  rw [← List.take_append_drop n l, List.filter_append, List.take_append_drop,
    List.filter_eq_self.mpr (by simpa using h)]
  by_cases hn : n ≤ l.length
  · exact List.take_left' (List.length_take_of_le hn)
  · rw [List.drop_of_length_le (by omega), List.filter_nil, List.append_nil, List.take_take,
      Nat.min_self]

theorem records_twoProcessors (flags : UInt8) :
    Records (twoProcessors flags) headerSize [44, 52] (len (twoProcessors flags)) := by
  refine .cons ?_ ?_ ?_ (.cons ?_ ?_ ?_ (.nil _))
  all_goals simp [twoProcessors, headerSize]

/-- **The list of processors is that of the usable ones** exactly if the usable ones come first, as
far as the list goes. If the APIC ids are different, that is so exactly if the first `NCPU` records
of processors are enabled. -/
theorem mpinit_cpus_iff (m : ℕ → UInt8) (rs : List ℕ) (hrecords : Records m headerSize rs (len m)) :
    ((∃ t, MpinitUefi m t ∧ t.Lists (usable m rs) ∧ ∀ id ∈ (ioapics m rs).getLast?,
      t.ioapicid = id) ↔
        (usable m rs).take nCpu = (processors m rs).take nCpu) ∧
      ((processors m rs).Nodup → ((usable m rs).take nCpu = (processors m rs).take nCpu ↔
        ∀ r ∈ (procRecords m rs).take nCpu, Enabled m r)) := by
  obtain ⟨t, ht, hcpus, hio⟩ := mpinitUefi_spec hrecords
  constructor
  · constructor
    · rintro ⟨t', ht', hlists, -⟩
      rw [← lists_iff.mp hlists, ht'.unique ht, hcpus]
    · intro h
      exact ⟨t, ht, lists_iff.mpr (hcpus.trans h.symm), hio⟩
  · intro hnodup
    constructor
    · intro h r hr
      have hid : m (r + 3) ∈ (usable m rs).take nCpu := by
        rw [h, processors, ← List.map_take]
        exact List.mem_map_of_mem hr
      obtain ⟨r', hr', heq⟩ := List.mem_map.mp (List.mem_of_mem_take hid)
      obtain ⟨hproc, henabled⟩ := List.mem_filter.mp hr'
      -- a record with this id is usable, and there is only one with it
      rw [← List.inj_on_of_nodup_map hnodup hproc (List.mem_of_mem_take hr) heq]
      exact of_decide_eq_true henabled
    · intro h
      rw [usable, processors, ← List.map_take, ← List.map_take, take_filter_of_forall h]

/-- Both processors of a table are enabled. -/
theorem mpinit_cpus_two : ∃ t, MpinitUefi (twoProcessors 1) t ∧ t.ncpu = 2 := by
  obtain ⟨hiff, -⟩ := mpinit_cpus_iff (twoProcessors 1) [44, 52] (records_twoProcessors 1)
  obtain ⟨t, ht, ⟨hncpu, -⟩, -⟩ := hiff.mpr (by decide)
  exact ⟨t, ht, hncpu⟩

/-- A processor that is not enabled is in the list all the same. -/
theorem mpinit_lists_disabled :
    Records (twoProcessors 0) headerSize [44, 52] (len (twoProcessors 0)) ∧
      (usable (twoProcessors 0) [44, 52]).length = 1 ∧
      ∃ t, MpinitUefi (twoProcessors 0) t ∧ t.ncpu = 2 := by
  refine ⟨records_twoProcessors 0, by decide, ?_⟩
  obtain ⟨t, ht, hcpus, -⟩ := mpinitUefi_spec (records_twoProcessors 0)
  exact ⟨t, ht, (lists_iff.mpr hcpus).1⟩

end InuOs.Madt
