import InuOs.Lib.Reading
import InuOs.Growproc

/-!
# The arguments of system calls (`syscall.c`)

The kernel takes the arguments of a call from the stack of the process, and what they point to from
the rest of its memory. All that stands between a bad pointer and the kernel are the comparisons
with the size of the process, in a mix of signed and unsigned 32-bit numbers.

The functions here compute with the same numbers (`UInt32`, and `Int32` for an `int` that is
compared as such), and they note each byte that they read (`Reading`). An `int` variable that is
only moved around is its 32 bits.
-/

namespace InuOs.Args

open Reading (Within read)
open Paging (kernBase_eq_two_pow)

/-- What a function returns, and what it has stored through its pointer argument. -/
structure Fetched : Type where
  ret : Int32
  out : Option UInt32
  deriving DecidableEq, Repr

section Functions

variable (mem : UInt32 → UInt8) (sz : UInt32)

/-- `*(int*)a` -/
def readInt (a : UInt32) : Reading UInt32 UInt32 := do
  let b₀ ← read mem a
  let b₁ ← read mem (a + 1)
  let b₂ ← read mem (a + 2)
  let b₃ ← read mem (a + 3)
  pure (b₀.toUInt32 ||| b₁.toUInt32 <<< 8 ||| b₂.toUInt32 <<< 16 ||| b₃.toUInt32 <<< 24)

/-- `fetchint` -/
def fetchint (addr : UInt32) : Reading UInt32 Fetched :=
  if addr ≥ sz ∨ addr + 4 > sz then pure ⟨-1, none⟩
  else do
    let i ← readInt mem addr
    pure ⟨0, some i⟩

/-- The loop of `fetchstr`, from `s` to `ep`. -/
def scan (pp ep s : UInt32) : Reading UInt32 Fetched :=
  if _h : s < ep then do
    let b ← read mem s
    if b = 0 then pure ⟨(s - pp).toInt32, some pp⟩ else scan pp ep (s + 1)
  else pure ⟨-1, some pp⟩
termination_by ep.toNat - s.toNat
decreasing_by
  have hlt := UInt32.lt_iff_toNat_lt.mp _h
  have hep := ep.toNat_lt
  rw [UInt32.toNat_add, show (1 : UInt32).toNat = 1 from rfl]
  omega

/-- `fetchstr` -/
def fetchstr (addr : UInt32) : Reading UInt32 Fetched :=
  if addr ≥ sz then pure ⟨-1, none⟩ else scan mem addr sz addr

/-- `argint`, with the saved stack pointer `esp`. -/
def argint (esp n : UInt32) : Reading UInt32 Fetched := fetchint mem sz (esp + 4 + 4 * n)

/-- `argptr` -/
def argptr (esp n : UInt32) (size : Int32) : Reading UInt32 Fetched := do
  let r ← argint mem sz esp n
  if r.ret < 0 then pure ⟨-1, none⟩
  else
    let i := r.out.getD 0
    if size < 0 ∨ i ≥ sz ∨ i + size.toUInt32 > sz then pure ⟨-1, none⟩ else pure ⟨0, some i⟩

/-- `argstr` -/
def argstr (esp n : UInt32) : Reading UInt32 Fetched := do
  let r ← argint mem sz esp n
  if r.ret < 0 then pure ⟨-1, none⟩ else fetchstr mem sz (r.out.getD 0)

/-- The loop of `sys_exec`, with room for so many more pointers in `argv`; `none` for -1. -/
def execArgs (uargv : UInt32) : ℕ → List UInt32 → Reading UInt32 (Option (List UInt32))
  | 0, _ => pure none
  | room + 1, argv => do
    let r ← fetchint mem sz (uargv + 4 * UInt32.ofNat argv.length)
    if r.ret < 0 then pure none
    else if r.out.getD 0 = 0 then pure (some argv)
    else do
      let s ← fetchstr mem sz (r.out.getD 0)
      if s.ret < 0 then pure none else execArgs uargv room (argv ++ [s.out.getD 0])

/-- `sys_exec` up to the call of `exec`: the path and the arguments, or `none` for -1. -/
def sysExec (esp : UInt32) : Reading UInt32 (Option (UInt32 × List UInt32)) := do
  let path ← argstr mem sz esp 0
  if path.ret < 0 then pure none
  else do
    let uargv ← argint mem sz esp 1
    if uargv.ret < 0 then pure none
    else do
      let argv ← execArgs mem sz (uargv.out.getD 0) maxArg []
      pure (argv.map fun argv => (path.out.getD 0, argv))

end Functions

variable {mem : UInt32 → UInt8} {sz : UInt32}

/-! ## What is inside -/

/-- The `n` bytes at `p` are below `sz`, and no address of them wraps around. -/
def RangeIn (sz p : UInt32) (n : ℕ) : Prop := p.toNat + n ≤ sz.toNat

/-- The first NUL at or after `p` is at `p + n`, and it is below `sz`. -/
structure StringIn (mem : UInt32 → UInt8) (sz p : UInt32) (n : ℕ) : Prop where
  inside : RangeIn sz p (n + 1)
  nul : mem (p + UInt32.ofNat n) = 0
  before : ∀ j < n, mem (p + UInt32.ofNat j) ≠ 0

/-- The 32 bits at `a`, least significant byte first. -/
def wordAt (mem : UInt32 → UInt8) (a : UInt32) : UInt32 :=
  (mem a).toUInt32 ||| (mem (a + 1)).toUInt32 <<< 8 ||| (mem (a + 2)).toUInt32 <<< 16 |||
    (mem (a + 3)).toUInt32 <<< 24

theorem toNat_add_of_lt {a b : UInt32} (h : a.toNat + b.toNat < 2 ^ 32) :
    (a + b).toNat = a.toNat + b.toNat := by
  rw [UInt32.toNat_add, Nat.mod_eq_of_lt h]

section Specs

variable (hsz : sz.toNat < kernBase)
include hsz

/-- **`fetchint`.** -/
theorem fetchint_spec (addr : UInt32) :
    Within (· < sz) (fetchint mem sz addr) fun r =>
      r = ⟨-1, none⟩ ∨ r = ⟨0, some (wordAt mem addr)⟩ ∧ RangeIn sz addr 4 := by
  have hbase := kernBase_eq_two_pow
  unfold fetchint
  split
  · exact .pure (.inl rfl)
  next hin =>
  obtain ⟨hlt, hle⟩ := not_or.mp hin
  rw [ge_iff_le, UInt32.le_iff_toNat_le] at hlt
  have hfour : (addr + 4).toNat = addr.toNat + 4 :=
    toNat_add_of_lt (show addr.toNat + 4 < 2 ^ 32 by omega)
  rw [gt_iff_lt, UInt32.lt_iff_toNat_lt, hfour] at hle
  have hin (i : UInt32) (hi : i.toNat < 4) : addr + i < sz := by
    rw [UInt32.lt_iff_toNat_lt, toNat_add_of_lt (by omega)]
    omega
  have h₀ : addr < sz := by
    rw [UInt32.lt_iff_toNat_lt]
    omega
  unfold readInt
  simp only [bind_assoc, pure_bind]
  refine .read_bind h₀ (.read_bind (hin 1 (by decide)) (.read_bind (hin 2 (by decide))
    (.read_bind (hin 3 (by decide)) ?_)))
  exact .pure (.inr ⟨rfl, Nat.le_of_not_lt hle⟩)

/-- An offset below the size is not negative as an `int`. -/
theorem toInt_toInt32 {x : UInt32} (hx : x.toNat < sz.toNat) : x.toInt32.toInt = x.toNat := by
  have hbase := kernBase_eq_two_pow
  rw [← Int32.toInt_toBitVec, UInt32.toBitVec_toInt32, BitVec.toInt_eq_toNat_of_lt]
  · rfl
  · rw [UInt32.toNat_toBitVec]
    omega

/-- The loop of `fetchstr` has found no NUL up to `s`. -/
theorem scan_spec {pp s : UInt32} (hle : pp.toNat ≤ s.toNat) (hs : s.toNat ≤ sz.toNat)
    (hbefore : ∀ j < s.toNat - pp.toNat, mem (pp + UInt32.ofNat j) ≠ 0) :
    Within (· < sz) (scan mem pp sz s) fun r =>
      r = ⟨-1, some pp⟩ ∧ (∀ n, ¬StringIn mem sz pp n) ∨
        ∃ n : ℕ, r.ret.toInt = n ∧ r.out = some pp ∧ StringIn mem sz pp n := by
  have hbase := kernBase_eq_two_pow
  induction hm : sz.toNat - s.toNat generalizing s with
  | zero =>
    have hend : ¬ s < sz := by
      rw [UInt32.lt_iff_toNat_lt]
      omega
    rw [scan, dif_neg hend]
    refine .pure (.inl ⟨rfl, fun n hn => hbefore n ?_ hn.nul⟩)
    have := hn.inside
    unfold RangeIn at this
    omega
  | succ m ih =>
    have hlt : s < sz := by
      rw [UInt32.lt_iff_toNat_lt]
      omega
    have hsub : pp + UInt32.ofNat (s.toNat - pp.toNat) = s := by
      rw [← UInt32.toNat_inj, UInt32.toNat_add, UInt32.toNat_ofNat']
      omega
    rw [scan, dif_pos hlt]
    refine .read_bind hlt ?_
    split
    · next hnul =>
      refine .pure (.inr ⟨s.toNat - pp.toNat, ?_, rfl, ?_, by rw [hsub, hnul], hbefore⟩)
      · have hdiff : (s - pp).toNat = s.toNat - pp.toNat :=
          UInt32.toNat_sub_of_le s pp (UInt32.le_iff_toNat_le.mpr hle)
        rw [toInt_toInt32 hsz (by omega), hdiff]
      · unfold RangeIn
        omega
    · next hne =>
      have hnext : (s + 1).toNat = s.toNat + 1 :=
        toNat_add_of_lt (show s.toNat + 1 < 2 ^ 32 by omega)
      refine ih (by omega) (by omega) (fun j hj => ?_) (by omega)
      rcases eq_or_ne j (s.toNat - pp.toNat) with rfl | hj'
      · rwa [hsub]
      · exact hbefore j (by omega)

/-- **`fetchstr`.** -/
theorem fetchstr_spec (addr : UInt32) :
    Within (· < sz) (fetchstr mem sz addr) fun r =>
      r.ret = -1 ∧ (∀ n, ¬StringIn mem sz addr n) ∨
        ∃ n : ℕ, r.ret.toInt = n ∧ r.out = some addr ∧ StringIn mem sz addr n := by
  unfold fetchstr
  split
  · next hge =>
    rw [ge_iff_le, UInt32.le_iff_toNat_le] at hge
    refine .pure (.inl ⟨rfl, fun n hn => ?_⟩)
    have := hn.inside
    unfold RangeIn at this
    omega
  · next hlt =>
    rw [ge_iff_le, UInt32.le_iff_toNat_le] at hlt
    refine (scan_spec hsz le_rfl (by omega) ?_).mono ?_
    · rw [Nat.sub_self]
      nofun
    · rintro r (⟨rfl, hno⟩ | hstring)
      · exact .inl ⟨rfl, hno⟩
      · exact .inr hstring

/-- **`argint`.** The address of the argument may wrap around; it is checked as it is. -/
theorem argint_spec (esp n : UInt32) :
    Within (· < sz) (argint mem sz esp n) fun r =>
      r = ⟨-1, none⟩ ∨
        r = ⟨0, some (wordAt mem (esp + 4 + 4 * n))⟩ ∧ RangeIn sz (esp + 4 + 4 * n) 4 :=
  fetchint_spec hsz _

/-- **`argptr`.** -/
theorem argptr_spec (esp n : UInt32) (size : Int32) :
    Within (· < sz) (argptr mem sz esp n size) fun r =>
      r = ⟨-1, none⟩ ∨ r = ⟨0, some (wordAt mem (esp + 4 + 4 * n))⟩ ∧ 0 ≤ size.toInt ∧
        RangeIn sz (wordAt mem (esp + 4 + 4 * n)) size.toInt.toNat := by
  have hbase := kernBase_eq_two_pow
  refine (argint_spec hsz esp n).bind ?_
  rintro _ (rfl | ⟨rfl, -⟩)
  · exact .pure (.inl rfl)
  rw [if_neg (show ¬ (0 : Int32) < 0 by decide)]
  dsimp only [Option.getD_some]
  split
  · exact .pure (.inl rfl)
  next hin =>
  obtain ⟨hsize, hin⟩ := not_or.mp hin
  obtain ⟨hlt, hle⟩ := not_or.mp hin
  rw [Int32.lt_iff_toInt_lt, Int32.toInt_zero, not_lt] at hsize
  rw [ge_iff_le, UInt32.le_iff_toNat_le] at hlt
  have hnat : size.toUInt32.toNat = size.toInt.toNat :=
    Int32.toNat_toUInt32_of_le (Int32.le_iff_toInt_le.mpr hsize)
  have hmax := size.toInt_lt
  rw [gt_iff_lt, UInt32.lt_iff_toNat_lt, toNat_add_of_lt (by omega), hnat, not_lt] at hle
  exact .pure (.inr ⟨rfl, hsize, hle⟩)

/-- **`argstr`.** -/
theorem argstr_spec (esp n : UInt32) :
    Within (· < sz) (argstr mem sz esp n) fun r =>
      r.ret = -1 ∨ ∃ l : ℕ, r.ret.toInt = l ∧ r.out = some (wordAt mem (esp + 4 + 4 * n)) ∧
        StringIn mem sz (wordAt mem (esp + 4 + 4 * n)) l := by
  refine (argint_spec hsz esp n).bind ?_
  rintro _ (rfl | ⟨rfl, -⟩)
  · exact .pure (.inl rfl)
  refine (fetchstr_spec hsz _).mono ?_
  rintro r (⟨hr, -⟩ | hstring)
  · exact .inl hr
  · exact .inr hstring

/-- **The arguments of `exec`.** -/
theorem execArgs_spec (uargv : UInt32) (room : ℕ) {argv : List UInt32}
    (hargv : ∀ p ∈ argv, ∃ l, StringIn mem sz p l) :
    Within (· < sz) (execArgs mem sz uargv room argv) fun r =>
      ∀ ps ∈ r, ps.length < argv.length + room ∧ ∀ p ∈ ps, ∃ l, StringIn mem sz p l := by
  induction room generalizing argv with
  | zero => exact .pure nofun
  | succ room ih =>
    refine (fetchint_spec hsz _).bind ?_
    rintro _ (rfl | ⟨rfl, -⟩)
    · exact .pure nofun
    rw [if_neg (show ¬ (0 : Int32) < 0 by decide)]
    split
    · refine .pure ?_
      rintro _ ⟨⟩
      exact ⟨by omega, hargv⟩
    refine (fetchstr_spec hsz _).bind ?_
    rintro ⟨ret, out⟩ (⟨hret, -⟩ | ⟨l, hret, hout, hstring⟩)
    · rw [hret, if_pos (show (-1 : Int32) < 0 by decide)]
      exact .pure nofun
    · have hnonneg : ¬ ret < 0 := by
        rw [Int32.lt_iff_toInt_lt, hret, Int32.toInt_zero]
        omega
      rw [if_neg hnonneg, hout]
      refine (ih fun p hp => ?_).mono fun r hr ps hps => ?_
      · rcases List.mem_append.mp hp with hin | hin
        · exact hargv p hin
        · rw [List.mem_singleton.mp hin]
          exact ⟨l, hstring⟩
      · obtain ⟨hlen, hall⟩ := hr ps hps
        rw [List.length_append, List.length_singleton] at hlen
        exact ⟨by omega, hall⟩

/-- **`sys_exec`.** -/
theorem sysExec_spec (esp : UInt32) :
    Within (· < sz) (sysExec mem sz esp) fun r =>
      ∀ path argv, r = some (path, argv) → argv.length < maxArg ∧
        ∀ p ∈ path :: argv, ∃ l, StringIn mem sz p l := by
  refine (argstr_spec hsz esp 0).bind ?_
  rintro ⟨ret, out⟩ (hret | ⟨l, hret, hout, hpath⟩)
  · rw [hret, if_pos (show (-1 : Int32) < 0 by decide)]
    exact .pure nofun
  split
  · exact .pure nofun
  refine (argint_spec hsz esp 1).bind ?_
  rintro _ (rfl | ⟨rfl, -⟩)
  · exact .pure nofun
  refine (execArgs_spec hsz _ maxArg (List.forall_mem_nil _)).bind fun r hr =>
    .pure fun path argv hsome => ?_
  obtain ⟨ps, hps, heq⟩ := Option.map_eq_some_iff.mp hsome
  obtain ⟨rfl, rfl⟩ := Prod.mk.inj heq
  obtain ⟨hlen, hall⟩ := hr ps hps
  refine ⟨hlen, List.forall_mem_cons.mpr ⟨?_, hall⟩⟩
  rw [hout]
  exact ⟨l, hpath⟩

end Specs

/-! ## All checks -/

/-- **No argument leads the kernel out of the process.** For a process of any size below `KERNBASE`,
any stack pointer and any memory: every byte that is read is below the size, and so is, if the
function succeeds, the word, the block or the string with its NUL that it hands on. -/
theorem args_inside (mem : UInt32 → UInt8) (sz : UInt32) (hsz : sz.toNat < kernBase) :
    (∀ addr, Within (· < sz) (fetchint mem sz addr) fun r =>
      r.ret = -1 ∨ r.ret = 0 ∧ r.out = some (wordAt mem addr) ∧ RangeIn sz addr 4) ∧
    (∀ addr, Within (· < sz) (fetchstr mem sz addr) fun r =>
      r.ret = -1 ∧ (∀ n, ¬StringIn mem sz addr n) ∨
        ∃ n : ℕ, r.ret.toInt = n ∧ r.out = some addr ∧ StringIn mem sz addr n) ∧
    (∀ esp n, Within (· < sz) (argint mem sz esp n) fun r =>
      r.ret = -1 ∨ r.ret = 0 ∧ r.out = some (wordAt mem (esp + 4 + 4 * n)) ∧
        RangeIn sz (esp + 4 + 4 * n) 4) ∧
    (∀ esp n size, Within (· < sz) (argptr mem sz esp n size) fun r =>
      r.ret = -1 ∨ r.ret = 0 ∧ ∃ p, r.out = some p ∧ 0 ≤ size.toInt ∧
      RangeIn sz p size.toInt.toNat) ∧
    (∀ esp n, Within (· < sz) (argstr mem sz esp n) fun r =>
      r.ret = -1 ∨ ∃ p, ∃ l : ℕ, r.ret.toInt = l ∧ r.out = some p ∧ StringIn mem sz p l) ∧
    ∀ esp, Within (· < sz) (sysExec mem sz esp) fun r =>
      ∀ path argv, r = some (path, argv) → argv.length < maxArg ∧
        ∀ p ∈ path :: argv, ∃ l, StringIn mem sz p l := by
  refine ⟨fun addr => (fetchint_spec hsz addr).mono ?_, fetchstr_spec hsz,
    fun esp n => (argint_spec hsz esp n).mono ?_, fun esp n size =>
      (argptr_spec hsz esp n size).mono ?_,
    fun esp n => (argstr_spec hsz esp n).mono ?_, sysExec_spec hsz⟩
  · rintro _ (rfl | ⟨rfl, hin⟩)
    · exact .inl rfl
    · exact .inr ⟨rfl, rfl, hin⟩
  · rintro _ (rfl | ⟨rfl, hin⟩)
    · exact .inl rfl
    · exact .inr ⟨rfl, rfl, hin⟩
  · rintro _ (rfl | ⟨rfl, hsize, hin⟩)
    · exact .inl rfl
    · exact .inr ⟨rfl, _, rfl, hsize, hin⟩
  · rintro r (hret | ⟨l, hret, hout, hstring⟩)
    · exact .inl hret
    · exact .inr ⟨_, l, hret, hout, hstring⟩

/-- Two bytes and a NUL at the start of three pages. -/
theorem args_inside_three_pages :
    ((fetchstr (fun a => if a = 2 then 0 else 97) 12288 0).run []).1.ret.toInt = 2 := by
  have hsz : (12288 : UInt32).toNat < kernBase := by
    rw [kernBase_eq_two_pow]
    decide
  have hstring : StringIn (fun a => if a = 2 then 0 else 97) 12288 0 2 :=
    ⟨Nat.le_of_ble_eq_true rfl, by decide, by decide⟩
  rcases ((args_inside (fun a => if a = 2 then 0 else 97) 12288 hsz).2.1 0 [] nofun).1 with
    ⟨-, hno⟩ | ⟨n, hret, -, hn⟩
  · exact absurd hstring (hno 2)
  · have hle : n ≤ 2 := by
      by_contra hlt
      exact hn.before 2 (by omega) hstring.nul
    have hge : 2 ≤ n := by
      by_contra hlt
      exact hstring.before n (by omega) hn.nul
    omega

end InuOs.Args
