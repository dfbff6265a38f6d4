import Mathlib.Algebra.Order.Ring.Nat
import Mathlib.Data.List.Basic

/-!
# Waiting for ticks (`sys_sleep`, and the timer interrupt of `trap.c`)

The test `ticks - ticks0 < n` is between unsigned numbers. The wrap of the counter does no harm as
long as the process does not look at it in the `n` ticks behind a multiple of 2 ^ 32, when it seems
that little time has passed (`Timely`); but a negative `n` is a very large number.
-/

namespace InuOs.SysSleep

/-- The tick counter, and a process in `sys_sleep`. -/
structure State : Type where
  ticks : UInt32
  ticks0 : UInt32
  n : Int32
  /-- what the call returned -/
  result : Option ℤ
  deriving DecidableEq, Repr

/-- The steps. -/
inductive Event : Type where
  /-- a timer interrupt on CPU 0, which also wakes the process up -/
  | tick
  /-- the process is at the head of its loop: after `acquire`, and behind each `sleep` -/
  | turn (killed : Bool)
  deriving DecidableEq, Repr

/-- One step. -/
def step (s : State) : Event → State
  | .tick => { s with ticks := s.ticks + 1 }
  | .turn killed =>
    if s.result ≠ none then s
    else if s.ticks - s.ticks0 < s.n.toUInt32 then
      if killed then { s with result := some (-1) } else s
    else { s with result := some 0 }

/-- The state when `sys_sleep` has taken `tickslock`. -/
def enter (ticks : UInt32) (n : Int32) : State := ⟨ticks, ticks, n, none⟩

/-- Whether some turn comes when at least `n` ticks have passed; `k` passed before. -/
def due (n : Int32) : ℕ → List Event → Bool
  | _, [] => false
  | k, .tick :: es => due n (k + 1) es
  | k, .turn _ :: es => n.toInt ≤ k || due n k es

/-- No look at the counter falls into the `n` ticks behind a multiple of 2 ^ 32, until the call is
due. `k` ticks passed before. Ticks that come without a look, or behind the return, are not
restricted. -/
def Timely (n : Int32) : ℕ → List Event → Prop
  | _, [] => True
  | k, .tick :: es => Timely n (k + 1) es
  | k, .turn _ :: es => if n.toInt ≤ k then n.toInt ≤ (k % 2 ^ 32 : ℕ) else Timely n k es

theorem foldl_step_of_result {s : State} (h : s.result = some 0) (es : List Event) :
    (es.foldl step s).result = some 0 := by
  induction es generalizing s with
  | nil => exact h
  | cons e es ih =>
    refine ih ?_
    cases e <;> simp [step, h]

/-- What the loop condition says after `k` ticks, in integers. -/
theorem sub_lt_iff {ticks ticks0 : UInt32} {n : Int32} (hn : 0 ≤ n) {k : ℕ}
    (hk : ticks = ticks0 + UInt32.ofNat k) :
    ticks - ticks0 < n.toUInt32 ↔ (k % 2 ^ 32 : ℕ) < n.toInt := by
  rw [hk, UInt32.add_comm, UInt32.add_sub_cancel, UInt32.lt_iff_toNat_lt, UInt32.toNat_ofNat',
    Int32.toNat_toUInt32_of_le hn, Int32.toInt_eq_toNatClampNeg hn]
  omega

/-- **The call returns at the first turn at which `n` ticks have passed.** -/
theorem foldl_step_result {n : Int32} (hn : 0 ≤ n) {s : State}
    (hs : s.n = n) (hwait : s.result = none)
    {k : ℕ} (hk : s.ticks = s.ticks0 + UInt32.ofNat k) {es : List Event} (htimely : Timely n k es)
    (hlive : .turn true ∉ es) :
    (es.foldl step s).result = if due n k es then some 0 else none := by
  induction es generalizing s k with
  | nil => exact hwait
  | cons e es ih =>
    rw [List.mem_cons, not_or] at hlive
    cases e with
    | tick =>
      refine ih (s := step s .tick) hs hwait ?_ htimely hlive.2
      change s.ticks + 1 = s.ticks0 + UInt32.ofNat (k + 1)
      rw [hk, UInt32.ofNat_add, ← UInt32.add_assoc]
      rfl
    | turn killed =>
      obtain rfl : killed = false := by simpa using hlive.1
      have hdiff : s.ticks - s.ticks0 < s.n.toUInt32 ↔ (k % 2 ^ 32 : ℕ) < n.toInt := by
        rw [hs]
        exact sub_lt_iff hn hk
      rw [Timely] at htimely
      rw [List.foldl_cons, due]
      split_ifs at htimely with hdue
      · -- the call is due, and the wrapped difference says so as well
        rw [step, if_neg (not_not.mpr hwait), if_neg (mt hdiff.mp (by omega)),
          foldl_step_of_result rfl, decide_eq_true hdue, Bool.true_or, if_pos rfl]
      · rw [step, if_neg (not_not.mpr hwait), if_pos (hdiff.mpr (by omega)),
          if_neg Bool.false_ne_true,
          ih hs hwait hk htimely hlive.2, decide_eq_false hdue, Bool.false_or]

/-- **`sys_sleep` waits for `n` ticks exactly if `n` is not negative**, from any value of the
counter on: the call has returned 0 in a run if and only if some look came when at least `n` ticks,
counted as integers, had passed. -/
theorem sysSleep_result_iff (ticks : UInt32) (n : Int32) :
    (∀ es : List Event, Timely n 0 es → .turn true ∉ es →
      (es.foldl step (enter ticks n)).result = if due n 0 es then some 0 else none) ↔ 0 ≤ n := by
  constructor
  · intro h
    by_contra hn
    have hneg : n.toInt < 0 := by
      rwa [Int32.le_iff_toInt_le, not_le] at hn
    -- the first look, at once: it is due, and the process goes to sleep
    have hlook := h [.turn false] (by simp [Timely, hneg.le]) (by simp)
    have hdue : due n 0 [.turn false] = true := by simp [due, hneg.le]
    have hsleeps : ticks - ticks < n.toUInt32 := by
      rw [UInt32.sub_self, UInt32.pos_iff_ne_zero]
      intro hzero
      obtain rfl : n = 0 := congrArg Int32.ofUInt32 hzero
      exact absurd hneg (by decide)
    rw [if_pos hdue, List.foldl_cons, List.foldl_nil, step, enter, if_neg (by simp),
      if_pos hsleeps, if_neg Bool.false_ne_true] at hlook
    cases hlook
  · intro hn es htimely hlive
    exact foldl_step_result hn rfl rfl (UInt32.add_zero ticks).symm htimely hlive

/-- A counter that wraps around. -/
theorem sysSleep_result_wrap :
    ([.turn false, .tick, .turn false, .tick, .turn false].foldl step (enter 0xFFFFFFFF 2)).result =
      some 0 :=
  (sysSleep_result_iff 0xFFFFFFFF 2).mpr (by decide) _ (by simp [Timely]) (by decide)

/-- Asked to wait for -1 ticks, the process sleeps. -/
theorem sysSleep_negative :
    ([.turn false, .tick, .turn false].foldl step (enter 0 (-1))).result = none ∧
      due (-1) 0 [.turn false] = true := by
  decide

end InuOs.SysSleep
