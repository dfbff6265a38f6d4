import Mathlib.Data.List.Basic
import Mathlib.Logic.Function.Basic
import Mathlib.Order.Nat

/-!
# Maps in slots

A table is a list of slots, each of which is empty or holds a key and a value. When no key is in two
slots, it stands for the finite map `lookup`: then it does not matter which slots are used, and

* storing a new key into an empty slot, or into a new one at the end, is an update of the map
  (`lookup_put`);
* emptying the slot of a key removes the key (`lookup_clear`).
-/

namespace InuOs.Slots

universe u v

variable {κ : Type u} {ν : Type v}

/-- A table. -/
abbrev Table (κ : Type u) (ν : Type v) : Type (max u v) := List (Option (κ × ν))

/-- No key is in two slots. -/
def Distinct (t : Table κ ν) : Prop :=
  ∀ (m n : ℕ) (k : κ) (v w : ν), t[m]? = some (some (k, v)) → t[n]? = some (some (k, w)) → m = n

/-- Store into slot `n`, or append if there is no slot `n`. -/
def put (t : Table κ ν) (n : ℕ) (e : Option (κ × ν)) : Table κ ν :=
  if n < t.length then t.set n e else t ++ [e]

variable {t : Table κ ν} {n : ℕ} {key : κ} {v : ν}

theorem getElem?_put (hn : n ≤ t.length) (e : Option (κ × ν)) (m : ℕ) :
    (put t n e)[m]? = if m = n then some e else t[m]? := by
  unfold put
  split
  · next hlt =>
    rw [List.getElem?_set, if_pos hlt]
    simp only [eq_comm (a := n)]
  · obtain rfl : n = t.length := by omega
    rcases Nat.lt_trichotomy m t.length with hm | rfl | hm
    · rw [if_neg hm.ne, List.getElem?_append_left hm]
    · rw [if_pos rfl, List.getElem?_concat_length]
    · rw [if_neg hm.ne', List.getElem?_eq_none (by simp; omega), List.getElem?_eq_none hm.le]

/-- The first empty slot, or the one behind the last. -/
def emptySlot (t : Table κ ν) : ℕ := t.findIdx Option.isNone

theorem emptySlot_le (t : Table κ ν) : emptySlot t ≤ t.length := List.findIdx_le_length

theorem eq_none_of_getElem?_emptySlot {e : Option (κ × ν)} (h : t[emptySlot t]? = some e) :
    e = none := by
  obtain ⟨hlt, rfl⟩ := List.getElem?_eq_some_iff.mp h
  exact Option.isNone_iff_eq_none.mp (List.findIdx_getElem (w := hlt))

theorem emptySlot_lt (h : t[n]? = some none) : emptySlot t < t.length :=
  List.findIdx_lt_length.mpr ⟨none, List.mem_of_getElem? h, rfl⟩

variable [DecidableEq κ]

/-- The first slot with a key, from slot `n` on: the value and where it is. -/
def findFrom (key : κ) : Table κ ν → ℕ → Option (ν × ℕ)
  | [], _ => none
  | none :: t, n => findFrom key t (n + 1)
  | some (k, v) :: t, n => if k = key then some (v, n) else findFrom key t (n + 1)

/-- The value of a key. -/
def lookup (t : Table κ ν) (key : κ) : Option ν := (findFrom key t 0).map Prod.fst

theorem getElem?_of_findFrom {m : ℕ} (h : findFrom key t n = some (v, m)) :
    n ≤ m ∧ t[m - n]? = some (some (key, v)) := by
  induction t generalizing n with
  | nil => exact nomatch h
  | cons e t ih =>
    have hnext (h : findFrom key t (n + 1) = some (v, m)) :
        n ≤ m ∧ (e :: t)[m - n]? = some (some (key, v)) := by
      obtain ⟨hle, hget⟩ := ih h
      refine ⟨by omega, ?_⟩
      rwa [show m - n = m - (n + 1) + 1 by omega, List.getElem?_cons_succ]
    rcases e with _ | ⟨k, w⟩
    · exact hnext h
    · rw [findFrom] at h
      split at h
      · next hk =>
        obtain ⟨rfl, rfl⟩ := Prod.mk.inj (Option.some.inj h)
        rw [hk, Nat.sub_self]
        exact ⟨le_rfl, rfl⟩
      · exact hnext h

theorem findFrom_eq_none (h : findFrom key t n = none) (m : ℕ) (v : ν) :
    t[m]? ≠ some (some (key, v)) := by
  induction t generalizing n m with
  | nil => simp
  | cons e t ih =>
    rcases e with _ | ⟨k, w⟩
    · cases m with
      | zero => simp
      | succ m => exact ih h m
    · rw [findFrom] at h
      split at h
      · exact nomatch h
      · next hk =>
        cases m with
        | zero =>
          intro he
          exact hk (congrArg Prod.fst (Option.some.inj (Option.some.inj he)))
        | succ m => exact ih h m

theorem lookup_eq_none_iff :
    lookup t key = none ↔ ∀ (m : ℕ) (v : ν), t[m]? ≠ some (some (key, v)) := by
  rw [lookup, Option.map_eq_none_iff]
  refine ⟨fun h => findFrom_eq_none h, fun h => ?_⟩
  rcases hfind : findFrom key t 0 with _ | ⟨v, m⟩
  · rfl
  · exact absurd (getElem?_of_findFrom hfind).2 (h _ v)

/-- What `lookup` finds, of the slots of a table without duplicates. -/
theorem lookup_eq_some_iff (h : Distinct t) :
    lookup t key = some v ↔ ∃ m : ℕ, t[m]? = some (some (key, v)) := by
  constructor
  · intro hlook
    obtain ⟨⟨w, m⟩, hfind, rfl⟩ := Option.map_eq_some_iff.mp hlook
    exact ⟨_, (getElem?_of_findFrom hfind).2⟩
  · rintro ⟨m, hm⟩
    rcases hlook : lookup t key with _ | w
    · exact absurd hm (lookup_eq_none_iff.mp hlook m v)
    · obtain ⟨⟨w, n⟩, hfind, rfl⟩ := Option.map_eq_some_iff.mp hlook
      have hn := (getElem?_of_findFrom hfind).2
      rw [Nat.sub_zero] at hn
      obtain rfl := h _ _ _ _ _ hm hn
      rw [hm] at hn
      rw [(Prod.mk.inj (Option.some.inj (Option.some.inj hn))).2]

/-- Two tables without duplicates that have the same entries. -/
theorem lookup_eq_of_forall (h : Distinct t) {f : κ → Option ν}
    (hf : ∀ key v, f key = some v ↔ ∃ m : ℕ, t[m]? = some (some (key, v))) : lookup t = f := by
  funext key
  refine Option.ext fun v => ?_
  rw [lookup_eq_some_iff h, hf]

section Change

variable {t : Table κ ν} {n : ℕ} {key : κ} {v : ν} (h : Distinct t)

include h

/-- **A new key** goes into a slot that is empty, or behind the last slot. -/
theorem lookup_put (hn : n ≤ t.length) (hempty : ∀ e, t[n]? = some e → e = none)
    (hnew : lookup t key = none) :
    Distinct (put t n (some (key, v))) ∧
      lookup (put t n (some (key, v))) = Function.update (lookup t) key (some v) := by
  have hnot := lookup_eq_none_iff.mp hnew
  have hget := getElem?_put hn (some (key, v))
  have hdistinct : Distinct (put t n (some (key, v))) := by
    intro a b k x y ha hb
    rw [hget] at ha hb
    split at ha <;> split at hb
    · omega
    · obtain ⟨rfl, -⟩ := Prod.mk.inj (Option.some.inj (Option.some.inj ha))
      exact absurd hb (hnot b y)
    · obtain ⟨rfl, -⟩ := Prod.mk.inj (Option.some.inj (Option.some.inj hb))
      exact absurd ha (hnot a x)
    · exact h a b k x y ha hb
  refine ⟨hdistinct, lookup_eq_of_forall hdistinct fun k w => ?_⟩
  simp only [hget]
  rcases eq_or_ne k key with rfl | hne
  · rw [Function.update_self]
    constructor
    · intro hw
      exact ⟨n, by rw [if_pos rfl, Option.some.inj hw]⟩
    · rintro ⟨m, hm⟩
      split at hm
      · rw [(Prod.mk.inj (Option.some.inj (Option.some.inj hm))).2]
      · exact absurd hm (hnot m w)
  · rw [Function.update_of_ne hne, lookup_eq_some_iff h]
    refine exists_congr fun m => ?_
    split
    · next hm =>
      rw [hm]
      constructor
      · intro hold
        exact nomatch hempty _ hold
      · intro hk
        exact absurd (Prod.mk.inj (Option.some.inj (Option.some.inj hk))).1.symm hne
    · exact Iff.rfl

/-- **A key is removed** by emptying its slot. -/
theorem lookup_clear (hn : t[n]? = some (some (key, v))) :
    Distinct (put t n none) ∧ lookup (put t n none) = Function.update (lookup t) key none := by
  have hlt : n < t.length := (List.getElem?_eq_some_iff.mp hn).1
  have hget := getElem?_put hlt.le (none : Option (κ × ν))
  have hdistinct : Distinct (put t n (none : Option (κ × ν))) := by
    intro a b k x y ha hb
    rw [hget] at ha hb
    split at ha <;> split at hb
    · omega
    · exact nomatch Option.some.inj ha
    · exact nomatch Option.some.inj hb
    · exact h a b k x y ha hb
  refine ⟨hdistinct, lookup_eq_of_forall hdistinct fun k w => ?_⟩
  simp only [hget]
  rcases eq_or_ne k key with rfl | hne
  · rw [Function.update_self]
    constructor
    · exact nofun
    · rintro ⟨m, hm⟩
      split at hm
      · exact nomatch Option.some.inj hm
      · next hmn => exact absurd (h _ _ _ _ _ hm hn) hmn
  · rw [Function.update_of_ne hne, lookup_eq_some_iff h]
    refine exists_congr fun m => ?_
    split
    · next hm =>
      rw [hm, hn]
      constructor
      · intro hk
        exact absurd (Prod.mk.inj (Option.some.inj (Option.some.inj hk))).1.symm hne
      · intro hk
        exact nomatch Option.some.inj hk
    · exact Iff.rfl

end Change

end InuOs.Slots
