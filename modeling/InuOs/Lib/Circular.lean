import Mathlib.Data.List.Cycle
import Mathlib.Data.List.Iterate

/-!
# Circular linked lists

`Ring next l` says that the nodes of `l` follow each other by `next` and that the first one follows
the last, as a `Cycle.Chain`: where the list starts does not matter.

* The two assignments that programs make are `Ring.insert` and `Ring.unlink`, each at a node in the
  middle of the list.
* `search next stop` is the loop `for(p = a; !stop(p); p = p->next)`, and `Ring.search_eq` says that
  it finds the only node of the ring where it stops.
* `Ring.iterate` is what a walk around the ring visits.
-/

namespace InuOs.Circular

variable {α : Type*} {next next' : α → α} {a b p q x : α} {l l' m xs ys : List α}

/-- The nodes follow each other. -/
abbrev Path (next : α → α) (l : List α) : Prop := l.IsChain fun x y => next x = y

/-- The nodes follow each other, and the first one follows the last. -/
def Ring (next : α → α) (l : List α) : Prop := Cycle.Chain (fun x y => next x = y) (l : Cycle α)

theorem path_cons : Path next (x :: (l ++ [p])) ↔ next x = l.headD p ∧ Path next (l ++ [p]) := by
  cases l with
  | nil => simp
  | cons y l => exact List.isChain_cons_cons

/-- A path depends on the pointers of its nodes up to the last one only. -/
theorem Path.congr (h : Path next (l ++ [p])) (heq : ∀ x ∈ l, next' x = next x) :
    Path next' (l ++ [p]) := by
  induction l with
  | nil => exact List.isChain_singleton p
  | cons x l ih =>
    obtain ⟨hx, hl⟩ := path_cons.mp h
    obtain ⟨heqx, heql⟩ := List.forall_mem_cons.mp heq
    exact path_cons.mpr ⟨heqx.trans hx, ih hl heql⟩

theorem Path.next_mem (h : Path next (x :: (l ++ [p]))) (ha : a ∈ x :: l) : next a ∈ l ++ [p] := by
  induction l generalizing x with
  | nil =>
    obtain rfl := List.mem_singleton.mp ha
    exact List.mem_singleton.mpr (path_cons.mp h).1
  | cons y l ih =>
    obtain ⟨hx, hl⟩ := path_cons.mp h
    rcases List.mem_cons.mp ha with rfl | ha
    · rw [hx]
      exact List.mem_cons_self
    · exact List.mem_cons_of_mem _ (ih hl ha)

theorem Path.iterate (h : Path next (a :: (l ++ [b]))) :
    List.iterate next a (l.length + 1) = a :: l ∧ next^[l.length + 1] a = b := by
  induction l generalizing a with
  | nil => exact ⟨rfl, (path_cons.mp h).1⟩
  | cons y l ih =>
    obtain ⟨rfl, hl⟩ := path_cons.mp h
    obtain ⟨hlist, hend⟩ := ih hl
    exact ⟨congrArg (a :: ·) hlist, hend⟩

/-! ## Rings -/

theorem ring_cons : Ring next (p :: l) ↔ next p = l.headD p ∧ Path next (l ++ [p]) :=
  Iff.trans (Cycle.chain_coe_cons _ p l) path_cons

theorem Ring.rotate (h : Ring next l) (hl : l ~r l') : Ring next l' := by
  rw [Ring, ← Cycle.coe_eq_coe.mpr hl]
  exact h

theorem isRotated_middle (xs ys : List α) (p : α) : (xs ++ p :: ys) ~r (p :: (ys ++ xs)) :=
  List.isRotated_append

theorem Ring.congr (h : Ring next l) (heq : ∀ x ∈ l, next' x = next x) : Ring next' l := by
  cases l with
  | nil => exact h
  | cons p l =>
    obtain ⟨heqp, heql⟩ := List.forall_mem_cons.mp heq
    obtain ⟨hp, hl⟩ := ring_cons.mp h
    exact ring_cons.mpr ⟨heqp.trans hp, hl.congr heql⟩

/-- The node behind a node in the middle. -/
theorem Ring.next_middle (h : Ring next (xs ++ p :: ys)) : next p = (ys ++ xs).headD p :=
  (ring_cons.mp (h.rotate (isRotated_middle ..))).1

theorem Ring.next_mem (h : Ring next l) (hx : x ∈ l) : next x ∈ l := by
  cases l with
  | nil => exact nomatch hx
  | cons p l =>
    have hmem := Path.next_mem ((Cycle.chain_coe_cons _ p l).mp h) hx
    rw [List.mem_append, List.mem_singleton] at hmem
    exact List.mem_cons.mpr hmem.symm

/-- A walk around the ring from any of its nodes. -/
theorem Ring.exists_round (h : Ring next l) (ha : a ∈ l) :
    ∃ m, Path next (a :: (m ++ [a])) ∧ l ~r (a :: m) := by
  obtain ⟨xs, ys, rfl⟩ := List.append_of_mem ha
  have hrot := isRotated_middle xs ys a
  exact ⟨ys ++ xs, (Cycle.chain_coe_cons _ a _).mp (h.rotate hrot), hrot⟩

/-- What a walk around the ring visits. -/
theorem Ring.iterate (h : Ring next l) (ha : a ∈ l) :
    List.iterate next a l.length ~r l ∧ next^[l.length] a = a := by
  obtain ⟨m, hpath, hrot⟩ := h.exists_round ha
  obtain ⟨hlist, hend⟩ := Path.iterate hpath
  rw [hrot.perm.length_eq, List.length_cons, hlist]
  exact ⟨hrot.symm, hend⟩

/-- Only one node points to a given one. -/
theorem Ring.eq_of_next_eq (h : Ring next (xs ++ p :: q :: ys))
    (hnodup : (xs ++ p :: q :: ys).Nodup)
    (hx : x ∈ xs ++ p :: q :: ys) (hnext : next x = q) : x = p := by
  have hrot : (xs ++ p :: q :: ys) ~r (p :: q :: (ys ++ xs)) := isRotated_middle ..
  have hpath := (ring_cons.mp (h.rotate hrot)).2
  rcases List.mem_cons.mp (hrot.mem_iff.mp hx) with rfl | hx
  · rfl
  · have hmem := Path.next_mem hpath hx
    have hq : q ∉ ys ++ xs ++ [p] := by
      have := hrot.nodup_iff.mp hnodup
      simp only [List.nodup_cons, List.mem_cons, not_or, List.mem_append] at this ⊢
      tauto
    exact absurd (hnext ▸ hmem) hq

section Update

variable [DecidableEq α]

/-- `b->next = p->next; p->next = b` -/
theorem Ring.insert (h : Ring next (xs ++ p :: ys)) (hnodup : (xs ++ p :: ys).Nodup)
    (hb : b ∉ xs ++ p :: ys) :
    Ring (Function.update (Function.update next b (next p)) p b) (xs ++ p :: b :: ys) := by
  have hrot := isRotated_middle xs ys p
  obtain ⟨hp, hpath⟩ := ring_cons.mp (h.rotate hrot)
  have hpb : b ∉ p :: (ys ++ xs) := fun hmem => hb (hrot.mem_iff.mpr hmem)
  have hpnot := (List.nodup_cons.mp (hrot.nodup_iff.mp hnodup)).1
  rw [List.mem_cons, not_or] at hpb
  refine Ring.rotate (l := p :: b :: (ys ++ xs)) ?_ (isRotated_middle xs (b :: ys) p).symm
  refine ring_cons.mpr ⟨Function.update_self .., path_cons.mpr ⟨?_, hpath.congr ?_⟩⟩
  · rw [Function.update_of_ne hpb.1, Function.update_self, hp]
  · intro x hx
    rw [Function.update_of_ne (ne_of_mem_of_not_mem hx hpnot),
      Function.update_of_ne (ne_of_mem_of_not_mem hx hpb.2)]

/-- `p->next = q->next`, where `q` is the node behind `p` -/
theorem Ring.unlink (h : Ring next (xs ++ p :: q :: ys)) (hnodup : (xs ++ p :: q :: ys).Nodup) :
    Ring (Function.update next p (next q)) (xs ++ p :: ys) := by
  have hrot : (xs ++ p :: q :: ys) ~r (p :: q :: (ys ++ xs)) := isRotated_middle ..
  obtain ⟨-, hpath⟩ := ring_cons.mp (h.rotate hrot)
  obtain ⟨hq, hpath⟩ := path_cons.mp hpath
  have hpnot := (List.nodup_cons.mp (hrot.nodup_iff.mp hnodup)).1
  rw [List.mem_cons, not_or] at hpnot
  refine Ring.rotate (l := p :: (ys ++ xs)) ?_ (isRotated_middle ..).symm
  refine ring_cons.mpr ⟨(Function.update_self ..).trans hq, hpath.congr fun x hx => ?_⟩
  exact Function.update_of_ne (ne_of_mem_of_not_mem hx hpnot.2) _ _

end Update

/-! ## Sorted rings -/

section Sorted

variable [LinearOrder α]

/-- In a ring that is sorted from its first node on, a node points to the next greater one, or is
the greatest and points to the first. -/
theorem Ring.next_sorted (h : Ring next (a :: l)) (hsorted : (a :: l).Pairwise (· < ·))
    (hx : x ∈ a :: l) :
    (x < next x ∧ ∀ y ∈ a :: l, y ≤ x ∨ next x ≤ y) ∨ (next x = a ∧ ∀ y ∈ a :: l, y ≤ x) := by
  obtain ⟨xs, ys, hl⟩ := List.append_of_mem hx
  rw [hl] at h hsorted ⊢
  obtain ⟨-, hright, hcross⟩ := List.pairwise_append.mp hsorted
  have hbelow : ∀ y ∈ xs, y ≤ x := fun y hy => (hcross y hy x List.mem_cons_self).le
  cases ys with
  | nil =>
    refine .inr ⟨?_, ?_⟩
    · rw [h.next_middle]
      cases xs with
      | nil => exact (List.cons.inj hl).1.symm
      | cons b xs => exact (List.cons.inj hl).1.symm
    · exact List.forall_mem_append.mpr ⟨hbelow, by simp⟩
  | cons c ys =>
    have hnext : next x = c := h.next_middle
    obtain ⟨hxc, hcys⟩ := List.pairwise_cons.mp hright
    have habove : ∀ y ∈ c :: ys, c ≤ y :=
      List.forall_mem_cons.mpr ⟨le_rfl, fun y hy => (List.rel_of_pairwise_cons hcys hy).le⟩
    rw [hnext]
    refine .inl ⟨hxc c List.mem_cons_self, List.forall_mem_append.mpr ⟨?_, ?_⟩⟩
    · exact fun y hy => .inl (hbelow y hy)
    · exact List.forall_mem_cons.mpr ⟨.inl le_rfl, fun y hy => .inr (habove y hy)⟩

/-- Where a greater value belongs in a sorted ring: the node in front of the place is below it and
has it below its own successor, or is the last node. -/
theorem Ring.place_iff (h : Ring next (a :: l)) (hsorted : (a :: l).Pairwise (· < ·)) (hab : a < b)
    (hp : p ∈ a :: l) (hpb : p < b) (hplace : ∀ y ∈ a :: l, y ≤ p ∨ b < y) (hx : x ∈ a :: l) :
    (x < b ∧ b < next x ∨ next x ≤ x ∧ (x < b ∨ b < next x)) ↔ x = p := by
  have hfirst : a ≤ x := by
    rcases List.mem_cons.mp hx with rfl | hx
    · exact le_rfl
    · exact (List.rel_of_pairwise_cons hsorted hx).le
  rcases h.next_sorted hsorted hx with ⟨hlt, hnext⟩ | ⟨hnext, hlast⟩
  · constructor
    · rintro (⟨hxb, hbx⟩ | ⟨hle, -⟩)
      · have hpx : p ≤ x := (hnext p hp).resolve_right (not_le.mpr (hpb.trans hbx))
        exact le_antisymm ((hplace x hx).resolve_right (not_lt.mpr hxb.le)) hpx
      · exact absurd hlt (not_lt.mpr hle)
    · rintro rfl
      exact .inl ⟨hpb, (hplace _ (h.next_mem hx)).resolve_left (not_le.mpr hlt)⟩
  · constructor
    · intro hstop
      have hxb : x < b := by
        rcases hstop with ⟨hxb, -⟩ | ⟨-, hxb | hba⟩
        · exact hxb
        · exact hxb
        · exact absurd hba (not_lt.mpr (hnext ▸ hab.le))
      exact le_antisymm ((hplace x hx).resolve_right (not_lt.mpr hxb.le)) (hlast p hp)
    · rintro rfl
      exact .inr ⟨hnext ▸ hfirst, .inl hpb⟩

end Sorted

/-! ## Searching -/

/-- `for(p = a; !stop(p); p = p->next)`, in at most the given number of steps. -/
def search (next : α → α) (stop : α → Bool) : ℕ → α → Option α
  | 0, _ => none
  | n + 1, a => if stop a then some a else search next stop n (next a)

theorem Path.search_eq {stop : α → Bool} (h : Path next (a :: (l ++ [p]))) (hb : b ∈ a :: l)
    (hstop : ∀ x ∈ a :: l, stop x = true ↔ x = b) {n : ℕ} (hn : l.length < n) :
    search next stop n a = some b := by
  induction l generalizing a n with
  | nil =>
    obtain ⟨n, rfl⟩ := Nat.exists_eq_succ_of_ne_zero (Nat.ne_zero_of_lt hn)
    obtain rfl := List.mem_singleton.mp hb
    rw [search, if_pos ((hstop b List.mem_cons_self).mpr rfl)]
  | cons y l ih =>
    obtain ⟨n, rfl⟩ := Nat.exists_eq_succ_of_ne_zero (Nat.ne_zero_of_lt hn)
    obtain ⟨rfl, hl⟩ := path_cons.mp h
    rw [search]
    by_cases hab : a = b
    · rw [if_pos ((hstop a List.mem_cons_self).mpr hab), hab]
    · rw [if_neg fun ha => hab ((hstop a List.mem_cons_self).mp ha)]
      exact ih hl ((List.mem_cons.mp hb).resolve_left (Ne.symm hab))
        (fun x hx => hstop x (List.mem_cons_of_mem _ hx)) (Nat.lt_of_succ_lt_succ hn)

/-- The search finds the only node of the ring where it stops. -/
theorem Ring.search_eq {stop : α → Bool} (h : Ring next l) (ha : a ∈ l) (hb : b ∈ l)
    (hstop : ∀ x ∈ l, stop x = true ↔ x = b) {n : ℕ} (hn : l.length ≤ n) :
    search next stop n a = some b := by
  obtain ⟨m, hpath, hrot⟩ := h.exists_round ha
  rw [hrot.perm.length_eq] at hn
  exact Path.search_eq hpath (hrot.mem_iff.mp hb) (fun x hx => hstop x (hrot.mem_iff.mpr hx)) hn

end InuOs.Circular
