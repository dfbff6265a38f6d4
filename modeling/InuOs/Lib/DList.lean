import Mathlib.Data.List.Perm.Basic

/-!
# Circular doubly linked lists

A list with a head node that is linked in both directions, as kernels keep them: every node has a
`next` and a `prev`, and the head closes the circle. `Segment` follows the links from one node to
another; `Circular` is a segment from the head to itself without repetitions.

Insertion at the front and removal are given as the assignments that programs make, in their order.
-/

namespace InuOs.DList

universe u

variable {N : Type u}

/-- The links of all nodes. -/
structure Links (N : Type u) : Type u where
  next : N → N
  prev : N → N

/-- The nodes of `l` lie between `a` and `b`, seen from both sides. -/
def Segment (L : Links N) : N → List N → N → Prop
  | a, [], b => L.next a = b ∧ L.prev b = a
  | a, x :: l, b => (L.next a = x ∧ L.prev x = a) ∧ Segment L x l b

/-- A circular list: the nodes of `l`, each once, and the head. -/
structure Circular (L : Links N) (head : N) (l : List N) : Prop where
  segment : Segment L head l head
  nodup : (head :: l).Nodup

variable {L L' : Links N} {a b x head : N} {l l₁ l₂ : List N}

theorem segment_append : Segment L a (l₁ ++ x :: l₂) b ↔ Segment L a l₁ x ∧ Segment L x l₂ b := by
  induction l₁ generalizing a with
  | nil => exact Iff.rfl
  | cons y l₁ ih =>
    rw [List.cons_append, Segment, Segment, ih, and_assoc, and_assoc, and_assoc]

/-- A segment depends on the links of its own nodes only. -/
theorem Segment.congr (h : Segment L a l b) (hnext : ∀ x ∈ a :: l, L'.next x = L.next x)
    (hprev : ∀ x ∈ l ++ [b], L'.prev x = L.prev x) : Segment L' a l b := by
  induction l generalizing a with
  | nil =>
    obtain ⟨h₁, h₂⟩ := h
    exact ⟨(hnext a List.mem_cons_self).trans h₁, (hprev b List.mem_cons_self).trans h₂⟩
  | cons y l ih =>
    obtain ⟨⟨h₁, h₂⟩, h⟩ := h
    refine ⟨⟨(hnext a List.mem_cons_self).trans h₁, (hprev y List.mem_cons_self).trans h₂⟩, ?_⟩
    exact ih h (fun x hx => hnext x (List.mem_cons_of_mem a hx))
      fun x hx => hprev x (List.mem_cons_of_mem y hx)

theorem Segment.next_mem (h : Segment L a l b) : L.next a ∈ l ++ [b] := by
  cases l with
  | nil => rw [h.1]; exact List.mem_cons_self
  | cons x l => rw [h.1.1]; exact List.mem_cons_self

/-- The same links, read backwards. -/
def Links.mirror (L : Links N) : Links N := ⟨L.prev, L.next⟩

theorem Segment.mirror (h : Segment L a l b) : Segment L.mirror b l.reverse a := by
  induction l generalizing a with
  | nil => exact ⟨h.2, h.1⟩
  | cons x l ih =>
    obtain ⟨⟨h₁, h₂⟩, h⟩ := h
    rw [List.reverse_cons]
    exact segment_append.mpr ⟨ih h, h₂, h₁⟩

theorem Segment.prev_mem (h : Segment L a l b) : L.prev b ∈ a :: l := by
  have hmem : L.prev b ∈ l.reverse ++ [a] := h.mirror.next_mem
  simpa [or_comm] using hmem

/-! ## Following the links -/

variable [DecidableEq N]

/-- Look for the first node that satisfies `p`, in at most `k` steps from `b`. -/
def walk (step : N → N) (head : N) (p : N → Bool) : ℕ → N → Option N
  | 0, _ => none
  | k + 1, b => if b = head then none else if p b then some b else walk step head p k (step b)

theorem walk_next (h : Segment L a l head) (hhead : head ∉ l) (p : N → Bool) {k : ℕ}
    (hk : l.length < k) : walk L.next head p k (L.next a) = l.find? p := by
  induction l generalizing a k with
  | nil =>
    obtain ⟨k, rfl⟩ := Nat.exists_eq_succ_of_ne_zero (Nat.ne_zero_of_lt hk)
    rw [h.1, walk, if_pos rfl]
    rfl
  | cons x l ih =>
    obtain ⟨⟨h₁, -⟩, h⟩ := h
    obtain ⟨k, rfl⟩ := Nat.exists_eq_succ_of_ne_zero (Nat.ne_zero_of_lt hk)
    have hx : x ≠ head := fun heq => hhead (heq ▸ List.mem_cons_self)
    rw [h₁, walk, if_neg hx, List.find?_cons]
    split
    · next hp => rw [hp]
    · next hp =>
      rw [ih h (fun hmem => hhead (List.mem_cons_of_mem x hmem)) (Nat.lt_of_succ_lt_succ hk)]
      simp [hp]

theorem walk_prev (h : Segment L head l b) (hhead : head ∉ l) (p : N → Bool) {k : ℕ}
    (hk : l.length < k) : walk L.prev head p k (L.prev b) = l.reverse.find? p := by
  have hmirror := h.mirror
  rw [← List.length_reverse] at hk
  exact walk_next hmirror (fun hmem => hhead (List.mem_reverse.mp hmem)) p hk

/-! ## Insertion and removal -/

/-- `b->next = head.next; b->prev = &head; head.next->prev = b; head.next = b`. -/
def insertFront (L : Links N) (head b : N) : Links N :=
  let next₁ := Function.update L.next b (L.next head)
  let prev₁ := Function.update L.prev b head
  let prev₂ := Function.update prev₁ (next₁ head) b
  let next₂ := Function.update next₁ head b
  ⟨next₂, prev₂⟩

/-- `b->next->prev = b->prev; b->prev->next = b->next`. -/
def unlink (L : Links N) (b : N) : Links N :=
  let prev₁ := Function.update L.prev (L.next b) (L.prev b)
  let next₁ := Function.update L.next (prev₁ b) (L.next b)
  ⟨next₁, prev₁⟩

theorem insertFront_next (L : Links N) {head b : N} (h : b ≠ head) :
    (insertFront L head b).next head = b ∧ (insertFront L head b).next b = L.next head ∧
      ∀ y, y ≠ head → y ≠ b → (insertFront L head b).next y = L.next y := by
  refine ⟨Function.update_self .., ?_, fun y hy hyb => ?_⟩
  · exact (Function.update_of_ne h ..).trans (Function.update_self ..)
  · exact (Function.update_of_ne hy ..).trans (Function.update_of_ne hyb ..)

theorem insertFront_prev (L : Links N) {head b : N} (h : b ≠ head) (hfirst : L.next head ≠ b) :
    (insertFront L head b).prev b = head ∧ (insertFront L head b).prev (L.next head) = b ∧
      ∀ y, y ≠ L.next head → y ≠ b → (insertFront L head b).prev y = L.prev y := by
  have hnext : Function.update L.next b (L.next head) head = L.next head :=
    Function.update_of_ne h.symm ..
  unfold insertFront
  dsimp only
  rw [hnext]
  refine ⟨?_, Function.update_self .., fun y hy hyb => ?_⟩
  · exact (Function.update_of_ne hfirst.symm ..).trans (Function.update_self ..)
  · exact (Function.update_of_ne hy ..).trans (Function.update_of_ne hyb ..)

theorem Circular.insertFront (h : Circular L head l) (hb : b ∉ head :: l) :
    Circular (insertFront L head b) head (b :: l) := by
  obtain ⟨hseg, hnodup⟩ := h
  obtain ⟨hhead, hl⟩ := List.nodup_cons.mp hnodup
  have hbhead : b ≠ head := fun heq => hb (heq ▸ List.mem_cons_self)
  have hbl : b ∉ l := fun hmem => hb (List.mem_cons_of_mem head hmem)
  have hfirst : L.next head ∈ head :: l := by
    simpa [or_comm] using hseg.next_mem
  obtain ⟨hnext, hnextb, hnexts⟩ := insertFront_next L hbhead
  obtain ⟨hprevb, hprev, hprevs⟩ := insertFront_prev L hbhead fun heq => hb (heq ▸ hfirst)
  refine ⟨⟨⟨hnext, hprevb⟩, ?_⟩, ?_⟩
  · cases l with
    | nil =>
      rw [hseg.1] at hnextb hprev
      exact ⟨hnextb, hprev⟩
    | cons x l =>
      obtain ⟨⟨hx, -⟩, hseg⟩ := hseg
      rw [hx] at hnextb hprev hprevs
      refine ⟨⟨hnextb, hprev⟩, hseg.congr (fun y hy => hnexts y ?_ ?_) fun y hy => hprevs y ?_ ?_⟩
      · rintro rfl
        exact hhead hy
      · rintro rfl
        exact hbl hy
      · rintro rfl
        rcases List.mem_append.mp hy with hmem | hmem
        · exact (List.nodup_cons.mp hl).1 hmem
        · obtain rfl := List.mem_singleton.mp hmem
          exact hhead List.mem_cons_self
      · rintro rfl
        rcases List.mem_append.mp hy with hmem | hmem
        · exact hbl (List.mem_cons_of_mem x hmem)
        · exact hbhead (List.mem_singleton.mp hmem)
  · refine List.nodup_cons.mpr ⟨fun hmem => ?_, List.nodup_cons.mpr ⟨hbl, hl⟩⟩
    rcases List.mem_cons.mp hmem with heq | hmem
    · exact hbhead heq.symm
    · exact hhead hmem

omit [DecidableEq N] in
/-- Two segments that end and begin at `b` become one when `b` is taken out. -/
theorem Segment.join (h₁ : Segment L a l₁ x) (h₂ : Segment L x l₂ b)
    (hnext : L'.next (L.prev x) = L.next x) (hprev : L'.prev (L.next x) = L.prev x)
    (hnexts : ∀ y ∈ a :: l₁ ++ l₂, y ≠ L.prev x → L'.next y = L.next y)
    (hprevs : ∀ y ∈ l₁ ++ l₂ ++ [b], y ≠ L.next x → L'.prev y = L.prev y)
    (hnodup₁ : (a :: (l₁ ++ l₂)).Nodup) (hnodup₂ : (l₁ ++ l₂ ++ [b]).Nodup) :
    Segment L' a (l₁ ++ l₂) b := by
  induction l₁ generalizing a with
  | nil =>
    obtain ⟨-, hpx⟩ := h₁
    rw [hpx] at hnext hprev hnexts
    cases l₂ with
    | nil =>
      rw [h₂.1] at hnext hprev
      exact ⟨hnext, hprev⟩
    | cons y l₂ =>
      obtain ⟨⟨hy, -⟩, h₂⟩ := h₂
      rw [hy] at hnext hprev hprevs
      refine ⟨⟨hnext, hprev⟩, h₂.congr (fun z hz => hnexts z ?_ ?_) fun z hz => hprevs z ?_ ?_⟩
      · exact List.mem_cons_of_mem a hz
      · rintro rfl
        exact (List.nodup_cons.mp hnodup₁).1 hz
      · exact List.mem_cons_of_mem y hz
      · rintro rfl
        exact (List.nodup_cons.mp hnodup₂).1 hz
  | cons y l₁ ih =>
    obtain ⟨⟨hy₁, hy₂⟩, h₁⟩ := h₁
    obtain ⟨ha, hnodup₁⟩ := List.nodup_cons.mp hnodup₁
    obtain ⟨hy, hnodup₂⟩ := List.nodup_cons.mp hnodup₂
    have hlast := h₁.prev_mem
    have hfirst := h₂.next_mem
    refine ⟨⟨(hnexts a List.mem_cons_self ?_).trans hy₁,
      (hprevs y List.mem_cons_self ?_).trans hy₂⟩,
      ih h₁ (fun z hz => hnexts z (List.mem_cons_of_mem a hz))
        (fun z hz => hprevs z (List.mem_cons_of_mem y hz)) hnodup₁ hnodup₂⟩
    · rintro rfl
      exact ha (List.mem_append_left l₂ hlast)
    · rintro rfl
      rcases List.mem_append.mp hfirst with hmem | hmem
      · exact hy (List.mem_append_left [b] (List.mem_append_right l₁ hmem))
      · exact hy (List.mem_append_right (l₁ ++ l₂) hmem)

/-- The links behind `unlink`. -/
theorem unlink_links (L : Links N) {b : N} (h : L.next b ≠ b) :
    (unlink L b).next (L.prev b) = L.next b ∧ (unlink L b).prev (L.next b) = L.prev b ∧
      (∀ y ≠ L.prev b, (unlink L b).next y = L.next y) ∧
      ∀ y ≠ L.next b, (unlink L b).prev y = L.prev y := by
  have hprev : Function.update L.prev (L.next b) (L.prev b) b = L.prev b :=
    Function.update_of_ne h.symm ..
  unfold unlink
  dsimp only
  rw [hprev]
  exact ⟨Function.update_self .., Function.update_self .., fun y hy => Function.update_of_ne hy ..,
    fun y hy => Function.update_of_ne hy ..⟩

theorem Circular.unlink (h : Circular L head (l₁ ++ b :: l₂)) :
    Circular (unlink L b) head (l₁ ++ l₂) := by
  obtain ⟨hseg, hnodup⟩ := h
  obtain ⟨h₁, h₂⟩ := segment_append.mp hseg
  have hperm : (head :: (l₁ ++ b :: l₂)).Perm (b :: head :: (l₁ ++ l₂)) :=
    (List.perm_middle.cons head).trans (List.Perm.swap b head _)
  obtain ⟨hb, hrest⟩ := List.nodup_cons.mp (hperm.nodup_iff.mp hnodup)
  have hrest' : (l₁ ++ l₂ ++ [head]).Nodup := by
    have hswap : (head :: (l₁ ++ l₂)).Perm (l₁ ++ l₂ ++ [head]) :=
      (List.perm_append_singleton _ _).symm
    exact hswap.nodup_iff.mp hrest
  have hself : L.next b ≠ b := by
    intro heq
    have hmem := h₂.next_mem
    rw [heq] at hmem
    refine hb ?_
    rcases List.mem_append.mp hmem with hmem | hmem
    · exact List.mem_cons_of_mem head (List.mem_append_right l₁ hmem)
    · rw [List.mem_singleton.mp hmem]
      exact List.mem_cons_self
  obtain ⟨hnext, hprev, hnexts, hprevs⟩ := unlink_links L hself
  exact ⟨h₁.join h₂ hnext hprev (fun y _ => hnexts y) (fun y _ => hprevs y) hrest hrest', hrest⟩

end InuOs.DList
