import Mathlib.Data.List.Nodup

/-!
# Singly linked queues

A queue that is a pointer to its first node and a `next` pointer in each node. Appending walks from
the first node to the last one; `Queue.push` and `Queue.pop` are the assignments that programs make.

`Queue.Holds` says which nodes the pointers go through. It is all that users of the queue need:
`Holds.push`, `Holds.pop`, `Holds.head`.
-/

namespace InuOs.Chain

universe u

variable {N : Type u}

/-- The pointers. -/
structure Queue (N : Type u) : Type u where
  head : Option N
  next : N → Option N

/-- The nodes of `l` follow each other from `p` on, and the last one is the end. -/
def Linked (next : N → Option N) : Option N → List N → Prop
  | p, [] => p = none
  | p, x :: l => p = some x ∧ Linked next (next x) l

/-- The queue goes through the nodes of `q`, each once. -/
structure Queue.Holds (Q : Queue N) (q : List N) : Prop where
  linked : Linked Q.next Q.head q
  nodup : q.Nodup

/-- Walk from node `x` to the last one, in at most `fuel` steps. -/
def lastNode (next : N → Option N) : ℕ → N → N
  | 0, x => x
  | fuel + 1, x =>
    match next x with
    | none => x
    | some y => lastNode next fuel y

/-- Put `b` at the end. -/
def Queue.push [DecidableEq N] (Q : Queue N) (fuel : ℕ) (b : N) : Queue N :=
  let next := Function.update Q.next b none
  match Q.head with
  | none => { head := some b, next := next }
  | some x => { Q with next := Function.update next (lastNode next fuel x) (some b) }

/-- Go on from the first node `b` to the one behind it. -/
def Queue.pop (Q : Queue N) (b : N) : Queue N := { Q with head := Q.next b }

variable {next next' : N → Option N} {p : Option N} {b x : N} {l q : List N} {Q : Queue N}

/-- Links depend on the pointers of their own nodes only. -/
theorem Linked.congr (h : Linked next p l) (heq : ∀ x ∈ l, next' x = next x) :
    Linked next' p l := by
  induction l generalizing p with
  | nil => exact h
  | cons x l ih =>
    refine ⟨h.1, ?_⟩
    rw [heq x List.mem_cons_self]
    exact ih h.2 fun y hy => heq y (List.mem_cons_of_mem x hy)

theorem lastNode_of_next_eq_none (h : next x = none) (fuel : ℕ) : lastNode next fuel x = x := by
  cases fuel with
  | zero => rfl
  | succ fuel => rw [lastNode, h]

/-- The walk ends at the last node. -/
theorem Linked.lastNode (h : Linked next (some x) (l ++ [b])) {fuel : ℕ} (hfuel : l.length ≤ fuel) :
    lastNode next fuel x = b := by
  induction l generalizing x fuel with
  | nil =>
    obtain ⟨hx, hend⟩ := h
    obtain rfl := Option.some.inj hx
    exact lastNode_of_next_eq_none hend fuel
  | cons y l ih =>
    obtain ⟨hx, hrest⟩ := h
    obtain rfl := Option.some.inj hx
    obtain ⟨z, hz⟩ : ∃ z, next x = some z := by
      cases l with
      | nil => exact ⟨b, hrest.1⟩
      | cons z l => exact ⟨z, hrest.1⟩
    obtain ⟨fuel, rfl⟩ : ∃ k, fuel = k + 1 := ⟨fuel - 1, by rw [List.length_cons] at hfuel; omega⟩
    rw [Chain.lastNode, hz]
    rw [List.length_cons] at hfuel
    rw [hz] at hrest
    exact ih hrest (by omega)

/-- A node behind the last one. -/
theorem Linked.append [DecidableEq N] (h : Linked next p (l ++ [x])) (hnd : (l ++ [x]).Nodup)
    (hb : next b = none) (hbx : b ≠ x) :
    Linked (Function.update next x (some b)) p (l ++ [x] ++ [b]) := by
  induction l generalizing p with
  | nil =>
    refine ⟨h.1, ?_⟩
    rw [Function.update_self]
    exact ⟨rfl, by rw [Function.update_of_ne hbx]; exact hb⟩
  | cons y l ih =>
    rw [List.cons_append, List.nodup_cons] at hnd
    have hyx : y ≠ x := fun e => hnd.1 (e ▸ List.mem_append_right l List.mem_cons_self)
    refine ⟨h.1, ?_⟩
    rw [Function.update_of_ne hyx]
    exact ih h.2 hnd.2

theorem Queue.Holds.head (h : Q.Holds q) : Q.head = q.head? := by
  cases q with
  | nil => exact h.linked
  | cons x l => exact h.linked.1

/-- **Appending.** A node that is not in the queue comes last. -/
theorem Queue.Holds.push [DecidableEq N] (h : Q.Holds q) (hb : b ∉ q) {fuel : ℕ}
    (hfuel : q.length ≤ fuel) : (Q.push fuel b).Holds (q ++ [b]) := by
  refine ⟨?_, List.nodup_append.mpr ⟨h.nodup, List.nodup_singleton b, ?_⟩⟩
  · rcases List.eq_nil_or_concat q with rfl | ⟨l, x, hq⟩
    · have hhead : Q.head = none := h.linked
      rw [Queue.push, hhead]
      refine ⟨rfl, ?_⟩
      exact Function.update_self b none Q.next
    · rw [List.concat_eq_append] at hq
      subst hq
      obtain ⟨y, hy⟩ : ∃ y, Q.head = some y := by
        rw [h.head]
        cases l with
        | nil => exact ⟨x, rfl⟩
        | cons y l => exact ⟨y, rfl⟩
      have hlinked : Linked (Function.update Q.next b none) (some y) (l ++ [x]) := by
        rw [← hy]
        refine h.linked.congr fun z hz => Function.update_of_ne ?_ _ _
        rintro rfl
        exact hb hz
      have hlast : Chain.lastNode (Function.update Q.next b none) fuel y = x := by
        refine hlinked.lastNode ?_
        rw [List.length_append] at hfuel
        omega
      rw [Queue.push, hy]
      dsimp only
      rw [hlast]
      refine hlinked.append h.nodup (Function.update_self b none Q.next) ?_
      rintro rfl
      exact hb (List.mem_append_right l List.mem_cons_self)
  · intro x hx y hy hxy
    rw [List.mem_singleton] at hy
    exact hb (hy ▸ hxy ▸ hx)

/-- **Removal** of the first node. -/
theorem Queue.Holds.pop (h : Q.Holds (b :: q)) : (Q.pop b).Holds q :=
  ⟨h.linked.2, h.nodup.of_cons⟩

end InuOs.Chain
