import InuOs.I8254Buffers

/-!
# The receive ring (`i8254.c`)

The card fills descriptors from `RDH` on; the loop of `i8254_recv` takes them from `RDT` on. `RDT`
is the loop's cursor and the card's limit at once, so the loop cannot leave the two registers equal:
it steps `RDT` back when they are, and so hands itself the descriptor again that it has just taken.

`i8254_init_recv` sets `RDT` to 256. The first time the loop finds the registers apart modulo 256 it
takes the buffer of descriptor 256, past the end of the ring, in place of the first one that was
filled. Until then it takes nothing (`Idle`). So what the ring is for it does only in runs in which
no frame arrives; and a card that compares the registers modulo 256 before it fills lets none
arrive.
-/

namespace InuOs

open Run

/-! ## The loop and the card -/

/-- `rx_available` in `i8254_recv`. -/
def RxRing.rxAvailable (r : RxRing) : UInt32 :=
  (i8254RecvDescNum - r.rdt + r.rdh) % i8254RecvDescNum

/-- The ring with what went in and what came out. -/
structure RxSys : Type where
  ring : RxRing
  /-- the loop is between its two `if`s -/
  checking : Bool
  /-- `RDH` has come to `RDT` modulo 256, and `RDT` was not written since -/
  reached : Bool
  /-- the descriptors that the card has filled -/
  filled : List ℕ
  /-- the indices of the descriptors whose buffers went to `eth_proc` -/
  taken : List ℕ
  /-- the values that the loop has written to `RDT` -/
  tails : List UInt32

/-- A step of the card or of the driver. -/
inductive RxEv : Type where
  /-- the card fills the descriptor at the head -/
  | fill
  /-- the loop of `i8254_recv` executes one of its two `if`s -/
  | driver
  deriving DecidableEq, Repr

namespace RxSys

/-- The state `i8254_init_recv` leaves. -/
def boot (pages : List UInt32) (junk : ℕ → UInt32) : RxSys where
  ring := i8254InitRecv pages junk
  checking := false
  reached := false
  filled := []
  taken := []
  tails := []

/-- `*rdt = t`. -/
def setRdt (s : RxSys) (t : UInt32) : RxSys :=
  { s with ring := { s.ring with rdt := t }, reached := false, tails := s.tails ++ [t] }

/-- The first `if` of the loop. -/
def receive (s : RxSys) : RxSys :=
  if s.ring.rxAvailable > 0 then
    { s with taken := s.taken ++ [s.ring.rdt.toNat] }.setRdt ((s.ring.rdt + 1) % i8254RecvDescNum)
  else s

/-- The second `if` of the loop. -/
def stepBack (s : RxSys) : RxSys :=
  if s.ring.rdt = s.ring.rdh then s.setRdt (s.ring.rdt - 1) else s

/-- The card puts a frame in the buffer at the head. -/
def fill (s : RxSys) : RxSys :=
  let rdh := (s.ring.rdh + 1) % i8254RecvDescNum
  { s with
    ring := { s.ring with rdh := rdh }
    reached := rdh = s.ring.rdt % i8254RecvDescNum
    filled := s.filled ++ [s.ring.rdh.toNat] }

/-- One step. `card` is how the card tells that it may fill a descriptor. -/
def step (card : RxSys → Bool) (s : RxSys) : RxEv → Option RxSys
  | .fill => if card s then some s.fill else none
  | .driver =>
    if s.checking then some { s.stepBack with checking := false }
    else some { s.receive with checking := true }

/-- A card that stops when `RDH` reaches `RDT` modulo 256. -/
def reaching (s : RxSys) : Bool := !s.reached

/-- A card that stops as long as the two registers are equal modulo 256. -/
def residues (s : RxSys) : Bool := s.ring.rdh % i8254RecvDescNum ≠ s.ring.rdt % i8254RecvDescNum

/-- No index or tail is out of range, and the loop takes filled descriptors, each once and in
order. -/
structure Exact (s : RxSys) : Prop where
  index : ∀ i ∈ s.taken, i < 256
  tail : ∀ t ∈ s.tails, t.toNat < 256
  once : s.taken <+: s.filled

/-- The loop, left to itself, comes to have taken all that was filled, and all of it rightly. -/
def Delivers (card : RxSys → Bool) (s : RxSys) : Prop :=
  ∃ n s', exec (step card) s (List.replicate n .driver) = some s' ∧ s'.Exact ∧ s'.taken = s'.filled

/-- Whenever the loop looks at the registers in its first `if`, a multiple of 256 frames has
arrived; `fills` have, and `checking` tells which `if` is next. -/
def Unseen (fills : ℕ) (checking : Bool) : List RxEv → Prop
  | [] => True
  | .fill :: es => Unseen (fills + 1) checking es
  | .driver :: es => (checking = false → fills % 256 = 0) ∧ Unseen fills (!checking) es

instance decidableUnseen : (fills : ℕ) → (checking : Bool) → (es : List RxEv) →
    Decidable (Unseen fills checking es)
  | _, _, [] => .isTrue trivial
  | fills, checking, .fill :: es => decidableUnseen (fills + 1) checking es
  | fills, checking, .driver :: es =>
    have := decidableUnseen fills (!checking) es
    inferInstanceAs (Decidable (_ ∧ _))

theorem unseen_of_not_mem {es : List RxEv} (h : .fill ∉ es) (c : Bool) : Unseen 0 c es := by
  induction es generalizing c with
  | nil => trivial
  | cons e es ih =>
    obtain ⟨he, hes⟩ := not_or.mp (mt List.mem_cons.mpr h)
    cases e with
    | fill => exact absurd rfl he
    | driver => exact ⟨fun _ => rfl, ih hes _⟩

/-! ## Before the loop takes anything -/

/-- The registers as `i8254_init_recv` left them but for the frames that have arrived, `n` of
them. -/
structure Idle (n : ℕ) (s : RxSys) : Prop where
  rdh : s.ring.rdh.toNat = n % 256
  rdt : s.ring.rdt = i8254RecvDescNum
  filled : s.filled.length = n
  taken : s.taken = []
  tails : s.tails = []

section

variable {card : RxSys → Bool} {pages : List UInt32} {junk : ℕ → UInt32} {n : ℕ} {s s' : RxSys}
  {es : List RxEv}

theorem idle_boot : (boot pages junk).Idle 0 := ⟨rfl, rfl, rfl, rfl, rfl⟩

theorem Idle.exact (h : s.Idle n) : s.Exact := by
  obtain ⟨-, -, -, htaken, htails⟩ := h
  refine ⟨?_, ?_, ?_⟩
  · rw [htaken]
    exact List.forall_mem_nil _
  · rw [htails]
    exact List.forall_mem_nil _
  · rw [htaken]
    exact List.nil_prefix

theorem Idle.checking (h : s.Idle n) (b : Bool) : Idle n { s with checking := b } :=
  ⟨h.rdh, h.rdt, h.filled, h.taken, h.tails⟩

theorem Idle.fill (h : s.Idle n) : s.fill.Idle (n + 1) := by
  have hsucc : ((s.ring.rdh + 1) % i8254RecvDescNum).toNat = (s.ring.rdh.toNat + 1) % 256 :=
    TxRing.toNat_succ_mod s.ring.rdh
  refine ⟨?_, h.rdt, ?_, h.taken, h.tails⟩
  · rw [RxSys.fill]
    dsimp only
    rw [hsucc, h.rdh]
    omega
  · rw [RxSys.fill, List.length_append, h.filled, List.length_singleton]

/-- The tail is out of the head's range. -/
theorem Idle.stepBack (h : s.Idle n) : s.stepBack = s := by
  refine if_neg fun heq => ?_
  have hlt : s.ring.rdh.toNat < 256 := h.rdh ▸ Nat.mod_lt _ (by decide)
  rw [← heq, h.rdt] at hlt
  exact absurd hlt (by decide)

/-- With `RDT` 256, the loop sees `RDH` frames. -/
theorem Idle.rxAvailable (h : s.Idle n) : s.ring.rxAvailable.toNat = n % 256 := by
  rw [RxRing.rxAvailable, h.rdt, UInt32.sub_self, UInt32.zero_add, UInt32.toNat_mod, h.rdh]
  exact Nat.mod_mod ..

theorem Idle.receive (h : s.Idle n) (hn : n % 256 = 0) : s.receive = s := by
  refine if_neg fun hpos => ?_
  have hpos : 0 < s.ring.rxAvailable.toNat := UInt32.lt_iff_toNat_lt.mp hpos
  rw [h.rxAvailable, hn] at hpos
  exact absurd hpos (by decide)

/-- The first descriptor that the loop takes is none of the ring. -/
theorem Idle.mem_receive (h : s.Idle n) (hn : n % 256 ≠ 0) : 256 ∈ s.receive.taken := by
  have hpos : s.ring.rxAvailable > 0 := by
    refine UInt32.lt_iff_toNat_lt.mpr ?_
    rw [h.rxAvailable]
    exact Nat.pos_of_ne_zero hn
  rw [RxSys.receive, if_pos hpos, h.rdt]
  exact List.mem_append_right _ (List.mem_singleton_self 256)

/-- What was taken stays so. -/
theorem mem_taken_step {e : RxEv} (h : step card s e = some s') (hmem : 256 ∈ s.taken) :
    256 ∈ s'.taken := by
  cases e with
  | fill =>
    rw [step] at h
    split_ifs at h
    rw [← Option.some.inj h]
    exact hmem
  | driver =>
    rw [step] at h
    split_ifs at h <;> rw [← Option.some.inj h]
    · rw [RxSys.stepBack]
      split_ifs <;> exact hmem
    · rw [RxSys.receive]
      split_ifs
      · exact List.mem_append_left _ hmem
      · exact hmem

/-- **A run** from there: either the loop has never seen a frame, or it has taken descriptor 256. -/
theorem Idle.run (h : s.Idle n) (hrun : exec (step card) s es = some s') :
    (s'.Idle (n + es.count .fill) ∧ Unseen n s.checking es) ∨
      (256 ∈ s'.taken ∧ ¬Unseen n s.checking es) := by
  induction es generalizing n s with
  | nil =>
    obtain rfl := Option.some.inj hrun
    exact .inl ⟨h, trivial⟩
  | cons e es ih =>
    obtain ⟨t, hstep, hrest⟩ := exec_cons_eq_some hrun
    cases e with
    | fill =>
      rw [step] at hstep
      split_ifs at hstep
      obtain rfl := Option.some.inj hstep
      rw [List.count_cons_self, ← Nat.add_assoc, Nat.add_right_comm]
      have hrest' := ih h.fill hrest
      exact hrest'
    | driver =>
      rw [List.count_cons_of_ne (by decide), Unseen]
      rw [step] at hstep
      split_ifs at hstep with hc
      · rw [h.stepBack] at hstep
        obtain rfl := Option.some.inj hstep
        simpa [hc] using ih (h.checking false) hrest
      · rcases eq_or_ne (n % 256) 0 with hn | hn
        · rw [h.receive hn] at hstep
          obtain rfl := Option.some.inj hstep
          simpa [hc, hn] using ih (h.checking true) hrest
        · obtain rfl := Option.some.inj hstep
          exact .inr ⟨exec_invariant (I := fun s => 256 ∈ s.taken)
            (fun _ _ _ hmem hstep => mem_taken_step hstep hmem) (h.mem_receive hn) hrest,
            fun hunseen => hn (hunseen.1 (by simpa using hc))⟩

theorem Exact.not_mem (h : s.Exact) : 256 ∉ s.taken := fun hmem =>
  absurd (h.index 256 hmem) (by decide)

/-- A card that compares the registers modulo 256 finds no room at first, and never will. -/
theorem Idle.fill_not_mem (h : s.Idle 0) (hrun : exec (step residues) s es = some s') :
    .fill ∉ es := by
  induction es generalizing s with
  | nil => exact List.not_mem_nil
  | cons e es ih =>
    obtain ⟨t, hstep, hrest⟩ := exec_cons_eq_some hrun
    cases e with
    | fill =>
      have hrdh : s.ring.rdh = 0 := UInt32.toNat_inj.mp h.rdh
      rw [step, residues, hrdh, h.rdt] at hstep
      cases hstep
    | driver =>
      have ht : t.Idle 0 := by
        rw [step, h.stepBack, h.receive rfl] at hstep
        split_ifs at hstep <;> rw [← Option.some.inj hstep]
        · exact h.checking false
        · exact h.checking true
      exact List.not_mem_cons_of_ne_of_not_mem (by decide) (ih ht hrest)

theorem exact_iff_unseen (h : exec (step card) (boot pages junk) es = some s) :
    s.Exact ↔ Unseen 0 false es := by
  obtain ⟨hidle, hunseen⟩ | ⟨hmem, hseen⟩ := idle_boot.run h
  · exact iff_of_true hidle.exact hunseen
  · exact iff_of_false (fun hexact => hexact.not_mem hmem) hseen

/-- Once a frame has arrived, the loop can only lose it or take a wrong buffer for it. -/
theorem delivers_iff (h : exec (step card) (boot pages junk) es = some s) :
    s.Delivers card ↔ .fill ∉ es := by
  constructor
  · rintro ⟨n, s', hrun, hexact, hall⟩
    have hrun' : exec (step card) (boot pages junk) (es ++ List.replicate n .driver) = some s' := by
      rw [exec_append, h]
      exact hrun
    obtain ⟨hidle, -⟩ | ⟨hmem, -⟩ := idle_boot.run hrun'
    · have hnone := hidle.filled
      rw [← hall, hidle.taken, List.length_nil, List.count_append] at hnone
      rw [← List.count_eq_zero]
      omega
    · exact absurd hmem hexact.not_mem
  · intro hfill
    obtain ⟨hidle, -⟩ | ⟨-, hseen⟩ := idle_boot.run h
    · have hfilled := hidle.filled
      rw [List.count_eq_zero.mpr hfill] at hfilled
      refine ⟨0, s, rfl, hidle.exact, ?_⟩
      rw [hidle.taken, List.eq_nil_of_length_eq_zero hfilled]
    · exact absurd (unseen_of_not_mem hfill false) hseen

end

/-- **What `i8254_recv` delivers.** From the state `i8254_init_recv` leaves, whatever card it is and
for every interleaving: indices, tails and order are right if and only if no look of the loop comes
when the number of frames that have arrived is not a multiple of 256; what was filled gets delivered
rightly if and only if nothing was filled; and a card that compares modulo 256 before it fills fills
nothing. -/
theorem i8254Recv_exact_iff {card : RxSys → Bool} {pages : List UInt32} {junk : ℕ → UInt32}
    {es : List RxEv} {s : RxSys} (h : exec (step card) (boot pages junk) es = some s) :
    (s.Exact ↔ Unseen 0 false es) ∧ (s.Delivers card ↔ .fill ∉ es) ∧
      (card = residues → .fill ∉ es) := by
  refine ⟨exact_iff_unseen h, delivers_iff h, ?_⟩
  rintro rfl
  exact idle_boot.fill_not_mem h

/-- The card fills the whole ring, which then looks empty to the loop: no index is wrong, but none
of the 256 frames is delivered. -/
theorem i8254Recv_exact_iff_full :
    ∃ s, exec (step reaching) (boot examplePages fun _ => 0)
        (List.replicate 256 .fill ++ [.driver, .driver]) = some s ∧
      s.filled.length = 256 ∧ s.reaching = false ∧ s.Exact ∧ ¬s.Delivers reaching := by
  have hrun : ((exec (step reaching) (boot examplePages fun _ => 0)
      (List.replicate 256 .fill ++ [.driver, .driver])).map fun s =>
        (s.filled.length, s.reaching)) = some (256, false) := by
    decide +kernel
  obtain ⟨s, hs, heq⟩ := Option.map_eq_some_iff.mp hrun
  obtain ⟨hlength, hfull⟩ := Prod.mk.inj heq
  obtain ⟨hexact, hdelivers, -⟩ := i8254Recv_exact_iff hs
  exact ⟨s, hs, hlength, hfull, hexact.mpr (by decide +kernel),
    fun h => hdelivers.mp h (by decide +kernel)⟩

/-- One frame arrives, on a card that stops when `RDH` reaches `RDT` modulo 256. The loop takes
descriptor 256 for it, and then descriptor 0 again and again. -/
theorem i8254Recv_not_exact :
    ∃ s, exec (step reaching) (boot examplePages fun _ => 0)
        [.fill, .driver, .driver, .driver, .driver, .driver] = some s ∧
      s.filled = [0] ∧ s.taken = [256, 0, 0] ∧ ¬s.Exact ∧ ¬s.Delivers reaching := by
  have hrun : ((exec (step reaching) (boot examplePages fun _ => 0)
      [.fill, .driver, .driver, .driver, .driver, .driver]).map fun s => (s.filled, s.taken)) =
        some ([0], [256, 0, 0]) := by
    decide +kernel
  obtain ⟨s, hs, heq⟩ := Option.map_eq_some_iff.mp hrun
  obtain ⟨hfilled, htaken⟩ := Prod.mk.inj heq
  refine ⟨s, hs, hfilled, htaken, fun hexact => hexact.not_mem ?_, fun h => ?_⟩
  · rw [htaken]
    exact List.mem_cons_self
  · exact (delivers_iff hs).mp h List.mem_cons_self

end RxSys

end InuOs
