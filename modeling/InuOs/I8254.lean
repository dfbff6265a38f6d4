import InuOs.Lib.Memory
import InuOs.Lib.Run

/-!
# The transmit ring of the network card (`i8254.c`)

`i8254_send` copies a packet into the buffer of the descriptor at `TDT` and advances `TDT`; the card
consumes the descriptors from `TDH` up to `TDT` and advances `TDH`. Both registers count modulo 256
and the ring is empty when they are equal.

* `TxRing` is what the driver and the card share: the two registers, the descriptors and the memory
  their buffers lie in. `i8254InitSend` sets it up as the driver does, with the buffers it got from
  `kalloc` and whatever the descriptor page held before.
* `TxSys` adds the two histories: the packets whose `i8254_send` returned their length, and the
  packets the card has read from memory.
* `TxSys.Conserved` says that the ring holds exactly the packets between the two. `txStepOk_iff`
  finds the steps after which it still does.
-/

namespace InuOs

open Run

/-! ## Descriptors and the ring -/

/-- `I8254_SEND_DESC_NUM`. -/
def i8254SendDescNum : UInt32 := 256

/-- `struct i8254_send_desc`. -/
structure I8254SendDesc : Type where
  /-- physical address of the buffer -/
  bufAddr : UInt32
  /-- upper half of the buffer address -/
  padding : UInt32
  /-- bytes to send -/
  len : UInt16
  cso : UInt8
  cmd : UInt8
  sta : UInt8
  css : UInt8
  special : UInt16
  deriving DecidableEq, Repr

/-- What the driver and the card share. -/
structure TxRing : Type where
  /-- head register, advanced by the card -/
  tdh : UInt32
  /-- tail register, advanced by the driver -/
  tdt : UInt32
  /-- the descriptor array -/
  desc : ℕ → I8254SendDesc
  /-- physical memory -/
  mem : Memory

/-- The loop of `i8254_init_send` that hands out buffers, from descriptor `i` on: `pages` are the
pages `kalloc` returned before it first failed. Each turn sets two descriptors, of which the next
turn sets the second one again. -/
def initBuffers : ℕ → List UInt32 → (ℕ → UInt32) → (ℕ → UInt32)
  | _, [], buf => buf
  | i, p :: ps, buf =>
    initBuffers (i + 1) ps (Function.update (Function.update buf i p) (i + 1) (p + 0x800))

/-- `i8254_init_send`: `junk` is what the descriptor page held as buffer addresses. -/
def i8254InitSend (pages : List UInt32) (junk : ℕ → UInt32) (mem : Memory) : TxRing where
  tdh := 0
  tdt := 0
  desc i :=
    { bufAddr := initBuffers 0 (pages.take (i8254SendDescNum / 2).toNat) junk i
      padding := 0, len := 0, cso := 0, cmd := 0, sta := 0, css := 0, special := 0 }
  mem := mem

variable {i : ℕ} {r : TxRing}

theorem initBuffers_of_lt {j : ℕ} {pages : List UInt32} {buf : ℕ → UInt32}
    (h : i + pages.length < j) : initBuffers i pages buf j = buf j := by
  induction pages generalizing i buf with
  | nil => rfl
  | cons p ps ih =>
    rw [List.length_cons] at h
    rw [initBuffers, ih (by omega), Function.update_of_ne (by omega),
      Function.update_of_ne (by omega)]

namespace TxRing

/-- `(I8254_SEND_DESC_NUM - *tdh + *tdt) % I8254_SEND_DESC_NUM`: the descriptors in flight. -/
def inFlight (r : TxRing) : UInt32 := (i8254SendDescNum - r.tdh + r.tdt) % i8254SendDescNum

/-- The `int tx_available` of `i8254_send`. -/
def txAvailable (r : TxRing) : ℤ := (i8254SendDescNum - r.inFlight).toBitVec.toInt

/-- `i8254_send` on the packet `pkt`: its return value and the ring it leaves. -/
def i8254Send (r : TxRing) (pkt : List UInt8) : ℤ × TxRing :=
  let len := UInt32.ofNat pkt.length
  let index := (r.tdt % i8254SendDescNum).toNat
  if 0 < r.txAvailable then
    let d := r.desc index
    (len.toBitVec.toInt,
      { r with
        mem := r.mem.store d.bufAddr pkt
        desc := Function.update r.desc index
          { d with
            len := UInt16.ofNat pkt.length
            sta := 0, css := 0, cmd := 0xb, special := 0, cso := 0 }
        tdt := (r.tdt + 1) % i8254SendDescNum })
  else (-1, r)

/-- The packet the card reads for descriptor `i`. -/
def packetAt (r : TxRing) (i : ℕ) : List UInt8 :=
  r.mem.fetch (r.desc i).bufAddr (r.desc i).len.toNat

/-- The descriptor `i` places after the head. -/
def slot (r : TxRing) (i : ℕ) : ℕ := (r.tdh.toNat + i) % i8254SendDescNum.toNat

/-- The packets the card would send if the driver stopped now. -/
def pending (r : TxRing) : List (List UInt8) :=
  (List.range r.inFlight.toNat).map fun i => r.packetAt (r.slot i)

/-! ### Register arithmetic -/

/-- The registers stay below the number of descriptors. -/
structure InRange (r : TxRing) : Prop where
  tdh : r.tdh.toNat < 256
  tdt : r.tdt.toNat < 256

@[simp] theorem toNat_i8254SendDescNum : i8254SendDescNum.toNat = 256 := rfl

theorem inFlight_lt (r : TxRing) : r.inFlight.toNat < 256 := by
  exact Nat.mod_lt _ (by decide)

/-- `tx_available` subtracts a remainder modulo 256 from 256: it is never 0. -/
theorem txAvailable_pos (r : TxRing) : 0 < r.txAvailable := by
  have hlt := r.inFlight_lt
  have hle : r.inFlight ≤ i8254SendDescNum := by
    exact hlt.le
  have hsub : (i8254SendDescNum - r.inFlight).toNat = 256 - r.inFlight.toNat := by
    rw [UInt32.toNat_sub_of_le _ _ hle, toNat_i8254SendDescNum]
  rw [txAvailable, BitVec.toInt_eq_toNat_of_lt]
  · rw [UInt32.toNat_toBitVec, hsub]
    omega
  · rw [UInt32.toNat_toBitVec, hsub]
    omega

theorem InRange.inFlight (h : r.InRange) :
    r.inFlight.toNat = (256 - r.tdh.toNat + r.tdt.toNat) % 256 := by
  have hh := h.tdh
  have hle : r.tdh ≤ i8254SendDescNum := by
    exact hh.le
  rw [TxRing.inFlight, UInt32.toNat_mod, UInt32.toNat_add, UInt32.toNat_sub_of_le _ _ hle,
    toNat_i8254SendDescNum]
  omega

/-- A register's successor. -/
theorem toNat_succ_mod (x : UInt32) :
    ((x + 1) % i8254SendDescNum).toNat = (x.toNat + 1) % 256 := by
  rw [UInt32.toNat_mod, UInt32.toNat_add, toNat_i8254SendDescNum]
  have hone : (1 : UInt32).toNat = 1 := rfl
  omega

theorem InRange.index (h : r.InRange) : (r.tdt % i8254SendDescNum).toNat = r.tdt.toNat := by
  exact Nat.mod_eq_of_lt h.tdt

/-- The descriptors in flight are not the one at the tail, and the next one is. -/
theorem InRange.slot_eq_tdt_iff (h : r.InRange) (hi : i < 256) :
    r.slot i = r.tdt.toNat ↔ i = r.inFlight.toNat := by
  have hh := h.tdh
  have ht := h.tdt
  rw [h.inFlight, slot, toNat_i8254SendDescNum]
  omega

/-! ### What the two sides do to the ring -/

/-- `i8254_send` never takes its `else` branch. -/
theorem i8254Send_eq (h : r.InRange) (pkt : List UInt8) :
    r.i8254Send pkt =
      ((UInt32.ofNat pkt.length).toBitVec.toInt,
        { r with
          mem := r.mem.store (r.desc r.tdt.toNat).bufAddr pkt
          desc := Function.update r.desc r.tdt.toNat
            { r.desc r.tdt.toNat with
              len := UInt16.ofNat pkt.length
              sta := 0, css := 0, cmd := 0xb, special := 0, cso := 0 }
          tdt := (r.tdt + 1) % i8254SendDescNum }) := by
  rw [i8254Send, if_pos r.txAvailable_pos, h.index]

section Send

variable {r : TxRing} {pkt : List UInt8}

theorem InRange.send (h : r.InRange) : (r.i8254Send pkt).2.InRange := by
  rw [i8254Send_eq h]
  refine ⟨h.tdh, ?_⟩
  exact Nat.mod_lt _ (by decide)

theorem InRange.inFlight_send (h : r.InRange) :
    (r.i8254Send pkt).2.inFlight.toNat = (r.inFlight.toNat + 1) % 256 := by
  rw [h.send.inFlight, h.inFlight, i8254Send_eq h]
  dsimp only
  rw [toNat_succ_mod]
  omega

/-- A descriptor in flight keeps its fields, so its packet changes only with the memory. -/
theorem packetAt_send_of_ne (h : r.InRange) (hi : i ≠ r.tdt.toNat) :
    (r.i8254Send pkt).2.packetAt i =
      (r.mem.store (r.desc r.tdt.toNat).bufAddr pkt).fetch (r.desc i).bufAddr
        (r.desc i).len.toNat := by
  rw [i8254Send_eq h, packetAt]
  simp only [Function.update_of_ne hi]

/-- The new descriptor's packet is cut at 16 bits of length. -/
theorem packetAt_send_self (h : r.InRange) (hpkt : pkt.length ≤ 2 ^ 32) :
    (r.i8254Send pkt).2.packetAt r.tdt.toNat = pkt.take (pkt.length % 2 ^ 16) := by
  rw [i8254Send_eq h, packetAt]
  simp only [Function.update_self, UInt16.toNat_ofNat']
  exact Memory.fetch_store_self (Nat.mod_le _ _) hpkt

/-- With two descriptors free, the card sees the old packets and the new one. -/
theorem pending_send (h : r.InRange) (hpkt : pkt.length ≤ 2 ^ 32)
    (hfree : r.inFlight.toNat + 1 < 256) :
    (r.i8254Send pkt).2.pending =
      ((List.range r.inFlight.toNat).map fun i =>
        (r.mem.store (r.desc r.tdt.toNat).bufAddr pkt).fetch (r.desc (r.slot i)).bufAddr
          (r.desc (r.slot i)).len.toNat) ++ [pkt.take (pkt.length % 2 ^ 16)] := by
  have hslot : (r.i8254Send pkt).2.slot = r.slot := by
    rw [i8254Send_eq h]
    rfl
  have hold : ∀ i ∈ List.range r.inFlight.toNat, (r.i8254Send pkt).2.packetAt (r.slot i) =
      (r.mem.store (r.desc r.tdt.toNat).bufAddr pkt).fetch (r.desc (r.slot i)).bufAddr
        (r.desc (r.slot i)).len.toNat := by
    intro i hi
    rw [List.mem_range] at hi
    exact packetAt_send_of_ne h fun heq => hi.ne ((h.slot_eq_tdt_iff (by omega)).mp heq)
  rw [pending, h.inFlight_send, Nat.mod_eq_of_lt hfree, List.range_succ, List.map_append, hslot,
    List.map_singleton, (h.slot_eq_tdt_iff (by omega)).mpr rfl, packetAt_send_self h hpkt,
    List.map_congr_left hold]

/-- With one descriptor free, the card sees an empty ring. -/
theorem pending_send_full (h : r.InRange) (hfull : r.inFlight.toNat = 255) :
    (r.i8254Send pkt).2.pending = [] := by
  rw [pending, h.inFlight_send, hfull]
  rfl

end Send

/-- The card takes the first packet it sees. -/
theorem pending_advance (h : r.InRange) (hne : r.tdh ≠ r.tdt) :
    r.pending =
      r.packetAt r.tdh.toNat ::
        { r with tdh := (r.tdh + 1) % i8254SendDescNum }.pending := by
  have hh := h.tdh
  have ht := h.tdt
  have hne' : r.tdh.toNat ≠ r.tdt.toNat := fun heq => hne (UInt32.toNat_inj.mp heq)
  have hr' : { r with tdh := (r.tdh + 1) % i8254SendDescNum }.InRange := by
    refine ⟨?_, ht⟩
    exact Nat.mod_lt _ (by decide)
  have hcount : r.inFlight.toNat =
      { r with tdh := (r.tdh + 1) % i8254SendDescNum }.inFlight.toNat + 1 := by
    rw [hr'.inFlight, h.inFlight]
    dsimp only
    rw [toNat_succ_mod]
    omega
  have hzero : r.slot 0 = r.tdh.toNat := Nat.mod_eq_of_lt hh
  have hslot : ∀ i, r.slot (i + 1) =
      { r with tdh := (r.tdh + 1) % i8254SendDescNum }.slot i := by
    intro i
    rw [slot, slot, toNat_i8254SendDescNum]
    rw [toNat_succ_mod]
    omega
  rw [pending, hcount, List.range_succ_eq_map, List.map_cons, hzero, List.map_map]
  simp only [Function.comp_def, Nat.succ_eq_add_one, hslot]
  rfl

end TxRing

/-! ## The driver and the card together -/

/-- The ring with what went in and what came out. -/
structure TxSys : Type where
  ring : TxRing
  /-- the packets whose `i8254_send` returned their length -/
  sent : List (List UInt8)
  /-- the packets the card has consumed -/
  consumed : List (List UInt8)

/-- A step of the driver or of the card. -/
inductive TxEv : Type where
  /-- a call of `i8254_send` -/
  | send (pkt : List UInt8)
  /-- the card consumes the descriptor at the head -/
  | advance

variable {e : TxEv}

/-- The pages that `kalloc` returns on a machine with memory to spare, one for each of the 128 turns
of the loop. -/
def examplePages : List UInt32 := (List.range 128).map fun k => UInt32.ofNat (0x200000 + 0x1000 * k)

namespace TxSys

/-- The state `i8254_init_send` leaves. -/
def boot (pages : List UInt32) (junk : ℕ → UInt32) (mem : Memory) : TxSys where
  ring := i8254InitSend pages junk mem
  sent := []
  consumed := []

/-- One step; the length of a packet is a `uint`, and the card has nothing to do on an empty
ring. -/
def step (s : TxSys) : TxEv → Option TxSys
  | .send pkt =>
    if pkt.length < 2 ^ 32 then
      let (ret, ring) := s.ring.i8254Send pkt
      some { s with
        ring := ring
        sent := if ret = (UInt32.ofNat pkt.length).toBitVec.toInt then s.sent ++ [pkt] else s.sent }
    else none
  | .advance =>
    if s.ring.tdh = s.ring.tdt then none
    else some { s with
      ring := { s.ring with tdh := (s.ring.tdh + 1) % i8254SendDescNum }
      consumed := s.consumed ++ [s.ring.packetAt s.ring.tdh.toNat] }

/-- Nothing is lost, changed or sent twice: what was consumed and what the card still sees is what
was sent. -/
def Conserved (s : TxSys) : Prop := s.consumed ++ s.ring.pending = s.sent

/-- What a step owes its environment: the ring conserves the packets, and a `send` that finds no
free descriptor (one has to stay free to tell a full ring from an empty one) fails and changes
nothing. -/
def StepOk (s : TxSys) (e : TxEv) : Prop :=
  (∀ s', s.step e = some s' → s'.Conserved) ∧
    ∀ pkt, e = .send pkt → s.ring.inFlight.toNat + 1 = i8254SendDescNum.toNat →
      s.ring.i8254Send pkt = (-1, s.ring)

/-- When a `send` can be made: one descriptor stays free, the length fits the descriptor's 16 bits,
and the copy changes no byte of a packet in flight. -/
def Fits (s : TxSys) : TxEv → Prop
  | .send pkt =>
    s.ring.inFlight.toNat + 1 < i8254SendDescNum.toNat ∧ pkt.length < 2 ^ 16 ∧
      ∀ i < s.ring.inFlight.toNat,
        s.ring.mem.Agrees (s.ring.desc s.ring.tdt.toNat).bufAddr pkt
          (s.ring.desc (s.ring.slot i)).bufAddr (s.ring.desc (s.ring.slot i)).len.toNat
  | .advance => True

/-! ### What a step does to the histories -/

section Step

variable {s s' : TxSys} {pkt : List UInt8}

theorem step_send_eq (hr : s.ring.InRange) (hlen : pkt.length < 2 ^ 32) :
    s.step (.send pkt) =
      some { s with ring := (s.ring.i8254Send pkt).2, sent := s.sent ++ [pkt] } := by
  rw [step, if_pos hlen, TxRing.i8254Send_eq hr]
  dsimp only
  rw [if_pos rfl]

theorem step_send (hr : s.ring.InRange) (h : s.step (.send pkt) = some s') :
    pkt.length < 2 ^ 32 ∧
      s' = { s with ring := (s.ring.i8254Send pkt).2, sent := s.sent ++ [pkt] } := by
  by_cases hlen : pkt.length < 2 ^ 32
  · rw [step_send_eq hr hlen] at h
    exact ⟨hlen, (Option.some.inj h).symm⟩
  · rw [step, if_neg hlen] at h
    cases h

theorem step_advance (h : s.step .advance = some s') :
    s.ring.tdh ≠ s.ring.tdt ∧
      s' = { s with
        ring := { s.ring with tdh := (s.ring.tdh + 1) % i8254SendDescNum }
        consumed := s.consumed ++ [s.ring.packetAt s.ring.tdh.toNat] } := by
  rw [step] at h
  split at h
  · cases h
  · next hne => exact ⟨hne, (Option.some.inj h).symm⟩

theorem inRange_step (hr : s.ring.InRange) (h : s.step e = some s') : s'.ring.InRange := by
  cases e with
  | send pkt =>
    obtain ⟨-, rfl⟩ := step_send hr h
    exact hr.send
  | advance =>
    obtain ⟨-, rfl⟩ := step_advance h
    refine ⟨?_, hr.tdt⟩
    exact Nat.mod_lt _ (by decide)

/-- The card moves one packet from the ring to the consumed ones. -/
theorem conserved_advance (hr : s.ring.InRange) (hc : s.Conserved)
    (h : s.step .advance = some s') : s'.Conserved := by
  obtain ⟨hne, rfl⟩ := step_advance h
  rw [Conserved, ← hc, TxRing.pending_advance hr hne, List.append_assoc]
  rfl

theorem take_mod_eq_self_iff :
    pkt.take (pkt.length % 2 ^ 16) = pkt ↔ pkt.length < 2 ^ 16 := by
  rw [List.take_eq_self_iff]
  omega

/-- A `send` conserves the packets exactly when it fits. -/
theorem conserved_send_iff (hr : s.ring.InRange) (hc : s.Conserved)
    (h : s.step (.send pkt) = some s') : s'.Conserved ↔ s.Fits (.send pkt) := by
  obtain ⟨hlen, rfl⟩ := step_send hr h
  have hlt := s.ring.inFlight_lt
  rw [Conserved, Fits, ← hc, TxRing.toNat_i8254SendDescNum, List.append_assoc,
    List.append_cancel_left_eq]
  by_cases hfree : s.ring.inFlight.toNat + 1 < 256
  · have hold : ((List.range s.ring.inFlight.toNat).map fun i =>
          (s.ring.mem.store (s.ring.desc s.ring.tdt.toNat).bufAddr pkt).fetch
            (s.ring.desc (s.ring.slot i)).bufAddr (s.ring.desc (s.ring.slot i)).len.toNat) =
          s.ring.pending ↔
        ∀ i < s.ring.inFlight.toNat,
          s.ring.mem.Agrees (s.ring.desc s.ring.tdt.toNat).bufAddr pkt
            (s.ring.desc (s.ring.slot i)).bufAddr (s.ring.desc (s.ring.slot i)).len.toNat := by
      rw [TxRing.pending, List.map_inj_left]
      simp only [List.mem_range, TxRing.packetAt, Memory.fetch_store_iff hlen.le]
    rw [TxRing.pending_send hr hlen.le hfree]
    refine ⟨fun heq => ?_, fun ⟨_, hshort, hagree⟩ => ?_⟩
    · obtain ⟨hpre, hlast⟩ := List.append_inj heq (by simp [TxRing.pending])
      exact ⟨hfree, take_mod_eq_self_iff.mp (List.singleton_inj.mp hlast), hold.mp hpre⟩
    · rw [hold.mpr hagree, take_mod_eq_self_iff.mpr hshort]
  · -- the ring was as full as it can be, and now looks empty
    have hfull : s.ring.inFlight.toNat = 255 := by omega
    rw [TxRing.pending_send_full hr hfull]
    simp [hfull]

/-- Under conservation, a step is what it should be exactly when it fits. -/
theorem stepOk_iff (hr : s.ring.InRange) (hc : s.Conserved) (h : s.step e = some s') :
    s.StepOk e ↔ s.Fits e := by
  have hconserve : (∀ s'', s.step e = some s'' → s''.Conserved) ↔ s'.Conserved := by
    rw [h]
    simp
  rw [StepOk, hconserve]
  cases e with
  | send pkt =>
    rw [conserved_send_iff hr hc h]
    -- a `send` that fits does not find the ring full
    exact and_iff_left_of_imp fun hfit _ _ hfull => absurd hfull hfit.1.ne
  | advance => exact ⟨fun _ => trivial, fun _ => ⟨conserved_advance hr hc h, by simp⟩⟩

end Step

theorem inRange_boot (pages : List UInt32) (junk : ℕ → UInt32) (mem : Memory) :
    (boot pages junk mem).ring.InRange where
  tdh := show (0 : UInt32).toNat < 256 by decide
  tdt := show (0 : UInt32).toNat < 256 by decide

theorem conserved_boot (pages : List UInt32) (junk : ℕ → UInt32) (mem : Memory) :
    (boot pages junk mem).Conserved := by
  rw [Conserved, TxRing.pending, (inRange_boot pages junk mem).inFlight]
  simp [boot, i8254InitSend]

/-- **Which runs lose no packet.** From the ring `i8254_init_send` sets up, whatever buffers it got,
and for every interleaving of calls and head advances: the ring conserves the packets at every
point and refuses a packet when it is full, exactly when every call finds two free descriptors, a
length below 2^16, and copies over no byte of a packet in flight. -/
theorem tx_conserved_iff (pages : List UInt32) (junk : ℕ → UInt32) (mem : Memory)
    (es : List TxEv) (s : TxSys) (h : exec step (boot pages junk mem) es = some s) :
    EachStep step StepOk (boot pages junk mem) es ↔
      EachStep step Fits (boot pages junk mem) es := by
  refine eachStep_congr (I := fun s => s.ring.InRange ∧ s.Conserved) ?_ ?_ ?_ h
  · exact fun s e s' hs hstep => stepOk_iff hs.1 hs.2 hstep
  · rintro s e s' ⟨hr, hc⟩ hstep hfit
    exact ⟨inRange_step hr hstep, ((stepOk_iff hr hc hstep).mpr hfit).1 s' hstep⟩
  · exact ⟨inRange_boot pages junk mem, conserved_boot pages junk mem⟩

/-- One packet, sent and consumed. -/
theorem tx_conserved_one_packet :
    EachStep step StepOk (boot examplePages (fun _ => 0x01010101) fun _ => 0)
      [.send [1, 2, 3], .advance] := by
  refine (tx_conserved_iff _ _ _ _ _ rfl).mpr ⟨⟨by decide, by decide, ?_⟩, fun s' _ => ?_⟩
  · intro i hi
    exact absurd hi (Nat.not_lt_zero i)
  · exact ⟨trivial, fun _ _ => trivial⟩

/-- Sends that outrun the card: the tail goes round the ring. -/
theorem exec_sends (pkt : List UInt8) (hpkt : pkt.length < 2 ^ 32) (n : ℕ) (s : TxSys)
    (hr : s.ring.InRange) :
    ∃ s', exec step s (List.replicate n (.send pkt)) = some s' ∧ s'.ring.InRange ∧
      s'.ring.tdh = s.ring.tdh ∧ s'.ring.tdt.toNat = (s.ring.tdt.toNat + n) % 256 ∧
      s'.consumed = s.consumed ∧ s'.sent = s.sent ++ List.replicate n pkt := by
  induction n generalizing s with
  | zero => exact ⟨s, rfl, hr, rfl, (Nat.mod_eq_of_lt hr.tdt).symm, rfl, (List.append_nil _).symm⟩
  | succ n ih =>
    have hs₁ := step_send_eq hr hpkt
    obtain ⟨s', hexec, hr', htdh, htdt, hcons, hsent⟩ := ih _ (inRange_step hr hs₁)
    refine ⟨s', ?_, hr', ?_, ?_, hcons, ?_⟩
    · rw [List.replicate_succ, exec_cons, hs₁]
      exact hexec
    · rw [htdh, TxRing.i8254Send_eq hr]
    · rw [htdt, TxRing.i8254Send_eq hr]
      rw [TxRing.toNat_succ_mod]
      omega
    · rw [hsent, List.append_assoc]
      rfl

/-- 256 packets sent before the card moves leave the ring looking empty; the next packet takes the
place of the first one, which the card never sees. -/
theorem tx_loses_256_packets :
    ∃ s, exec step (boot examplePages (fun _ => 0x01010101) fun _ => 0)
        (List.replicate 256 (.send [1]) ++ [.send [2], .advance]) = some s ∧
      s.sent = List.replicate 256 [1] ++ [[2]] ∧ s.consumed = [[2]] ∧ ¬s.consumed <+: s.sent := by
  obtain ⟨s₁, hexec, hr, htdh, htdt, hcons, hsent⟩ := exec_sends [1] (by decide) 256
    (boot examplePages (fun _ => 0x01010101) fun _ => 0) (inRange_boot _ _ _)
  have htdt : s₁.ring.tdt = 0 := UInt32.toNat_inj.mp htdt
  have hlen : ([2] : List UInt8).length < 2 ^ 32 := by decide
  have htdh₂ : (s₁.ring.i8254Send [2]).2.tdh = 0 := by
    rw [TxRing.i8254Send_eq hr, htdh]
    rfl
  have htdt₂ : (s₁.ring.i8254Send [2]).2.tdt = 1 := by
    rw [TxRing.i8254Send_eq hr, htdt]
    rfl
  have hpacket : (s₁.ring.i8254Send [2]).2.packetAt 0 = [2] := by
    have hself := TxRing.packetAt_send_self hr hlen.le
    rwa [htdt] at hself
  have hrun : exec step (boot examplePages (fun _ => 0x01010101) fun _ => 0)
      (List.replicate 256 (.send [1]) ++ [.send [2], .advance]) =
      some {
        ring := { (s₁.ring.i8254Send [2]).2 with tdh := (0 + 1) % i8254SendDescNum }
        sent := s₁.sent ++ [[2]]
        consumed := s₁.consumed ++ [[2]] } := by
    rw [exec_append, hexec, Option.bind_some, exec_cons, step_send_eq hr hlen, Option.bind_some,
      exec_cons, step, if_neg (by rw [htdh₂, htdt₂]; decide), Option.bind_some, exec_nil]
    simp only [htdh₂, UInt32.toNat_zero, hpacket]
  refine ⟨_, hrun, by rw [hsent]; rfl, by rw [hcons]; rfl, ?_⟩
  rw [hsent, hcons]
  rintro ⟨rest, hrest⟩
  have hhead : ([2] : List UInt8) = [1] := (List.cons.inj hrest).1
  exact absurd hhead (by decide)

end TxSys

end InuOs
