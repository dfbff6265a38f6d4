import InuOs.Tcp
import Mathlib.Data.UInt

/-!
# Sequence numbers of the segments sent

A receiver expects each segment to start where the previous one ended. `Continuous` states that for
a list of sent segments, with the numbers read off the wire and each segment's share of the sequence
space taken from its own flags and payload.

Three things in `tcp.c` work against it:

* `H2N_uint` swaps hexadecimal digits where it should swap bytes, so that a counter reads back as
  itself only below 16 (`wireSeq_eq_self_iff`);
* a response of 60 bytes advances `seq_num` by one;
* a FIN does not advance it at all.

`continuous_iff` combines them: the numbers are right exactly while the counter stays below 16 and
nothing is answered after the first PSH|ACK segment.
-/

namespace InuOs

open Mealy

/-! ## What a receiver sees -/

/-- The sequence number on the wire. -/
def TcpFrame.wireSeqNum (t : TcpFrame) : UInt32 := wireUint t.tcp.bytes 4

/-- The sequence space a segment occupies: one for SYN, one for FIN, and its payload. -/
def TcpFrame.seqSpace (t : TcpFrame) : UInt32 :=
  (if t.tcp.codeBits1 &&& tcpCodebitsSyn ≠ 0 then 1 else 0) +
    (if t.tcp.codeBits1 &&& tcpCodebitsFin ≠ 0 then 1 else 0) + UInt32.ofNat t.payload.length

/-- The segments are numbered without a gap or an overlap, from `next` on. -/
def Continuous : UInt32 → List TcpFrame → Prop
  | _, [] => True
  | next, t :: ts => t.wireSeqNum = next ∧ Continuous (next + t.seqSpace) ts

instance decidableContinuous :
    ∀ (next : UInt32) (ts : List TcpFrame), Decidable (Continuous next ts)
  | _, [] => .isTrue trivial
  | next, t :: ts =>
    have := decidableContinuous (next + t.seqSpace) ts
    inferInstanceAs (Decidable (_ ∧ _))

/-- What `seq_num` looks like on the wire. -/
def wireSeq (v : UInt32) : UInt32 := wireUint (uintBytes (h2nUint v)) 0

section Segment

variable (h : Host) (n : Net) (recv : Frame) (pktType : UInt8) (payload : List UInt8)

theorem wireSeqNum_segment :
    (segment h n recv pktType payload).wireSeqNum = wireSeq n.seqNum := by
  unfold TcpFrame.wireSeqNum
  rfl

theorem seqSpace_segment :
    (segment h n recv pktType payload).seqSpace =
      (if pktType &&& tcpCodebitsSyn ≠ 0 then 1 else 0) +
        (if pktType &&& tcpCodebitsFin ≠ 0 then 1 else 0) + UInt32.ofNat payload.length := rfl

@[simp] theorem seqSpace_syn :
    (segment h n recv (tcpCodebitsAck ||| tcpCodebitsSyn) []).seqSpace = 1 := by
  rw [seqSpace_segment]
  decide

@[simp] theorem seqSpace_ack : (segment h n recv tcpCodebitsAck []).seqSpace = 0 := by
  rw [seqSpace_segment]
  decide

@[simp] theorem seqSpace_response :
    (segment h n recv (tcpCodebitsAck ||| tcpCodebitsPsh) httpResponse).seqSpace = 60 := by
  have hlen : httpResponse.length = 60 := by decide
  rw [seqSpace_segment, hlen]
  decide

end Segment

theorem toNat_wireSeq (v : UInt32) :
    (wireSeq v).toNat =
      v.toNat / 256 % 16 * 2 ^ 24 + v.toNat / 16 % 16 * 2 ^ 20 + v.toNat % 16 := by
  have hh := toNat_h2nUint v
  have hbound : ∀ x : ℕ, x % 16 < 16 := fun x => Nat.mod_lt x (by decide)
  have h₀ := hbound v.toNat
  have h₁ := hbound (v.toNat / 16)
  have h₂ := hbound (v.toNat / 256)
  generalize v.toNat % 16 = v₀, v.toNat / 16 % 16 = v₁, v.toNat / 256 % 16 = v₂ at *
  simp only [wireSeq, wireUint, uintBytes, List.getD_cons_zero, List.getD_cons_succ, wordOf_toNat,
    wordByte, UInt8.toNat_ofNat', hh]
  omega

/-- **The byte swap is right for one hexadecimal digit.** -/
theorem wireSeq_eq_self_iff (v : UInt32) : wireSeq v = v ↔ v.toNat < 16 := by
  rw [← UInt32.toNat_inj, toNat_wireSeq]
  omega

/-! ## Runs -/

/-- The segments after the first PSH|ACK. -/
def afterPshAck : List SegKind → List SegKind
  | [] => []
  | .pshAck :: ks => ks
  | _ :: ks => afterPshAck ks

/-- How many segments advance the counter up to the first PSH|ACK: the SYNs before it, and it. -/
def answeredCount : List SegKind → ℕ
  | [] => 0
  | .syn :: ks => answeredCount ks + 1
  | .pshAck :: _ => 1
  | _ :: ks => answeredCount ks

/-- The runs on which the numbers come out right: nothing follows the first PSH|ACK that would be
answered, and the counter stays below 16 up to it. -/
def InSequence (seqNum : UInt32) (ks : List SegKind) : Prop :=
  (∀ k ∈ afterPshAck ks, k = .other) ∧
    (answeredCount ks = 0 ∨ seqNum.toNat + answeredCount ks ≤ 16)

instance (seqNum : UInt32) (ks : List SegKind) : Decidable (InSequence seqNum ks) :=
  inferInstanceAs (Decidable (_ ∧ _))

/-- After a response the counter is 59 behind, and the FIN is due: whatever is answered next has a
wrong number. -/
theorem continuous_after_response (h : Host) (fs : List Frame) {n : Net} (hfin : n.finFlag = true) :
    Continuous (n.seqNum + 60) (emitted (tcpProc h) { n with seqNum := n.seqNum + 1 } fs) ↔
      ∀ k ∈ fs.map Frame.kind, k = .other := by
  have hwrong : wireSeq (n.seqNum + 1) ≠ n.seqNum + 60 := by
    intro heq
    have hnat := congrArg UInt32.toNat heq
    rw [toNat_wireSeq, UInt32.toNat_add, UInt32.toNat_add] at hnat
    simp only [UInt32.reduceToNat] at hnat
    omega
  induction fs with
  | nil => simp [emitted, Continuous]
  | cons f fs ih =>
    rw [emitted, tcpProc_eq, List.map_cons]
    cases hkind : f.kind with
    | syn => simp [Continuous, wireSeqNum_segment, hwrong]
    | pshAck => simp [Continuous, wireSeqNum_segment, hwrong]
    | ack => simp [Continuous, wireSeqNum_segment, hwrong, hfin]
    | other => simpa using ih

/-- **Sequence numbers are continuous exactly on the runs in sequence.** For every initial counter
and every list of received segments, as long as no FIN is due at the start. -/
theorem continuous_iff (h : Host) (n : Net) (fs : List Frame) (hfin : n.finFlag = false) :
    Continuous n.seqNum (emitted (tcpProc h) n fs) ↔ InSequence n.seqNum (fs.map Frame.kind) := by
  induction fs generalizing n with
  | nil => simp [emitted, Continuous, InSequence, afterPshAck, answeredCount]
  | cons f fs ih =>
    rw [emitted, tcpProc_eq, List.map_cons]
    cases hkind : f.kind with
    | syn =>
      have hrest := ih { n with sendId := n.sendId + 1, seqNum := n.seqNum + 1 } hfin
      have hbelow : (n.seqNum.toNat < 16 ∧ InSequence (n.seqNum + 1) (fs.map Frame.kind)) ↔
          InSequence n.seqNum (.syn :: fs.map Frame.kind) := by
        have hadd := UInt32.toNat_add n.seqNum 1
        simp only [UInt32.reduceToNat] at hadd
        simp only [InSequence, afterPshAck, answeredCount]
        constructor
        · rintro ⟨hlow, hother, hcount⟩
          exact ⟨hother, by omega⟩
        · rintro ⟨hother, hcount⟩
          exact ⟨by omega, hother, by omega⟩
      simp only [List.singleton_append, Continuous, wireSeqNum_segment, seqSpace_syn,
        wireSeq_eq_self_iff]
      rw [hrest]
      exact hbelow
    | pshAck =>
      have hrest := continuous_after_response h fs
        (n := { n with sendId := n.sendId + 1 + 1, finFlag := true }) rfl
      simp only [List.cons_append, List.nil_append, Continuous, wireSeqNum_segment, seqSpace_ack,
        seqSpace_response, wireSeq_eq_self_iff, UInt32.add_zero]
      rw [hrest, InSequence, afterPshAck, answeredCount]
      constructor
      · rintro ⟨hlow, -, hother⟩
        exact ⟨hother, .inr (by omega)⟩
      · rintro ⟨hother, hcount⟩
        have hlow : n.seqNum.toNat < 16 := by omega
        exact ⟨hlow, hlow, hother⟩
    | ack =>
      simp only [hfin]
      exact ih n hfin
    | other => exact ih n hfin

/-- A TCP frame without IPv4 options, all zero but for its flags. -/
def exampleSegment (codeBits : UInt8) : Frame :=
  fun i => if i = 14 then 0x45 else if i = 23 then ipv4TypeTcp else if i = 47 then codeBits else 0

/-- A handshake and one request, with no segment of the client after the request. -/
theorem continuous_one_request :
    Continuous 0 (emitted (tcpProc exampleHost) Net.init
      [exampleSegment 0x02, exampleSegment 0x10, exampleSegment 0x18]) :=
  (continuous_iff exampleHost Net.init _ rfl).mpr (by decide)

/-- A handshake, one request and its acknowledgement: the FIN is numbered 2, where 61 is due; and a
counter of 16 reads back as 2^20. -/
theorem not_continuous_fin :
    ((emitted (tcpProc exampleHost) Net.init
        [exampleSegment 0x02, exampleSegment 0x10, exampleSegment 0x18,
          exampleSegment 0x10]).map TcpFrame.wireSeqNum = [0, 1, 1, 2]) ∧
      ¬Continuous 0 (emitted (tcpProc exampleHost) Net.init
        [exampleSegment 0x02, exampleSegment 0x10, exampleSegment 0x18, exampleSegment 0x10]) ∧
      ((emitted (tcpProc exampleHost) { Net.init with seqNum := 16 }
        [exampleSegment 0x02]).map TcpFrame.wireSeqNum = [2 ^ 20]) := by
  decide

end InuOs
