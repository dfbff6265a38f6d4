import InuOs.TcpSeq

/-!
# Acknowledgement numbers of the segments sent

A reply acknowledges a segment by naming the first sequence number after it. `Acknowledges` states
that for one sent segment, with both numbers read off the wire as big-endian and the length of the
received segment derived from its own headers.

`tcp_pkt_create` adds `1<<24` to the raw word of the received number. In memory that is an addition
of one to the *last* byte of the number, so that

* the carry out of that byte is lost (`wireAckNum_segment`);
* the number grows by one whatever the segment's length is;

and the FIN of `tcp_proc` is sent without the ACK bit. `acknowledges_iff` says for which frames the
replies are right.
-/

namespace InuOs

/-! ## What a receiver sees -/

/-- The acknowledgement number on the wire. -/
def TcpFrame.wireAckNum (t : TcpFrame) : UInt32 := wireUint t.tcp.bytes 8

theorem TcpFrame.wireAckNum_eq (t : TcpFrame) :
    t.wireAckNum = wireUint (uintBytes t.tcp.ackNum) 0 := rfl

namespace Frame

/-- The sequence number of the received segment, read as big-endian. -/
def wireSeqNum (f : Frame) : UInt32 :=
  wordOf (f (f.transport + 7)) (f (f.transport + 6)) (f (f.transport + 5)) (f (f.transport + 4))

/-- The size of the TCP header, from its data offset field. -/
def dataOffset (f : Frame) : ℕ := 4 * (f (f.transport + 12) >>> 4).toNat

/-- The number of payload bytes; none if the headers alone exceed the total length. -/
def payloadLen (f : Frame) : ℕ := f.totalLen - f.ihl - f.dataOffset

/-- The length of the received segment: one for SYN, and its payload. -/
def segLen (f : Frame) : ℕ :=
  (if f.codeBits &&& tcpCodebitsSyn ≠ 0 then 1 else 0) + f.payloadLen

theorem segLen_le (f : Frame) : f.segLen ≤ 65536 := by
  have h₁ := (f 16).toNat_lt
  have h₂ := (f 17).toNat_lt
  have hpayload : f.payloadLen ≤ 65535 := by
    unfold payloadLen totalLen
    omega
  unfold segLen
  split <;> omega

end Frame

/-- A sent segment acknowledges a received one. -/
def TcpFrame.Acknowledges (t : TcpFrame) (recv : Frame) : Prop :=
  t.tcp.codeBits1 &&& tcpCodebitsAck ≠ 0 ∧
    t.wireAckNum = recv.wireSeqNum + UInt32.ofNat recv.segLen

instance (t : TcpFrame) (recv : Frame) : Decidable (t.Acknowledges recv) :=
  inferInstanceAs (Decidable (_ ∧ _))

/-! ## The number of `tcp_pkt_create` -/

section Segment

variable (h : Host) (n : Net) (recv : Frame) (pktType : UInt8) (payload : List UInt8)

/-- **The carry out of the last byte is lost.** -/
theorem wireAckNum_segment :
    (segment h n recv pktType payload).wireAckNum =
      wordOf (recv (recv.transport + 7) + 1) (recv (recv.transport + 6))
        (recv (recv.transport + 5)) (recv (recv.transport + 4)) := by
  have hack : (segment h n recv pktType payload).tcp.ackNum = recv.tcpSeqNum + 16777216 := by
    rfl
  have hseq : recv.tcpSeqNum = wordOf (recv (recv.transport + 4)) (recv (recv.transport + 5))
      (recv (recv.transport + 6)) (recv (recv.transport + 7)) := rfl
  rw [TcpFrame.wireAckNum_eq, hack, hseq]
  generalize recv (recv.transport + 4) = b₀, recv (recv.transport + 5) = b₁,
    recv (recv.transport + 6) = b₂, recv (recv.transport + 7) = b₃
  have h₀ := b₀.toNat_lt
  have h₁ := b₁.toNat_lt
  have h₂ := b₂.toNat_lt
  rw [← UInt32.toNat_inj]
  simp only [wireUint, uintBytes, List.getD_cons_zero, List.getD_cons_succ, wordOf_toNat, wordByte,
    UInt8.toNat_ofNat', UInt32.toNat_add, UInt8.toNat_add, UInt32.reduceToNat, UInt8.reduceToNat]
  omega

/-- The number is right exactly for segments of length one that do not end a run of 256. -/
theorem wireAckNum_segment_eq_iff :
    (segment h n recv pktType payload).wireAckNum = recv.wireSeqNum + UInt32.ofNat recv.segLen ↔
      recv.segLen = 1 ∧ recv (recv.transport + 7) ≠ 0xFF := by
  have hlen := recv.segLen_le
  have hlast : recv (recv.transport + 7) = 0xFF ↔ (recv (recv.transport + 7)).toNat = 255 := by
    rw [← UInt8.toNat_inj]
    rfl
  rw [wireAckNum_segment, Frame.wireSeqNum, ← UInt32.toNat_inj, Ne, hlast]
  generalize recv (recv.transport + 4) = b₀, recv (recv.transport + 5) = b₁,
    recv (recv.transport + 6) = b₂, recv (recv.transport + 7) = b₃, recv.segLen = len at *
  have h₀ := b₀.toNat_lt
  have h₁ := b₁.toNat_lt
  have h₂ := b₂.toNat_lt
  have h₃ := b₃.toNat_lt
  simp only [wordOf_toNat, UInt32.toNat_add, UInt8.toNat_add, UInt32.toNat_ofNat',
    UInt8.reduceToNat]
  omega

/-- Whether a built segment acknowledges the received one depends on the frame and on the ACK
bit. -/
theorem acknowledges_segment_iff :
    (segment h n recv pktType payload).Acknowledges recv ↔
      pktType &&& tcpCodebitsAck ≠ 0 ∧ recv.segLen = 1 ∧ recv (recv.transport + 7) ≠ 0xFF := by
  rw [TcpFrame.Acknowledges, wireAckNum_segment_eq_iff]
  rfl

end Segment

/-! ## Replies -/

/-- The frames that `tcp_proc` answers as it should: those it does not answer, and segments of
length one whose sequence number does not end in `0xFF`, other than the one answered by the FIN. -/
def Acknowledgeable (n : Net) (recv : Frame) : Prop :=
  match recv.kind with
  | .syn | .pshAck => recv.segLen = 1 ∧ recv (recv.transport + 7) ≠ 0xFF
  | .ack => n.finFlag = false
  | .other => True

instance (n : Net) (recv : Frame) : Decidable (Acknowledgeable n recv) := by
  unfold Acknowledgeable
  split <;> infer_instance

/-- **Replies acknowledge what was received exactly for the acknowledgeable frames.** For every
host, every state of the stack and every received frame. -/
theorem acknowledges_iff (h : Host) (n : Net) (recv : Frame) :
    (∀ t ∈ (tcpProc h n recv).2, t.Acknowledges recv) ↔ Acknowledgeable n recv := by
  have hack : tcpCodebitsAck ≠ 0 := by decide
  have hsyn : (tcpCodebitsAck ||| tcpCodebitsSyn) &&& tcpCodebitsAck ≠ 0 := by decide
  have hpsh : (tcpCodebitsAck ||| tcpCodebitsPsh) &&& tcpCodebitsAck ≠ 0 := by decide
  have hfin : tcpCodebitsFin &&& tcpCodebitsAck = 0 := by decide
  rw [tcpProc_eq, Acknowledgeable]
  cases recv.kind with
  | syn => simp [acknowledges_segment_iff, hsyn]
  | pshAck => simp [acknowledges_segment_iff, hack, hpsh]
  | ack => cases n.finFlag <;> simp [acknowledges_segment_iff, hfin]
  | other => simp

/-- A frame with the given flags, sequence number ending in `last` and one byte per unit of
`len`. -/
def exampleReceived (codeBits last len : UInt8) : Frame :=
  fun i =>
    if i = 17 then 40 + len
    else if i = 41 then last
    else if i = 46 then 0x50
    else exampleSegment codeBits i

/-- A SYN numbered 255 is acknowledged with 0, a request of 5 bytes with one byte, and the FIN
carries no ACK bit. -/
theorem not_acknowledges_syn :
    ((tcpProc exampleHost Net.init (exampleReceived 0x02 0xFF 0)).2.map TcpFrame.wireAckNum = [0] ∧
      ¬∀ t ∈ (tcpProc exampleHost Net.init (exampleReceived 0x02 0xFF 0)).2,
        t.Acknowledges (exampleReceived 0x02 0xFF 0)) ∧
    ((tcpProc exampleHost Net.init (exampleReceived 0x18 0 5)).2.map TcpFrame.wireAckNum =
        [1, 1] ∧
      ¬∀ t ∈ (tcpProc exampleHost Net.init (exampleReceived 0x18 0 5)).2,
        t.Acknowledges (exampleReceived 0x18 0 5)) ∧
    ¬∀ t ∈ (tcpProc exampleHost (tcpFin Net.init) (exampleReceived 0x10 0 0)).2,
      t.Acknowledges (exampleReceived 0x10 0 0) := by
  decide

end InuOs
