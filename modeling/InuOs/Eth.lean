import InuOs.Arp
import InuOs.TcpSeq
import Mathlib.Tactic.FinCases

/-!
# Frames from the wire (`eth_proc` of `eth.c`)

`eth_proc` hands a frame to `arp_proc` or to `ipv4_proc` by its type. Two results:

* **Who is answered** (`addressed_iff`). ARP checks the target address of a request; `ipv4_proc`
  does not look at the destination address, so that an echo request or a segment for another host
  is answered as well.
* **Resolution** (`arp_resolves`). Between two hosts that run this code, a broadcast for the second
  one leads to one reply, and the reply to an entry in the table of the first; a third host takes no
  notice of either.
-/

namespace InuOs

/-! ## The handler -/

/-- The variables of all protocols. -/
structure Stack : Type where
  net : Net
  arpTable : ArpTable

/-- What any protocol passes to `i8254_send`. -/
inductive EthSent : Type where
  | arp (frame : ArpFrame)
  | ipv4 (frame : Ipv4Sent)
  deriving DecidableEq

namespace Frame

/-- The frame is taken for ARP. -/
def IsArp (f : Frame) : Prop := f 12 = 0x08 ∧ f 13 = 0x06

/-- The frame is taken for IPv4. -/
def IsIpv4 (f : Frame) : Prop := f 12 = 0x08 ∧ f 13 = 0x00

instance (f : Frame) : Decidable f.IsArp := inferInstanceAs (Decidable (_ ∧ _))

instance (f : Frame) : Decidable f.IsIpv4 := inferInstanceAs (Decidable (_ ∧ _))

/-- The destination address of the IPv4 header; no function of the source reads it. -/
def dstIp (f : Frame) : Ip := f.array 30 4

end Frame

/-- `eth_proc`. -/
def ethProc (h : Host) (junk : Bytes 2) (s : Stack) (recv : Frame) : Stack × List EthSent :=
  if recv.IsArp then
    let (arpTable, sent, _) := arpProc h s.arpTable junk recv
    ({ s with arpTable }, sent.map .arp)
  else if recv.IsIpv4 then
    let (net, sent) := ipv4Proc h s.net recv
    ({ s with net }, sent.map .ipv4)
  else (s, [])

variable {h : Host} {junk : Bytes 2} {s : Stack} {recv : Frame}

theorem ethProc_of_isArp (harp : recv.IsArp) :
    ethProc h junk s recv =
      ({ s with arpTable := (arpProc h s.arpTable junk recv).1 },
        (arpProc h s.arpTable junk recv).2.1.map .arp) := by
  rw [ethProc, if_pos harp]

theorem ethProc_of_isIpv4 (harp : ¬recv.IsArp) (hip : recv.IsIpv4) :
    ethProc h junk s recv =
      ({ s with net := (ipv4Proc h s.net recv).1 }, (ipv4Proc h s.net recv).2.map .ipv4) := by
  rw [ethProc, if_neg harp, if_pos hip]

/-! ## Who is answered -/

/-- The frame is an ARP request for `my_ip` or an IPv4 packet to `my_ip`. -/
def Frame.AddressedTo (f : Frame) (h : Host) : Prop :=
  (f.IsArp ∧ f.arpOp = arpOpsRequest ∧ f.arpDstIp = h.myIp) ∨ (f.IsIpv4 ∧ f.dstIp = h.myIp)

instance (f : Frame) (h : Host) : Decidable (f.AddressedTo h) :=
  inferInstanceAs (Decidable (_ ∨ _))

/-- A packet its protocol answers: an echo request; a SYN, a PSH|ACK, or an ACK while a FIN is
due. -/
def Solicits (n : Net) (recv : Frame) : Prop :=
  (recv.protocol = ipv4TypeIcmp ∧ recv (recv.transport + 1) = 0 ∧ recv recv.transport = 0x8) ∨
    (recv.protocol = ipv4TypeTcp ∧
      (recv.kind = .syn ∨ recv.kind = .pshAck ∨ (recv.kind = .ack ∧ n.finFlag = true)))

instance (n : Net) (recv : Frame) : Decidable (Solicits n recv) :=
  inferInstanceAs (Decidable (_ ∨ _))

theorem icmpProc_ne_nil_iff (h : Host) (n : Net) (recv : Frame) :
    (icmpProc h n recv).2 ≠ [] ↔ recv (recv.transport + 1) = 0 ∧ recv recv.transport = 0x8 := by
  rw [icmpProc]
  split
  · split <;> simp_all
  · simp_all

theorem tcpProc_ne_nil_iff (h : Host) (n : Net) (recv : Frame) :
    (tcpProc h n recv).2 ≠ [] ↔
      recv.kind = .syn ∨ recv.kind = .pshAck ∨ (recv.kind = .ack ∧ n.finFlag = true) := by
  rw [tcpProc_eq]
  cases recv.kind with
  | syn => simp
  | pshAck => simp
  | ack => cases n.finFlag <;> simp
  | other => simp

/-- `ipv4_proc` answers exactly the packets it takes and that solicit an answer. -/
theorem ipv4Proc_ne_nil_iff (h : Host) (n : Net) (recv : Frame) :
    (ipv4Proc h n recv).2 ≠ [] ↔ n.Takes h recv ∧ Solicits n recv := by
  have hproto : ipv4TypeIcmp ≠ ipv4TypeTcp := by decide
  simp only [ipv4Proc, Net.Takes, Solicits]
  split
  · next htaken =>
    split
    · next hicmp =>
      simp only [ne_eq, List.map_eq_nil_iff]
      rw [← ne_eq, icmpProc_ne_nil_iff]
      simp [htaken, hicmp, hproto]
    · next hicmp =>
      split
      · next htcp =>
        simp only [ne_eq, List.map_eq_nil_iff]
        rw [← ne_eq, tcpProc_ne_nil_iff]
        simp [htaken, htcp, hproto.symm]
      · next htcp => simp [hicmp, htcp]
  · next htaken => simp [htaken]

/-- `arp_proc` answers only requests for `my_ip`. -/
theorem arpProc_ne_nil {t : ArpTable} (hsent : (arpProc h t junk recv).2.1 ≠ []) :
    recv.arpOp = arpOpsRequest ∧ recv.arpDstIp = h.myIp := by
  simp only [arpProc] at hsent
  split_ifs at hsent with h₁ h₂ h₃ h₄ h₅ hreq hreply
  all_goals first | exact absurd rfl hsent | exact ⟨hreq.1, hreq.2.symm⟩

/-- **The stack answers only its own traffic except for IPv4 packets to other hosts.** For every
host, every state of the stack and every frame: a frame leads to a send only if it is addressed to
`my_ip`, exactly if it is not an IPv4 packet to another host that `ipv4_proc` takes and whose
protocol answers it. -/
theorem addressed_iff (h : Host) (junk : Bytes 2) (s : Stack) (recv : Frame) :
    ((ethProc h junk s recv).2 ≠ [] → recv.AddressedTo h) ↔
      ¬(recv.IsIpv4 ∧ recv.dstIp ≠ h.myIp ∧ s.net.Takes h recv ∧ Solicits s.net recv) := by
  by_cases harp : recv.IsArp
  · have hnot : ¬recv.IsIpv4 := by
      intro hip
      exact absurd (harp.2.symm.trans hip.2) (by decide)
    have hanswer : (ethProc h junk s recv).2 ≠ [] → recv.AddressedTo h := by
      intro hsent
      rw [ethProc_of_isArp harp] at hsent
      have harpSent : (arpProc h s.arpTable junk recv).2.1 ≠ [] := fun hnil =>
        hsent (by rw [hnil]; rfl)
      exact .inl ⟨harp, arpProc_ne_nil harpSent⟩
    exact iff_of_true hanswer fun hall => hnot hall.1
  · by_cases hip : recv.IsIpv4
    · have hsent : (ethProc h junk s recv).2 ≠ [] ↔ s.net.Takes h recv ∧ Solicits s.net recv := by
        rw [ethProc_of_isIpv4 harp hip, ← ipv4Proc_ne_nil_iff]
        simp only [ne_eq, List.map_eq_nil_iff]
      have haddr : recv.AddressedTo h ↔ recv.dstIp = h.myIp := by
        simp [Frame.AddressedTo, harp, hip]
      tauto
    · have hnil : (ethProc h junk s recv).2 = [] := by rw [ethProc, if_neg harp, if_neg hip]
      exact iff_of_true (fun hsent => absurd hnil hsent) fun hall => hip hall.1

/-- An echo request from `10.0.1.2` to the host `10.0.1.99`. -/
def exampleEcho : Frame := fun i =>
  if i = 12 then 0x08 else if i = 14 then 0x45 else if i = 23 then ipv4TypeIcmp
  else if i = 26 then 10 else if i = 28 then 1 else if i = 29 then 2
  else if i = 30 then 10 else if i = 32 then 1 else if i = 33 then 99
  else if i = 34 then 0x8 else 0

/-- The host `10.0.1.10` answers an echo request for `10.0.1.99`. -/
theorem not_addressed_echo :
    (ethProc exampleHost ![0, 0] { net := Net.init, arpTable := .empty } exampleEcho).2.length = 1 ∧
      ¬exampleEcho.AddressedTo exampleHost := by
  decide

/-! ## Resolution -/

section Carries

variable {f : Frame} {h : Host} {ethDst dstMac : Mac} {op : UInt16} {dstIp : Ip} {junk : Bytes 2}

/-- What a receiver reads in a frame of the builders. -/
structure Frame.ReadsArp (f : Frame) (h : Host) (op : UInt16) (dstIp : Ip) : Prop where
  isArp : f.IsArp
  hrdType : f.hrdType = arpHardwareType
  proType : f.proType = arpProtocolType
  hrdLen : f.hrdLen = 6
  proLen : f.proLen = 4
  arpOp : f.arpOp = op
  srcMac : f.arpSrcMac = h.macAddr
  srcIp : f.arpSrcIp = h.myIp
  dstIp : f.arpDstIp = dstIp

theorem Frame.ushort_ushortBytes {i : ℕ} {x : UInt16} (h₀ : f i = UInt8.ofNat x.toNat)
    (h₁ : f (i + 1) = UInt8.ofNat (x.toNat / 256)) : f.ushort i = x := by
  have hx := x.toNat_lt
  rw [Frame.ushort, h₀, h₁, ← UInt16.toNat_inj, UInt16.toNat_ofNat', UInt8.toNat_ofNat',
    UInt8.toNat_ofNat']
  omega

/-- **The decoder reads back what the encoders write.** -/
theorem Frame.Carries.readsArp (hf : f.Carries (arpFrame h ethDst op dstMac dstIp junk).bytes) :
    f.ReadsArp h op dstIp := by
  have hbyte : ∀ i < 44, f i = (arpFrame h ethDst op dstMac dstIp junk).bytes.getD i 0 := by
    rwa [Frame.Carries, ArpFrame.length_bytes] at hf
  constructor
  case isArp => exact ⟨hbyte 12 (by decide), hbyte 13 (by decide)⟩
  case hrdType => exact Frame.ushort_ushortBytes (hbyte 14 (by decide)) (hbyte 15 (by decide))
  case proType => exact Frame.ushort_ushortBytes (hbyte 16 (by decide)) (hbyte 17 (by decide))
  case hrdLen => exact hbyte 18 (by decide)
  case proLen => exact hbyte 19 (by decide)
  case arpOp => exact Frame.ushort_ushortBytes (hbyte 20 (by decide)) (hbyte 21 (by decide))
  case srcMac =>
    funext k
    fin_cases k <;> exact hbyte _ (by decide)
  case srcIp =>
    funext k
    fin_cases k <;> exact hbyte _ (by decide)
  case dstIp =>
    funext k
    fin_cases k <;> exact hbyte _ (by decide)

end Carries

namespace Frame.ReadsArp

variable {f : Frame} {h : Host} {op : UInt16} {dstIp : Ip}

/-- A host that is neither the sender nor the target of a packet drops it. -/
theorem ethProc_other (hf : f.ReadsArp h op dstIp) {c : Host} (hsrc : c.myIp ≠ h.myIp)
    (hdst : c.myIp ≠ dstIp) (junk : Bytes 2) (s : Stack) : ethProc c junk s f = (s, []) := by
  rw [ethProc_of_isArp hf.isArp]
  simp [arpProc, hf.hrdType, hf.proType, hf.hrdLen, hf.proLen, hf.srcIp, hf.dstIp, hsrc, hdst]

/-- The target of a request replies. -/
theorem ethProc_request (hf : f.ReadsArp h arpOpsRequest dstIp) {b : Host} (hb : b.myIp = dstIp)
    (junk : Bytes 2) (s : Stack) :
    ethProc b junk s f = (s, [.arp (arpReplyPktCreate b junk f)]) := by
  rw [ethProc_of_isArp hf.isArp]
  simp [arpProc, hf.hrdType, hf.proType, hf.hrdLen, hf.proLen, hf.arpOp, hf.dstIp, hb]

/-- The target of a reply updates its table. -/
theorem ethProc_reply (hf : f.ReadsArp h arpOpsReply dstIp) {a : Host} (ha : a.myIp = dstIp)
    (junk : Bytes 2) (s : Stack) :
    ethProc a junk s f = ({ s with arpTable := arpTableUpdate s.arpTable f }, []) := by
  have hop : arpOpsReply ≠ arpOpsRequest := by decide
  rw [ethProc_of_isArp hf.isArp]
  simp [arpProc, hf.hrdType, hf.proType, hf.hrdLen, hf.proLen, hf.arpOp, hf.dstIp, ha, hop]

end Frame.ReadsArp

/-- **Two hosts resolve each other.** For all hosts `a` and `b` with `b` at `10.0.1.x`, every
reachable table of `a` with a free slot or an entry for `b`, and all other variables arbitrary: the
broadcast of `a` for `x` makes `b` send exactly one frame and leaves its variables unchanged, and
that frame makes the table of `a` map the address of `b` to its hardware address, all other entries
unchanged: the slot that is written was free or had the address of `b`. A third host sends nothing
on either frame and keeps its variables. -/
theorem arp_resolves (a b : Host) (x : UInt32) (hb : b.myIp = ![10, 0, 1, x.toUInt8])
    (sa sb : Stack) (hreach : ArpReachable sa.arpTable)
    (hroom : (∃ i < arpTableMax, (sa.arpTable i).use = 0) ∨
      ∃ i < arpTableMax, (sa.arpTable i).ip = b.myIp)
    (junkA junkB : Bytes 2) (f : Frame) (hf : f.Carries (arpBroadcast a junkA x).bytes) :
    ∃ reply : ArpFrame, ethProc b junkB sb f = (sb, [.arp reply]) ∧
      ∀ g : Frame, g.Carries reply.bytes →
        (∃ i < arpTableMax, ((sa.arpTable i).use = 0 ∨ (sa.arpTable i).ip = b.myIp) ∧
          ethProc a junkA sa g =
              ({ sa with arpTable := sa.arpTable.setEntry i b.myIp b.macAddr }, []) ∧
            (sa.arpTable.setEntry i b.myIp b.macAddr).Maps i b.myIp b.macAddr) ∧
        ∀ (c : Host) (junkC : Bytes 2) (sc : Stack), c.myIp ≠ a.myIp → c.myIp ≠ b.myIp →
          ethProc c junkC sc f = (sc, []) ∧ ethProc c junkC sc g = (sc, []) := by
  have hreq := hf.readsArp
  rw [← hb] at hreq
  refine ⟨arpReplyPktCreate b junkB f, hreq.ethProc_request rfl junkB sb, fun g hg => ?_⟩
  have hrep := hg.readsArp
  rw [hreq.srcIp] at hrep
  refine ⟨?_, fun c junkC sc hca hcb => ?_⟩
  · have hnonzero : g.arpSrcIp ≠ fun _ => 0 := by
      rw [hrep.srcIp, hb]
      exact fun h => absurd (congrFun h 0) (by decide : (10 : UInt8) ≠ 0)
    obtain ⟨i, hi, hslot, heq, hmaps⟩ :=
      hreach.wf.exists_update_eq g hnonzero (by rw [hrep.srcIp]; exact hroom)
    rw [heq, hrep.srcIp, hrep.srcMac] at hmaps
    rw [hrep.srcIp] at hslot
    refine ⟨i, hi, hslot, ?_, hmaps⟩
    rw [hrep.ethProc_reply rfl junkA sa, heq, hrep.srcIp, hrep.srcMac]
  · exact ⟨hreq.ethProc_other hca hcb junkC sc, hrep.ethProc_other hcb hca junkC sc⟩

/-- Another host of the link. -/
def exampleNeighbour : Host where
  macAddr := ![0x52, 0x54, 0x00, 0xAB, 0xCD, 0xEF]
  myIp := ![10, 0, 1, 77]

/-- The host of the source resolves its neighbour from the empty table. -/
theorem arp_resolves_neighbour :
    ∃ reply : ArpFrame,
      ethProc exampleNeighbour ![3, 4] { net := Net.init, arpTable := .empty }
          (fun i => (arpBroadcast exampleHost ![1, 2] 77).bytes.getD i 0) =
        ({ net := Net.init, arpTable := .empty }, [.arp reply]) ∧
      ∀ g : Frame, g.Carries reply.bytes → ∃ i < arpTableMax,
        (ethProc exampleHost ![1, 2] { net := Net.init, arpTable := .empty } g).1.arpTable.Maps i
          exampleNeighbour.myIp exampleNeighbour.macAddr := by
  obtain ⟨reply, hreply, htable⟩ :=
    arp_resolves exampleHost exampleNeighbour 77 rfl { net := Net.init, arpTable := .empty }
      { net := Net.init, arpTable := .empty } .empty (.inl ⟨0, by decide, rfl⟩) ![1, 2] ![3, 4] _
      fun _ _ => rfl
  refine ⟨reply, hreply, fun g hg => ?_⟩
  obtain ⟨⟨i, hi, -, heq, hmaps⟩, -⟩ := htable g hg
  exact ⟨i, hi, by rw [heq]; exact hmaps⟩

end InuOs
