import InuOs.Eth
import InuOs.TcpChksum

/-!
# Checksums and echo replies (`ipv4.c`, `icmp.c`)

`ipv4_chksum` and `icmp_chksum` add 16-bit words and carry at once, so that their running sum is a
ones'-complement sum at every turn (`toNat_foldedSum`). The headers that are sent sum to all ones,
whatever was received (`ipv4_icmp_chksums`).

`icmp_reply_pkt_create` answers with a message of 64 bytes, whatever the length of the request: the
56 bytes after the request's header are echoed, or what the buffer holds there. The reply echoes the
request when the request carries 56 bytes of data, and only then (`icmpReply_echoes_iff`).
-/

namespace InuOs

/-! ## The loop of `ipv4_chksum` and `icmp_chksum` -/

theorem toNat_chksumWord_le (bin : List UInt8) (i : ℕ) : (chksumWord bin i).toNat ≤ 65535 := by
  have ha := (bin.getD (i * 2) 0).toNat_lt
  have hb := (bin.getD (i * 2 + 1) 0).toNat_lt
  rw [toNat_chksumWord]
  omega

/-- One turn is an addition with end-around carry. -/
theorem toNat_chksumStep {c w : UInt32} (hc : c.toNat ≤ 65535) (hw : w.toNat ≤ 65535) :
    (chksumStep c w).toNat = onesAdd c.toNat w.toNat := by
  have hadd : (c + w).toNat = c.toNat + w.toNat := by
    rw [UInt32.toNat_add]
    omega
  have hgt : c + w > 0xFFFF ↔ 65535 < c.toNat + w.toNat := by
    rw [gt_iff_lt, UInt32.lt_iff_toNat_lt, hadd]
    rfl
  have hmask : (c.toNat + w.toNat) &&& 65535 = (c.toNat + w.toNat) % 65536 :=
    Nat.and_two_pow_sub_one_eq_mod _ 16
  unfold chksumStep onesAdd
  dsimp only
  split_ifs with h
  · rw [hgt] at h
    simp only [UInt32.toNat_add, UInt32.toNat_and, UInt32.reduceToNat]
    rw [← UInt32.toNat_add, hadd, hmask]
    omega
  · rw [hgt] at h
    omega

theorem onesSum_take_succ (bin : List UInt8) (n : ℕ) {s : ℕ} (hs : s ≤ 65535) :
    onesSum s (bin.take (2 * (n + 1))) =
      onesSum (onesAdd s (chksumWord bin 0).toNat) ((bin.drop 2).take (2 * n)) := by
  have hzero : onesAdd s 0 = s := by
    unfold onesAdd
    omega
  rw [toNat_chksumWord]
  rcases bin with _ | ⟨a, _ | ⟨b, l⟩⟩
  · simp [onesSum, hzero]
  · simp [Nat.mul_add, onesSum]
  · simp [Nat.mul_add, onesSum]

/-- The loop from any 16-bit running sum. -/
theorem toNat_foldl_chksumStep (n : ℕ) (bin : List UInt8) (c : UInt32) (hc : c.toNat ≤ 65535) :
    ((List.range n).foldl (fun c i => chksumStep c (chksumWord bin i)) c).toNat =
      onesSum c.toNat (bin.take (2 * n)) := by
  induction n generalizing bin c with
  | zero => simp [onesSum]
  | succ n ih =>
    have hw := toNat_chksumWord_le bin 0
    have hstep := toNat_chksumStep hc hw
    rw [List.range_succ_eq_map, List.foldl_cons, List.foldl_map]
    simp only [Nat.succ_eq_add_one, chksumWord_succ]
    rw [ih _ _ (hstep ▸ onesAdd_le hc hw), hstep, onesSum_take_succ bin n hc]

/-- **The running sum** after `n` turns. -/
theorem toNat_foldedSum (bin : List UInt8) (n : ℕ) :
    (foldedSum bin n).toNat = onesSum 0 (bin.take (2 * n)) :=
  toNat_foldl_chksumStep n bin 0 (by decide)

theorem toNat_foldedSum_le (bin : List UInt8) (n : ℕ) : (foldedSum bin n).toNat ≤ 0xFFFF := by
  rw [toNat_foldedSum]
  exact (onesSum_spec _ 0 (by omega)).1

/-- The complement of a running sum, as the functions return it. -/
theorem toNat_not_foldedSum (bin : List UInt8) (n : ℕ) :
    ((~~~foldedSum bin n).toUInt16).toNat = 0xFFFF - onesSum 0 (bin.take (2 * n)) := by
  have hle := toNat_foldedSum_le bin n
  rw [← toNat_foldedSum]
  simp only [UInt32.toNat_toUInt16, UInt32.toNat_not, UInt32.size]
  omega

/-! ## A checksum field -/

/-- A checksum in its place, after an even number of bytes, makes the whole sum to all ones. -/
theorem onesSum_chkSum {pre post : List UInt8} (hpre : pre.length % 2 = 0) {v : UInt16}
    (hv : v.toNat = 0xFFFF - onesSum 0 (pre ++ (ushortBytes 0 ++ post))) :
    onesSum 0 (pre ++ (ushortBytes (h2nUshort v) ++ post)) = 0xFFFF := by
  have hsplit (x : UInt16) : wordSum (pre ++ (ushortBytes x ++ post)) =
      wordSum pre + (wordSum (ushortBytes x) + wordSum post) := by
    rw [wordSum_append _ hpre, wordSum_append _ (by simp [ushortBytes])]
  have hzero : wordSum (ushortBytes 0) = 0 := rfl
  refine onesSum_of_complement (l := pre ++ (ushortBytes 0 ++ post)) ?_
  rw [hsplit, hsplit, wordSum_ushortBytes_h2n, hzero, ← hv]
  omega

theorem Ipv4Pkt.length_bytes (p : Ipv4Pkt) : p.bytes.length = 20 := rfl

theorem IcmpEchoPkt.length_bytes (p : IcmpEchoPkt) : p.bytes.length = 64 := by
  simp [IcmpEchoPkt.bytes, ushortBytes]

/-- An IPv4 header of 20 bytes, its checksum filled in. -/
theorem Ipv4Pkt.onesSum_bytes (p : Ipv4Pkt) (hver : p.ver = 0x45) (hchk : p.chkSum = 0) :
    onesSum 0 (Ipv4Pkt.bytes { p with chkSum := h2nUshort (ipv4Chksum p.bytes) }) = 0xFFFF := by
  have hfirst : p.bytes.getD 0 0 = 0x45 := hver
  have hv : (ipv4Chksum p.bytes).toNat = 0xFFFF - onesSum 0 p.bytes := by
    rw [ipv4Chksum, hfirst, toNat_not_foldedSum,
      List.take_of_length_le (by rw [p.length_bytes]; rfl)]
  have hsplit (x : UInt16) : Ipv4Pkt.bytes { p with chkSum := x } =
      ([p.ver, p.srvType] ++ ushortBytes p.totalLen ++ ushortBytes p.id ++
        ushortBytes p.fragment ++ [p.ttl, p.protocol]) ++
        (ushortBytes x ++ (List.ofFn p.srcIp ++ List.ofFn p.dstIp)) := by
    simp only [Ipv4Pkt.bytes, List.append_assoc]
  rw [hsplit]
  refine onesSum_chkSum (by simp [ushortBytes]) ?_
  rw [hv, ← hsplit, ← hchk]

/-- An ICMP echo message, its checksum filled in. -/
theorem IcmpEchoPkt.onesSum_bytes (p : IcmpEchoPkt) (hchk : p.chkSum = 0) :
    onesSum 0 (IcmpEchoPkt.bytes { p with chkSum := h2nUshort (icmpChksum p.bytes) }) = 0xFFFF := by
  have hv : (icmpChksum p.bytes).toNat = 0xFFFF - onesSum 0 p.bytes := by
    rw [icmpChksum, toNat_not_foldedSum, List.take_of_length_le (by rw [p.length_bytes])]
  have hsplit (x : UInt16) : IcmpEchoPkt.bytes { p with chkSum := x } =
      [p.type, p.code] ++ (ushortBytes x ++ (ushortBytes p.id ++ (ushortBytes p.seqNum ++
        (List.ofFn p.timeStamp ++ List.ofFn p.data)))) := by
    simp only [IcmpEchoPkt.bytes, List.append_assoc]
  rw [hsplit]
  refine onesSum_chkSum (by simp) ?_
  rw [hv, ← hsplit, ← hchk]

/-- **The checksums that are sent verify.** For every received frame, host, counter and payload, the
IPv4 headers of TCP segments and echo replies and the echo replies themselves sum to all ones, and
the sum that `ipv4_chksum` and `icmp_chksum` keep has 16 bits after every turn. -/
theorem ipv4_icmp_chksums (h : Host) (n : Net) (recv : Frame) :
    (∀ pktType payload,
      onesSum 0 (tcpPktCreate h n recv pktType payload).2.ipv4.bytes = 0xFFFF) ∧
    onesSum 0 (icmpReplyPktCreate h n recv).2.ipv4.bytes = 0xFFFF ∧
    (icmpReplyPktCreate h n recv).2.icmp.bytes.length = 64 ∧
    onesSum 0 (icmpReplyPktCreate h n recv).2.icmp.bytes = 0xFFFF ∧
    ∀ bin k, (foldedSum bin k).toNat ≤ 0xFFFF :=
  ⟨fun _ _ => Ipv4Pkt.onesSum_bytes _ rfl rfl, Ipv4Pkt.onesSum_bytes _ rfl rfl,
    IcmpEchoPkt.length_bytes _, IcmpEchoPkt.onesSum_bytes _ rfl, toNat_foldedSum_le⟩

/-! ## Echo requests -/

namespace Frame

/-- The `n` bytes at an offset, as a list. -/
def slice (f : Frame) (i n : ℕ) : List UInt8 := (List.range n).map fun k => f (i + k)

/-- The data of an echo message: what its total length leaves after the two headers. -/
def echoData (f : Frame) : List UInt8 := f.slice (f.transport + 8) (f.totalLen - f.ihl - 8)

@[simp] theorem length_slice (f : Frame) (i n : ℕ) : (f.slice i n).length = n := by
  simp [slice]

theorem ofFn_array (f : Frame) (i n : ℕ) : List.ofFn (f.array i n) = f.slice i n := by
  refine List.ext_getElem (by simp) fun k h₁ h₂ => ?_
  simp [slice, array]

theorem slice_append (f : Frame) (i m n : ℕ) :
    f.slice i m ++ f.slice (i + m) n = f.slice i (m + n) := by
  simp only [slice, List.range_add, List.map_append, List.map_map]
  refine congrArg _ (List.map_congr_left fun k _ => ?_)
  rw [Function.comp, Nat.add_assoc]

end Frame

/-- A frame of `len` bytes holds an ICMP echo request, whole. -/
structure EchoRequest (f : Frame) (len : ℕ) : Prop where
  isIpv4 : f.IsIpv4
  version : f.ver >>> 4 = 4
  protocol : f.protocol = ipv4TypeIcmp
  header : 20 ≤ f.ihl
  type : f f.transport = 0x8
  code : f (f.transport + 1) = 0
  message : f.ihl + 8 ≤ f.totalLen
  inside : 14 + f.totalLen ≤ len

/-- The data a reply sends after its header. -/
def IcmpEchoPkt.echoData (p : IcmpEchoPkt) : List UInt8 := List.ofFn p.timeStamp ++ List.ofFn p.data

/-- The reply to `f` echoes it: the same identifier, sequence number and data and no more data, a
checksum over just that, and nothing that depends on bytes after the received message. -/
structure Echoes (h : Host) (n : Net) (f : Frame) : Prop where
  id : (icmpReplyPktCreate h n f).2.icmp.id = f.ushort (f.transport + 4)
  seqNum : (icmpReplyPktCreate h n f).2.icmp.seqNum = f.ushort (f.transport + 6)
  data : (icmpReplyPktCreate h n f).2.icmp.echoData = f.echoData
  totalLen : (n2hUshort (icmpReplyPktCreate h n f).2.ipv4.totalLen).toNat =
    20 + (8 + f.echoData.length)
  chkSum : onesSum 0 ([0, 0] ++ (ushortBytes (icmpReplyPktCreate h n f).2.icmp.chkSum ++
    (ushortBytes (f.ushort (f.transport + 4)) ++ (ushortBytes (f.ushort (f.transport + 6)) ++
      f.echoData)))) = 0xFFFF
  confined : ∀ g : Frame, (∀ i < 14 + f.totalLen, g i = f i) →
    icmpReplyPktCreate h n g = icmpReplyPktCreate h n f

section Reply

variable (h : Host) (n : Net) (f : Frame)

/-- What is echoed: the 56 bytes after the header of the request. -/
theorem icmpReply_echoData :
    (icmpReplyPktCreate h n f).2.icmp.echoData = f.slice (f.transport + 8) 56 := by
  have h₁ : List.ofFn (icmpReplyPktCreate h n f).2.icmp.timeStamp = f.slice (f.transport + 8) 8 :=
    f.ofFn_array _ _
  have h₂ : List.ofFn (icmpReplyPktCreate h n f).2.icmp.data = f.slice (f.transport + 8 + 8) 48 :=
    f.ofFn_array _ _
  rw [IcmpEchoPkt.echoData, h₁, h₂, f.slice_append]

theorem icmpReply_totalLen :
    (n2hUshort (icmpReplyPktCreate h n f).2.ipv4.totalLen).toNat = 84 := by
  have hlen : (icmpReplyPktCreate h n f).2.ipv4.totalLen = h2nUshort 84 := rfl
  rw [hlen, n2hUshort_h2nUshort]
  rfl

/-- The reply is built from the source addresses and the 64 bytes from the transport header on. -/
theorem icmpReply_congr {g : Frame} (hg : ∀ i < f.transport + 64, g i = f i)
    (htr : 34 ≤ f.transport) : icmpReplyPktCreate h n g = icmpReplyPktCreate h n f := by
  have hver : g.ver = f.ver := hg 14 (by omega)
  have htransport : g.transport = f.transport := by rw [Frame.transport, hver, Frame.transport]
  have harray (i m : ℕ) (him : i + m ≤ f.transport + 64) : g.array i m = f.array i m := by
    funext k
    exact hg (i + k) (by omega)
  have hushort (i : ℕ) (hi : i + 2 ≤ f.transport + 64) : g.ushort i = f.ushort i := by
    rw [Frame.ushort, hg i (by omega), hg (i + 1) (by omega), Frame.ushort]
  have hmac : g.srcMac = f.srcMac := harray 6 6 (by omega)
  have hip : g.srcIp = f.srcIp := harray 26 4 (by omega)
  simp only [icmpReplyPktCreate, ethHeader, ipv4Header, htransport, hmac, hip,
    harray (f.transport + 8) 8 (by omega), harray (f.transport + 16) 48 (by omega),
    hushort (f.transport + 4) (by omega), hushort (f.transport + 6) (by omega)]

end Reply

/-- **Which requests are echoed.** The reply to a well-formed request, whatever the length of its
IPv4 header, echoes it exactly when the request carries 56 bytes of data. -/
theorem icmpReply_echoes_iff (h : Host) (n : Net) (f : Frame) (len : ℕ) (hf : EchoRequest f len) :
    Echoes h n f ↔ f.echoData.length = 56 := by
  have hlen : f.echoData.length = f.totalLen - f.ihl - 8 := f.length_slice _ _
  constructor
  · intro he
    rw [← he.data, icmpReply_echoData, f.length_slice]
  · intro h56
    have hdata : (icmpReplyPktCreate h n f).2.icmp.echoData = f.echoData := by
      rw [icmpReply_echoData, Frame.echoData, ← hlen, h56]
    have hbytes : onesSum 0 (icmpReplyPktCreate h n f).2.icmp.bytes = 0xFFFF :=
      IcmpEchoPkt.onesSum_bytes _ rfl
    have htransport : f.transport = 14 + f.ihl := by rw [Frame.transport, Frame.ihl, Nat.mul_comm]
    have hheader := hf.header
    refine ⟨rfl, rfl, hdata, ?_, ?_, ?_⟩
    · rw [icmpReply_totalLen, h56]
    · rw [← hdata]
      exact hbytes
    · intro g hg
      exact icmpReply_congr h n f (fun i hi => hg i (by omega)) (by omega)

/-- A buffer with an echo request from `10.0.1.2` whose IPv4 header says `size` bytes; it holds
`0x5A` from byte 60 on. -/
def echoOf (size : UInt8) : Frame := fun i =>
  if i = 17 then size else if 60 ≤ i then 0x5A else exampleEcho i

/-- A request with 56 bytes of data, in a frame of 98 bytes. -/
theorem icmpReply_echoes_56 : Echoes exampleHost Net.init (echoOf 84) := by
  refine (icmpReply_echoes_iff _ _ _ 98 ?_).mpr (by decide)
  constructor <;> decide

/-- A request without data, padded to the shortest Ethernet frame: the reply sends back the padding
and 38 bytes that the buffer held before. -/
theorem icmpReply_discloses :
    EchoRequest (echoOf 28) 60 ∧ (echoOf 28).echoData = [] ∧
      (icmpReplyPktCreate exampleHost Net.init (echoOf 28)).2.icmp.echoData =
        List.replicate 18 0 ++ List.replicate 38 0x5A ∧
      ¬Echoes exampleHost Net.init (echoOf 28) := by
  have hdata : (icmpReplyPktCreate exampleHost Net.init (echoOf 28)).2.icmp.echoData =
      List.replicate 18 0 ++ List.replicate 38 0x5A := by
    decide
  have hnone : (echoOf 28).echoData = [] := by decide
  refine ⟨by constructor <;> decide, hnone, hdata, fun he => ?_⟩
  have heq := hdata.symm.trans (he.data.trans hnone)
  cases heq

end InuOs
