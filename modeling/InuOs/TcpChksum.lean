import InuOs.Lib.OnesComplement
import InuOs.TcpSeq

/-!
# Checksums of the segments sent

A receiver checks a segment by adding the pseudo header, the TCP header and the payload with
end-around carry: the sum must be all ones (`TcpFrame.ChksumValid`).

`tcp_chksum` adds the same words but for four things:

* the pseudo header has `my_ip` in place of the destination address;
* the last byte of an odd payload is left out;
* the carry is folded back only once (`foldCarry`);
* the caller adds 8 to the complement (`eightCarry` is the carry out of that addition).

`chksumValid_iff` combines them: a checksum is valid exactly when the four cancel modulo
`2 ^ 16 - 1`, as they do for the peer `10.0.1.2` of the host `10.0.1.10` while no carry occurs.
-/

namespace InuOs

/-! ## What a receiver checks -/

/-- The pseudo header, for a segment of `len` bytes. -/
def pseudoHeader (srcIp dstIp : Ip) (len : ℕ) : List UInt8 :=
  List.ofFn srcIp ++ List.ofFn dstIp ++ [0, ipv4TypeTcp] ++
    [UInt8.ofNat (len / 256), UInt8.ofNat len]

/-- The segment verifies, sent from `h` to the address in its frame. -/
def TcpFrame.ChksumValid (h : Host) (t : TcpFrame) : Prop :=
  onesSum 0 (pseudoHeader h.myIp t.ipv4.dstIp (20 + t.payload.length) ++ t.tcp.bytes ++ t.payload) =
    0xFFFF

instance (h : Host) (t : TcpFrame) : Decidable (t.ChksumValid h) :=
  inferInstanceAs (Decidable (_ = _))

/-! ## Word sums of the parts -/

/-- The byte swap of a `ushort`, in numbers. -/
theorem toNat_h2nUshort (v : UInt16) :
    (h2nUshort v).toNat = 256 * (v.toNat % 256) + v.toNat / 256 := by
  have hv := v.toNat_lt
  have hmask : v.toNat &&& 255 = v.toNat % 256 := Nat.and_two_pow_sub_one_eq_mod v.toNat 8
  simp only [h2nUshort, UInt16.toNat_add, UInt16.toNat_shiftLeft, UInt16.toNat_shiftRight,
    UInt16.toNat_and, UInt16.reduceToNat, hmask, Nat.reduceMod, Nat.reducePow, Nat.shiftLeft_eq,
    Nat.shiftRight_eq_div_pow]
  omega

theorem ushortBytes_h2n (v : UInt16) : ushortBytes (h2nUshort v) = (ushortBytes v).reverse := by
  have hv := v.toNat_lt
  have hhigh : (256 * (v.toNat % 256) + v.toNat / 256) / 256 = v.toNat % 256 := by omega
  simp [ushortBytes, ← UInt8.toNat_inj, toNat_h2nUshort, hhigh]

theorem wordSum_ushortBytes_h2n (v : UInt16) : wordSum (ushortBytes (h2nUshort v)) = v.toNat := by
  have hv := v.toNat_lt
  rw [ushortBytes_h2n]
  simp only [ushortBytes, List.reverse_cons, List.reverse_nil, List.nil_append, List.cons_append,
    wordSum_cons_cons, wordSum_nil, UInt8.toNat_ofNat']
  omega

theorem n2hUshort_h2nUshort (v : UInt16) : n2hUshort (h2nUshort v) = v := by
  have hv := v.toNat_lt
  have hswap : n2hUshort (h2nUshort v) = h2nUshort (h2nUshort v) := rfl
  rw [← UInt16.toNat_inj, hswap, toNat_h2nUshort, toNat_h2nUshort]
  omega

theorem uintBytes_wordOf (b₀ b₁ b₂ b₃ : UInt8) :
    uintBytes (wordOf b₀ b₁ b₂ b₃) = [b₀, b₁, b₂, b₃] := by
  have h₀ := b₀.toNat_lt
  have h₁ := b₁.toNat_lt
  have h₂ := b₂.toNat_lt
  have h₃ := b₃.toNat_lt
  simp only [uintBytes, wordByte, List.cons.injEq, ← UInt8.toNat_inj, UInt8.toNat_ofNat',
    wordOf_toNat, and_true]
  omega

/-- `N2H_uint` reads a word as a peer does. -/
theorem n2hUint_eq_wireUint (x : UInt32) : n2hUint x = wireUint (uintBytes x) 0 := by
  have hmask (k : ℕ) :
      x.toNat &&& ((2 ^ 8 - 1) <<< (8 * k)) = (wordByte x k).toNat * 2 ^ (8 * k) := by
    rw [land_shiftLeft_mask, wordByte, UInt8.toNat_ofNat', Nat.pow_mul]
  have h₀ := hmask 0
  have h₁ := hmask 1
  have h₂ := hmask 2
  have h₃ := hmask 3
  simp only [Nat.reduceMul, Nat.reduceSub, Nat.reduceShiftLeft, Nat.reducePow] at h₀ h₁ h₂ h₃
  rw [← UInt32.toNat_inj, n2hUint, wireUint, uintBytes]
  simp only [UInt32.toNat_add, UInt32.toNat_shiftLeft, UInt32.toNat_shiftRight, UInt32.toNat_and,
    UInt32.reduceToNat, h₀, h₁, h₂, h₃, Nat.reduceMod, Nat.shiftLeft_eq, Nat.shiftRight_eq_div_pow,
    List.getD_cons_zero, List.getD_cons_succ, wordOf_toNat]
  have hbound (k : ℕ) := (wordByte x k).toNat_lt
  have := hbound 0
  have := hbound 1
  have := hbound 2
  have := hbound 3
  omega

theorem uintBytes_eq_reverse_iff (x v : UInt32) :
    uintBytes x = (uintBytes v).reverse ↔ wireUint (uintBytes x) 0 = v := by
  constructor
  · intro h
    rw [h]
    exact wordOf_wordByte v
  · rintro rfl
    exact congrArg List.reverse (uintBytes_wordOf ..).symm

/-- **The conversion of a `uint` reverses its bytes, and is undone, for one hexadecimal digit
only**; that of a `ushort` always does. -/
theorem h2n_reverses (v : UInt32) (w : UInt16) :
    (uintBytes (h2nUint v) = (uintBytes v).reverse ↔ v.toNat < 16) ∧
      (n2hUint (h2nUint v) = v ↔ v.toNat < 16) ∧
      (wireUint (uintBytes (h2nUint v)) 0 = v ↔ v.toNat < 16) ∧
      ushortBytes (h2nUshort w) = (ushortBytes w).reverse ∧ n2hUshort (h2nUshort w) = w := by
  have hwire : wireUint (uintBytes (h2nUint v)) 0 = v ↔ v.toNat < 16 := wireSeq_eq_self_iff v
  refine ⟨(uintBytes_eq_reverse_iff _ v).trans hwire, ?_, hwire, ushortBytes_h2n w,
    n2hUshort_h2nUshort w⟩
  rw [n2hUint_eq_wireUint, hwire]

/-- The number 16 is sent as 2 ^ 20. -/
theorem h2nUint_sixteen :
    uintBytes (h2nUint 16) ≠ (uintBytes 16).reverse ∧ n2hUint (h2nUint 16) = 1048576 := by
  decide

theorem wordSum_pseudoHeader (srcIp dstIp : Ip) {len : ℕ} (hlen : len < 65536) :
    wordSum (pseudoHeader srcIp dstIp len) =
      wordSum (List.ofFn srcIp) + wordSum (List.ofFn dstIp) + 6 + len := by
  have hsplit : 256 * (UInt8.ofNat (len / 256)).toNat + (UInt8.ofNat len).toNat = len := by
    rw [UInt8.toNat_ofNat', UInt8.toNat_ofNat']
    omega
  have hproto : ipv4TypeTcp.toNat = 6 := rfl
  rw [pseudoHeader, List.append_assoc, List.append_assoc,
    wordSum_append _ (by rw [List.length_ofFn]), wordSum_append _ (by rw [List.length_ofFn])]
  simp only [List.cons_append, List.nil_append, wordSum_cons_cons, wordSum_nil, hsplit, hproto,
    UInt8.toNat_zero]
  omega

theorem TcpPkt.length_bytes (p : TcpPkt) : p.bytes.length = 20 := rfl

/-- The checksum field adds its own value to a header whose field is zero. -/
theorem wordSum_bytes_chkSum (p : TcpPkt) (v : UInt16) (hp : p.chkSum = 0) :
    wordSum (TcpPkt.bytes { p with chkSum := h2nUshort v }) = wordSum p.bytes + v.toNat := by
  have hv := wordSum_ushortBytes_h2n v
  have hzero : wordSum (ushortBytes p.chkSum) = 0 := by
    rw [hp]
    decide
  simp only [TcpPkt.bytes, ushortBytes, uintBytes, List.cons_append, List.nil_append,
    wordSum_cons_cons, wordSum_nil] at hv hzero ⊢
  omega

/-! ## The loops of `tcp_chksum` -/

theorem toNat_chksumWord (bin : List UInt8) (i : ℕ) :
    (chksumWord bin i).toNat =
      256 * (bin.getD (i * 2) 0).toNat + (bin.getD (i * 2 + 1) 0).toNat := by
  have ha := (bin.getD (i * 2) 0).toNat_lt
  have hb := (bin.getD (i * 2 + 1) 0).toNat_lt
  simp only [chksumWord, UInt32.toNat_add, UInt32.toNat_shiftLeft, UInt8.toNat_toUInt32,
    UInt32.reduceToNat, Nat.reduceMod, Nat.shiftLeft_eq]
  omega

theorem wordSum_take_succ (bin : List UInt8) (n : ℕ) :
    wordSum (bin.take (2 * (n + 1))) =
      (chksumWord bin 0).toNat + wordSum ((bin.drop 2).take (2 * n)) := by
  rw [toNat_chksumWord]
  rcases bin with _ | ⟨a, _ | ⟨b, l⟩⟩
  · simp
  · simp [Nat.mul_add, wordSum]
  · simp [Nat.mul_add]

theorem chksumWord_succ (bin : List UInt8) (i : ℕ) :
    chksumWord bin (i + 1) = chksumWord (bin.drop 2) i := by
  have hfst : 2 + i * 2 = (i + 1) * 2 := by omega
  have hsnd : 2 + (i * 2 + 1) = (i + 1) * 2 + 1 := by omega
  simp only [chksumWord, List.getD_eq_getElem?_getD, List.getElem?_drop, hfst, hsnd]

/-- A loop over the first `n` words adds their sum, up to overflow of the 32-bit accumulator. -/
theorem toNat_foldl_chksumWord (n : ℕ) (bin : List UInt8) (c : UInt32) :
    ((List.range n).foldl (fun c i => c + chksumWord bin i) c).toNat =
      (c.toNat + wordSum (bin.take (2 * n))) % 2 ^ 32 := by
  induction n generalizing bin c with
  | zero => simp [Nat.mod_eq_of_lt c.toNat_lt]
  | succ n ih =>
    rw [List.range_succ_eq_map, List.foldl_cons, List.foldl_map]
    simp only [Nat.succ_eq_add_one, chksumWord_succ]
    rw [ih, wordSum_take_succ, UInt32.toNat_add]
    omega

/-- The complement after one fold of the carry. -/
theorem toNat_not_fold (c : UInt32) :
    ((~~~(c + (c >>> 16))).toUInt16).toNat = 65535 - (c.toNat + c.toNat / 65536) % 65536 := by
  simp only [UInt32.toNat_toUInt16, UInt32.toNat_not, UInt32.toNat_add, UInt32.toNat_shiftRight,
    UInt32.reduceToNat, Nat.reduceMod, Nat.shiftRight_eq_div_pow, UInt32.size]
  omega

/-! ## The checksum of `tcp_pkt_create` -/

/-- The carry out of the single fold of `tcp_chksum`. -/
def foldCarry (c : ℕ) : ℕ := (c % 65536 + c / 65536) / 65536

/-- The carry out of the addition of 8 to the complement. -/
def eightCarry (c : ℕ) : ℕ := if (c + c / 65536) % 65536 < 8 then 1 else 0

section Segment

variable (h : Host) (n : Net) (recv : Frame) (pktType : UInt8) (payload : List UInt8)

/-- The part of the payload `tcp_chksum` reads. -/
def wholeWords : List UInt8 := payload.take (2 * (payload.length / 2))

/-- The part it leaves out: the last byte of an odd payload. -/
def oddByte : List UInt8 := payload.drop (2 * (payload.length / 2))

theorem wordSum_payload :
    wordSum payload = wordSum (wholeWords payload) + wordSum (oddByte payload) := by
  have hlen : (wholeWords payload).length % 2 = 0 := by
    rw [wholeWords, List.length_take]
    omega
  rw [← wordSum_append _ hlen, wholeWords, oddByte, List.take_append_drop]

/-- What `tcp_chksum` adds up: twice `my_ip`, the protocol, the length, the header with a zero
checksum, and the whole words of the payload. -/
def chksumTotal : ℕ :=
  2 * wordSum (List.ofFn h.myIp) + 6 + (20 + payload.length) +
    wordSum (tcpHeader n recv pktType).bytes + wordSum (wholeWords payload)

variable {payload}

theorem chksumTotal_lt (hfit : 54 + payload.length ≤ 4096) :
    chksumTotal h n recv pktType payload < 2 ^ 32 := by
  have hip := wordSum_le (List.ofFn h.myIp)
  have htcp := wordSum_le (tcpHeader n recv pktType).bytes
  have hpay := wordSum_le (wholeWords payload)
  rw [List.length_ofFn] at hip
  rw [TcpPkt.length_bytes] at htcp
  have hlen : (wholeWords payload).length ≤ payload.length := List.length_take_le' _ _
  unfold chksumTotal
  omega

theorem toNat_tcpChksum (hfit : 54 + payload.length ≤ 4096) :
    (tcpChksum h (ipv4Header h n recv (20 + payload.length) 0x0000 ipv4TypeTcp)
        (tcpHeader n recv pktType) payload).toNat =
      65535 - (chksumTotal h n recv pktType payload +
        chksumTotal h n recv pktType payload / 65536) % 65536 := by
  have hlen : n2hUshort (ipv4Header h n recv (20 + payload.length) 0x0000 ipv4TypeTcp).totalLen -
      20 = UInt16.ofNat (20 + payload.length) := by
    change n2hUshort (h2nUshort (UInt16.ofNat (20 + (20 + payload.length)))) - 20 = _
    rw [n2hUshort_h2nUshort, ← UInt16.toNat_inj, UInt16.toNat_sub, UInt16.toNat_ofNat',
      UInt16.toNat_ofNat']
    simp only [UInt16.reduceToNat]
    omega
  have hwords : (UInt16.ofNat (20 + payload.length)).toNat = 20 + payload.length := by
    rw [UInt16.toNat_ofNat']
    omega
  have hdummy : wordSum (List.ofFn h.myIp ++ List.ofFn h.myIp ++ [0, ipv4TypeTcp] ++
      ushortBytes (h2nUshort (UInt16.ofNat (20 + payload.length)))) =
        2 * wordSum (List.ofFn h.myIp) + 6 + (20 + payload.length) := by
    rw [wordSum_append _ (by simp), wordSum_append _ (by simp), wordSum_append _ (by simp),
      wordSum_ushortBytes_h2n, hwords]
    have hproto : wordSum [0, ipv4TypeTcp] = 6 := by decide
    omega
  have hsix : (List.ofFn h.myIp ++ List.ofFn h.myIp ++ [0, ipv4TypeTcp] ++
      ushortBytes (h2nUshort (UInt16.ofNat (20 + payload.length)))).take (2 * 6) =
        List.ofFn h.myIp ++ List.ofFn h.myIp ++ [0, ipv4TypeTcp] ++
          ushortBytes (h2nUshort (UInt16.ofNat (20 + payload.length))) :=
    List.take_of_length_le (by simp [ushortBytes])
  have hbin : ((tcpHeader n recv pktType).bytes ++ payload).take (2 * ((20 + payload.length) / 2)) =
      (tcpHeader n recv pktType).bytes ++ wholeWords payload := by
    rw [List.take_append, TcpPkt.length_bytes, List.take_of_length_le
      (by rw [TcpPkt.length_bytes]; omega), wholeWords]
    congr 2
    omega
  have hsrc : (ipv4Header h n recv (20 + payload.length) 0x0000 ipv4TypeTcp).srcIp = h.myIp := rfl
  have hlt := chksumTotal_lt h n recv pktType hfit
  simp only [tcpChksum]
  rw [hlen, hsrc, n2hUshort_h2nUshort, hwords, toNat_not_fold, toNat_foldl_chksumWord,
    toNat_foldl_chksumWord, hbin, hsix, hdummy, wordSum_append _ (by rw [TcpPkt.length_bytes])]
  have htotal : ((UInt32.toNat 0 + (2 * wordSum (List.ofFn h.myIp) + 6 + (20 + payload.length))) %
      2 ^ 32 + (wordSum (tcpHeader n recv pktType).bytes + wordSum (wholeWords payload))) % 2 ^ 32 =
        chksumTotal h n recv pktType payload := by
    rw [UInt32.toNat_zero]
    unfold chksumTotal at hlt ⊢
    omega
  rw [htotal]

/-- The words a receiver adds, by what `tcp_chksum` added. -/
theorem wordSum_segment (hfit : 54 + payload.length ≤ 4096) :
    wordSum (pseudoHeader h.myIp (segment h n recv pktType payload).ipv4.dstIp
        (20 + payload.length) ++ (segment h n recv pktType payload).tcp.bytes ++ payload) +
      wordSum (List.ofFn h.myIp) =
        chksumTotal h n recv pktType payload + wordSum (List.ofFn recv.srcIp) +
          wordSum (oddByte payload) +
          (65543 - (chksumTotal h n recv pktType payload +
            chksumTotal h n recv pktType payload / 65536) % 65536) % 65536 := by
  have hchk := toNat_tcpChksum h n recv pktType hfit
  have hdst : (segment h n recv pktType payload).ipv4.dstIp = recv.srcIp := rfl
  have htcp : wordSum (segment h n recv pktType payload).tcp.bytes =
      wordSum (tcpHeader n recv pktType).bytes + (tcpChksum h
        (ipv4Header h n recv (20 + payload.length) 0x0000 ipv4TypeTcp)
        (tcpHeader n recv pktType) payload + 8).toNat := by
    have hfield : (segment h n recv pktType payload).tcp =
        { tcpHeader n recv pktType with chkSum := h2nUshort (tcpChksum h
          (ipv4Header h n recv (20 + payload.length) 0x0000 ipv4TypeTcp)
          (tcpHeader n recv pktType) payload + 8) } := rfl
    rw [hfield, wordSum_bytes_chkSum _ _ rfl]
  have hpseudo : (pseudoHeader h.myIp recv.srcIp (20 + payload.length)).length % 2 = 0 := by
    simp [pseudoHeader]
  have hhead : (pseudoHeader h.myIp recv.srcIp (20 + payload.length) ++
      (segment h n recv pktType payload).tcp.bytes).length % 2 = 0 := by
    rw [List.length_append, TcpPkt.length_bytes]
    omega
  rw [hdst, wordSum_append _ hhead, wordSum_append _ hpseudo, htcp,
    wordSum_pseudoHeader _ _ (by omega), wordSum_payload payload, UInt16.toNat_add, hchk]
  unfold chksumTotal
  simp only [UInt16.reduceToNat]
  omega

end Segment

/-- The deviations of `tcp_chksum` cancel: the destination address, the odd byte, the added 8 and
the lost carry make up for the sender's own address. -/
def ChksumCancels (h : Host) (n : Net) (recv : Frame) (pktType : UInt8) (payload : List UInt8) :
    Prop :=
  wordSum (List.ofFn recv.srcIp) + wordSum (oddByte payload) + 8 +
      foldCarry (chksumTotal h n recv pktType payload) ≡
    wordSum (List.ofFn h.myIp) + eightCarry (chksumTotal h n recv pktType payload) [MOD 65535]

instance (h : Host) (n : Net) (recv : Frame) (pktType : UInt8) (payload : List UInt8) :
    Decidable (ChksumCancels h n recv pktType payload) :=
  inferInstanceAs (Decidable (_ = _))

/-- **A checksum is valid exactly when the deviations cancel.** For every host, every state of the
stack, every received frame, every type of segment and every payload that fits the send page. -/
theorem chksumValid_iff (h : Host) (n : Net) (recv : Frame) (pktType : UInt8)
    (payload : List UInt8) (hfit : 54 + payload.length ≤ 4096) :
    (tcpPktCreate h n recv pktType payload).2.ChksumValid h ↔
      ChksumCancels h n recv pktType payload := by
  have hsum := wordSum_segment h n recv pktType hfit
  have hmine : (segment h n recv pktType payload).payload = payload := rfl
  have hnonzero : wordSum (pseudoHeader h.myIp (segment h n recv pktType payload).ipv4.dstIp
      (20 + payload.length) ++ (segment h n recv pktType payload).tcp.bytes ++ payload) ≠ 0 := by
    have hleast : 2 * wordSum (List.ofFn h.myIp) + 6 ≤ chksumTotal h n recv pktType payload := by
      unfold chksumTotal
      omega
    omega
  rw [TcpFrame.ChksumValid, hmine, onesSum_eq_iff, ChksumCancels, Nat.ModEq, foldCarry, eightCarry]
  generalize wordSum (pseudoHeader h.myIp (segment h n recv pktType payload).ipv4.dstIp
    (20 + payload.length) ++ (segment h n recv pktType payload).tcp.bytes ++ payload) = v at *
  generalize chksumTotal h n recv pktType payload = c at *
  generalize wordSum (List.ofFn h.myIp) = m, wordSum (List.ofFn recv.srcIp) = d,
    wordSum (oddByte payload) = o at *
  split <;> omega

/-- A frame of the peer `10.0.1.k`. -/
def examplePeer (codeBits k : UInt8) : Frame :=
  fun i =>
    if i = 26 then 10 else if i = 28 then 1 else if i = 29 then k else exampleSegment codeBits i

/-- The peer `10.0.1.2` of the host `10.0.1.10` gets a valid SYN|ACK. -/
theorem chksumValid_one_peer :
    54 + ([] : List UInt8).length ≤ 4096 ∧
      (tcpPktCreate exampleHost Net.init (examplePeer 0x02 2) 0x12 []).2.ChksumValid exampleHost :=
  ⟨by decide,
    (chksumValid_iff exampleHost Net.init (examplePeer 0x02 2) 0x12 [] (by decide)).mpr
      (by decide)⟩

/-- The peer `10.0.1.3` gets an invalid one, and so does the first peer for an odd payload. -/
theorem not_chksumValid_other_peer :
    ¬(tcpPktCreate exampleHost Net.init (examplePeer 0x02 3) 0x12 []).2.ChksumValid exampleHost ∧
      ¬(tcpPktCreate exampleHost Net.init (examplePeer 0x18 2) 0x18 [1]).2.ChksumValid
        exampleHost := by
  decide

end InuOs
