import InuOs.Lib.Mealy
import InuOs.Pkts
import Mathlib.Data.Fin.VecNotation

/-!
# The IPv4, ICMP, TCP and HTTP handlers (`ipv4.c`, `icmp.c`, `tcp.c`, `http.c`)

The stack answers each frame it receives at once and keeps four global variables between frames:
`ip_id` (the identification of the last frame taken), `send_id`, `seq_num` and `fin_flag`. None of
them is kept per connection.

* `Net` holds the variables; `Host` holds `mac_addr` and `my_ip`.
* A handler returns the new variables and the frames it passed to `i8254_send`, in order, so that
  `ipv4Proc` and `tcpProc` are machines in the sense of `InuOs.Lib.Mealy`.
* `SegKind` is what `tcp_proc` looks at in a segment, and `tcpProc_eq` says what each kind does.
-/

namespace InuOs

/-! ## Globals and sent frames -/

/-- `mac_addr` and `my_ip`. -/
structure Host : Type where
  macAddr : Mac
  myIp : Ip

/-- The host of the source, with some hardware address. -/
def exampleHost : Host where
  macAddr := ![0x52, 0x54, 0x00, 0x12, 0x34, 0x56]
  myIp := ![10, 0, 1, 10]

/-- The variables the stack keeps between frames. -/
structure Net : Type where
  /-- identification of the last IPv4 frame taken; `-1` before the first one -/
  ipId : ℤ
  /-- identification of the next IPv4 frame sent -/
  sendId : UInt16
  /-- the TCP sequence counter -/
  seqNum : UInt32
  /-- `fin_flag == 1`; the variable only ever holds 0 and 1 -/
  finFlag : Bool
  deriving DecidableEq, Repr

/-- The initial values. -/
def Net.init : Net where
  ipId := -1
  sendId := 0
  seqNum := 0
  finFlag := false

/-- A TCP segment in its frame. -/
structure TcpFrame : Type where
  eth : EthPkt
  ipv4 : Ipv4Pkt
  tcp : TcpPkt
  payload : List UInt8
  deriving DecidableEq

/-- An ICMP echo message in its frame. -/
structure IcmpFrame : Type where
  eth : EthPkt
  ipv4 : Ipv4Pkt
  icmp : IcmpEchoPkt
  deriving DecidableEq

/-- What the IPv4 layer passes to `i8254_send`. -/
inductive Ipv4Sent : Type where
  | tcp (frame : TcpFrame)
  | icmp (frame : IcmpFrame)
  deriving DecidableEq

/-! ## Constants -/

/-- `IPV4_TYPE_ICMP`. -/
def ipv4TypeIcmp : UInt8 := 0x1

/-- `IPV4_TYPE_TCP`. -/
def ipv4TypeTcp : UInt8 := 0x6

/-- `TCP_CODEBITS_ACK`. -/
def tcpCodebitsAck : UInt8 := 0x10

/-- `TCP_CODEBITS_PSH`. -/
def tcpCodebitsPsh : UInt8 := 0x8

/-- `TCP_CODEBITS_SYN`. -/
def tcpCodebitsSyn : UInt8 := 0x2

/-- `TCP_CODEBITS_FIN`. -/
def tcpCodebitsFin : UInt8 := 0x1

/-! ## Building a segment -/

/-- `tcp_chksum`, on the headers and the payload as they stand in the send page. The pseudo header
takes its second address from `ipv4_p->src_ip`. -/
def tcpChksum (h : Host) (ip : Ipv4Pkt) (tcp : TcpPkt) (payload : List UInt8) : UInt16 :=
  let tcpLen : UInt16 := h2nUshort (n2hUshort ip.totalLen - 20)
  let dummy : List UInt8 :=
    List.ofFn h.myIp ++ List.ofFn ip.srcIp ++ [0, ipv4TypeTcp] ++ ushortBytes tcpLen
  let chkSum := (List.range 6).foldl (fun c i => c + chksumWord dummy i) (0 : UInt32)
  let bin := tcp.bytes ++ payload
  let chkSum := (List.range ((n2hUshort tcpLen).toNat / 2)).foldl
    (fun c i => c + chksumWord bin i) chkSum
  (~~~(chkSum + (chkSum >>> 16))).toUInt16

/-- The IPv4 header both reply builders write, `len` bytes following it. -/
def ipv4Header (h : Host) (n : Net) (recv : Frame) (len : ℕ) (fragment : UInt16)
    (protocol : UInt8) : Ipv4Pkt :=
  let ip : Ipv4Pkt :=
    { ver := 0x45
      srvType := 0
      totalLen := h2nUshort (UInt16.ofNat (20 + len))
      id := n.sendId
      fragment := h2nUshort fragment
      ttl := 255
      protocol := protocol
      chkSum := 0
      srcIp := h.myIp
      dstIp := recv.srcIp }
  { ip with chkSum := h2nUshort (ipv4Chksum ip.bytes) }

/-- The Ethernet header both reply builders write. -/
def ethHeader (h : Host) (recv : Frame) : EthPkt where
  dstMac := recv.srcMac
  srcMac := h.macAddr
  type0 := 0x08
  type1 := 0x00

/-- The TCP header of `tcp_pkt_create`, before its checksum is filled in. -/
def tcpHeader (n : Net) (recv : Frame) (pktType : UInt8) : TcpPkt where
  srcPort := recv.dstPort
  dstPort := recv.srcPort
  seqNum := h2nUint n.seqNum
  ackNum := recv.tcpSeqNum + (1 : UInt32) <<< (8 * 3)
  codeBits0 := (5 : UInt8) <<< 4
  codeBits1 := pktType
  window := h2nUshort 14480
  chkSum := 0
  urgentPtr := 0

/-- `tcp_pkt_create`, with the payload that stands in the send page. -/
def tcpPktCreate (h : Host) (n : Net) (recv : Frame) (pktType : UInt8) (payload : List UInt8) :
    Net × TcpFrame :=
  let ip := ipv4Header h n recv (20 + payload.length) 0x0000 ipv4TypeTcp
  let tcp := tcpHeader n recv pktType
  ({ n with sendId := n.sendId + 1 },
    { eth := ethHeader h recv
      ipv4 := ip
      tcp := { tcp with chkSum := h2nUshort (tcpChksum h ip tcp payload + 8) }
      payload := payload })

/-! ## HTTP -/

/-- `http_strcpy`: the characters of a string literal. -/
def httpStrcpy (src : String) : List UInt8 := src.toList.map fun c => UInt8.ofNat c.toNat

/-- What `http_proc` writes. The request is not looked at; the padding byte written after an odd
number of characters is not counted in `send_size`. -/
def httpResponse : List UInt8 :=
  httpStrcpy "HTTP/1.0 200 OK \r\n" ++ httpStrcpy "Content-Type: text/html \r\n" ++
    httpStrcpy "\r\nHello World!\r\n"

/-- `tcp_fin`. -/
def tcpFin (n : Net) : Net := { n with finFlag := true }

/-- `http_proc`. -/
def httpProc (n : Net) : Net × List UInt8 := (tcpFin n, httpResponse)

/-! ## Handlers -/

/-- `tcp_proc`. The two branches on the payload `"GET"` differ in a console message only. -/
def tcpProc (h : Host) (n : Net) (recv : Frame) : Net × List TcpFrame :=
  if recv.codeBits &&& tcpCodebitsSyn ≠ 0 then
    let (n, seg) := tcpPktCreate h n recv (tcpCodebitsAck ||| tcpCodebitsSyn) []
    ({ n with seqNum := n.seqNum + 1 }, [seg])
  else if recv.codeBits = tcpCodebitsPsh ||| tcpCodebitsAck then
    let (n, ack) := tcpPktCreate h n recv tcpCodebitsAck []
    let (n, payload) := httpProc n
    let (n, seg) := tcpPktCreate h n recv (tcpCodebitsAck ||| tcpCodebitsPsh) payload
    ({ n with seqNum := n.seqNum + 1 }, [ack, seg])
  else if recv.codeBits = tcpCodebitsAck then
    if n.finFlag then
      let (n, seg) := tcpPktCreate h n recv tcpCodebitsFin []
      ({ n with finFlag := false }, [seg])
    else (n, [])
  else (n, [])

/-- `icmp_reply_pkt_create`. -/
def icmpReplyPktCreate (h : Host) (n : Net) (recv : Frame) : Net × IcmpFrame :=
  let icmp : IcmpEchoPkt :=
    { type := 0
      code := 0
      id := recv.ushort (recv.transport + 4)
      seqNum := recv.ushort (recv.transport + 6)
      timeStamp := recv.array (recv.transport + 8) 8
      data := recv.array (recv.transport + 16) 48
      chkSum := 0 }
  ({ n with sendId := n.sendId + 1 },
    { eth := ethHeader h recv
      ipv4 := ipv4Header h n recv 64 0x4000 ipv4TypeIcmp
      icmp := { icmp with chkSum := h2nUshort (icmpChksum icmp.bytes) } })

/-- `icmp_proc`. -/
def icmpProc (h : Host) (n : Net) (recv : Frame) : Net × List IcmpFrame :=
  if recv (recv.transport + 1) = 0 then
    if recv recv.transport = 0x8 then
      let (n, reply) := icmpReplyPktCreate h n recv
      (n, [reply])
    else (n, [])
  else (n, [])

/-- `ipv4_proc`: frames that repeat the last identification, or carry our own address, are
dropped. -/
def ipv4Proc (h : Host) (n : Net) (recv : Frame) : Net × List Ipv4Sent :=
  if n.ipId ≠ (recv.id.toNat : ℤ) ∧ h.myIp ≠ recv.srcIp then
    let n := { n with ipId := (recv.id.toNat : ℤ) }
    if recv.protocol = ipv4TypeIcmp then
      let (n, sent) := icmpProc h n recv
      (n, sent.map .icmp)
    else if recv.protocol = ipv4TypeTcp then
      let (n, sent) := tcpProc h n recv
      (n, sent.map .tcp)
    else (n, [])
  else (n, [])

/-- The test of `ipv4_proc`: the packet does not repeat the last identification, and its source is
another host. -/
def Net.Takes (h : Host) (n : Net) (f : Frame) : Prop :=
  n.ipId ≠ (f.id.toNat : ℤ) ∧ h.myIp ≠ f.srcIp

instance (h : Host) (n : Net) (f : Frame) : Decidable (n.Takes h f) :=
  inferInstanceAs (Decidable (_ ∧ _))

/-! ## What each kind of segment does -/

/-- The kinds of segment `tcp_proc` tells apart. -/
inductive SegKind : Type where
  /-- the SYN bit is set -/
  | syn
  /-- exactly PSH and ACK -/
  | pshAck
  /-- exactly ACK -/
  | ack
  /-- anything else -/
  | other
  deriving DecidableEq, Repr

/-- The kind of a received segment. -/
def Frame.kind (f : Frame) : SegKind :=
  if f.codeBits &&& tcpCodebitsSyn ≠ 0 then .syn
  else if f.codeBits = tcpCodebitsPsh ||| tcpCodebitsAck then .pshAck
  else if f.codeBits = tcpCodebitsAck then .ack
  else .other

/-- The segment `tcp_pkt_create` builds. -/
abbrev segment (h : Host) (n : Net) (recv : Frame) (pktType : UInt8) (payload : List UInt8) :
    TcpFrame :=
  (tcpPktCreate h n recv pktType payload).2

/-- `tcp_proc`, by the kind of segment. -/
theorem tcpProc_eq (h : Host) (n : Net) (recv : Frame) :
    tcpProc h n recv =
      match recv.kind with
      | .syn =>
        ({ n with sendId := n.sendId + 1, seqNum := n.seqNum + 1 },
          [segment h n recv (tcpCodebitsAck ||| tcpCodebitsSyn) []])
      | .pshAck =>
        ({ n with sendId := n.sendId + 1 + 1, seqNum := n.seqNum + 1, finFlag := true },
          [segment h n recv tcpCodebitsAck [],
            segment h { n with sendId := n.sendId + 1, finFlag := true } recv
              (tcpCodebitsAck ||| tcpCodebitsPsh) httpResponse])
      | .ack =>
        if n.finFlag then
          ({ n with sendId := n.sendId + 1, finFlag := false },
            [segment h n recv tcpCodebitsFin []])
        else (n, [])
      | .other => (n, []) := by
  unfold tcpProc Frame.kind
  split
  · rfl
  · split
    · rfl
    · split
      · rfl
      · rfl

end InuOs
