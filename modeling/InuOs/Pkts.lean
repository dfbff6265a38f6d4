import InuOs.Lib.Bytes
import Mathlib.Data.Fintype.Pi
import Mathlib.Data.List.OfFn

/-!
# Packets (`pkts_hdr.h`, `eth.c`, and the checksum of `ipv4.c`)

The packed header structures, with their fields as the kernel stores them: a `ushort` or a `uint` is
little-endian in memory, so it goes over the wire with its least significant byte first, and the
byte-order functions of `eth.c` are what turns a number into its network form.

* A **received** frame is the memory behind `buffer_addr`; nothing is known about it, so it is a
  function from offsets to bytes. The accessors below are the structure accesses of the source.
* A frame to be **sent** is a structure, with `bytes` for the memory image that checksums read.
-/

namespace InuOs

/-! ## Byte order -/

/-- `N2H_ushort`. -/
def n2hUshort (value : UInt16) : UInt16 := ((value &&& 0xFF) <<< 8) + (value >>> 8)

/-- `H2N_ushort`. -/
def h2nUshort (value : UInt16) : UInt16 := ((value &&& 0xFF) <<< 8) + (value >>> 8)

/-- `H2N_uint`. -/
def h2nUint (value : UInt32) : UInt32 :=
  ((value &&& 0xF) <<< 24) + ((value &&& 0xF0) <<< 8) + ((value &&& 0xF00) >>> 8) +
    ((value &&& 0xF000) >>> 24)

/-- `N2H_uint`. -/
def n2hUint (value : UInt32) : UInt32 :=
  ((value &&& 0xFF) <<< 24) + ((value &&& 0xFF00) <<< 8) + ((value &&& 0xFF0000) >>> 8) +
    ((value &&& 0xFF000000) >>> 24)

/-- The memory image of a `ushort`. -/
def ushortBytes (x : UInt16) : List UInt8 := [UInt8.ofNat x.toNat, UInt8.ofNat (x.toNat / 256)]

/-- The memory image of a `uint`. -/
def uintBytes (w : UInt32) : List UInt8 := [wordByte w 0, wordByte w 1, wordByte w 2, wordByte w 3]

/-- The big-endian number a receiver reads at offset `i` of a byte string. -/
def wireUint (bs : List UInt8) (i : ℕ) : UInt32 :=
  wordOf (bs.getD (i + 3) 0) (bs.getD (i + 2) 0) (bs.getD (i + 1) 0) (bs.getD i 0)

/-- `H2N_uint` keeps three hexadecimal digits of its argument. -/
theorem toNat_h2nUint (v : UInt32) :
    (h2nUint v).toNat =
      v.toNat % 16 * 2 ^ 24 + v.toNat / 16 % 16 * 2 ^ 12 + v.toNat / 256 % 16 := by
  have hd₀ := land_shiftLeft_mask v.toNat 4 0
  have hd₁ := land_shiftLeft_mask v.toNat 4 4
  have hd₂ := land_shiftLeft_mask v.toNat 4 8
  have hd₃ := land_shiftLeft_mask v.toNat 4 12
  simp only [Nat.reduceSub, Nat.reduceShiftLeft, Nat.reducePow, Nat.div_one, Nat.mul_one]
    at hd₀ hd₁ hd₂ hd₃
  simp only [h2nUint, UInt32.toNat_add, UInt32.toNat_shiftLeft, UInt32.toNat_shiftRight,
    UInt32.toNat_and, UInt32.reduceToNat, hd₀, hd₁, hd₂, hd₃, Nat.reduceMod,
    Nat.shiftLeft_eq, Nat.shiftRight_eq_div_pow]
  omega

/-- Two counters look the same on the wire exactly when they agree in their low 12 bits. -/
theorem h2nUint_eq_iff (v w : UInt32) :
    h2nUint v = h2nUint w ↔ v.toNat % 4096 = w.toNat % 4096 := by
  have hdigits : ∀ x : ℕ, x % 4096 = x % 16 + 16 * (x / 16 % 16) + 256 * (x / 256 % 16) := by
    intro x
    omega
  rw [← UInt32.toNat_inj, toNat_h2nUint, toNat_h2nUint, hdigits v.toNat, hdigits w.toNat]
  have hbound : ∀ x : ℕ, x % 16 < 16 := fun x => Nat.mod_lt x (by decide)
  have hv₀ := hbound v.toNat
  have hv₁ := hbound (v.toNat / 16)
  have hv₂ := hbound (v.toNat / 256)
  have hw₀ := hbound w.toNat
  have hw₁ := hbound (w.toNat / 16)
  have hw₂ := hbound (w.toNat / 256)
  generalize v.toNat % 16 = v₀, v.toNat / 16 % 16 = v₁, v.toNat / 256 % 16 = v₂ at *
  generalize w.toNat % 16 = w₀, w.toNat / 16 % 16 = w₁, w.toNat / 256 % 16 = w₂ at *
  omega

/-! ## Received frames -/

/-- A hardware address. -/
abbrev Mac : Type := Bytes 6

/-- An IPv4 address. -/
abbrev Ip : Type := Bytes 4

/-- The memory from `buffer_addr` on. -/
abbrev Frame : Type := ℕ → UInt8

namespace Frame

/-- The `ushort` at an offset. -/
def ushort (f : Frame) (i : ℕ) : UInt16 := UInt16.ofNat ((f i).toNat + 256 * (f (i + 1)).toNat)

/-- The `uint` at an offset. -/
def uint (f : Frame) (i : ℕ) : UInt32 := wordOf (f i) (f (i + 1)) (f (i + 2)) (f (i + 3))

/-- The `n` bytes at an offset. -/
def array (f : Frame) (i n : ℕ) : Bytes n := fun k => f (i + k)

/-- `eth_pkt->src_mac`. -/
def srcMac (f : Frame) : Mac := f.array 6 6

/-- `ipv4_p->ver`. -/
def ver (f : Frame) : UInt8 := f 14

/-- `ipv4_p->id`. -/
def id (f : Frame) : UInt16 := f.ushort 18

/-- `ipv4_p->protocol`. -/
def protocol (f : Frame) : UInt8 := f 23

/-- `ipv4_p->src_ip`. -/
def srcIp (f : Frame) : Ip := f.array 26 4

/-- The total length field of the IPv4 header, read as big-endian. -/
def totalLen (f : Frame) : ℕ := 256 * (f 16).toNat + (f 17).toNat

/-- The size of the IPv4 header, from its IHL field. -/
def ihl (f : Frame) : ℕ := 4 * (f.ver &&& 0xF).toNat

/-- Where the header after the IPv4 header starts. -/
def transport (f : Frame) : ℕ := 14 + (f.ver &&& 0xF).toNat * 4

/-- `tcp_p->src_port`. -/
def srcPort (f : Frame) : UInt16 := f.ushort f.transport

/-- `tcp_p->dst_port`. -/
def dstPort (f : Frame) : UInt16 := f.ushort (f.transport + 2)

/-- `tcp_p->seq_num`. -/
def tcpSeqNum (f : Frame) : UInt32 := f.uint (f.transport + 4)

/-- `tcp_p->code_bits[1]`. -/
def codeBits (f : Frame) : UInt8 := f (f.transport + 13)

end Frame

/-! ## Frames to be sent -/

/-- `struct eth_pkt`. -/
structure EthPkt : Type where
  dstMac : Mac
  srcMac : Mac
  type0 : UInt8
  type1 : UInt8
  deriving DecidableEq

/-- `struct ipv4_pkt`. -/
structure Ipv4Pkt : Type where
  ver : UInt8
  srvType : UInt8
  totalLen : UInt16
  id : UInt16
  fragment : UInt16
  ttl : UInt8
  protocol : UInt8
  chkSum : UInt16
  srcIp : Ip
  dstIp : Ip
  deriving DecidableEq

/-- `struct tcp_pkt`. -/
structure TcpPkt : Type where
  srcPort : UInt16
  dstPort : UInt16
  seqNum : UInt32
  ackNum : UInt32
  codeBits0 : UInt8
  codeBits1 : UInt8
  window : UInt16
  chkSum : UInt16
  urgentPtr : UInt16
  deriving DecidableEq

/-- `struct icmp_echo_pkt`. -/
structure IcmpEchoPkt : Type where
  type : UInt8
  code : UInt8
  chkSum : UInt16
  id : UInt16
  seqNum : UInt16
  timeStamp : Bytes 8
  data : Bytes 48
  deriving DecidableEq

/-- The memory image of an IPv4 header. -/
def Ipv4Pkt.bytes (p : Ipv4Pkt) : List UInt8 :=
  [p.ver, p.srvType] ++ ushortBytes p.totalLen ++ ushortBytes p.id ++ ushortBytes p.fragment ++
    [p.ttl, p.protocol] ++ ushortBytes p.chkSum ++ List.ofFn p.srcIp ++ List.ofFn p.dstIp

/-- The memory image of a TCP header. -/
def TcpPkt.bytes (p : TcpPkt) : List UInt8 :=
  ushortBytes p.srcPort ++ ushortBytes p.dstPort ++ uintBytes p.seqNum ++ uintBytes p.ackNum ++
    [p.codeBits0, p.codeBits1] ++ ushortBytes p.window ++ ushortBytes p.chkSum ++
    ushortBytes p.urgentPtr

/-- The memory image of an ICMP echo message. -/
def IcmpEchoPkt.bytes (p : IcmpEchoPkt) : List UInt8 :=
  [p.type, p.code] ++ ushortBytes p.chkSum ++ ushortBytes p.id ++ ushortBytes p.seqNum ++
    List.ofFn p.timeStamp ++ List.ofFn p.data

/-! ## Checksums -/

/-- `(bin[i*2]<<8)+bin[i*2+1]`. -/
def chksumWord (bin : List UInt8) (i : ℕ) : UInt32 :=
  ((bin.getD (i * 2) 0).toUInt32 <<< 8) + (bin.getD (i * 2 + 1) 0).toUInt32

/-- One turn of the loops of `ipv4_chksum` and `icmp_chksum`. -/
def chksumStep (chkSum word : UInt32) : UInt32 :=
  let chkSum := chkSum + word
  if chkSum > 0xFFFF then (chkSum &&& 0xFFFF) + 1 else chkSum

/-- The loops of `ipv4_chksum` and `icmp_chksum`, over `n` words. -/
def foldedSum (bin : List UInt8) (n : ℕ) : UInt32 :=
  (List.range n).foldl (fun chkSum i => chksumStep chkSum (chksumWord bin i)) 0

/-- `ipv4_chksum`. -/
def ipv4Chksum (bin : List UInt8) : UInt16 :=
  (~~~foldedSum bin (((bin.getD 0 0) &&& 0xF) * 2).toNat).toUInt16

/-- `icmp_chksum`. -/
def icmpChksum (bin : List UInt8) : UInt16 := (~~~foldedSum bin 32).toUInt16

end InuOs
