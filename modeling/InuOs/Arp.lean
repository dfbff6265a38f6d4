import InuOs.Tcp

/-!
# Address resolution (`arp.c`)

`arp_proc` answers requests for `my_ip` and records the sender of a reply in `arp_table`.

* `struct arp_pkt` declares `dst_ip[6]` where the format has four bytes; the two bytes after the
  address are sent as the page from `kalloc` holds them, so the builders take them as `junk`.
* `arp_table_search` returns the index of an entry, or `-i - 1` for a free slot `i`, or `0` when
  the table is full; `arpTableSearch_spec` separates the three.
* `ArpReachable` are the tables `arp_table_update` can lead to from the empty one, and
  `ArpTable.Wf` what holds of all of them.
-/

namespace InuOs

/-! ## Packets -/

/-- `ARP_HARDWARE_TYPE`. -/
def arpHardwareType : UInt16 := 0x0100

/-- `ARP_PROTOCOL_TYPE`. -/
def arpProtocolType : UInt16 := 0x0008

/-- `ARP_OPS_REQUEST`. -/
def arpOpsRequest : UInt16 := 0x0100

/-- `ARP_OPS_REPLY`. -/
def arpOpsReply : UInt16 := 0x0200

/-- `ARP_UPDATED_TABLE`. -/
def arpUpdatedTable : ℤ := 1

/-- `ARP_CREATED_REPLY`. -/
def arpCreatedReply : ℤ := 2

/-- `struct arp_pkt`. -/
structure ArpPkt : Type where
  hrdType : UInt16
  proType : UInt16
  hrdLen : UInt8
  proLen : UInt8
  op : UInt16
  srcMac : Mac
  srcIp : Ip
  dstMac : Mac
  /-- the first four bytes of `dst_ip[6]` -/
  dstIp : Ip
  /-- the other two, which nothing writes -/
  junk : Bytes 2
  deriving DecidableEq

/-- The memory image of an Ethernet header. -/
def EthPkt.bytes (p : EthPkt) : List UInt8 :=
  List.ofFn p.dstMac ++ List.ofFn p.srcMac ++ [p.type0, p.type1]

/-- The memory image of an ARP packet. -/
def ArpPkt.bytes (p : ArpPkt) : List UInt8 :=
  ushortBytes p.hrdType ++ ushortBytes p.proType ++ [p.hrdLen, p.proLen] ++ ushortBytes p.op ++
    List.ofFn p.srcMac ++ List.ofFn p.srcIp ++ List.ofFn p.dstMac ++ List.ofFn p.dstIp ++
    List.ofFn p.junk

/-- An ARP packet in its frame. -/
structure ArpFrame : Type where
  eth : EthPkt
  arp : ArpPkt
  deriving DecidableEq

/-- The `send_size` bytes passed to `i8254_send`. -/
def ArpFrame.bytes (a : ArpFrame) : List UInt8 := a.eth.bytes ++ a.arp.bytes

theorem ArpFrame.length_bytes (a : ArpFrame) : a.bytes.length = 44 := rfl

namespace Frame

/-- `arp_p->hrd_type`. -/
def hrdType (f : Frame) : UInt16 := f.ushort 14

/-- `arp_p->pro_type`. -/
def proType (f : Frame) : UInt16 := f.ushort 16

/-- `arp_p->hrd_len`. -/
def hrdLen (f : Frame) : UInt8 := f 18

/-- `arp_p->pro_len`. -/
def proLen (f : Frame) : UInt8 := f 19

/-- `arp_p->op`. -/
def arpOp (f : Frame) : UInt16 := f.ushort 20

/-- `arp_p->src_mac`. -/
def arpSrcMac (f : Frame) : Mac := f.array 22 6

/-- `arp_p->src_ip`. -/
def arpSrcIp (f : Frame) : Ip := f.array 28 4

/-- The first four bytes of `arp_p->dst_ip`. -/
def arpDstIp (f : Frame) : Ip := f.array 38 4

/-- The buffer starts with the given bytes; what follows them is not known. -/
def Carries (f : Frame) (bs : List UInt8) : Prop := ∀ i < bs.length, f i = bs.getD i 0

end Frame

/-! ## Building packets -/

/-- The frame both builders write. -/
def arpFrame (h : Host) (ethDst : Mac) (op : UInt16) (dstMac : Mac) (dstIp : Ip) (junk : Bytes 2) :
    ArpFrame where
  eth :=
    { dstMac := ethDst
      srcMac := h.macAddr
      type0 := 0x08
      type1 := 0x06 }
  arp :=
    { hrdType := arpHardwareType
      proType := arpProtocolType
      hrdLen := 6
      proLen := 4
      op := op
      srcMac := h.macAddr
      srcIp := h.myIp
      dstMac := dstMac
      dstIp := dstIp
      junk := junk }

/-- `arp_broadcast`: the last byte of the address is `ip`, truncated. -/
def arpBroadcast (h : Host) (junk : Bytes 2) (ip : UInt32) : ArpFrame :=
  arpFrame h ![0xff, 0xff, 0xff, 0xff, 0xff, 0xff] arpOpsRequest ![0, 0, 0, 0, 0, 0]
    ![10, 0, 1, ip.toUInt8] junk

/-- `arp_reply_pkt_create`. -/
def arpReplyPktCreate (h : Host) (junk : Bytes 2) (recv : Frame) : ArpFrame :=
  arpFrame h recv.arpSrcMac arpOpsReply recv.arpSrcMac recv.arpSrcIp junk

/-! ## The table -/

/-- `ARP_TABLE_MAX`. -/
def arpTableMax : ℕ := 64

/-- `struct arp_entry`. -/
structure ArpEntry : Type where
  ip : Ip
  mac : Mac
  use : UInt8
  deriving DecidableEq

/-- `arp_table`, by index; the array ends at `arpTableMax`. -/
abbrev ArpTable : Type := ℕ → ArpEntry

/-- The table at the start: all zero. -/
def ArpTable.empty : ArpTable := fun _ => { ip := fun _ => 0, mac := fun _ => 0, use := 0 }

/-- `memmove(arp_table[i].mac,mac,6)`. -/
def ArpTable.setMac (t : ArpTable) (i : ℕ) (mac : Mac) : ArpTable :=
  Function.update t i { t i with mac := mac }

/-- The three writes that fill a slot. -/
def ArpTable.setEntry (t : ArpTable) (i : ℕ) (ip : Ip) (mac : Mac) : ArpTable :=
  Function.update t i { ip := ip, mac := mac, use := 1 }

/-- The loop of `arp_table_search`, over the indices that are left. -/
def arpTableSearchLoop (t : ArpTable) (ip : Ip) : ℤ → List ℕ → ℤ
  | empty, [] => empty - 1
  | empty, i :: is =>
    if (t i).ip = ip then (i : ℤ)
    else if (t i).use = 0 ∧ empty = 1 then arpTableSearchLoop t ip (-(i : ℤ)) is
    else arpTableSearchLoop t ip empty is

/-- `arp_table_search`. -/
def arpTableSearch (t : ArpTable) (ip : Ip) : ℤ :=
  arpTableSearchLoop t ip 1 (List.range arpTableMax)

/-- `arp_table_update`. -/
def arpTableUpdate (t : ArpTable) (recv : Frame) : ArpTable :=
  let index := arpTableSearch t recv.arpSrcIp
  if index > -1 then t.setMac index.toNat recv.arpSrcMac
  else
    let index := index + 1
    let index := -index
    t.setEntry index.toNat recv.arpSrcIp recv.arpSrcMac

/-- `arp_proc`: the new table, the frames sent and the result. -/
def arpProc (h : Host) (t : ArpTable) (junk : Bytes 2) (recv : Frame) :
    ArpTable × List ArpFrame × ℤ :=
  if recv.hrdType ≠ arpHardwareType then (t, [], -1)
  else if recv.proType ≠ arpProtocolType then (t, [], -1)
  else if recv.hrdLen ≠ 6 then (t, [], -1)
  else if recv.proLen ≠ 4 then (t, [], -1)
  else if h.myIp ≠ recv.arpDstIp ∧ h.myIp ≠ recv.arpSrcIp then (t, [], -1)
  else if recv.arpOp = arpOpsRequest ∧ h.myIp = recv.arpDstIp then
    (t, [arpReplyPktCreate h junk recv], arpCreatedReply)
  else if recv.arpOp = arpOpsReply ∧ h.myIp = recv.arpDstIp then
    (arpTableUpdate t recv, [], arpUpdatedTable)
  else (t, [], -1)

/-! ## What a search finds -/

theorem arpTableSearchLoop_of_hit {t : ArpTable} {ip : Ip} (is : List ℕ) (empty : ℤ)
    (hhit : ∃ i ∈ is, (t i).ip = ip) :
    ∃ i ∈ is, (t i).ip = ip ∧ arpTableSearchLoop t ip empty is = i := by
  induction is generalizing empty with
  | nil => simp at hhit
  | cons i is ih =>
    rw [arpTableSearchLoop]
    by_cases hi : (t i).ip = ip
    · exact ⟨i, List.mem_cons_self, hi, if_pos hi⟩
    · obtain ⟨j, hj, hip⟩ := hhit
      have hrest : ∃ j ∈ is, (t j).ip = ip := by
        rcases List.mem_cons.mp hj with rfl | hj
        · exact absurd hip hi
        · exact ⟨j, hj, hip⟩
      rw [if_neg hi]
      split
      · obtain ⟨k, hk, heq⟩ := ih _ hrest
        exact ⟨k, List.mem_cons_of_mem _ hk, heq⟩
      · obtain ⟨k, hk, heq⟩ := ih _ hrest
        exact ⟨k, List.mem_cons_of_mem _ hk, heq⟩

/-- Without a hit, the first free slot stays in `empty` once it is there. -/
theorem arpTableSearchLoop_of_miss {t : ArpTable} {ip : Ip} (is : List ℕ) (empty : ℤ)
    (hmiss : ∀ i ∈ is, (t i).ip ≠ ip) :
    arpTableSearchLoop t ip empty is =
      if empty = 1 then
        match is.find? fun i => (t i).use = 0 with
        | some i => -(i : ℤ) - 1
        | none => 0
      else empty - 1 := by
  induction is generalizing empty with
  | nil =>
    rw [arpTableSearchLoop]
    split
    · next h => simp [h]
    · rfl
  | cons i is ih =>
    rw [arpTableSearchLoop, if_neg (hmiss i List.mem_cons_self)]
    have hrest := fun e => ih e fun j hj => hmiss j (List.mem_cons_of_mem _ hj)
    have hneg : -(i : ℤ) ≠ 1 := by omega
    by_cases huse : (t i).use = 0
    · by_cases hempty : empty = 1
      · simp [huse, hempty, hrest, hneg]
      · simp [huse, hempty, hrest]
    · simp [huse, hrest]

/-- What `arp_table_search` returns: an entry for the address; or, when there is none, a free slot;
or, when there is no free slot either, `0`. -/
inductive SearchResult (t : ArpTable) (ip : Ip) : ℤ → Prop where
  | found (i : ℕ) (hi : i < arpTableMax) (hip : (t i).ip = ip) : SearchResult t ip i
  | free (i : ℕ) (hi : i < arpTableMax) (huse : (t i).use = 0)
      (hmiss : ∀ j < arpTableMax, (t j).ip ≠ ip) : SearchResult t ip (-(i : ℤ) - 1)
  | full (huse : ∀ j < arpTableMax, (t j).use ≠ 0)
      (hmiss : ∀ j < arpTableMax, (t j).ip ≠ ip) : SearchResult t ip 0

theorem arpTableSearch_spec (t : ArpTable) (ip : Ip) : SearchResult t ip (arpTableSearch t ip) := by
  by_cases hhit : ∃ i ∈ List.range arpTableMax, (t i).ip = ip
  · obtain ⟨i, hi, hip, heq⟩ := arpTableSearchLoop_of_hit _ 1 hhit
    rw [arpTableSearch, heq]
    exact .found i (List.mem_range.mp hi) hip
  · push Not at hhit
    have hmiss : ∀ j < arpTableMax, (t j).ip ≠ ip := fun j hj => hhit j (List.mem_range.mpr hj)
    rw [arpTableSearch, arpTableSearchLoop_of_miss _ 1 hhit, if_pos rfl]
    split
    · next i hfind =>
      have huse := List.find?_some hfind
      exact .free i (List.mem_range.mp (List.mem_of_find?_eq_some hfind))
        (by simpa using huse) hmiss
    · next hfind =>
      refine .full (fun j hj => ?_) hmiss
      simpa using List.find?_eq_none.mp hfind j (List.mem_range.mpr hj)

/-- What an update does: it overwrites the hardware address of an entry found, fills a free slot,
or, in a full table, overwrites the hardware address of entry 0. -/
theorem arpTableUpdate_cases (t : ArpTable) (recv : Frame) :
    (∃ i < arpTableMax, (t i).ip = recv.arpSrcIp ∧
        arpTableUpdate t recv = t.setMac i recv.arpSrcMac) ∨
      (∀ j < arpTableMax, (t j).ip ≠ recv.arpSrcIp) ∧
        ((∃ i < arpTableMax, (t i).use = 0 ∧
            arpTableUpdate t recv = t.setEntry i recv.arpSrcIp recv.arpSrcMac) ∨
          (∀ j < arpTableMax, (t j).use ≠ 0) ∧
            arpTableUpdate t recv = t.setMac 0 recv.arpSrcMac) := by
  have hspec := arpTableSearch_spec t recv.arpSrcIp
  simp only [arpTableUpdate]
  generalize arpTableSearch t recv.arpSrcIp = index at hspec ⊢
  cases hspec with
  | found i hi hip =>
    exact .inl ⟨i, hi, hip, rfl⟩
  | free i hi huse hmiss =>
    have hindex : (-(-(i : ℤ) - 1 + 1)).toNat = i := by omega
    rw [if_neg (by omega), hindex]
    exact .inr ⟨hmiss, .inl ⟨i, hi, huse, rfl⟩⟩
  | full huse hmiss =>
    exact .inr ⟨hmiss, .inr ⟨huse, rfl⟩⟩

/-! ## Reachable tables -/

/-- The tables `arp_table_update` leads to from the empty one. -/
inductive ArpReachable : ArpTable → Prop where
  | empty : ArpReachable ArpTable.empty
  | update {t : ArpTable} (recv : Frame) : ArpReachable t → ArpReachable (arpTableUpdate t recv)

namespace ArpTable

variable {t : ArpTable} {i j : ℕ} {ip : Ip} {mac : Mac}

@[simp] theorem setMac_ip : (t.setMac i mac j).ip = (t j).ip := by
  by_cases hj : j = i
  · rw [setMac, hj, Function.update_self]
  · rw [setMac, Function.update_of_ne hj]

@[simp] theorem setMac_use : (t.setMac i mac j).use = (t j).use := by
  by_cases hj : j = i
  · rw [setMac, hj, Function.update_self]
  · rw [setMac, Function.update_of_ne hj]

theorem setEntry_self : t.setEntry i ip mac i = { ip := ip, mac := mac, use := 1 } :=
  Function.update_self ..

theorem setEntry_of_ne (hj : j ≠ i) : t.setEntry i ip mac j = t j := Function.update_of_ne hj _ _

/-- What holds of every reachable table: a free slot has the address zero, and the entries in use
are marked `1` and have addresses that no other entry has. -/
structure Wf (t : ArpTable) : Prop where
  free : ∀ i < arpTableMax, (t i).use = 0 → (t i).ip = fun _ => 0
  used : ∀ i < arpTableMax, (t i).use ≠ 0 → (t i).use = 1
  inj : ∀ i < arpTableMax, ∀ j < arpTableMax, (t i).use ≠ 0 → (t i).ip = (t j).ip → i = j

namespace Wf

theorem of_empty : empty.Wf where
  free _ _ _ := rfl
  used _ _ huse := absurd rfl huse
  inj _ _ _ _ huse := absurd rfl huse

theorem setMac (ht : t.Wf) : (t.setMac i mac).Wf where
  free := by simpa using ht.free
  used := by simpa using ht.used
  inj := by simpa using ht.inj

/-- A free slot may be given to an address that is not in the table. -/
theorem setEntry (ht : t.Wf) (hmiss : ∀ j < arpTableMax, (t j).ip ≠ ip) :
    (t.setEntry i ip mac).Wf := by
  constructor
  case free =>
    intro j hj hfree
    by_cases hji : j = i
    · rw [hji, setEntry_self] at hfree
      exact absurd hfree (by decide : (1 : UInt8) ≠ 0)
    · rw [setEntry_of_ne hji] at hfree ⊢
      exact ht.free j hj hfree
  case used =>
    intro j hj hused
    by_cases hji : j = i
    · rw [hji, setEntry_self]
    · rw [setEntry_of_ne hji] at hused ⊢
      exact ht.used j hj hused
  case inj =>
    intro j hj k hk hused heq
    by_cases hji : j = i <;> by_cases hki : k = i
    · rw [hji, hki]
    · rw [hji, setEntry_self, setEntry_of_ne hki] at heq
      exact absurd heq.symm (hmiss k hk)
    · rw [hki, setEntry_self, setEntry_of_ne hji] at heq
      exact absurd heq (hmiss j hj)
    · rw [setEntry_of_ne hji] at hused heq
      rw [setEntry_of_ne hki] at heq
      exact ht.inj j hj k hk hused heq

/-- The step lemma: an update keeps the table well formed. -/
theorem update (ht : t.Wf) (recv : Frame) : (arpTableUpdate t recv).Wf := by
  obtain ⟨i, -, -, heq⟩ | ⟨hmiss, ⟨i, -, -, heq⟩ | ⟨-, heq⟩⟩ := arpTableUpdate_cases t recv
  · rw [heq]
    exact ht.setMac
  · rw [heq]
    exact ht.setEntry hmiss
  · rw [heq]
    exact ht.setMac

end Wf

/-- The table maps an address: `arp_table_search` finds its entry, which is in use, and no other
entry has the address. -/
def Maps (t : ArpTable) (i : ℕ) (ip : Ip) (mac : Mac) : Prop :=
  arpTableSearch t ip = i ∧ t i = { ip := ip, mac := mac, use := 1 } ∧
    ∀ j < arpTableMax, j ≠ i → (t j).ip ≠ ip

/-- In a well-formed table an update leads to an entry for the sender, and changes only that entry,
if there was such an entry or a free slot. The slot that changes was free or had the sender's
address, so no other address loses its entry. -/
theorem Wf.exists_update_eq (ht : t.Wf) (recv : Frame) (hip : recv.arpSrcIp ≠ fun _ => 0)
    (hroom : (∃ i < arpTableMax, (t i).use = 0) ∨ ∃ i < arpTableMax, (t i).ip = recv.arpSrcIp) :
    ∃ i < arpTableMax, ((t i).use = 0 ∨ (t i).ip = recv.arpSrcIp) ∧
      arpTableUpdate t recv = t.setEntry i recv.arpSrcIp recv.arpSrcMac ∧
      (arpTableUpdate t recv).Maps i recv.arpSrcIp recv.arpSrcMac := by
  have hentry : ∃ i < arpTableMax, ((t i).use = 0 ∨ (t i).ip = recv.arpSrcIp) ∧
      arpTableUpdate t recv = t.setEntry i recv.arpSrcIp recv.arpSrcMac := by
    obtain ⟨i, hi, heq, hupd⟩ | ⟨hmiss, ⟨i, hi, hfree, hupd⟩ | ⟨hfull, -⟩⟩ :=
      arpTableUpdate_cases t recv
    · -- a free slot has the address zero, so the entry found is in use
      have huse : (t i).use = 1 := by
        apply ht.used i hi
        intro hfree
        exact hip (heq ▸ ht.free i hi hfree)
      refine ⟨i, hi, .inr heq, ?_⟩
      rw [hupd, ArpTable.setMac, ArpTable.setEntry, ← heq, ← huse]
    · exact ⟨i, hi, .inl hfree, hupd⟩
    · obtain ⟨j, hj, hfree⟩ | ⟨j, hj, heq⟩ := hroom
      · exact absurd hfree (hfull j hj)
      · exact absurd heq (hmiss j hj)
  obtain ⟨i, hi, hslot, hupd⟩ := hentry
  have hself : arpTableUpdate t recv i =
      { ip := recv.arpSrcIp, mac := recv.arpSrcMac, use := 1 } := by
    rw [hupd, setEntry_self]
  have hwf := ht.update recv
  have honly : ∀ j < arpTableMax, (arpTableUpdate t recv j).ip = recv.arpSrcIp → j = i := by
    intro j hj heq
    refine (hwf.inj i hi j hj ?_ ?_).symm
    · rw [hself]
      exact (by decide : (1 : UInt8) ≠ 0)
    · rw [heq, hself]
  refine ⟨i, hi, hslot, hupd, ?_, hself, fun j hj hne heq => hne (honly j hj heq)⟩
  have hspec := arpTableSearch_spec (arpTableUpdate t recv) recv.arpSrcIp
  generalize arpTableSearch (arpTableUpdate t recv) recv.arpSrcIp = index at hspec ⊢
  have hmine : (arpTableUpdate t recv i).ip = recv.arpSrcIp := by rw [hself]
  cases hspec with
  | found j hj heq => rw [honly j hj heq]
  | free j _ _ hmiss => exact absurd hmine (hmiss i hi)
  | full _ hmiss => exact absurd hmine (hmiss i hi)

end ArpTable

theorem ArpReachable.wf {t : ArpTable} (ht : ArpReachable t) : t.Wf := by
  induction ht with
  | empty => exact .of_empty
  | update recv _ ih => exact ih.update recv

end InuOs
