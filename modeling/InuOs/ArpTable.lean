import InuOs.Arp

/-!
# The ARP table as a map

After any history of replies, `arp_table` should map each address in it to the hardware address that
the last reply from there gave. `lastMac` is that map, read off the history alone.

`ArpTracks` relates the two. An update keeps it as long as the sender has an entry or there is a
free slot for it, and the sender is not `0.0.0.0`, which `arp_table_search` takes for an entry in
every free slot. A history with at most `ARP_TABLE_MAX` senders always has that room
(`ArpTracks.room`).
-/

namespace InuOs

/-- The table after a history of replies, the first one at the head of the list. -/
def arpTableRun (replies : List Frame) : ArpTable := replies.foldl arpTableUpdate .empty

/-- The hardware address in the most recent reply from an address. -/
def lastMac (replies : List Frame) (ip : Ip) : Option Mac :=
  (replies.reverse.find? fun f => f.arpSrcIp = ip).map Frame.arpSrcMac

/-- The addresses that have sent a reply. -/
def arpSenders (replies : List Frame) : Finset Ip := (replies.map Frame.arpSrcIp).toFinset

variable {replies : List Frame} {recv : Frame} {t : ArpTable} {ip : Ip}

theorem arpTableRun_concat (replies : List Frame) (recv : Frame) :
    arpTableRun (replies ++ [recv]) = arpTableUpdate (arpTableRun replies) recv := by
  rw [arpTableRun, List.foldl_append]
  rfl

theorem lastMac_concat (replies : List Frame) (recv : Frame) (ip : Ip) :
    lastMac (replies ++ [recv]) ip =
      if recv.arpSrcIp = ip then some recv.arpSrcMac else lastMac replies ip := by
  rw [lastMac, List.reverse_concat, List.find?_cons]
  split
  · next h => rw [if_pos (of_decide_eq_true h), Option.map_some]
  · next h => rw [if_neg (of_decide_eq_false h), lastMac]

theorem mem_arpSenders_of_lastMac {mac : Mac} (h : lastMac replies ip = some mac) :
    ip ∈ arpSenders replies := by
  obtain ⟨f, hfind, -⟩ := Option.map_eq_some_iff.mp h
  have hip : f.arpSrcIp = ip := by simpa using List.find?_some hfind
  rw [arpSenders, List.mem_toFinset]
  exact List.mem_map.mpr ⟨f, List.mem_reverse.mp (List.mem_of_find?_eq_some hfind), hip⟩

theorem arpSenders_subset (replies later : List Frame) :
    arpSenders replies ⊆ arpSenders (replies ++ later) := by
  intro ip hip
  rw [arpSenders, List.map_append, List.toFinset_append]
  exact Finset.mem_union_left _ hip

/-! ## The relation -/

/-- The table is well formed, and its entries in use have the hardware address of the last reply. -/
structure ArpTracks (replies : List Frame) (t : ArpTable) : Prop where
  wf : t.Wf
  recent : ∀ i < arpTableMax, (t i).use ≠ 0 → lastMac replies (t i).ip = some (t i).mac

/-- There is an entry for the address, or a free slot. -/
def ArpTable.Room (t : ArpTable) (ip : Ip) : Prop :=
  (∃ i < arpTableMax, (t i).use = 0) ∨ ∃ i < arpTableMax, (t i).ip = ip

namespace ArpTracks

theorem nil : ArpTracks [] ArpTable.empty where
  wf := .of_empty
  recent _ _ huse := absurd rfl huse

/-- The step lemma. -/
theorem update (h : ArpTracks replies t) (hip : recv.arpSrcIp ≠ fun _ => 0)
    (hroom : t.Room recv.arpSrcIp) : ArpTracks (replies ++ [recv]) (arpTableUpdate t recv) := by
  obtain ⟨i, hi, -, heq, -, hself, hother⟩ := h.wf.exists_update_eq recv hip hroom
  refine ⟨h.wf.update recv, fun j hj huse => ?_⟩
  rw [lastMac_concat]
  rcases eq_or_ne j i with rfl | hne
  · rw [hself, if_pos rfl]
  · rw [if_neg (hother j hj hne).symm]
    have hkeep : arpTableUpdate t recv j = t j := by rw [heq, ArpTable.setEntry_of_ne hne]
    rw [hkeep] at huse ⊢
    exact h.recent j hj huse

/-- A full table without an entry for the sender has seen `arpTableMax` other senders. -/
theorem room (h : ArpTracks replies t)
    (hcard : (arpSenders (replies ++ [recv])).card ≤ arpTableMax) : t.Room recv.arpSrcIp := by
  by_contra hfull
  rw [ArpTable.Room, not_or] at hfull
  push Not at hfull
  obtain ⟨huse, hmiss⟩ := hfull
  -- the addresses in the table, and the one that is not
  have hinj : Set.InjOn (fun i => (t i).ip) (Finset.range arpTableMax) := by
    intro i hi j hj heq
    exact h.wf.inj i (Finset.mem_range.mp hi) j (Finset.mem_range.mp hj)
      (huse i (Finset.mem_range.mp hi)) heq
  have hnew : recv.arpSrcIp ∉ (Finset.range arpTableMax).image fun i => (t i).ip := by
    intro hmem
    obtain ⟨i, hi, heq⟩ := Finset.mem_image.mp hmem
    exact hmiss i (Finset.mem_range.mp hi) heq
  have hsub : insert recv.arpSrcIp ((Finset.range arpTableMax).image fun i => (t i).ip) ⊆
      arpSenders (replies ++ [recv]) := by
    intro ip hmem
    rcases Finset.mem_insert.mp hmem with rfl | hmem
    · simp [arpSenders]
    · obtain ⟨i, hi, rfl⟩ := Finset.mem_image.mp hmem
      have hi := Finset.mem_range.mp hi
      exact arpSenders_subset _ _ (mem_arpSenders_of_lastMac (h.recent i hi (huse i hi)))
  have hle := Finset.card_le_card hsub
  rw [Finset.card_insert_of_notMem hnew, Finset.card_image_of_injOn hinj, Finset.card_range] at hle
  omega

end ArpTracks

/-- The run lemma. -/
theorem tracks_arpTableRun (replies : List Frame) (hip : ∀ f ∈ replies, f.arpSrcIp ≠ fun _ => 0)
    (hcard : (arpSenders replies).card ≤ arpTableMax) :
    ArpTracks replies (arpTableRun replies) := by
  induction replies using List.reverseRecOn with
  | nil => exact .nil
  | append_singleton replies recv ih =>
    have hsub := Finset.card_le_card (arpSenders_subset replies [recv])
    have hold := ih (fun f hf => hip f (List.mem_append_left _ hf)) (hsub.trans hcard)
    rw [arpTableRun_concat]
    exact hold.update (hip recv (by simp)) (hold.room hcard)

/-! ## The table is a faithful map -/

/-- What a reply should do to the table: it keeps the entries of other addresses, and leaves an
entry for its sender if there was a free slot. -/
structure ArpStepOk (t : ArpTable) (recv : Frame) : Prop where
  others : ∀ i < arpTableMax, (t i).use ≠ 0 → (t i).ip ≠ recv.arpSrcIp →
    arpTableUpdate t recv i = t i
  present : (∃ i < arpTableMax, (t i).use = 0) → ∃ i < arpTableMax,
    arpTableUpdate t recv i = { ip := recv.arpSrcIp, mac := recv.arpSrcMac, use := 1 }

/-- A reply whose sender has an entry or finds a free slot. -/
theorem ArpTable.Wf.stepOk (ht : t.Wf) (hip : recv.arpSrcIp ≠ fun _ => 0)
    (hroom : t.Room recv.arpSrcIp) : ArpStepOk t recv := by
  obtain ⟨i, hi, hslot, heq, -, hself, -⟩ := ht.exists_update_eq recv hip hroom
  refine ⟨fun j hj huse hne => ?_, fun _ => ⟨i, hi, hself⟩⟩
  rw [heq]
  apply setEntry_of_ne
  rintro rfl
  exact hslot.elim huse hne

/-- **The ARP table is a faithful map**, for every history of replies from at most `ARP_TABLE_MAX`
addresses other than `0.0.0.0`: no two entries in use have the same address, each of them has the
hardware address of the most recent reply from its address, and every reply of the history keeps the
entries of other addresses and leaves an entry for its sender if there was a free slot. -/
theorem arpTable_faithful (replies : List Frame) (hip : ∀ f ∈ replies, f.arpSrcIp ≠ fun _ => 0)
    (hcard : (arpSenders replies).card ≤ arpTableMax) :
    (∀ i < arpTableMax, ∀ j < arpTableMax, (arpTableRun replies i).use ≠ 0 →
      (arpTableRun replies j).use ≠ 0 →
      (arpTableRun replies i).ip = (arpTableRun replies j).ip → i = j) ∧
    (∀ i < arpTableMax, (arpTableRun replies i).use ≠ 0 →
      lastMac replies (arpTableRun replies i).ip = some (arpTableRun replies i).mac) ∧
    ∀ earlier recv later, replies = earlier ++ recv :: later →
      ArpStepOk (arpTableRun earlier) recv := by
  have htracks := tracks_arpTableRun replies hip hcard
  refine ⟨fun i hi j hj huse _ => htracks.wf.inj i hi j hj huse, htracks.recent, ?_⟩
  rintro earlier recv later rfl
  have hsplit : earlier ++ recv :: later = earlier ++ [recv] ++ later := by simp
  have hfew : (arpSenders (earlier ++ [recv])).card ≤ arpTableMax := by
    rw [hsplit] at hcard
    exact (Finset.card_le_card (arpSenders_subset _ later)).trans hcard
  have hearlier : ArpTracks earlier (arpTableRun earlier) :=
    tracks_arpTableRun earlier (fun f hf => hip f (List.mem_append_left _ hf))
      ((Finset.card_le_card (arpSenders_subset _ [recv])).trans hfew)
  exact hearlier.wf.stepOk (hip recv (by simp)) (hearlier.room hfew)

/-- A reply from `10.0.1.k`, whose hardware address ends in `k`. -/
def replyFrom (k : UInt8) : Frame := fun i =>
  if i = 28 then 10 else if i = 30 then 1 else if i = 31 ∨ i = 27 then k else 0

/-- The same address replies twice, with another one in between. -/
theorem arpTable_faithful_two :
    lastMac [replyFrom 1, replyFrom 2, replyFrom 1] ![10, 0, 1, 1] = some ![0, 0, 0, 0, 0, 1] ∧
      ArpStepOk (arpTableRun [replyFrom 1, replyFrom 2]) (replyFrom 1) := by
  refine ⟨by decide, (arpTable_faithful [replyFrom 1, replyFrom 2, replyFrom 1] ?_ ?_).2.2
    [replyFrom 1, replyFrom 2] (replyFrom 1) [] rfl⟩
  · decide
  · decide

/-- One address too many: the 65th sender overwrites the hardware address of the first one. -/
theorem arpTable_overwritten :
    let replies := (List.range 64).map fun k => replyFrom (UInt8.ofNat (k + 1))
    let t := arpTableRun (replies ++ [replyFrom 65])
    (arpTableRun replies 0).mac = ![0, 0, 0, 0, 0, 1] ∧
      (t 0).use = 1 ∧ (t 0).ip = ![10, 0, 1, 1] ∧ (t 0).mac = ![0, 0, 0, 0, 0, 65] ∧
      lastMac (replies ++ [replyFrom 65]) ![10, 0, 1, 1] = some ![0, 0, 0, 0, 0, 1] := by
  decide +kernel

-- a reply from `0.0.0.0` finds the free slot 0, which stays free
example : (arpTableRun [fun _ => 0] 0).use = 0 := by decide

end InuOs
