import InuOs.Tcp

/-!
# Two TCP clients

The stack keeps `ip_id`, `seq_num` and `fin_flag` once, for all its clients. This module compares
the run in which two clients `A` and `B` talk to the stack with the run in which the frames of `B`
are removed.

* `Isolated` says that `A` cannot tell the two runs apart: the same frames of `A` are taken, each is
  answered by the same segments, and a FIN is sent to `A` only after a response to `A`. Segments are
  compared without the IPv4 identification and without the IPv4 checksum, which covers it
  (`TcpFrame.anonymous`).
* The variables are functions of the frames taken so far: `ip_id` is the identification of the last
  one, `seq_num` counts the SYN and PSH|ACK segments, `fin_flag` says which of PSH|ACK and ACK came
  last (`tracks_run`).
* `Undisturbed` compares these functions with and without the frames of `B`. It holds at every frame
  of `A` exactly when `A` is isolated: `isolated_iff`.
-/

namespace InuOs

open Mealy

/-! ## Clients -/

/-- A client, as the stack could tell it from another one. -/
structure Client : Type where
  ip : Ip
  port : UInt16
  deriving DecidableEq

/-- The frame is a TCP segment of the client. -/
def Frame.From (f : Frame) (c : Client) : Prop :=
  f.protocol = ipv4TypeTcp ∧ f.srcIp = c.ip ∧ f.srcPort = c.port

instance (f : Frame) (c : Client) : Decidable (f.From c) := inferInstanceAs (Decidable (_ ∧ _))

variable {f g : Frame} {A B : Client} {h : Host} {n₀ n : Net} {taken fs : List Frame} {t : TcpFrame}

/-- The frames of a client. -/
def framesOf (c : Client) (fs : List Frame) : List Frame := fs.filter fun f => decide (f.From c)

/-- The segment is addressed to the client. -/
def TcpFrame.To (t : TcpFrame) (c : Client) : Prop := t.ipv4.dstIp = c.ip ∧ t.tcp.dstPort = c.port

instance (t : TcpFrame) (c : Client) : Decidable (t.To c) := inferInstanceAs (Decidable (_ ∧ _))

/-- The TCP segments among the frames sent. -/
def segmentsOf (sent : List Ipv4Sent) : List TcpFrame :=
  sent.filterMap fun
    | .tcp t => some t
    | .icmp _ => none

/-- The segments sent to a client. -/
def segmentsTo (c : Client) (sent : List Ipv4Sent) : List TcpFrame :=
  (segmentsOf sent).filter fun t => decide (t.To c)

/-- A segment without the IPv4 identification and the checksum over it. -/
def TcpFrame.anonymous (t : TcpFrame) : TcpFrame :=
  { t with ipv4 := { t.ipv4 with id := 0, chkSum := 0 } }

/-- The state of the stack when it receives the frame after `pre`. -/
abbrev stateAt (h : Host) (n : Net) (pre : List Frame) : Net := after (ipv4Proc h) n pre

/-- The segments with which the stack answers the frame `f` after `pre`. -/
def answers (h : Host) (n : Net) (pre : List Frame) (f : Frame) : List TcpFrame :=
  segmentsOf (ipv4Proc h (stateAt h n pre) f).2

/-- The client `A` does not notice the other frames of the run. -/
structure Isolated (h : Host) (n : Net) (A : Client) (fs : List Frame) : Prop where
  /-- the segments sent to `A` are those of the run with the frames of `A` alone -/
  segments : (segmentsTo A (emitted (ipv4Proc h) n fs)).map TcpFrame.anonymous =
    (segmentsTo A (emitted (ipv4Proc h) n (framesOf A fs))).map TcpFrame.anonymous
  /-- no frame of `A` is dropped, or taken, because of another frame -/
  taken : ∀ pre f post, fs = pre ++ f :: post → f.From A →
    ((stateAt h n pre).Takes h f ↔ (stateAt h n (framesOf A pre)).Takes h f)
  /-- each frame of `A` is answered in the same way -/
  replies : ∀ pre f post, fs = pre ++ f :: post → f.From A →
    (answers h n pre f).map TcpFrame.anonymous =
      (answers h n (framesOf A pre) f).map TcpFrame.anonymous
  /-- a FIN is sent to `A` after a response was sent to `A` -/
  fin : ∀ pre f post, fs = pre ++ f :: post → f.From A →
    (∃ t ∈ answers h n pre f, t.tcp.codeBits1 &&& tcpCodebitsFin ≠ 0) →
    ∃ pre' g post', pre = pre' ++ g :: post' ∧ g.From A ∧
      ∃ t ∈ answers h n pre' g, t.payload = httpResponse

/-! ## The variables as functions of the frames -/

/-- `ip_id` after the frames `taken`. -/
def lastId (taken : List Frame) : ℤ := (taken.getLast?.map fun f => (f.id.toNat : ℤ)).getD (-1)

/-- A frame is taken if its identification is not that of the last frame taken, and its address is
not our own. -/
def Fresh (h : Host) (taken : List Frame) (f : Frame) : Prop :=
  lastId taken ≠ (f.id.toNat : ℤ) ∧ h.myIp ≠ f.srcIp

instance (h : Host) (taken : List Frame) (f : Frame) : Decidable (Fresh h taken f) :=
  inferInstanceAs (Decidable (_ ∧ _))

/-- The frames of a run that are taken. -/
def takenFrames (h : Host) (fs : List Frame) : List Frame :=
  fs.foldl (fun taken f => if Fresh h taken f then taken ++ [f] else taken) []

/-- How many segments advanced `seq_num`. -/
def advances (taken : List Frame) : ℕ := taken.countP fun f => f.kind = .syn ∨ f.kind = .pshAck

/-- `fin_flag`: of the PSH|ACK and ACK segments, the last one was a PSH|ACK. -/
def finDue (taken : List Frame) : Bool :=
  ((taken.map Frame.kind).filter fun k => k = .pshAck ∨ k = .ack).getLast? = some .pshAck

/-- The segment will be answered. -/
def Answered (taken : List Frame) (f : Frame) : Prop :=
  f.kind = .syn ∨ f.kind = .pshAck ∨ f.kind = .ack ∧ finDue taken = true

/-- The frames that came before, with and without those that are not of `A`, leave the same
situation to the frame `f`: they let it pass or not, have a FIN due or not if it is an ACK, and
have advanced the counter equally far modulo 4096 if it is answered. -/
def Undisturbed (h : Host) (A : Client) (pre : List Frame) (f : Frame) : Prop :=
  let all := takenFrames h pre
  let own := takenFrames h (framesOf A pre)
  (Fresh h all f ↔ Fresh h own f) ∧
    (Fresh h all f →
      (f.kind = .ack → finDue all = finDue own) ∧
        (Answered all f → advances all % 4096 = advances own % 4096))

section Histories

variable (h : Host) (fs : List Frame) (f : Frame)

theorem takenFrames_concat :
    takenFrames h (fs ++ [f]) =
      if Fresh h (takenFrames h fs) f then takenFrames h fs ++ [f] else takenFrames h fs := by
  rw [takenFrames, List.foldl_append]
  rfl

theorem lastId_concat : lastId (fs ++ [f]) = f.id.toNat := by
  simp [lastId]

theorem advances_concat :
    advances (fs ++ [f]) = advances fs + if f.kind = .syn ∨ f.kind = .pshAck then 1 else 0 := by
  simp [advances, List.countP_append, List.countP_singleton]

theorem finDue_concat :
    finDue (fs ++ [f]) =
      match f.kind with
      | .pshAck => true
      | .ack => false
      | _ => finDue fs := by
  cases hkind : f.kind <;> simp [hkind, finDue]

end Histories

/-- The variables after the frames of a run that were taken. -/
structure Tracks (n₀ : Net) (taken : List Frame) (n : Net) : Prop where
  ipId : n.ipId = lastId taken
  seqNum : n.seqNum = n₀.seqNum + UInt32.ofNat (advances taken)
  finFlag : n.finFlag = finDue taken

/-- A TCP frame, by whether it is taken. -/
theorem ipv4Proc_tcp (h : Host) (n : Net) (hf : f.protocol = ipv4TypeTcp) :
    ipv4Proc h n f =
      if n.Takes h f then
        ((tcpProc h { n with ipId := f.id.toNat } f).1,
          (tcpProc h { n with ipId := f.id.toNat } f).2.map .tcp)
      else (n, []) := by
  have hne : f.protocol ≠ ipv4TypeIcmp := by
    rw [hf]
    decide
  by_cases ht : n.Takes h f
  · rw [if_pos ht, ipv4Proc, if_pos (show _ ∧ _ from ht), if_neg hne, if_pos hf]
  · rw [if_neg ht, ipv4Proc, if_neg (show ¬(_ ∧ _) from ht)]

theorem Tracks.takes (ht : Tracks n₀ taken n) (f : Frame) : n.Takes h f ↔ Fresh h taken f := by
  rw [Net.Takes, Fresh, ht.ipId]

theorem Tracks.step (ht : Tracks n₀ taken n) (hf : f.protocol = ipv4TypeTcp) :
    Tracks n₀ (if Fresh h taken f then taken ++ [f] else taken) (ipv4Proc h n f).1 := by
  rw [ipv4Proc_tcp h n hf]
  by_cases hfresh : Fresh h taken f
  · rw [if_pos hfresh, if_pos ((ht.takes f).mpr hfresh), tcpProc_eq]
    have hcount := advances_concat taken f
    have hfin := finDue_concat taken f
    have hid := lastId_concat taken f
    cases hkind : f.kind with
    | syn =>
      simp only [hkind, reduceCtorEq, or_false, if_true] at hcount hfin ⊢
      refine ⟨hid.symm, ?_, ?_⟩
      · rw [hcount, UInt32.ofNat_add, ← UInt32.add_assoc, ← ht.seqNum]
        rfl
      · exact ht.finFlag.trans hfin.symm
    | pshAck =>
      simp only [hkind, reduceCtorEq, false_or, if_true] at hcount hfin ⊢
      refine ⟨hid.symm, ?_, hfin.symm⟩
      rw [hcount, UInt32.ofNat_add, ← UInt32.add_assoc, ← ht.seqNum]
      rfl
    | ack =>
      simp only [hkind, reduceCtorEq, or_self, if_false, Nat.add_zero] at hcount hfin ⊢
      rcases hflag : n.finFlag with _ | _
      · exact ⟨hid.symm, ht.seqNum.trans (by rw [hcount]), hfin.symm⟩
      · exact ⟨hid.symm, ht.seqNum.trans (by rw [hcount]), hfin.symm⟩
    | other =>
      simp only [hkind, reduceCtorEq, or_self, if_false, Nat.add_zero] at hcount hfin ⊢
      exact ⟨hid.symm, ht.seqNum.trans (by rw [hcount]), ht.finFlag.trans hfin.symm⟩
  · rw [if_neg hfresh, if_neg fun htakes => hfresh ((ht.takes f).mp htakes)]
    exact ht

/-- A stack that has taken no frame yet. -/
structure Net.Quiet (n : Net) : Prop where
  ipId : n.ipId = -1
  finFlag : n.finFlag = false

/-- **The variables are functions of the frames.** -/
theorem tracks_run (h : Host) (hn : n.Quiet) (fs : List Frame)
    (hfs : ∀ f ∈ fs, f.protocol = ipv4TypeTcp) : Tracks n (takenFrames h fs) (stateAt h n fs) := by
  induction fs using List.reverseRecOn with
  | nil => exact ⟨hn.ipId, (UInt32.add_zero _).symm, hn.finFlag⟩
  | append_singleton fs f ih =>
    rw [List.forall_mem_append] at hfs
    rw [stateAt, after_concat, takenFrames_concat]
    exact (ih hfs.1).step (hfs.2 f (List.mem_singleton_self f))

/-! ## One answer in two states -/

section Answers

variable {h : Host} {n n' : Net} {f : Frame}

/-- Apart from the identification, a segment depends on the counter alone. -/
theorem anonymous_segment_eq_iff (ty : UInt8) (payload : List UInt8) :
    (segment h n f ty payload).anonymous = (segment h n' f ty payload).anonymous ↔
      h2nUint n.seqNum = h2nUint n'.seqNum := by
  constructor
  · exact fun heq => congrArg (fun t : TcpFrame => t.tcp.seqNum) heq
  · intro hseq
    have htcp : tcpHeader n f ty = tcpHeader n' f ty := by
      rw [tcpHeader, tcpHeader, hseq]
    have hsum : ∀ tcp, tcpChksum h
      (ipv4Header h n f (20 + payload.length) 0 ipv4TypeTcp) tcp payload
        = tcpChksum h (ipv4Header h n' f (20 + payload.length) 0 ipv4TypeTcp) tcp payload :=
      fun _ => rfl
    simp only [segment, tcpPktCreate, TcpFrame.anonymous, htcp, hsum]
    rfl

theorem segmentsOf_map_tcp (ts : List TcpFrame) : segmentsOf (ts.map .tcp) = ts := by
  simp [segmentsOf, List.filterMap_map]

/-- What a TCP frame is answered with, by whether it is taken and of what kind it is. -/
theorem segmentsOf_ipv4Proc (hf : f.protocol = ipv4TypeTcp) :
    segmentsOf (ipv4Proc h n f).2 =
      if n.Takes h f then
        match f.kind with
        | .syn => [segment h n f (tcpCodebitsAck ||| tcpCodebitsSyn) []]
        | .pshAck =>
          [segment h n f tcpCodebitsAck [],
            segment h { n with sendId := n.sendId + 1 } f (tcpCodebitsAck ||| tcpCodebitsPsh)
              httpResponse]
        | .ack => if n.finFlag then [segment h n f tcpCodebitsFin []] else []
        | .other => []
      else [] := by
  rw [ipv4Proc_tcp h n hf]
  split
  · rw [segmentsOf_map_tcp, tcpProc_eq]
    cases f.kind with
    | syn => rfl
    | pshAck => rfl
    | ack => cases n.finFlag <;> rfl
    | other => rfl
  · rfl

/-- The answers are addressed to the sender. -/
theorem to_of_mem_answer (hf : f.From A) (ht : t ∈ segmentsOf (ipv4Proc h n f).2) :
    t.ipv4.dstIp = A.ip ∧ t.tcp.dstPort = A.port := by
  obtain ⟨hproto, hip, hport⟩ := hf
  have hseg : ∀ (n : Net) (ty : UInt8) (payload : List UInt8),
      (segment h n f ty payload).ipv4.dstIp = A.ip ∧
        (segment h n f ty payload).tcp.dstPort = A.port :=
    fun _ _ _ => ⟨hip, hport⟩
  rw [segmentsOf_ipv4Proc hproto] at ht
  split at ht
  · cases hkind : f.kind with
    | syn =>
      rw [hkind] at ht
      obtain rfl := List.mem_singleton.mp ht
      exact hseg _ _ _
    | pshAck =>
      rw [hkind] at ht
      rcases List.mem_cons.mp ht with rfl | ht
      · exact hseg _ _ _
      · obtain rfl := List.mem_singleton.mp ht
        exact hseg _ _ _
    | ack =>
      rw [hkind] at ht
      dsimp only at ht
      split at ht
      · obtain rfl := List.mem_singleton.mp ht
        exact hseg _ _ _
      · cases ht
    | other =>
      rw [hkind] at ht
      cases ht
  · cases ht

/-- A frame taken in two states is answered alike exactly when the FIN is due in both or in none, if
it is an ACK, and the counter looks the same on the wire, if it is answered. -/
theorem anonymous_answers_eq_iff (hf : f.protocol = ipv4TypeTcp) (ht : n.Takes h f)
    (ht' : n'.Takes h f) :
    (segmentsOf (ipv4Proc h n f).2).map TcpFrame.anonymous =
        (segmentsOf (ipv4Proc h n' f).2).map TcpFrame.anonymous ↔
      (f.kind = .ack → n.finFlag = n'.finFlag) ∧
        (f.kind = .syn ∨ f.kind = .pshAck ∨ f.kind = .ack ∧ n.finFlag = true →
          h2nUint n.seqNum = h2nUint n'.seqNum) := by
  rw [segmentsOf_ipv4Proc hf, segmentsOf_ipv4Proc hf, if_pos ht, if_pos ht']
  cases f.kind with
  | syn => simp [anonymous_segment_eq_iff]
  | pshAck => simp [anonymous_segment_eq_iff]
  | ack =>
    cases n.finFlag <;> cases n'.finFlag <;> simp [anonymous_segment_eq_iff]
  | other => simp

end Answers

/-! ## Isolation -/

section Isolation

variable {h : Host} {n : Net} {A : Client}

theorem protocol_of_mem_framesOf (hf : f ∈ framesOf A fs) : f.protocol = ipv4TypeTcp :=
  (of_decide_eq_true (List.mem_filter.mp hf).2).1

/-- Two counters that started together look the same on the wire exactly when they have advanced
equally far modulo 4096. -/
theorem h2nUint_add_eq_iff (s : UInt32) (a b : ℕ) :
    h2nUint (s + UInt32.ofNat a) = h2nUint (s + UInt32.ofNat b) ↔ a % 4096 = b % 4096 := by
  rw [h2nUint_eq_iff, UInt32.toNat_add, UInt32.toNat_add, UInt32.toNat_ofNat', UInt32.toNat_ofNat']
  omega

/-- One frame of `A`: it is taken and answered alike in both runs exactly when it is undisturbed. -/
theorem undisturbed_iff (hn : n.Quiet) {pre : List Frame}
    (hpre : ∀ f ∈ pre, f.protocol = ipv4TypeTcp)
    (hf : f.From A) :
    Undisturbed h A pre f ↔
      ((stateAt h n pre).Takes h f ↔ (stateAt h n (framesOf A pre)).Takes h f) ∧
        (answers h n pre f).map TcpFrame.anonymous =
          (answers h n (framesOf A pre) f).map TcpFrame.anonymous := by
  have hall := tracks_run h hn pre hpre
  have hown := tracks_run h hn (framesOf A pre) fun g hg => protocol_of_mem_framesOf hg
  rw [hall.takes, hown.takes, Undisturbed]
  refine and_congr_right fun hiff => ?_
  by_cases hfresh : Fresh h (takenFrames h pre) f
  · have heq := anonymous_answers_eq_iff hf.1 ((hall.takes f).mpr hfresh)
      ((hown.takes f).mpr (hiff.mp hfresh))
    rw [answers, answers, heq, hall.finFlag, hown.finFlag, hall.seqNum, hown.seqNum,
      h2nUint_add_eq_iff]
    exact ⟨fun hu => hu hfresh, fun hu _ => hu⟩
  · have hnone : ∀ {n : Net}, ¬n.Takes h f → segmentsOf (ipv4Proc h n f).2 = [] := by
      intro n hn
      rw [segmentsOf_ipv4Proc hf.1, if_neg hn]
    rw [answers, answers, hnone fun ht => hfresh ((hall.takes f).mp ht),
      hnone fun ht => hfresh (hiff.mpr ((hown.takes f).mp ht))]
    exact ⟨fun _ => rfl, fun _ hf => absurd hf hfresh⟩

theorem segmentsTo_append (xs ys : List Ipv4Sent) :
    segmentsTo A (xs ++ ys) = segmentsTo A xs ++ segmentsTo A ys := by
  rw [segmentsTo, segmentsOf, List.filterMap_append, List.filter_append]
  rfl

theorem framesOf_concat (fs : List Frame) (f : Frame) :
    framesOf A (fs ++ [f]) = if f.From A then framesOf A fs ++ [f] else framesOf A fs := by
  by_cases hf : f.From A
  · simp [hf, framesOf]
  · simp [hf, framesOf]

/-- A segment goes to `A` exactly if it answers a frame of `A`. -/
theorem segmentsTo_answer (hf : f.From A ∨ f.From B) (hAB : A ≠ B) (n : Net) :
    segmentsTo A (ipv4Proc h n f).2 =
      if f.From A then segmentsOf (ipv4Proc h n f).2 else [] := by
  by_cases hA : f.From A
  · rw [if_pos hA, segmentsTo, List.filter_eq_self]
    exact fun t ht => decide_eq_true (to_of_mem_answer hA ht)
  · rw [if_neg hA, segmentsTo, List.filter_eq_nil_iff]
    intro t ht hto
    obtain ⟨hip, hport⟩ := to_of_mem_answer (hf.resolve_left hA) ht
    obtain ⟨hip', hport'⟩ := of_decide_eq_true hto
    refine hAB ?_
    cases A
    cases B
    simp_all

/-- Equal answers, frame by frame, are equal segments over the whole run. -/
theorem segmentsTo_eq_of_replies (hAB : A ≠ B) (hfs : ∀ f ∈ fs, f.From A ∨ f.From B)
    (hreplies : ∀ pre f post, fs = pre ++ f :: post → f.From A →
      (answers h n pre f).map TcpFrame.anonymous =
      (answers h n (framesOf A pre) f).map TcpFrame.anonymous) :
    (segmentsTo A (emitted (ipv4Proc h) n fs)).map TcpFrame.anonymous =
      (segmentsTo A (emitted (ipv4Proc h) n (framesOf A fs))).map TcpFrame.anonymous := by
  induction fs using List.reverseRecOn with
  | nil => rfl
  | append_singleton fs f ih =>
    rw [List.forall_mem_append] at hfs
    have hf := hfs.2 f (List.mem_singleton_self f)
    have hrest := ih hfs.1 fun pre g post heq =>
      hreplies pre g (post ++ [f]) (by rw [heq, List.append_assoc, List.cons_append])
    rw [emitted_concat, segmentsTo_append, segmentsTo_answer hf hAB, List.map_append, hrest,
      framesOf_concat]
    by_cases hA : f.From A
    · have hlast := hreplies fs f [] rfl hA
      rw [answers, answers] at hlast
      rw [if_pos hA, if_pos hA, emitted_concat, segmentsTo_append, segmentsTo_answer hf hAB,
        if_pos hA, List.map_append, hlast]
    · rw [if_neg hA, if_neg hA, List.map_nil, List.append_nil]

/-- A frame that was taken stood somewhere in the run, and was fresh there. -/
theorem exists_of_mem_takenFrames (hg : g ∈ takenFrames h fs) :
    ∃ pre post, fs = pre ++ g :: post ∧ Fresh h (takenFrames h pre) g := by
  induction fs using List.reverseRecOn with
  | nil => cases hg
  | append_singleton fs f ih =>
    have hold : g ∈ takenFrames h fs →
        ∃ pre post, fs ++ [f] = pre ++ g :: post ∧ Fresh h (takenFrames h pre) g := by
      intro hmem
      obtain ⟨pre, post, rfl, hfresh⟩ := ih hmem
      exact ⟨pre, post ++ [f], by rw [List.append_assoc, List.cons_append], hfresh⟩
    rw [takenFrames_concat] at hg
    split at hg
    · next hfresh =>
      rcases List.mem_append.mp hg with hmem | hmem
      · exact hold hmem
      · obtain rfl := List.mem_singleton.mp hmem
        exact ⟨fs, [], rfl, hfresh⟩
    · exact hold hg

theorem exists_pshAck_of_finDue (hdue : finDue taken = true) : ∃ g ∈ taken, g.kind = .pshAck := by
  have hmem := List.mem_of_getLast? (of_decide_eq_true hdue)
  obtain ⟨g, hg, hkind⟩ := List.mem_map.mp (List.mem_filter.mp hmem).1
  exact ⟨g, hg, hkind⟩

/-- Where a frame of the run of `A` alone stands in the whole run. -/
theorem framesOf_eq_append_cons {pre' post' : List Frame}
    (heq : framesOf A fs = pre' ++ g :: post') :
    ∃ pre post, fs = pre ++ g :: post ∧ framesOf A pre = pre' ∧ g.From A := by
  obtain ⟨fs₁, fs₂, rfl, rfl, hsecond⟩ := List.filter_eq_append_iff.mp heq
  obtain ⟨gs, post, rfl, hgs, hg, -⟩ := List.filter_eq_cons_iff.mp hsecond
  refine ⟨fs₁ ++ gs, post, by rw [List.append_assoc], ?_, of_decide_eq_true hg⟩
  rw [framesOf, List.filter_append, List.filter_eq_nil_iff.mpr hgs, List.append_nil]

/-- Only an ACK is answered by a FIN, and only if one is due. -/
theorem fin_of_mem_answer (hf : f.protocol = ipv4TypeTcp) (ht : t ∈ segmentsOf (ipv4Proc h n f).2)
    (hfin : t.tcp.codeBits1 &&& tcpCodebitsFin ≠ 0) :
    n.Takes h f ∧ f.kind = .ack ∧ n.finFlag = true := by
  rw [segmentsOf_ipv4Proc hf] at ht
  split at ht
  · next htakes =>
    refine ⟨htakes, ?_⟩
    cases hkind : f.kind with
    | syn =>
      rw [hkind] at ht
      obtain rfl := List.mem_singleton.mp ht
      exact absurd (show (tcpCodebitsAck ||| tcpCodebitsSyn) &&& tcpCodebitsFin = 0 by decide) hfin
    | pshAck =>
      rw [hkind] at ht
      rcases List.mem_cons.mp ht with rfl | ht
      · exact absurd (show tcpCodebitsAck &&& tcpCodebitsFin = 0 by decide) hfin
      · obtain rfl := List.mem_singleton.mp ht
        exact absurd (show (tcpCodebitsAck ||| tcpCodebitsPsh) &&& tcpCodebitsFin = 0 by decide)
          hfin
    | ack =>
      rw [hkind] at ht
      dsimp only at ht
      split at ht
      · next hflag => exact ⟨rfl, hflag⟩
      · cases ht
    | other =>
      rw [hkind] at ht
      cases ht
  · cases ht

/-- A PSH|ACK that is taken is answered by the response. -/
theorem response_mem_answer (hf : f.protocol = ipv4TypeTcp) (ht : n.Takes h f)
    (hkind : f.kind = .pshAck) : ∃ t ∈ segmentsOf (ipv4Proc h n f).2, t.payload = httpResponse := by
  rw [segmentsOf_ipv4Proc hf, if_pos ht, hkind]
  exact ⟨_, List.mem_cons_of_mem _ (List.mem_singleton_self _), rfl⟩

/-- **When a client is isolated from another one.** From a stack that has taken no frame, for any
two clients and any interleaving of their frames: `A` sees what it would see alone exactly when each
of its frames is undisturbed. -/
theorem isolated_iff (h : Host) (n : Net) (hn : n.Quiet) (A B : Client) (hAB : A ≠ B)
    (fs : List Frame) (hfs : ∀ f ∈ fs, f.From A ∨ f.From B) :
    Isolated h n A fs ↔
      ∀ pre f post, fs = pre ++ f :: post → f.From A → Undisturbed h A pre f := by
  have hproto : ∀ f ∈ fs, f.protocol = ipv4TypeTcp :=
    fun f hf => (hfs f hf).elim (fun hA => hA.1) fun hB => hB.1
  have hpre : ∀ pre f post, fs = pre ++ f :: post → ∀ g ∈ pre, g.protocol = ipv4TypeTcp :=
    fun pre f post heq g hg => hproto g (heq ▸ List.mem_append_left _ hg)
  constructor
  · intro hiso pre f post heq hf
    exact (undisturbed_iff hn (hpre pre f post heq) hf).mpr
      ⟨hiso.taken pre f post heq hf, hiso.replies pre f post heq hf⟩
  · intro hund
    have hboth := fun pre f post (heq : fs = pre ++ f :: post) (hf : f.From A) =>
      (undisturbed_iff hn (hpre pre f post heq) hf).mp (hund pre f post heq hf)
    refine ⟨segmentsTo_eq_of_replies hAB hfs fun pre f post heq hf => (hboth pre f post heq hf).2,
      fun pre f post heq hf => (hboth pre f post heq hf).1,
      fun pre f post heq hf => (hboth pre f post heq hf).2, ?_⟩
    rintro pre f post heq hf ⟨t, ht, hfin⟩
    have hall := tracks_run h hn pre (hpre pre f post heq)
    obtain ⟨htakes, hkind, hflag⟩ := fin_of_mem_answer hf.1 ht hfin
    -- the FIN is due in the run of `A` alone as well, so `A` sent a PSH|ACK that was taken there
    have hdue := ((hund pre f post heq hf).2 ((hall.takes f).mp htakes)).1 hkind
    rw [← hall.finFlag, hflag] at hdue
    obtain ⟨g, hg, hgkind⟩ := exists_pshAck_of_finDue hdue.symm
    obtain ⟨own, rest, hown, hgfresh⟩ := exists_of_mem_takenFrames hg
    obtain ⟨pre', post', rfl, rfl, hgA⟩ := framesOf_eq_append_cons hown
    -- and it was undisturbed, so it was taken in the whole run
    have heq' : fs = pre' ++ g :: (post' ++ f :: post) := by
      rw [heq, List.append_assoc, List.cons_append]
    have hfresh := (hund pre' g _ heq' hgA).1.mpr hgfresh
    have hall' := tracks_run h hn pre' (hpre pre' g _ heq')
    exact ⟨pre', g, post', rfl, hgA,
      response_mem_answer hgA.1 ((hall'.takes g).mpr hfresh) hgkind⟩

/-- Two clients of the example host. -/
def exampleA : Client where
  ip := ![10, 0, 1, 2]
  port := 100

@[inherit_doc exampleA]
def exampleB : Client where
  ip := ![10, 0, 1, 3]
  port := 200

/-- A segment of a client, with an IPv4 identification and flags. -/
def clientSegment (c : Client) (id codeBits : UInt8) : Frame := fun i =>
  if i = 14 then 0x45 else if i = 18 then id else if i = 23 then ipv4TypeTcp
  else if 26 ≤ i ∧ i < 30 then c.ip.byte (i - 26)
  else if i = 34 then UInt8.ofNat c.port.toNat else if i = 47 then codeBits else 0

/-- A bare ACK of `B` between the handshake and the request of `A` does not disturb it. -/
theorem isolated_iff_ack_between :
    Isolated exampleHost Net.init exampleA
      [clientSegment exampleA 1 0x02, clientSegment exampleB 2 0x10,
        clientSegment exampleA 3 0x18] := by
  refine (isolated_iff exampleHost Net.init ⟨rfl, rfl⟩ exampleA exampleB (by decide) _
    (by decide)).mpr fun pre f post heq hf => ?_
  rcases pre with _ | ⟨x, _ | ⟨y, _ | ⟨z, pre⟩⟩⟩ <;>
    simp only [List.nil_append, List.cons_append, List.cons.injEq] at heq
  · obtain ⟨rfl, -⟩ := heq
    unfold Undisturbed Answered
    decide
  · obtain ⟨-, rfl, -⟩ := heq
    exact absurd hf (by decide)
  · obtain ⟨rfl, rfl, rfl, -⟩ := heq
    unfold Undisturbed Answered
    decide
  · simp at heq

/-- Three ways for `B` to disturb `A`: a handshake of `B` changes the number of the SYN|ACK sent to
`A`, a frame of `B` with the same identification makes the stack drop the SYN of `A`, and a request
of `B` makes it send a FIN to `A`. -/
theorem not_isolated :
    ¬Isolated exampleHost Net.init exampleA
        [clientSegment exampleB 1 0x02, clientSegment exampleA 2 0x02] ∧
      ¬Isolated exampleHost Net.init exampleA
        [clientSegment exampleB 1 0x10, clientSegment exampleA 1 0x02] ∧
      ¬Isolated exampleHost Net.init exampleA
        [clientSegment exampleB 1 0x18, clientSegment exampleA 2 0x10] := by
  refine ⟨fun hiso => ?_, fun hiso => ?_, fun hiso => ?_⟩
  · have hreply := hiso.replies [clientSegment exampleB 1 0x02] _ [] rfl (by decide)
    have hseq := congrArg (List.map fun t : TcpFrame => t.tcp.seqNum) hreply
    exact absurd hseq (by decide)
  · have htaken := hiso.taken [clientSegment exampleB 1 0x10] _ [] rfl (by decide)
    exact absurd htaken (by decide)
  · have hreply := hiso.replies [clientSegment exampleB 1 0x18] _ [] rfl (by decide)
    have hcount := congrArg List.length hreply
    exact absurd hcount (by decide)

end Isolation

end InuOs
