import Micael.Net.Ipv4

/-!
# Which packets survive fragmentation

Main results:

- Theorem {lit}`roundTrips_of_small` and {lit}`roundTrips_of_exact`: a packet that is sent whole, or
  whose only fragment fills its frame, arrives as it was sent.
- Theorem {lit}`not_roundTrips_of_padded`: a packet between these sizes arrives with trailing bytes.
- Theorem {lit}`not_roundTrips_of_large`: a packet that is really cut into fragments arrives without
  its transport protocol.
- Theorem {lit}`ipv4_roundTrips_iff`: the exact condition.
-/

namespace Micael
namespace Net

open Foundation Lib

/-! ## Delivery -/

/-- Deliver packets one after the other. -/
def deliverAll (rxMem : RxMemory) :
    Receiver → List RxPacket → Except Halt (List Ipv4Outcome × Receiver)
  | rx, [] => .ok ([], rx)
  | rx, pkt :: pkts => do
      let (outcome, rx) ← ipv4HandlePkt rxMem rx pkt
      let (outcomes, rx) ← deliverAll rxMem rx pkts
      pure (outcome :: outcomes, rx)

/-- An upper handler was called. -/
def Ipv4Outcome.isCall : Ipv4Outcome → Bool
  | .queued => false
  | .notSupported => false
  | _ => true

/-- The fragment table holds nothing. -/
def Receiver.EmptyTable (rx : Receiver) : Prop := ∀ index, ¬ rx.fragments.Occupied index

/-- The call that a packet has to lead to. -/
def TxPacket.expected (pkt : TxPacket) : Ipv4Outcome :=
  dispatch pkt.proto ⟨pkt.proto, pkt.transport⟩ (sendHeader 0 pkt)

/-- The datagrams of a packet, delivered in any order to a receiver without fragments,
lead to one call of the upper handler, at the last delivery, with the packet's transport
bytes and protocol. -/
def RoundTrips (iden : Nat) (pkt : TxPacket) : Prop :=
  ∃ dgrams, ipv4SendPkt iden pkt = .ok dgrams ∧
    ∀ rxMem rx, rx.EmptyTable → ∀ order : List RxPacket, (order.map RxPacket.addr).Nodup →
      (order.map RxPacket.dgram).Perm dgrams →
      ∃ outcomes rx', deliverAll rxMem rx order = .ok (outcomes ++ [pkt.expected], rx') ∧
        ∀ outcome ∈ outcomes, outcome.isCall = false

/-- Memory that was never used. -/
def zeroRxMemory : RxMemory where
  fragBuf _ := ⟨0, 0, 0, 0, fun _ => none⟩
  mergedProto _ := 0
  freedProto _ := none
  behind _ _ := fun _ => 0

/-- The receiver after `ipv4_init`. -/
def initialReceiver : Receiver where
  fragments := hmAllocHashmap 8
  bufs := zeroRxMemory.fragBuf
  allocs := 0
  freed := []

theorem initialReceiver_emptyTable : initialReceiver.EmptyTable := by
  rintro index ⟨item, hitem, -⟩
  cases hitem

/-- Datagrams can be delivered in the order they were sent, in packets of their own. -/
theorem exists_inOrder (dgrams : List Ipv4Datagram) :
    ∃ order : List RxPacket, (order.map RxPacket.addr).Nodup ∧ order.map RxPacket.dgram = dgrams := by
  refine ⟨dgrams.mapIdx fun i d => ⟨i, d⟩, ?_, ?_⟩
  · have haddr : (dgrams.mapIdx fun i d => (⟨i, d⟩ : RxPacket)).map RxPacket.addr =
        List.range dgrams.length := by
      apply List.ext_getElem
      · simp
      · intro i h₁ h₂
        simp
    rw [haddr]
    exact List.nodup_range
  · apply List.ext_getElem
    · simp
    · intro i h₁ h₂
      simp

/-! ## Header words -/

theorem n2h16_bytes {high low : Nat} (hhigh : high < 256) (hlow : low < 256) :
    n2h16 (high * 256 + low) = low * 256 + high := by
  unfold n2h16
  omega

/-- The conversion of a 16-bit word is its own inverse. -/
theorem n2h16_n2h16 {n : Nat} (hn : n < 2 ^ 16) : n2h16 (n2h16 n) = n := by
  have hbytes : n = n / 256 * 256 + n % 256 := by omega
  rw [hbytes, n2h16_bytes (by omega) (by omega), n2h16_bytes (by omega) (by omega)]

theorem isFragment_of_moreFrags {d : Ipv4Datagram} {offset : Nat}
    (hoff : d.fOff = ipv4MoreFrags ||| offset) : d.isFragment = true := by
  have hbit : d.fOff &&& ipv4MoreFrags ≠ 0 := by
    rw [hoff, Nat.and_comm, Nat.and_or_distrib_left, Nat.and_self]
    intro hzero
    have hle : ipv4MoreFrags ≤ ipv4MoreFrags ||| ipv4MoreFrags &&& offset := Nat.left_le_or
    rw [hzero] at hle
    exact absurd hle (by decide)
  simp [Ipv4Datagram.isFragment, hbit]

theorem isFragment_of_offset {d : Ipv4Datagram} (hpos : 0 < d.fOff) (hlt : d.fOff < 2 ^ 13) :
    d.isFragment = true := by
  have hmask : d.fOff &&& ipv4FragMask ≠ 0 := by
    rw [show ipv4FragMask = 2 ^ 13 - 1 from rfl, Nat.and_two_pow_sub_one_eq_mod,
      Nat.mod_eq_of_lt hlt]
    omega
  simp [Ipv4Datagram.isFragment, hmask]

theorem isFragment_of_zero {d : Ipv4Datagram} (hoff : d.fOff = 0) : d.isFragment = false := by
  simp [Ipv4Datagram.isFragment, hoff]

/-! ## The datagrams of a packet -/

section Sending

variable {iden : Nat} {pkt : TxPacket}

theorem netSize_eq (hsize : ipv4HdrSize + pkt.transport.length ≤ ipv4PayloadMax) :
    pkt.netSize = ipv4HdrSize + pkt.transport.length := by
  apply u16_eq_of_lt
  unfold ipv4PayloadMax at hsize
  omega

/-- A small packet is sent whole. -/
theorem ipv4SendPkt_of_small (hsize : ipv4HdrSize + pkt.transport.length < 1460) :
    ipv4SendPkt iden pkt = .ok [sendHeader iden pkt] := by
  have hnet : pkt.netSize = ipv4HdrSize + pkt.transport.length :=
    netSize_eq (by unfold ipv4PayloadMax; omega)
  have hmax : pkt.netSize ≤ ipv4PayloadMax := by
    unfold ipv4PayloadMax
    omega
  have hmtu : u16 (netdevMtu - ipv4HdrSize) - ipv4HdrSize = 1460 := by decide
  rw [ipv4SendPkt]
  simp only [hmax, not_true_eq_false, if_false]
  rw [if_pos (by omega)]

/-- Other packets go through the reused fragment packet. -/
theorem ipv4SendPkt_of_not_small (hmax : ipv4HdrSize + pkt.transport.length ≤ ipv4PayloadMax)
    (hsize : 1460 ≤ ipv4HdrSize + pkt.transport.length) :
    ipv4SendPkt iden pkt = sendFragments 1480 pkt.transport (2 ^ 16)
      { sendHeader iden pkt with payload := List.replicate 1480 0 } pkt.transport.length 0 := by
  have hnet := netSize_eq hmax
  have hmax' : pkt.netSize ≤ ipv4PayloadMax := hnet ▸ hmax
  have hmtu : u16 (netdevMtu - ipv4HdrSize) = 1480 := by decide
  have hleft : u16 (pkt.netSize - ipv4HdrSize) = pkt.transport.length := by
    rw [hnet, Nat.add_sub_cancel_left]
    apply u16_eq_of_lt
    unfold ipv4PayloadMax ipv4HdrSize at hmax
    omega
  rw [ipv4SendPkt]
  simp only [hmax', not_true_eq_false, if_false, hmtu, hleft]
  rw [if_neg (by unfold ipv4HdrSize at *; omega)]

/-- A packet that is not small but fits one frame is sent as a single fragment, padded to
the size of the frame. -/
theorem ipv4SendPkt_of_one (hlow : 1460 ≤ ipv4HdrSize + pkt.transport.length)
    (hhigh : ipv4HdrSize + pkt.transport.length ≤ 1500) :
    ∃ d, ipv4SendPkt iden pkt = .ok [d] ∧ d.fOff = 0 ∧ d.proto = pkt.proto % 256 ∧
      d.payload = pkt.transport ++ List.replicate (1480 - pkt.transport.length) 0 := by
  unfold ipv4HdrSize at hlow hhigh
  have hsend := @ipv4SendPkt_of_not_small iden pkt (by unfold ipv4HdrSize ipv4PayloadMax; omega)
    (by unfold ipv4HdrSize; omega)
  rw [show (2 : Nat) ^ 16 = 65535 + 1 from rfl, sendFragments, if_neg (by omega)] at hsend
  refine ⟨_, hsend, rfl, rfl, ?_⟩
  have htake : pkt.transport.take pkt.transport.length = pkt.transport := List.take_length
  simp only [fillFragment, List.drop_zero, htake, List.drop_replicate]

/-- The fragments of a packet that does not fit one frame. -/
theorem sendFragments_isFragment {transport : List UInt8} {n left ptr : Nat}
    {frag : Ipv4Datagram} {dgrams : List Ipv4Datagram} (htotal : ptr + left < 2 ^ 16)
    (hcut : 1480 < left ∨ 1480 ≤ ptr)
    (hsend : sendFragments 1480 transport n frag left ptr = .ok dgrams) :
    ∀ d ∈ dgrams, d.toHost.isFragment = true := by
  induction n generalizing frag left ptr dgrams with
  | zero => cases hsend
  | succ n ih =>
      rw [sendFragments] at hsend
      split at hsend
      · next hmore =>
          obtain ⟨rest, hrest, hdgrams⟩ := Halt.bind_eq_ok.mp hsend
          simp only [Halt.pure_eq_ok, Except.ok.injEq] at hdgrams
          have hptr : u16 (ptr + 1480) = ptr + 1480 := u16_eq_of_lt (by omega)
          rw [hptr] at hrest
          intro d hd
          rw [← hdgrams] at hd
          rcases List.mem_cons.mp hd with rfl | hd
          · have hlt : ipv4MoreFrags ||| ptr / 8 < 2 ^ 16 :=
              Nat.or_lt_two_pow (by decide) (by omega)
            refine @isFragment_of_moreFrags _ (ptr / 8) ?_
            simp only [Ipv4Datagram.toHost, fillFragment, u16_eq_of_lt hlt, n2h16_n2h16 hlt]
          · exact ih (by omega) (Or.inr (by omega)) hrest d hd
      · next hlast =>
          simp only [Except.ok.injEq] at hsend
          intro d hd
          rw [← hsend, List.mem_singleton] at hd
          have hoff : d.toHost.fOff = ptr / 8 := by
            have hlt : ptr / 8 < 2 ^ 16 := by omega
            rw [hd]
            simp only [Ipv4Datagram.toHost, fillFragment, u16_eq_of_lt hlt, n2h16_n2h16 hlt]
          exact isFragment_of_offset (by omega) (by omega)

end Sending

/-! ## Receiving -/

section Receiving

variable {iden : Nat} {pkt : TxPacket}

/-- A datagram that is no fragment is dispatched at once. -/
theorem ipv4HandlePkt_whole {rxMem : RxMemory} {rx : Receiver} {p : RxPacket}
    (hoff : p.dgram.fOff = 0) :
    ipv4HandlePkt rxMem rx p =
      .ok (dispatch p.dgram.proto ⟨p.dgram.proto, p.dgram.payload⟩ p.dgram.toHost, rx) := by
  have hfragment : p.dgram.toHost.isFragment = false := by
    apply isFragment_of_zero
    simp [Ipv4Datagram.toHost, hoff, n2h16]
  rw [ipv4HandlePkt]
  simp only [hfragment, Bool.false_eq_true, if_false, Ipv4Datagram.toHost_proto,
    Ipv4Datagram.toHost_payload]

theorem dispatch_expected (hproto : pkt.proto = protoUdp ∨ pkt.proto = protoTcp)
    (d : Ipv4Datagram) (upper : UpperPacket) :
    dispatch pkt.proto upper d = pkt.expected ↔ upper = ⟨pkt.proto, pkt.transport⟩ := by
  rcases hproto with hproto | hproto <;>
    simp [TxPacket.expected, dispatch, hproto, protoUdp, protoTcp, protoIcmp]

theorem expected_isCall (hproto : pkt.proto = protoUdp ∨ pkt.proto = protoTcp) :
    pkt.expected = .udp ⟨pkt.proto, pkt.transport⟩ ∨
      pkt.expected = .tcp ⟨pkt.proto, pkt.transport⟩ := by
  rcases hproto with hproto | hproto
  · exact Or.inl (by simp [TxPacket.expected, dispatch, hproto, protoUdp, protoIcmp])
  · exact Or.inr (by simp [TxPacket.expected, dispatch, hproto, protoTcp, protoUdp, protoIcmp])

/-- A packet that is sent as one datagram without an offset round-trips exactly when the
datagram carries its transport bytes. -/
theorem roundTrips_iff_of_one {d : Ipv4Datagram}
    (hproto : pkt.proto = protoUdp ∨ pkt.proto = protoTcp)
    (hsend : ipv4SendPkt iden pkt = .ok [d]) (hoff : d.fOff = 0) (hd : d.proto = pkt.proto % 256) :
    RoundTrips iden pkt ↔ d.payload = pkt.transport := by
  have hproto' : d.proto = pkt.proto := by
    rw [hd]
    rcases hproto with hproto | hproto <;> rw [hproto] <;> rfl
  have hdeliver : ∀ rxMem rx (p : RxPacket), p.dgram = d → deliverAll rxMem rx [p] =
      .ok ([dispatch pkt.proto ⟨pkt.proto, d.payload⟩ d.toHost], rx) := by
    intro rxMem rx p hp
    have hwhole : ipv4HandlePkt rxMem rx p = _ := ipv4HandlePkt_whole (by rw [hp, hoff])
    rw [deliverAll, hwhole, hp, hproto']
    rfl
  constructor
  · rintro ⟨dgrams, hdgrams, hall⟩
    rw [hsend] at hdgrams
    cases hdgrams
    obtain ⟨outcomes, rx', hdone, -⟩ :=
      hall zeroRxMemory initialReceiver initialReceiver_emptyTable [⟨0, d⟩] (by simp) (by simp)
    rw [hdeliver _ _ _ rfl] at hdone
    simp only [Except.ok.injEq, Prod.mk.injEq] at hdone
    have hlast : [dispatch pkt.proto ⟨pkt.proto, d.payload⟩ d.toHost] = outcomes ++ [pkt.expected] :=
      hdone.1
    have heq : dispatch pkt.proto ⟨pkt.proto, d.payload⟩ d.toHost = pkt.expected := by
      have := congrArg List.getLast? hlast
      simpa using this
    have := (dispatch_expected hproto _ _).mp heq
    simpa using this
  · intro hpayload
    refine ⟨[d], hsend, fun rxMem rx _ order _ hperm => ?_⟩
    obtain ⟨p, rfl⟩ : ∃ p, order = [p] := by
      have := hperm.length_eq
      simp only [List.length_map, List.length_singleton] at this
      exact List.length_eq_one_iff.mp this
    have hp : p.dgram = d := by simpa using hperm
    refine ⟨[], rx, ?_, by simp⟩
    rw [hdeliver _ _ _ hp, List.nil_append, (dispatch_expected hproto _ _).mpr (by rw [hpayload])]

theorem dispatch_upper {proto : Nat} {d : Ipv4Datagram} {merged upper : UpperPacket}
    (h : dispatch proto merged d = .udp upper ∨ dispatch proto merged d = .tcp upper) :
    upper = merged := by
  unfold dispatch at h
  split_ifs at h <;> simp_all

theorem finishFragments_upper {rxMem : RxMemory} {rx rx' : Receiver} {buf : FragBuf}
    {d : Ipv4Datagram} {outcome : Ipv4Outcome} (hstale : ∀ n, rxMem.mergedProto n = 0)
    (hcall : finishFragments rxMem rx buf d = .ok (outcome, rx')) {upper : UpperPacket}
    (hupper : outcome = .udp upper ∨ outcome = .tcp upper) : upper.transportProto = 0 := by
  rw [finishFragments] at hcall
  generalize hmerge : buf.merge _ (rxMem.mergedProto rx.allocs) = result at hcall
  cases result with
  | error e => cases hcall
  | ok merged =>
      generalize hmRemove hmHashNum rx.fragments (UInt32.ofNat d.iden) = removed at hcall
      cases removed with
      | error e => cases hcall
      | ok removed =>
          have houtcome : dispatch _ merged.1 d = outcome :=
            congrArg Prod.fst (Except.ok.inj hcall)
          rw [← houtcome] at hupper
          rw [dispatch_upper hupper, (merge_eq_ok hmerge).2.1, hstale]

/-- A fragment is kept, or leads to a call with the stale protocol of the merged packet. -/
theorem handleFragment_upper {rxMem : RxMemory} {rx rx' : Receiver} {p : RxPacket}
    {outcome : Ipv4Outcome} (hstale : ∀ n, rxMem.mergedProto n = 0)
    (hcall : handleFragment rxMem rx p = .ok (outcome, rx')) {upper : UpperPacket}
    (hupper : outcome = .udp upper ∨ outcome = .tcp upper) : upper.transportProto = 0 := by
  rw [handleFragment] at hcall
  generalize findFragBuf rxMem rx p.dgram = found at hcall
  dsimp only at hcall
  generalize (found.2.bufs found.1).add p = added at hcall
  cases added with
  | error e => cases hcall
  | ok buf =>
      by_cases hwait : buf.npkts - 1 ≠ buf.eIdx ∨ buf.eIdx = -1
      · simp only [hwait, if_true] at hcall
        have houtcome : Ipv4Outcome.queued = outcome := congrArg Prod.fst (Except.ok.inj hcall)
        rw [← houtcome] at hupper
        rcases hupper with h | h <;> cases h
      · simp only [hwait, if_false] at hcall
        exact finishFragments_upper hstale hcall hupper

theorem ipv4HandlePkt_fragment {rxMem : RxMemory} {rx : Receiver} {p : RxPacket}
    (hfragment : p.dgram.toHost.isFragment = true) :
    ipv4HandlePkt rxMem rx p = handleFragment rxMem rx { p with dgram := p.dgram.toHost } :=
  if_pos hfragment

/-- The same for a whole delivery. -/
theorem deliverAll_fragments {rxMem : RxMemory} {rx rx' : Receiver} {order : List RxPacket}
    {outcomes : List Ipv4Outcome} (hfragment : ∀ p ∈ order, p.dgram.toHost.isFragment = true)
    (hstale : ∀ n, rxMem.mergedProto n = 0)
    (hall : deliverAll rxMem rx order = .ok (outcomes, rx')) {outcome : Ipv4Outcome}
    (hmem : outcome ∈ outcomes) {upper : UpperPacket}
    (hupper : outcome = .udp upper ∨ outcome = .tcp upper) : upper.transportProto = 0 := by
  induction order generalizing rx outcomes with
  | nil =>
      cases hall
      cases hmem
  | cons p order ih =>
      rw [deliverAll] at hall
      obtain ⟨⟨first, rx₁⟩, hfirst, hrest⟩ := Halt.bind_eq_ok.mp hall
      obtain ⟨⟨others, rx₂⟩, hothers, hlast⟩ := Halt.bind_eq_ok.mp hrest
      simp only [Halt.pure_eq_ok, Except.ok.injEq, Prod.mk.injEq] at hlast
      rw [← hlast.1] at hmem
      rcases List.mem_cons.mp hmem with rfl | hmem
      · rw [ipv4HandlePkt_fragment (hfragment p List.mem_cons_self)] at hfirst
        exact handleFragment_upper hstale hfirst hupper
      · rw [hlast.2] at hothers
        exact ih (fun q hq => hfragment q (List.mem_cons_of_mem _ hq)) hothers hmem

end Receiving

/-! ## The exact condition -/

section RoundTrip

variable {iden : Nat} {pkt : TxPacket}

theorem roundTrips_of_small (hproto : pkt.proto = protoUdp ∨ pkt.proto = protoTcp)
    (hsize : ipv4HdrSize + pkt.transport.length < 1460) : RoundTrips iden pkt :=
  (roundTrips_iff_of_one hproto (ipv4SendPkt_of_small hsize) rfl rfl).mpr rfl

theorem roundTrips_of_exact (hproto : pkt.proto = protoUdp ∨ pkt.proto = protoTcp)
    (hsize : ipv4HdrSize + pkt.transport.length = 1500) : RoundTrips iden pkt := by
  obtain ⟨d, hsend, hoff, hd, hpayload⟩ := @ipv4SendPkt_of_one iden pkt (by omega) (by omega)
  refine (roundTrips_iff_of_one hproto hsend hoff hd).mpr ?_
  unfold ipv4HdrSize at hsize
  rw [hpayload, show 1480 - pkt.transport.length = 0 by omega, List.replicate_zero,
    List.append_nil]

/-- The frame of a single fragment is not cut to the fragment's length. -/
theorem not_roundTrips_of_padded (hproto : pkt.proto = protoUdp ∨ pkt.proto = protoTcp)
    (hlow : 1460 ≤ ipv4HdrSize + pkt.transport.length)
    (hhigh : ipv4HdrSize + pkt.transport.length < 1500) : ¬ RoundTrips iden pkt := by
  obtain ⟨d, hsend, hoff, hd, hpayload⟩ := @ipv4SendPkt_of_one iden pkt hlow hhigh.le
  rw [roundTrips_iff_of_one hproto hsend hoff hd, hpayload]
  intro heq
  have hlength := congrArg List.length heq
  unfold ipv4HdrSize at hhigh
  simp only [List.length_append, List.length_replicate] at hlength
  omega

/-- The packet that fragments are merged into has no transport protocol. -/
theorem not_roundTrips_of_large (hproto : pkt.proto = protoUdp ∨ pkt.proto = protoTcp)
    (hlow : 1500 < ipv4HdrSize + pkt.transport.length)
    (hmax : ipv4HdrSize + pkt.transport.length ≤ ipv4PayloadMax) : ¬ RoundTrips iden pkt := by
  rintro ⟨dgrams, hsend, hall⟩
  rw [ipv4SendPkt_of_not_small hmax (by omega)] at hsend
  unfold ipv4HdrSize at hlow hmax
  unfold ipv4PayloadMax at hmax
  have hfragment := sendFragments_isFragment (by omega) (Or.inl (by omega)) hsend
  obtain ⟨order, hnodup, horder⟩ := exists_inOrder dgrams
  obtain ⟨outcomes, rx', hdone, -⟩ := hall zeroRxMemory initialReceiver initialReceiver_emptyTable
    order hnodup (by rw [horder])
  have hzero : pkt.proto = 0 := by
    refine @deliverAll_fragments _ _ _ _ _ ?_ ?_ hdone pkt.expected ?_
      ⟨pkt.proto, pkt.transport⟩ (expected_isCall hproto)
    · intro p hp
      exact hfragment _ (horder ▸ List.mem_map_of_mem hp)
    · exact fun _ => rfl
    · simp
  rcases hproto with hproto | hproto <;> rw [hproto] at hzero <;> cases hzero

/-- Exactly the packets that are sent whole or fill one frame round-trip. -/
theorem ipv4_roundTrips_iff (hproto : pkt.proto = protoUdp ∨ pkt.proto = protoTcp)
    (hmax : ipv4HdrSize + pkt.transport.length ≤ ipv4PayloadMax) :
    RoundTrips iden pkt ↔ pkt.netSize < 1460 ∨ pkt.netSize = 1500 := by
  rw [netSize_eq hmax]
  constructor
  · intro h
    by_contra hcond
    rcases Nat.lt_or_ge (ipv4HdrSize + pkt.transport.length) 1500 with hlt | hge
    · exact not_roundTrips_of_padded hproto (by omega) hlt h
    · exact not_roundTrips_of_large hproto (by omega) hmax h
  · rintro (hsmall | hexact)
    · exact roundTrips_of_small hproto hsmall
    · exact roundTrips_of_exact hproto hexact

end RoundTrip

/-- A packet of 100 bytes round-trips. -/
theorem ipv4_roundTrips_hundred : RoundTrips 7 ⟨protoUdp, 1, 2, List.replicate 80 0⟩ :=
  (ipv4_roundTrips_iff (Or.inl rfl) (by decide)).mpr (Or.inl (by decide))

/-- A packet of 1520 bytes, which is sent in two fragments. -/
def twoFragments : TxPacket := ⟨protoUdp, 1, 2, List.replicate 1500 0⟩

theorem twoFragments_length : twoFragments.transport.length = 1500 :=
  List.length_replicate

theorem ipv4_not_roundTrips_twoFragments :
    (twoFragments.proto = protoUdp ∧ ipv4HdrSize + twoFragments.transport.length ≤ ipv4PayloadMax) ∧
      ¬ RoundTrips 7 twoFragments := by
  have hmax : ipv4HdrSize + twoFragments.transport.length ≤ ipv4PayloadMax := by
    rw [twoFragments_length]
    decide
  refine ⟨⟨rfl, hmax⟩, not_roundTrips_of_large (Or.inl rfl) ?_ hmax⟩
  rw [twoFragments_length]
  decide

end Net
end Micael
