import Micael.Net.Ownership

/-!
# From `ipv4_send_pkt` to the frame

`ipv4_send_pkt` fills in the header of a packet where it stands, without clearing what an earlier send
left there, and passes a packet that fits to `eth_send_pkt`.  Any other packet is cut into fragments,
which are sent in one packet of `netdev_alloc_pkt_L3`.  That packet is an entry of a slab cache, and its
protocol and its destination are what the entry held before; `MM_ZERO` clears an entry only when it is
handed out for the first time.

Every call of `__calculate_checksum`, every frame and every deallocation is an event.  Between two sends
the owner of a packet may write its transport header and its data.

Main results:

- Theorem {lit}`sendFragments_events`: the events of the fragments of a packet.
- Theorem {lit}`sendRight_iff`: one call sends what it should just when the packet and the entry of the
  cache meet a condition.
- Theorem {lit}`sent_again_iff`: a whole packet can be sent again just when its checksum was zero.
- Theorem {lit}`send_path_right_iff`: the same condition for all calls of a run.
-/

namespace Micael
namespace Net

open Foundation Lib

/-! ## Packets and events -/

/-- `eth_frame_t` with the datagram in it. -/
structure EthFrame where
  dst : HwAddr
  src : HwAddr
  type : Nat
  dgram : Ipv4Datagram

/-- `packet_t`, as far as it is read on the way out, and its address.  A null address is `none`. -/
structure NetPacket where
  ptr : Nat
  size : Int16
  reuse : Bool
  srcAddr : Option Ipv4Addr
  dstAddr : Option Ipv4Addr
  netProto : UInt16
  netSize : UInt16
  transportProto : UInt16
  link : EthFrame

/-- What the send path does that can be seen outside of the packets. -/
inductive SendEvent where
  | checksum (header : Ipv4Datagram)
  | frame (eth : EthFrame) (size : Int16)
  | dealloc (ptr : Nat)

/-- Write to the datagram of a packet. -/
def NetPacket.withDgram (pkt : NetPacket) (d : Ipv4Datagram) : NetPacket :=
  { pkt with link := { pkt.link with dgram := d } }

/-- A datagram in zeroed memory. -/
def zeroDatagram (payload : Nat) : Ipv4Datagram :=
  ⟨0, 0, 0, 0, 0, 0, 0, 0, 0, 0, 0, 0, List.replicate payload 0⟩

/-- `netdev_alloc_pkt_L3` in the entry `fresh` of the cache. -/
def netdevAllocPktL3 (fresh : NetPacket) (size : Nat) : NetPacket :=
  { fresh with
    size := Int16.ofNat (ethHdrSize + size)
    link := ⟨fun _ => 0, fun _ => 0, 0, zeroDatagram (size - ipv4HdrSize)⟩
    reuse := false
    netSize := UInt16.ofNat size }

/-- `netdev_resolve_address`; the hash of a null pointer is the reserved one, so that nothing is found. -/
def netdevResolvePtr (net : Netdev) : Option Ipv4Addr → Option Nat
  | some ip => netdevResolveAddress net ip
  | none => if net.dhcp = 0 then none else some (net.dhcp + dhcpMacOffset)

/-- The destination that `eth_send_pkt` writes; ARP has filled it in. -/
def NetPacket.ethDst (net : Netdev) (mem : Memory) (pkt : NetPacket) : Except Halt HwAddr :=
  if pkt.netProto.toNat = protoArp then .ok pkt.link.dst
  else
    match netdevResolvePtr net pkt.dstAddr with
    | none => .error .fault
    | some mac => .ok (macBytes mem mac)

/-- The frame that `eth_send_pkt` sends. -/
def NetPacket.ethFrame (net : Netdev) (pkt : NetPacket) (dst : HwAddr) : EthFrame :=
  { pkt.link with
    dst := dst
    src := net.mac
    type := n2h16 pkt.netProto.toNat }

/-- `eth_send_pkt`. -/
def NetPacket.ethSendPkt (net : Netdev) (mem : Memory) (pkt : NetPacket) :
    Except Halt (NetPacket × List SendEvent) := do
  let dst ← pkt.ethDst net mem
  pure ({ pkt with link := pkt.ethFrame net dst },
    .frame (pkt.ethFrame net dst) pkt.size :: if pkt.reuse then [] else [.dealloc pkt.ptr])

/-- The header that `ipv4_send_pkt` fills in; the offset and the checksum are left as they are. -/
def NetPacket.header (pkt : NetPacket) (iden : Nat) (src dst : Ipv4Addr) : Ipv4Datagram :=
  { pkt.link.dgram with
    src := (readKey src).toNat
    dst := (readKey dst).toNat
    version := 5
    ihl := 4
    ttl := 128
    iden := n2h16 iden
    proto := pkt.transportProto.toNat % 256
    len := n2h16 pkt.netSize.toNat }

/-- The header of a fragment when its checksum is calculated. -/
def fragmentHeader (d : Ipv4Datagram) (len fOff : Nat) : Ipv4Datagram :=
  { d with
    len := n2h16 (u16 len)
    fOff := n2h16 (u16 fOff)
    checksum := 0 }

/-- Fill in and send one fragment. -/
def NetPacket.sendFragment (net : Netdev) (mem : Memory) (frag : NetPacket) (len fOff : Nat)
    (bytes : List UInt8) : Except Halt (NetPacket × List SendEvent) := do
  let sent ← (frag.withDgram (fillFragment frag.link.dgram len fOff bytes)).ethSendPkt net mem
  pure (sent.1, .checksum (fragmentHeader frag.link.dgram len fOff) :: sent.2)

/-- The loop of `ipv4_send_pkt` with `n` turns left, and the last fragment. -/
def NetPacket.sendFragments (net : Netdev) (mem : Memory) (mtu : Nat) (transport : List UInt8) :
    Nat → NetPacket → Nat → Nat → Except Halt (List SendEvent)
  | 0, _, _, _ => .error .hang
  | n + 1, frag, left, ptr =>
      if mtu < left then do
        let sent ← frag.sendFragment net mem (mtu + ipv4HdrSize) (ipv4MoreFrags ||| (ptr / 8))
          ((transport.drop ptr).take mtu)
        let rest ← sendFragments net mem mtu transport n sent.1 (left - mtu) (u16 (ptr + mtu))
        pure (sent.2 ++ rest)
      else do
        let sent ← frag.sendFragment net mem (left + ipv4HdrSize) (ptr / 8)
          ((transport.drop ptr).take left)
        pure sent.2

/-- The packet is not fragmented. -/
def NetPacket.Whole (pkt : NetPacket) : Prop :=
  pkt.netSize.toNat < u16 (netdevMtu - ipv4HdrSize) - ipv4HdrSize

instance NetPacket.decidableWhole (pkt : NetPacket) : Decidable pkt.Whole := inferInstanceAs (Decidable (_ < _))

/-- The packet for the fragments: it is kept by `eth_send_pkt`, and has the header in front. -/
def fragmentPacket (fresh : NetPacket) (header : Ipv4Datagram) : NetPacket :=
  let mtu := u16 (netdevMtu - ipv4HdrSize)
  let frag := netdevAllocPktL3 fresh (mtu + ipv4HdrSize)
  { frag.withDgram { header with payload := frag.link.dgram.payload } with reuse := true }

/-- `ipv4_send_pkt`: the packet afterwards and the events.  `fresh` is the entry that the cache of
packets hands out, and `iden` the random identification. -/
def NetPacket.ipv4SendPkt (net : Netdev) (mem : Memory) (pkt fresh : NetPacket) (iden : Nat) :
    Except Halt (NetPacket × List SendEvent) :=
  if ¬ pkt.netSize.toNat ≤ ipv4PayloadMax then .error .kassert
  else
    match pkt.srcAddr, pkt.dstAddr with
    | some src, some dst =>
        let header := pkt.header iden src dst
        let dgram := { header with checksum := calculateChecksum header }
        if pkt.Whole then do
          let sent ← (pkt.withDgram dgram).ethSendPkt net mem
          pure (sent.1, .checksum header :: sent.2)
        else do
          let mtu := u16 (netdevMtu - ipv4HdrSize)
          let events ← (fragmentPacket fresh dgram).sendFragments net mem mtu dgram.payload (2 ^ 16)
            (u16 (pkt.netSize.toNat - ipv4HdrSize)) 0
          pure (pkt.withDgram dgram, .checksum header :: (events ++ [.dealloc pkt.ptr]))
    | _, _ => .error .fault

/-! ## What a send has to do -/

/-- The datagram of a frame that is sent. -/
def SendEvent.dgram? : SendEvent → Option Ipv4Datagram
  | .frame eth _ => some eth.dgram
  | _ => none

/-- The event deallocates the packet. -/
def SendEvent.deallocates (ptr : Nat) : SendEvent → Bool
  | .dealloc p => p == ptr
  | _ => false

/-- Where a datagram starts in the payload that it is a part of. -/
def Ipv4Datagram.offset (d : Ipv4Datagram) : Nat := 8 * (d.toHost.fOff &&& ipv4FragMask)

/-- The number of payload bytes that the header of a datagram announces. -/
def Ipv4Datagram.payloadLen (d : Ipv4Datagram) : Nat := d.toHost.len - ipv4HdrSize

/-- Each datagram starts where the one before it ends. -/
def Consecutive : Nat → List Ipv4Datagram → Nat → Prop
  | start, [], stop => start = stop
  | start, d :: ds, stop => d.offset = start ∧ Consecutive (start + d.payloadLen) ds stop

/-- The frames are those of IPv4, every checksum is that of a header with a zero in its place, the
datagrams tile the payload, and the packet is deallocated just when it is not to be reused. -/
structure EventsRight (pkt : NetPacket) (events : List SendEvent) : Prop where
  etherType : ∀ eth size, .frame eth size ∈ events → n2h16 eth.type = protoIpv4
  checksum : ∀ header, .checksum header ∈ events → header.checksum = 0
  tile : Consecutive 0 (events.filterMap SendEvent.dgram?) (pkt.netSize.toNat - ipv4HdrSize)
  dealloc : events.countP (SendEvent.deallocates pkt.ptr) = if pkt.reuse then 0 else 1

/-- `ipv4_send_pkt` returns, and does what it should. -/
def NetPacket.SendRight (net : Netdev) (mem : Memory) (pkt fresh : NetPacket) (iden : Nat) : Prop :=
  ∃ r, pkt.ipv4SendPkt net mem fresh iden = .ok r ∧ EventsRight pkt r.2

/-- The packet has addresses and is not too long, the checksum field of its header is zero, and what is
handed to `eth_send_pkt`, the packet itself or the entry of the cache, is marked as IPv4 and has a
destination that is resolved.  A packet that is sent whole has no offset, and one that is cut is not to be
reused. -/
structure NetPacket.SendFits (net : Netdev) (pkt fresh : NetPacket) : Prop where
  size : pkt.netSize.toNat ≤ ipv4PayloadMax
  addressed : pkt.srcAddr ≠ none ∧ pkt.dstAddr ≠ none
  checksum : pkt.link.dgram.checksum = 0
  whole : pkt.Whole → pkt.netProto.toNat = protoIpv4 ∧ netdevResolvePtr net pkt.dstAddr ≠ none ∧
    pkt.link.dgram.offset = 0
  cut : ¬ pkt.Whole → fresh.netProto.toNat = protoIpv4 ∧ netdevResolvePtr net fresh.dstAddr ≠ none ∧
    pkt.reuse = false

/-! ## Frames -/

section Frames

variable {net : Netdev} {mem : Memory} {pkt frag : NetPacket}

/-- The type of a frame is the protocol of the packet. -/
@[simp]
theorem NetPacket.ethFrame_type (pkt : NetPacket) (dst : HwAddr) :
    n2h16 (pkt.ethFrame net dst).type = pkt.netProto.toNat :=
  n2h16_n2h16 pkt.netProto.toNat_lt

/-- A packet that is marked as IPv4 has a destination just when its address is resolved. -/
theorem NetPacket.ethDst_ipv4 (net : Netdev) (mem : Memory) (pkt : NetPacket)
    (hproto : pkt.netProto.toNat = protoIpv4) :
    (∃ dst, pkt.ethDst net mem = .ok dst) ↔ netdevResolvePtr net pkt.dstAddr ≠ none := by
  have harp : pkt.netProto.toNat ≠ protoArp := by
    rw [hproto]
    decide
  rw [NetPacket.ethDst, if_neg harp]
  cases netdevResolvePtr net pkt.dstAddr with
  | none => simp
  | some mac => simp

theorem NetPacket.ethSendPkt_eq_ok {r : NetPacket × List SendEvent} :
    pkt.ethSendPkt net mem = .ok r ↔ ∃ dst, pkt.ethDst net mem = .ok dst ∧
      r = ({ pkt with link := pkt.ethFrame net dst },
        .frame (pkt.ethFrame net dst) pkt.size :: if pkt.reuse then [] else [.dealloc pkt.ptr]) := by
  rw [NetPacket.ethSendPkt, Halt.bind_eq_ok]
  simp only [Halt.pure_eq_ok, Except.ok.injEq, eq_comm]

/-- What one fragment leads to, when it is sent. -/
theorem NetPacket.sendFragment_eq_ok {len fOff : Nat} {bytes : List UInt8} (hreuse : frag.reuse = true)
    {r : NetPacket × List SendEvent} (hsend : frag.sendFragment net mem len fOff bytes = .ok r) :
    ∃ eth, r.1.reuse = true ∧ r.1.netProto = frag.netProto ∧ n2h16 eth.type = frag.netProto.toNat ∧
      eth.dgram = fillFragment frag.link.dgram len fOff bytes ∧
      r.2 = [.checksum (fragmentHeader frag.link.dgram len fOff), .frame eth frag.size] := by
  obtain ⟨sent, hsent, hr⟩ := Halt.bind_eq_ok.mp hsend
  obtain ⟨dst, -, rfl⟩ := NetPacket.ethSendPkt_eq_ok.mp hsent
  obtain rfl := Except.ok.inj hr
  refine ⟨(frag.withDgram (fillFragment frag.link.dgram len fOff bytes)).ethFrame net dst, hreuse, rfl,
    NetPacket.ethFrame_type _ dst, rfl, ?_⟩
  simp [hreuse, NetPacket.withDgram]

end Frames

/-! ## Fragments -/

section Fragments

variable {net : Netdev} {mem : Memory} {frag : NetPacket} {transport : List UInt8}

/-- What the fragments of the payload between two positions lead to. -/
structure FragmentEvents (proto : UInt16) (start stop : Nat) (events : List SendEvent) : Prop where
  etherType : ∀ eth size, .frame eth size ∈ events → n2h16 eth.type = proto.toNat
  checksum : ∀ header, .checksum header ∈ events → header.checksum = 0
  tile : Consecutive start (events.filterMap SendEvent.dgram?) stop
  kept : ∀ ptr, events.countP (SendEvent.deallocates ptr) = 0
  sent : ∃ eth size, .frame eth size ∈ events

/-- The offset and the length that the header of a fragment gives. -/
theorem fillFragment_place (d : Ipv4Datagram) (bytes : List UInt8) {len fOff ptr : Nat}
    (hlen : len < 2 ^ 16) (hoff : fOff < 2 ^ 16) (hmask : fOff &&& ipv4FragMask = ptr / 8)
    (h8 : 8 ∣ ptr) :
    (fillFragment d len fOff bytes).offset = ptr ∧
      (fillFragment d len fOff bytes).payloadLen = len - ipv4HdrSize := by
  unfold Ipv4Datagram.offset Ipv4Datagram.payloadLen
  simp only [fillFragment, Ipv4Datagram.toHost, u16_eq_of_lt hlen, u16_eq_of_lt hoff,
    n2h16_n2h16 hlen, n2h16_n2h16 hoff, hmask, and_true]
  exact Nat.mul_div_cancel' h8

/-- One fragment. -/
theorem FragmentEvents.single {proto : UInt16} {d : Ipv4Datagram} {len fOff start stop : Nat}
    {size : Int16} {eth : EthFrame} (htype : n2h16 eth.type = proto.toNat)
    (hoffset : eth.dgram.offset = start) (hstop : start + eth.dgram.payloadLen = stop) :
    FragmentEvents proto start stop [.checksum (fragmentHeader d len fOff), .frame eth size] := by
  refine ⟨?_, ?_, ⟨hoffset, hstop⟩, fun ptr => rfl, eth, size, by simp⟩
  · intro eth' size' hmem
    simp only [List.mem_cons, reduceCtorEq, SendEvent.frame.injEq, List.not_mem_nil, or_false,
      false_or] at hmem
    rw [hmem.1, htype]
  · intro header hmem
    simp only [List.mem_cons, reduceCtorEq, SendEvent.checksum.injEq, List.not_mem_nil,
      or_false] at hmem
    rw [hmem, fragmentHeader]

theorem Consecutive.append {start mid stop : Nat} {ds es : List Ipv4Datagram}
    (hds : Consecutive start ds mid) (hes : Consecutive mid es stop) :
    Consecutive start (ds ++ es) stop := by
  induction ds generalizing start with
  | nil =>
      obtain rfl : start = mid := hds
      exact hes
  | cons d ds ih => exact ⟨hds.1, ih hds.2⟩

/-- The fragments of two adjacent parts. -/
theorem FragmentEvents.append {proto : UInt16} {start mid stop : Nat} {events later : List SendEvent}
    (h : FragmentEvents proto start mid events) (h' : FragmentEvents proto mid stop later) :
    FragmentEvents proto start stop (events ++ later) where
  etherType := by
    intro eth size hmem
    rcases List.mem_append.mp hmem with hmem | hmem
    · exact h.etherType eth size hmem
    · exact h'.etherType eth size hmem
  checksum := by
    intro header hmem
    rcases List.mem_append.mp hmem with hmem | hmem
    · exact h.checksum header hmem
    · exact h'.checksum header hmem
  tile := by
    rw [List.filterMap_append]
    exact h.tile.append h'.tile
  kept := by
    intro ptr
    rw [List.countP_append, h.kept, h'.kept]
  sent := by
    obtain ⟨eth, size, hmem⟩ := h.sent
    exact ⟨eth, size, List.mem_append_left _ hmem⟩

/-- The flag of a fragment that is not the last one does not reach its offset. -/
theorem moreFrags_or_mask {offset : Nat} (hlt : offset < 2 ^ 13) :
    (ipv4MoreFrags ||| offset) &&& ipv4FragMask = offset := by
  have hflag : ipv4MoreFrags &&& ipv4FragMask = 0 := by decide
  rw [Nat.and_or_distrib_right, hflag, Nat.zero_or, show ipv4FragMask = 2 ^ 13 - 1 from rfl,
    Nat.and_two_pow_sub_one_eq_mod, Nat.mod_eq_of_lt hlt]

/-- A fragment of the bytes between two positions. -/
theorem sendFragment_events {len fOff ptr : Nat} {bytes : List UInt8} (hreuse : frag.reuse = true)
    (hlen : len + ipv4HdrSize < 2 ^ 16) (hoff : fOff < 2 ^ 16) (h8 : 8 ∣ ptr)
    (hmask : fOff &&& ipv4FragMask = ptr / 8) {r : NetPacket × List SendEvent}
    (hsend : frag.sendFragment net mem (len + ipv4HdrSize) fOff bytes = .ok r) :
    r.1.reuse = true ∧ r.1.netProto = frag.netProto ∧
      FragmentEvents frag.netProto ptr (ptr + len) r.2 := by
  obtain ⟨eth, hkept, hproto, htype, hdgram, hevents⟩ := NetPacket.sendFragment_eq_ok hreuse hsend
  obtain ⟨hoffset, hpayload⟩ := fillFragment_place frag.link.dgram bytes hlen hoff
    hmask h8
  rw [← hdgram] at hoffset hpayload
  refine ⟨hkept, hproto, ?_⟩
  rw [hevents]
  exact FragmentEvents.single htype hoffset (by rw [hpayload, Nat.add_sub_cancel])

/-- The fragments tile what is left of the payload. -/
theorem sendFragments_events {n left ptr : Nat} {events : List SendEvent}
    (hreuse : frag.reuse = true) (h8 : 8 ∣ ptr) (htotal : ptr + left + ipv4HdrSize < 2 ^ 16)
    (hsend : frag.sendFragments net mem 1480 transport n left ptr = .ok events) :
    FragmentEvents frag.netProto ptr (ptr + left) events := by
  unfold ipv4HdrSize at htotal
  induction n generalizing frag left ptr events with
  | zero => cases hsend
  | succ n ih =>
      have hpos : ptr / 8 < 2 ^ 13 := by omega
      rw [NetPacket.sendFragments] at hsend
      split at hsend
      · next hmore =>
          obtain ⟨sent, hfirst, hrest⟩ := Halt.bind_eq_ok.mp hsend
          obtain ⟨rest, hlater, hevents⟩ := Halt.bind_eq_ok.mp hrest
          obtain rfl := Except.ok.inj hevents
          rw [u16_eq_of_lt (by omega)] at hlater
          have hflag : ipv4MoreFrags ||| ptr / 8 < 2 ^ 16 :=
            Nat.or_lt_two_pow (by decide) (by omega)
          obtain ⟨hkept, hproto, hfrag⟩ :=
            sendFragment_events hreuse (by decide) hflag h8 (moreFrags_or_mask hpos) hfirst
          have hstop : ptr + 1480 + (left - 1480) = ptr + left := by omega
          have hothers := ih hkept (h8.add (by decide)) (by omega) hlater
          rw [hstop, hproto] at hothers
          exact hfrag.append hothers
      · next hlast =>
          obtain ⟨sent, hfirst, hevents⟩ := Halt.bind_eq_ok.mp hsend
          obtain rfl := Except.ok.inj hevents
          have hmask : ptr / 8 &&& ipv4FragMask = ptr / 8 := by
            rw [show ipv4FragMask = 2 ^ 13 - 1 from rfl, Nat.and_two_pow_sub_one_eq_mod,
              Nat.mod_eq_of_lt hpos]
          obtain ⟨-, -, hfrag⟩ := sendFragment_events hreuse
            (by unfold ipv4HdrSize; omega) (by omega) h8 hmask hfirst
          exact hfrag

/-- A fragment is sent when its packet has a destination, and leaves it in the packet. -/
theorem sendFragment_ok (mem : Memory) (hproto : frag.netProto.toNat = protoIpv4)
    (hdst : netdevResolvePtr net frag.dstAddr ≠ none) (len fOff : Nat) (bytes : List UInt8) :
    ∃ r, frag.sendFragment net mem len fOff bytes = .ok r ∧ r.1.netProto = frag.netProto ∧
      r.1.dstAddr = frag.dstAddr := by
  obtain ⟨dst, hok⟩ :=
    ((frag.withDgram (fillFragment frag.link.dgram len fOff bytes)).ethDst_ipv4 net mem hproto).mpr hdst
  refine ⟨_, Halt.bind_eq_ok.mpr ⟨_, NetPacket.ethSendPkt_eq_ok.mpr ⟨dst, hok, rfl⟩, rfl⟩, rfl, rfl⟩

/-- Fragments are sent in a packet that has a destination. -/
theorem ethDst_of_sendFragments {mtu n left ptr : Nat} {events : List SendEvent}
    (hsend : frag.sendFragments net mem mtu transport n left ptr = .ok events) :
    ∃ dst, frag.ethDst net mem = .ok dst := by
  have hfirst : ∀ {len fOff : Nat} {bytes : List UInt8} {r : NetPacket × List SendEvent},
      frag.sendFragment net mem len fOff bytes = .ok r → ∃ dst, frag.ethDst net mem = .ok dst := by
    intro len fOff bytes r hone
    obtain ⟨sent, hsent, -⟩ := Halt.bind_eq_ok.mp hone
    obtain ⟨dst, hdst, -⟩ := NetPacket.ethSendPkt_eq_ok.mp hsent
    exact ⟨dst, hdst⟩
  cases n with
  | zero => cases hsend
  | succ n =>
      rw [NetPacket.sendFragments] at hsend
      split at hsend
      · obtain ⟨r, hone, -⟩ := Halt.bind_eq_ok.mp hsend
        exact hfirst hone
      · obtain ⟨r, hone, -⟩ := Halt.bind_eq_ok.mp hsend
        exact hfirst hone

/-- They are all sent when the packet for them has a destination. -/
theorem sendFragments_ok (mem : Memory) (transport : List UInt8) {n left : Nat} (ptr : Nat)
    (hproto : frag.netProto.toNat = protoIpv4) (hdst : netdevResolvePtr net frag.dstAddr ≠ none)
    (hn : left < n) :
    ∃ events, frag.sendFragments net mem 1480 transport n left ptr = .ok events := by
  induction n generalizing frag left ptr with
  | zero => omega
  | succ n ih =>
      rw [NetPacket.sendFragments]
      split
      · next hmore =>
          obtain ⟨r, hfirst, hproto', hdst'⟩ := sendFragment_ok mem hproto hdst
            (1480 + ipv4HdrSize) (ipv4MoreFrags ||| ptr / 8) ((transport.drop ptr).take 1480)
          rw [← hproto'] at hproto
          rw [← hdst'] at hdst
          have hless : left - 1480 < n := by omega
          obtain ⟨rest, hlater⟩ := ih (u16 (ptr + 1480)) hproto hdst hless
          exact ⟨_, Halt.bind_eq_ok.mpr ⟨r, hfirst, Halt.bind_eq_ok.mpr ⟨rest, hlater, rfl⟩⟩⟩
      · next hlast =>
          obtain ⟨r, hfirst, -, -⟩ := sendFragment_ok mem hproto hdst
            (left + ipv4HdrSize) (ptr / 8) ((transport.drop ptr).take left)
          exact ⟨_, Halt.bind_eq_ok.mpr ⟨r, hfirst, rfl⟩⟩

end Fragments

/-! ## One call -/

section Call

variable {net : Netdev} {mem : Memory} {pkt fresh : NetPacket} {iden : Nat} {src dst : Ipv4Addr}

/-- The header with its checksum. -/
def NetPacket.filled (pkt : NetPacket) (iden : Nat) (src dst : Ipv4Addr) : Ipv4Datagram :=
  { pkt.header iden src dst with checksum := calculateChecksum (pkt.header iden src dst) }

/-- A packet that is sent whole. -/
theorem ipv4SendPkt_whole (net : Netdev) (mem : Memory) (fresh : NetPacket) (iden : Nat)
    (hsize : pkt.netSize.toNat ≤ ipv4PayloadMax) (hsrc : pkt.srcAddr = some src)
    (hdst : pkt.dstAddr = some dst) (hwhole : pkt.Whole) :
    pkt.ipv4SendPkt net mem fresh iden =
      ((pkt.withDgram (pkt.filled iden src dst)).ethSendPkt net mem).map fun sent =>
        (sent.1, .checksum (pkt.header iden src dst) :: sent.2) := by
  rw [NetPacket.ipv4SendPkt, if_neg (not_not.mpr hsize), hsrc, hdst]
  simp only [if_pos hwhole]
  rfl

/-- A packet that is cut. -/
theorem ipv4SendPkt_cut (net : Netdev) (mem : Memory) (fresh : NetPacket) (iden : Nat)
    (hsize : pkt.netSize.toNat ≤ ipv4PayloadMax) (hsrc : pkt.srcAddr = some src)
    (hdst : pkt.dstAddr = some dst) (hcut : ¬ pkt.Whole) :
    pkt.ipv4SendPkt net mem fresh iden =
      ((fragmentPacket fresh (pkt.filled iden src dst)).sendFragments net mem 1480
        pkt.link.dgram.payload (2 ^ 16) (pkt.netSize.toNat - ipv4HdrSize) 0).map fun events =>
          (pkt.withDgram (pkt.filled iden src dst),
            .checksum (pkt.header iden src dst) :: (events ++ [.dealloc pkt.ptr])) := by
  have hleft : u16 (pkt.netSize.toNat - ipv4HdrSize) = pkt.netSize.toNat - ipv4HdrSize :=
    u16_eq_of_lt (lt_of_le_of_lt (Nat.sub_le _ _) pkt.netSize.toNat_lt)
  rw [NetPacket.ipv4SendPkt, if_neg (not_not.mpr hsize), hsrc, hdst]
  simp only [if_neg hcut, hleft]
  rfl

/-- A call that returns was made for a packet that is not too long and has addresses. -/
theorem addressed_of_ipv4SendPkt {r : NetPacket × List SendEvent}
    (hsend : pkt.ipv4SendPkt net mem fresh iden = .ok r) :
    pkt.netSize.toNat ≤ ipv4PayloadMax ∧
      ∃ src dst, pkt.srcAddr = some src ∧ pkt.dstAddr = some dst := by
  unfold NetPacket.ipv4SendPkt at hsend
  split at hsend
  · cases hsend
  · next hsize =>
      refine ⟨not_not.mp hsize, ?_⟩
      split at hsend
      · next src dst hsrc hdst => exact ⟨src, dst, hsrc, hdst⟩
      · cases hsend

/-- The events of a packet that is sent whole are right just when it is marked as IPv4, the checksum
field of its header was zero, and it has no offset. -/
theorem eventsRight_whole_iff {eth : EthFrame} {size : Int16} {header : Ipv4Datagram}
    (htype : n2h16 eth.type = pkt.netProto.toNat) (hheader : header.checksum = pkt.link.dgram.checksum)
    (hoffset : eth.dgram.offset = pkt.link.dgram.offset)
    (hlen : eth.dgram.payloadLen = pkt.netSize.toNat - ipv4HdrSize) :
    EventsRight pkt (.checksum header :: .frame eth size ::
        if pkt.reuse then [] else [.dealloc pkt.ptr]) ↔
      pkt.netProto.toNat = protoIpv4 ∧ pkt.link.dgram.checksum = 0 ∧ pkt.link.dgram.offset = 0 := by
  have hdgrams : (SendEvent.checksum header :: .frame eth size ::
      if pkt.reuse then [] else [.dealloc pkt.ptr]).filterMap SendEvent.dgram? = [eth.dgram] := by
    cases pkt.reuse <;> rfl
  constructor
  · intro h
    have htile := h.tile
    rw [hdgrams] at htile
    refine ⟨?_, ?_, ?_⟩
    · rw [← htype]
      exact h.etherType eth size (by simp)
    · rw [← hheader]
      exact h.checksum header (by simp)
    · rw [← hoffset]
      exact htile.1
  · rintro ⟨hproto, hzero, hfirst⟩
    refine ⟨?_, ?_, ?_, ?_⟩
    · intro eth' size' hmem
      have hsame : eth' = eth := by
        cases hreuse : pkt.reuse <;> simp_all
      rw [hsame, htype, hproto]
    · intro header' hmem
      have hsame : header' = header := by
        cases hreuse : pkt.reuse <;> simp_all
      rw [hsame, hheader, hzero]
    · rw [hdgrams]
      exact ⟨hoffset.trans hfirst, by rw [Consecutive, hlen, Nat.zero_add]⟩
    · cases hreuse : pkt.reuse <;> simp [SendEvent.deallocates]

/-- The events of a packet that is cut are right just when the packet of the fragments is marked as IPv4,
the checksum field of its own header was zero, and it is not to be reused. -/
theorem eventsRight_cut_iff {proto : UInt16} {events : List SendEvent} (header : Ipv4Datagram)
    (hheader : header.checksum = pkt.link.dgram.checksum)
    (hevents : FragmentEvents proto 0 (pkt.netSize.toNat - ipv4HdrSize) events) :
    EventsRight pkt (.checksum header :: (events ++ [.dealloc pkt.ptr])) ↔
      proto.toNat = protoIpv4 ∧ pkt.link.dgram.checksum = 0 ∧ pkt.reuse = false := by
  have hcount : (SendEvent.checksum header :: (events ++ [.dealloc pkt.ptr])).countP
      (SendEvent.deallocates pkt.ptr) = 1 := by
    simp [hevents.kept, SendEvent.deallocates]
  constructor
  · intro h
    refine ⟨?_, ?_, ?_⟩
    · obtain ⟨eth, size, hmem⟩ := hevents.sent
      rw [← hevents.etherType eth size hmem]
      exact h.etherType eth size (by simp [hmem])
    · rw [← hheader]
      exact h.checksum header (by simp)
    · have hdealloc := h.dealloc
      rw [hcount] at hdealloc
      cases hreuse : pkt.reuse with
      | false => rfl
      | true => simp [hreuse] at hdealloc
  · rintro ⟨hproto, hzero, hreuse⟩
    refine ⟨?_, ?_, ?_, ?_⟩
    · intro eth size hmem
      rw [← hproto]
      exact hevents.etherType eth size (by simpa using hmem)
    · intro header' hmem
      have hcases : header' = header ∨ .checksum header' ∈ events := by simpa using hmem
      rcases hcases with rfl | hmem
      · rw [hheader, hzero]
      · exact hevents.checksum header' hmem
    · have hdgrams : (SendEvent.checksum header :: (events ++ [.dealloc pkt.ptr])).filterMap
          SendEvent.dgram? = events.filterMap SendEvent.dgram? := by
        simp [List.filterMap_cons, List.filterMap_append, SendEvent.dgram?]
      rw [hdgrams]
      exact hevents.tile
    · rw [hcount, hreuse]
      rfl

/-- A packet that is sent whole. -/
theorem sendRight_whole_iff (hsize : pkt.netSize.toNat ≤ ipv4PayloadMax) (hsrc : pkt.srcAddr = some src)
    (hdst : pkt.dstAddr = some dst) (hwhole : pkt.Whole) :
    pkt.SendRight net mem fresh iden ↔
      (pkt.netProto.toNat = protoIpv4 ∧ pkt.link.dgram.checksum = 0 ∧ pkt.link.dgram.offset = 0) ∧
        netdevResolvePtr net pkt.dstAddr ≠ none := by
  have hlen : (pkt.filled iden src dst).payloadLen = pkt.netSize.toNat - ipv4HdrSize := by
    simp only [Ipv4Datagram.payloadLen, Ipv4Datagram.toHost, NetPacket.filled, NetPacket.header,
      n2h16_n2h16 pkt.netSize.toNat_lt]
  have hright : ∀ dst', EventsRight pkt (.checksum (pkt.header iden src dst) ::
      .frame ((pkt.withDgram (pkt.filled iden src dst)).ethFrame net dst') pkt.size ::
        if pkt.reuse then [] else [.dealloc pkt.ptr]) ↔ _ :=
    fun dst' => eventsRight_whole_iff (NetPacket.ethFrame_type _ dst') rfl rfl hlen
  constructor
  · rintro ⟨r, hsend, hevents⟩
    rw [ipv4SendPkt_whole net mem fresh iden hsize hsrc hdst hwhole] at hsend
    obtain ⟨sent, hsent, rfl⟩ := Halt.map_eq_ok.mp hsend
    obtain ⟨dst', hok, rfl⟩ := NetPacket.ethSendPkt_eq_ok.mp hsent
    have hfits := (hright dst').mp hevents
    exact ⟨hfits, (NetPacket.ethDst_ipv4 net mem _ hfits.1).mp ⟨dst', hok⟩⟩
  · rintro ⟨hfits, hresolves⟩
    obtain ⟨dst', hok⟩ :=
      ((pkt.withDgram (pkt.filled iden src dst)).ethDst_ipv4 net mem hfits.1).mpr hresolves
    have hsend := ipv4SendPkt_whole net mem fresh iden hsize hsrc hdst hwhole
    rw [NetPacket.ethSendPkt_eq_ok.mpr ⟨dst', hok, rfl⟩] at hsend
    exact ⟨_, hsend, (hright dst').mpr hfits⟩

/-- A packet that is cut. -/
theorem sendRight_cut_iff (hsize : pkt.netSize.toNat ≤ ipv4PayloadMax) (hsrc : pkt.srcAddr = some src)
    (hdst : pkt.dstAddr = some dst) (hcut : ¬ pkt.Whole) :
    pkt.SendRight net mem fresh iden ↔
      (fresh.netProto.toNat = protoIpv4 ∧ pkt.link.dgram.checksum = 0 ∧ pkt.reuse = false) ∧
        netdevResolvePtr net fresh.dstAddr ≠ none := by
  have htotal : 0 + (pkt.netSize.toNat - ipv4HdrSize) + ipv4HdrSize < 2 ^ 16 := by
    unfold ipv4PayloadMax at hsize
    unfold ipv4HdrSize
    omega
  have hevents : ∀ {events : List SendEvent}, (fragmentPacket fresh (pkt.filled iden src dst)).sendFragments
      net mem 1480 pkt.link.dgram.payload (2 ^ 16) (pkt.netSize.toNat - ipv4HdrSize) 0 = .ok events →
      FragmentEvents fresh.netProto 0 (pkt.netSize.toNat - ipv4HdrSize) events := by
    intro events hloop
    have hall := sendFragments_events rfl (by decide) htotal hloop
    rw [Nat.zero_add] at hall
    exact hall
  constructor
  · rintro ⟨r, hsend, hright⟩
    rw [ipv4SendPkt_cut net mem fresh iden hsize hsrc hdst hcut] at hsend
    obtain ⟨events, hloop, rfl⟩ := Halt.map_eq_ok.mp hsend
    have hfits := (eventsRight_cut_iff (pkt.header iden src dst) rfl (hevents hloop)).mp hright
    exact ⟨hfits, ((fragmentPacket fresh (pkt.filled iden src dst)).ethDst_ipv4 net mem hfits.1).mp
      (ethDst_of_sendFragments hloop)⟩
  · rintro ⟨hfits, hresolves⟩
    have hless : pkt.netSize.toNat - ipv4HdrSize < 2 ^ 16 := by omega
    obtain ⟨events, hloop⟩ : ∃ events, (fragmentPacket fresh (pkt.filled iden src dst)).sendFragments
        net mem 1480 pkt.link.dgram.payload (2 ^ 16) (pkt.netSize.toNat - ipv4HdrSize) 0 = .ok events :=
      sendFragments_ok mem pkt.link.dgram.payload 0 hfits.1 hresolves hless
    have hsend := ipv4SendPkt_cut net mem fresh iden hsize hsrc hdst hcut
    rw [hloop] at hsend
    exact ⟨_, hsend,
      (eventsRight_cut_iff (pkt.header iden src dst) rfl (hevents hloop)).mpr hfits⟩

/-- One call does what it should just when the packet and the entry of the cache fit. -/
theorem sendRight_iff : pkt.SendRight net mem fresh iden ↔ pkt.SendFits net fresh := by
  constructor
  · rintro ⟨r, hsend, hevents⟩
    have hright : pkt.SendRight net mem fresh iden := ⟨r, hsend, hevents⟩
    obtain ⟨hsize, src, dst, hsrc, hdst⟩ := addressed_of_ipv4SendPkt hsend
    have haddressed : pkt.srcAddr ≠ none ∧ pkt.dstAddr ≠ none := by simp [hsrc, hdst]
    by_cases hwhole : pkt.Whole
    · obtain ⟨⟨hproto, hzero, hfirst⟩, hresolves⟩ := (sendRight_whole_iff hsize hsrc hdst hwhole).mp hright
      exact ⟨hsize, haddressed, hzero, fun _ => ⟨hproto, hresolves, hfirst⟩, fun hcut => absurd hwhole hcut⟩
    · obtain ⟨⟨hproto, hzero, hreuse⟩, hresolves⟩ := (sendRight_cut_iff hsize hsrc hdst hwhole).mp hright
      exact ⟨hsize, haddressed, hzero, fun h => absurd h hwhole, fun _ => ⟨hproto, hresolves, hreuse⟩⟩
  · intro hfits
    obtain ⟨src, hsrc⟩ := Option.ne_none_iff_exists'.mp hfits.addressed.1
    obtain ⟨dst, hdst⟩ := Option.ne_none_iff_exists'.mp hfits.addressed.2
    by_cases hwhole : pkt.Whole
    · obtain ⟨hproto, hresolves, hfirst⟩ := hfits.whole hwhole
      exact (sendRight_whole_iff hfits.size hsrc hdst hwhole).mpr
        ⟨⟨hproto, hfits.checksum, hfirst⟩, hresolves⟩
    · obtain ⟨hproto, hresolves, hreuse⟩ := hfits.cut hwhole
      exact (sendRight_cut_iff hfits.size hsrc hdst hwhole).mpr
        ⟨⟨hproto, hfits.checksum, hreuse⟩, hresolves⟩

/-- A whole packet that was sent can be sent again just when the checksum that was stored is zero. -/
theorem sent_again_iff {fresh' : NetPacket} (hwhole : pkt.Whole) (hfits : pkt.SendFits net fresh)
    {r : NetPacket × List SendEvent} (hsend : pkt.ipv4SendPkt net mem fresh iden = .ok r) :
    r.1.SendFits net fresh' ↔
      ∃ src dst, pkt.srcAddr = some src ∧ pkt.dstAddr = some dst ∧
        calculateChecksum (pkt.header iden src dst) = 0 := by
  obtain ⟨hsize, src, dst, hsrc, hdst⟩ := addressed_of_ipv4SendPkt hsend
  rw [ipv4SendPkt_whole net mem fresh iden hsize hsrc hdst hwhole] at hsend
  obtain ⟨sent, hsent, rfl⟩ := Halt.map_eq_ok.mp hsend
  obtain ⟨dst', -, rfl⟩ := NetPacket.ethSendPkt_eq_ok.mp hsent
  constructor
  · intro hagain
    exact ⟨src, dst, hsrc, hdst, hagain.checksum⟩
  · rintro ⟨src', dst'', hsrc', hdst', hzero⟩
    obtain rfl := Option.some.inj (hsrc.symm.trans hsrc')
    obtain rfl := Option.some.inj (hdst.symm.trans hdst')
    exact ⟨hfits.size, hfits.addressed, hzero, fun _ => hfits.whole hwhole, fun hcut => absurd hwhole hcut⟩

end Call

/-! ## Runs -/

/-- A packet and whether it can still be used: it has not been deallocated, and the kernel has not
stopped. -/
structure SendState where
  pkt : NetPacket
  live : Bool

/-- The owner passes the packet to `ipv4_send_pkt`, or writes its transport header and its data. -/
inductive SendOp where
  | send (net : Netdev) (mem : Memory) (fresh : NetPacket) (iden : Nat)
  | write (payload : List UInt8)

/-- The packet afterwards. -/
def SendState.after (s : SendState) : SendOp → SendState
  | .send net mem fresh iden =>
      match s.pkt.ipv4SendPkt net mem fresh iden with
      | .error _ => { s with live := false }
      | .ok (pkt, events) => ⟨pkt, !events.any (SendEvent.deallocates s.pkt.ptr)⟩
  | .write payload => { s with pkt := s.pkt.withDgram { s.pkt.link.dgram with payload := payload } }

/-- One operation on a packet that can still be used. -/
def SendStep (s : SendState) (op : SendOp) (t : SendState) : Prop := s.live = true ∧ t = s.after op

/-- A call does what it should. -/
def SendOp.Right (s : SendState) : SendOp → Prop
  | .send net mem fresh iden => s.pkt.SendRight net mem fresh iden
  | .write _ => True

/-- A call is made for a packet that fits. -/
def SendOp.Fits (s : SendState) : SendOp → Prop
  | .send net _ fresh _ => s.pkt.SendFits net fresh
  | .write _ => True

theorem SendOp.right_iff_fits (s : SendState) (op : SendOp) : op.Right s ↔ op.Fits s := by
  cases op with
  | send net mem fresh iden => exact sendRight_iff
  | write payload => exact Iff.rfl

/-- However often a packet is sent, all calls do what they should just when the packet and the entry of
the cache fit before each of them. -/
theorem send_path_right_iff (pkt : NetPacket) (ops : List SendOp) :
    (∀ pre op t u, pre ++ [op] <+: ops → Run SendStep ⟨pkt, true⟩ pre t → SendStep t op u →
        op.Right t) ↔
      ∀ pre op t u, pre ++ [op] <+: ops → Run SendStep ⟨pkt, true⟩ pre t → SendStep t op u →
        op.Fits t := by
  have hkeep : ∀ (s : SendState) (op : SendOp) (t : SendState), True → SendStep s op t →
      op.Fits s → True := fun _ _ _ _ _ _ => trivial
  exact Run.steps_iff hkeep (fun s op t _ _ => op.right_iff_fits s) trivial ops

/-! ## A segment that is sent twice -/

/-- The packet of `tcp_accept`: 20 bytes of TCP, to be kept. -/
def handshakePacket : NetPacket where
  ptr := 1
  size := 54
  reuse := true
  srcAddr := some ![10, 0, 2, 15]
  dstAddr := some fun _ => 255
  netProto := 0x0800
  netSize := 40
  transportProto := 6
  link := ⟨fun _ => 0, fun _ => 0, 0, zeroDatagram 20⟩

/-- The network as `netdev_init` leaves it. -/
def bootedNetdev : Netdev := netdevInit 64 fun _ => 2

/-- Send the packet of `tcp_accept`. -/
def sendHandshake : SendOp := .send bootedNetdev (fun _ => 0) handshakePacket 7

/-- The second checksum is calculated over the first one. -/
theorem handshake_sent_twice :
    Run SendStep ⟨handshakePacket, true⟩ [sendHandshake]
        ((SendState.mk handshakePacket true).after sendHandshake) ∧
      ¬ ∀ pre op t u, pre ++ [op] <+: [sendHandshake, sendHandshake] →
        Run SendStep ⟨handshakePacket, true⟩ pre t → SendStep t op u → op.Right t := by
  have hfirst : Run SendStep ⟨handshakePacket, true⟩ [sendHandshake]
      ((SendState.mk handshakePacket true).after sendHandshake) := .snoc .nil ⟨rfl, rfl⟩
  refine ⟨hfirst, fun hall => ?_⟩
  have hlive : ((SendState.mk handshakePacket true).after sendHandshake).live = true := by decide
  have hright := hall [sendHandshake] sendHandshake _ _ List.prefix_rfl hfirst ⟨hlive, rfl⟩
  have hfits := (sendHandshake.right_iff_fits _).mp hright
  have hzero : ((SendState.mk handshakePacket true).after sendHandshake).pkt.link.dgram.checksum = 0 :=
    hfits.checksum
  exact absurd hzero (by decide)

end Net
end Micael
