import Micael.Foundation.Layout
import Micael.Net.Demux
import Micael.Net.SendPath
import Micael.Net.Skb

/-!
# UDP from the sender's buffer to the reader's

`socket_send` copies the caller's data behind three headers that `udp_send_pkt`, `ipv4_send_pkt` and
`eth_send_pkt` fill in.  On the other side `eth_handle_frame`, `ipv4_handle_pkt` and `udp_handle_pkt` take
the headers off again, `socket_handle_pkt` finds the socket, and `udp_read_skb` copies the data out.

A frame is a string of bytes on the wire.  The receiver has it in memory from `pkt->link` on, with anything
behind it.  What is delivered is followed for datagrams of at most 1431 bytes, which are not cut into
fragments.

Main results:

- Theorem {lit}`socket_send_outcome`: the lengths that `socket_send` sends in full, and those that stop the
  kernel.
- Theorem {lit}`udp_mailbox`: along every run in which no datagram finds ten unread ones, the reads return
  the datagrams that were sent to the port, each once and in the order in which they arrived.
-/

namespace Micael
namespace Net

open Foundation Kernel Lib

/-! ## Frames as bytes -/

/-- The bytes of an `ipv4_datagram_t`. -/
def Ipv4Datagram.bytes (d : Ipv4Datagram) : List UInt8 :=
  littleEndian 1 (d.version + 16 * d.ihl) ++ (littleEndian 1 (d.dscp + 64 * d.ecn) ++
    (littleEndian 2 d.len ++ (littleEndian 2 d.iden ++ (littleEndian 2 d.fOff ++
      (littleEndian 1 d.ttl ++ (littleEndian 1 d.proto ++ (littleEndian 2 d.checksum ++
        (littleEndian 4 d.src ++ (littleEndian 4 d.dst ++ d.payload)))))))))

/-- The bytes of an `eth_frame_t` with a datagram in it. -/
def EthFrame.bytes (eth : EthFrame) : List UInt8 :=
  List.ofFn eth.dst ++ (List.ofFn eth.src ++ (littleEndian 2 eth.type ++ eth.dgram.bytes))

/-- A `udp_pkt_t` with its payload; the checksum is not used. -/
def udpBytes (src dst len : Nat) (data : List UInt8) : List UInt8 :=
  littleEndian 2 (n2h16 src) ++ (littleEndian 2 (n2h16 dst) ++ (littleEndian 2 (n2h16 len) ++
    (littleEndian 2 0 ++ data)))

@[simp]
theorem length_udpBytes (src dst len : Nat) (data : List UInt8) :
    (udpBytes src dst len data).length = udpHdrSize + data.length := by
  simp [udpBytes, udpHdrSize]
  omega

/-- The frame carries a whole UDP datagram. -/
structure EthFrame.CarriesUdp (eth : EthFrame) (src dst : Nat) (data : List UInt8) : Prop where
  type : eth.type = n2h16 protoIpv4
  fOff : eth.dgram.fOff = 0
  proto : eth.dgram.proto = protoUdp
  payload : eth.dgram.payload = udpBytes src dst (udpHdrSize + data.length) data

/-- What the receiver reads of a frame that lies at `pkt->link`. -/
structure UdpFields (link : Memory) (dst : Nat) (data : List UInt8) : Prop where
  type : link.load 12 2 = n2h16 protoIpv4
  fOff : link.load 20 2 = 0
  proto : (link 23).toNat = protoUdp
  dstPort : link.load 36 2 = n2h16 dst
  len : link.load 38 2 = n2h16 (udpHdrSize + data.length)
  data : link.HoldsAt 42 data

section Receive

variable {link : Memory} {eth : EthFrame} {src dst : Nat} {data : List UInt8}

/-- A word in network order is read as it was written. -/
theorem load_n2h16 {a n : Nat} (h : link.HoldsAt a (littleEndian 2 (n2h16 n))) :
    link.load a 2 = n2h16 n := by
  rw [h.load]
  exact Nat.mod_eq_of_lt (n2h16_lt n)

/-- The fields are those of the frame. -/
theorem EthFrame.CarriesUdp.fields (h : eth.CarriesUdp src dst data) (hlink : link.HoldsAt 0 eth.bytes) :
    UdpFields link dst data := by
  simp only [EthFrame.bytes, Ipv4Datagram.bytes, h.payload, udpBytes, Memory.holdsAt_append,
    length_littleEndian, List.length_ofFn, Nat.zero_add, Nat.reduceAdd] at hlink
  obtain ⟨-, -, htype, -, -, -, -, hoff, -, hproto, -, -, -, -, hdst, hlen, -, hdata⟩ := hlink
  constructor
  case type =>
    rw [h.type] at htype
    exact load_n2h16 htype
  case fOff => rw [hoff.load, h.fOff, Nat.zero_mod]
  case proto =>
    have hload := hproto.load
    simpa [Memory.load, h.proto, protoUdp] using hload
  case dstPort => exact load_n2h16 hdst
  case len => exact load_n2h16 hlen
  case data => exact hdata

/-! ## One frame -/

/-- The packet that `udp_handle_pkt` hands on, when it arrived as `pkt`. -/
def udpReceived (pkt : Packet) : Packet := (udpHandlePkt 0 (ipv4View (ethView pkt))).pkt

/-- The conversions in place do not reach the data of a datagram. -/
theorem udpReceived_link (pkt : Packet) {x : Nat} (hx : 42 ≤ x) : (udpReceived pkt).link x = pkt.link x := by
  simp only [udpReceived, udpHandlePkt, ipv4View, ethView, swap16, swap32, ethHdrSize, ipv4HdrSize]
  repeat rw [Memory.store_of_outside (by omega)]

@[simp]
theorem udpReceived_proto {pkt : Packet} (h : UdpFields pkt.link dst data) :
    (udpReceived pkt).transport.proto = protoUdp := by
  have hproto : (swap16 pkt.link 12) 23 = pkt.link 23 := Memory.store_of_outside (by omega)
  simp [udpReceived, udpHandlePkt, ipv4View, ethView, ethHdrSize, hproto, h.proto]

/-- The port that the socket is looked up by. -/
theorem udpReceived_dstPort {pkt : Packet} (h : UdpFields pkt.link dst data) (hdst : dst < 2 ^ 16) :
    (udpReceived pkt).dstPort = dst := by
  simp only [Packet.dstPort, udpReceived, udpHandlePkt, ipv4View, ethView, ethHdrSize, ipv4HdrSize,
    Nat.reduceAdd]
  rw [load_swap16_of_disjoint (by omega), load_swap16_self]
  iterate 2 rw [load_swap16_of_disjoint (by omega)]
  iterate 2 rw [load_swap32_of_disjoint (by omega)]
  iterate 3 rw [load_swap16_of_disjoint (by omega)]
  rw [h.dstPort, n2h16_n2h16 hdst]

/-- The application view is the data, whatever the length of the frame. -/
theorem udpReceived_app {pkt : Packet} (h : UdpFields pkt.link dst data)
    (hlen : udpHdrSize + data.length < 2 ^ 16) :
    (udpReceived pkt).app.packet = 42 ∧ (udpReceived pkt).app.size = data.length := by
  refine ⟨rfl, ?_⟩
  rw [udpReceived, (udpHandlePkt_app 0 _).2]
  change u16OfInt ((udpLenAt (ipv4View (ethView pkt)).link 34 : Int) - udpHdrSize) = data.length
  rw [udpLenAt_ipv4View, udpLenAt, h.len, n2h16_n2h16 hlen]
  unfold u16OfInt udpHdrSize
  unfold udpHdrSize at hlen
  omega

theorem udpReceived_data {pkt : Packet} (h : UdpFields pkt.link dst data) :
    (udpReceived pkt).link.HoldsAt 42 data :=
  h.data.congr fun _ hx _ => udpReceived_link pkt hx

/-- A packet that is written twice holds what was written last. -/
theorem NetStack.write_write (s : NetStack) (ptr : Nat) (pkt pkt' : Packet) :
    (s.write ptr pkt).write ptr pkt' = s.write ptr pkt' := by
  simp [NetStack.write, PktHeap.alloc]

/-- A datagram that is no fragment goes to the handler of its protocol. -/
theorem FragTable.handle_whole (rxMem : RxMemory) (rx : FragTable) {p : RxPacket} (hoff : p.dgram.fOff = 0) :
    rx.handle rxMem p =
      .ok (dispatch p.dgram.proto ⟨p.dgram.proto, p.dgram.payload⟩ p.dgram.toHost, rx) := by
  unfold FragTable.handle
  split
  · next heq =>
      rw [ipv4HandlePkt_whole hoff] at heq
      cases heq
  · next heq =>
      rw [ipv4HandlePkt_whole hoff] at heq
      obtain ⟨rfl, rfl⟩ := Prod.mk.inj (Except.ok.inj heq)
      rfl

/-- The datagram as the IPv4 handler finds it. -/
theorem UdpFields.datagram {pkt : Packet} (h : UdpFields pkt.link dst data) (bytes : Nat) :
    ((ethView pkt).datagram bytes).fOff = 0 ∧ ((ethView pkt).datagram bytes).proto = protoUdp := by
  have hproto : (swap16 pkt.link 12) 23 = pkt.link 23 := Memory.store_of_outside (by omega)
  constructor
  · simp only [Packet.datagram, ethView, ethHdrSize, Nat.reduceAdd]
    rw [load_swap16_of_disjoint (by omega), h.fOff]
  · simp only [Packet.datagram, ethView, ethHdrSize, Nat.reduceAdd]
    rw [hproto, h.proto]

/-- A UDP datagram that is not for the DHCP client goes to the socket of its port. -/
theorem NetStack.ethHandleFrame_udp {env : NetEnv} {s : NetStack} {ptr : Nat} {pkt : Packet}
    (hpkt : s.heap ptr = some pkt) (h : UdpFields pkt.link dst data) (hdst : dst < 2 ^ 16)
    (hport : dst ≠ dhcpClientPort) (bytes : Nat) :
    s.ethHandleFrame env bytes ptr =
      ((s.write ptr (udpReceived pkt)).socketHandlePkt ptr (udpReceived pkt)).map Prod.fst := by
  obtain ⟨hoff, hproto⟩ := h.datagram bytes
  have htype : (ethView pkt).net.proto = protoIpv4 := by
    simp only [ethView]
    rw [load_swap16_self, h.type, n2h16_n2h16 (by decide)]
  have hhandler : (udpHandlePkt 0 (ipv4View (ethView pkt))).handler ≠ .dhcp := by
    have hfield := udpReceived_dstPort h hdst
    intro hdhcp
    simp only [udpHandlePkt] at hdhcp
    split at hdhcp
    · next heq => exact hport (hfield.symm.trans heq)
    · cases hdhcp
  have hwhole : ((ethView pkt).datagram bytes).toHost.isFragment = false := by
    apply isFragment_of_zero
    simp [Ipv4Datagram.toHost, hoff, n2h16]
  have hhandle : ∀ rx : FragTable, rx.handle env.rxMem ⟨ptr, (ethView pkt).datagram bytes⟩ =
      .ok (.udp ⟨protoUdp, ((ethView pkt).datagram bytes).payload⟩, rx) := by
    intro rx
    rw [FragTable.handle_whole env.rxMem rx hoff]
    simp [hproto, dispatch, protoUdp, protoIcmp]
  calc
    s.ethHandleFrame env bytes ptr
      = (s.write ptr (ethView pkt)).ipv4Handle env bytes ptr (ethView pkt) := by
        rw [NetStack.ethHandleFrame, PktHeap.deref_some hpkt]
        exact if_pos htype
    _ = ((s.write ptr (ethView pkt)).write ptr (ipv4View (ethView pkt))).udpHandle env ptr
          (ipv4View (ethView pkt)) := by
        simp [NetStack.ipv4Handle, hhandle, hwhole, bind, Except.bind, NetStack.upper, Ipv4Outcome.proto]
    _ = ((s.write ptr (udpReceived pkt)).socketHandlePkt ptr (udpReceived pkt)).map Prod.fst := by
        rw [NetStack.udpHandle, if_neg hhandler]
        simp only [NetStack.write_write]
        rfl

end Receive

/-! ## Sending -/

/-- Conversion to a `size_t`. -/
def u64OfInt (z : Int) : Nat := (z % 2 ^ 64).toNat

/-- `UDP_PAYLOAD_MAX`. -/
def udpPayloadMax : Nat := 65507

/-- A `packet_t` with what the transport layer adds on the way out. -/
structure TransportPacket extends NetPacket where
  srcPort : UInt16
  dstPort : UInt16
  transportSize : UInt16
  appSize : UInt16

/-- The size of the header of a transport protocol. -/
def transportHdrSize (transport : Nat) : Nat :=
  if transport = protoUdp then udpHdrSize
  else if transport = protoTcp then 20
  else if transport = protoIcmp then 8
  else 0

/-- `netdev_alloc_pkt_L5` for IPv4 in the entry `fresh` of the cache. -/
def netdevAllocPktL5 (fresh : TransportPacket) (transport size : Nat) : TransportPacket :=
  let pktSize := u64 (ethHdrSize + size + ipv4HdrSize + transportHdrSize transport)
  let netSize := UInt16.ofNat pktSize - UInt16.ofNat ethHdrSize
  let transportSize := netSize - UInt16.ofNat ipv4HdrSize
  { fresh with
    size := Int16.ofNat pktSize
    link := ⟨fun _ => 0, fun _ => 0, 0, zeroDatagram (pktSize - (ethHdrSize + ipv4HdrSize))⟩
    reuse := false
    netProto := UInt16.ofNat protoIpv4
    netSize := netSize
    transportProto := UInt16.ofNat transport
    transportSize := transportSize
    appSize := transportSize - UInt16.ofNat (transportHdrSize transport) }

/-- `udp_send_pkt`: the header goes over the first eight bytes of the transport view, and
`ipv6_send_pkt` panics. -/
def TransportPacket.udpSendPkt (net : Netdev) (mem : Memory) (pkt : TransportPacket) (frag : NetPacket)
    (iden : Nat) : Except Halt (NetPacket × List SendEvent) :=
  let dgram := pkt.link.dgram
  let filled := pkt.withDgram { dgram with
    payload := udpBytes pkt.srcPort.toNat pkt.dstPort.toNat pkt.transportSize.toNat
      (dgram.payload.drop udpHdrSize) }
  if pkt.netProto.toNat = protoIpv4 then filled.ipv4SendPkt net mem frag iden
  else .error (.kpanic "ipv6 new todo")

/-- `__udp_write`: the value returned, and what was sent. -/
def udpWrite (net : Netdev) (mem : Memory) (pkt : TransportPacket) (size : Nat) (frag : NetPacket)
    (iden : Nat) : Except Halt (Int × List SendEvent) :=
  if udpPayloadMax < size then .ok (-Errno.einval.toInt, [])
  else (pkt.udpSendPkt net mem frag iden).map fun r => (0, r.2)

/-- A datagram socket, as far as a send reads it. -/
structure UdpSender where
  srcAddr : Option Ipv4Addr
  srcPort : UInt16

/-- The packet that `socket_send` passes on: the data are copied to the application view. -/
def UdpSender.packet (sock : UdpSender) (fresh : TransportPacket) (port : UInt16) (addr : Ipv4Addr)
    (data : List UInt8) : TransportPacket :=
  let pkt := netdevAllocPktL5 fresh protoUdp data.length
  let dgram := pkt.link.dgram
  { pkt with
    srcAddr := sock.srcAddr
    srcPort := sock.srcPort
    dstPort := port
    dstAddr := some addr
    link := { pkt.link with dgram := { dgram with payload := dgram.payload.take udpHdrSize ++ data } } }

/-- `socket_send` on a datagram socket that was found, with the bytes of a buffer that is not null.  The
size that is passed to `file_write` was a `short` before. -/
def UdpSender.socketSend (sock : UdpSender) (net : Netdev) (mem : Memory) (fresh : TransportPacket)
    (frag : NetPacket) (iden : Nat) (dest : Option (UInt16 × Ipv4Addr)) (data : List UInt8) :
    Except Halt (Int × List SendEvent) :=
  if data = [] then .ok (-Errno.einval.toInt, [])
  else
    match dest with
    | none => .ok (-Errno.einval.toInt, [])
    | some (port, addr) =>
        let pkt := sock.packet fresh port addr data
        udpWrite net mem pkt (u64OfInt pkt.size.toInt) frag iden

/-- The payload bytes of the datagrams that are sent, as many of each as its header announces. -/
def carried (events : List SendEvent) : List UInt8 :=
  (events.filterMap SendEvent.dgram?).flatMap fun d => d.payload.take d.payloadLen

@[simp]
theorem carried_append (events later : List SendEvent) :
    carried (events ++ later) = carried events ++ carried later := by
  simp [carried]

@[simp]
theorem carried_checksum (header : Ipv4Datagram) (events : List SendEvent) :
    carried (.checksum header :: events) = carried events := rfl

@[simp]
theorem carried_frame (eth : EthFrame) (size : Int16) (events : List SendEvent) :
    carried (.frame eth size :: events) = eth.dgram.payload.take eth.dgram.payloadLen ++ carried events :=
  rfl

@[simp]
theorem carried_dealloc (ptr : Nat) (events : List SendEvent) :
    carried (.dealloc ptr :: events) = carried events := rfl

@[simp]
theorem carried_nil : carried [] = [] := rfl

section Fragments

variable {net : Netdev} {mem : Memory} {frag pkt : NetPacket} {transport : List UInt8}

/-- A fragment carries its bytes. -/
theorem carried_sendFragment {len fOff : Nat} {bytes : List UInt8} (hreuse : frag.reuse = true)
    (hlen : len + ipv4HdrSize < 2 ^ 16) (hbytes : bytes.length = len) {r : NetPacket × List SendEvent}
    (hsend : frag.sendFragment net mem (len + ipv4HdrSize) fOff bytes = .ok r) :
    r.1.reuse = true ∧ carried r.2 = bytes := by
  obtain ⟨eth, hkept, -, -, hdgram, hevents⟩ := NetPacket.sendFragment_eq_ok hreuse hsend
  have hannounced : eth.dgram.payloadLen = len := by
    simp only [hdgram, Ipv4Datagram.payloadLen, Ipv4Datagram.toHost, fillFragment, u16_eq_of_lt hlen,
      n2h16_n2h16 hlen, Nat.add_sub_cancel]
  have hpayload : eth.dgram.payload = bytes ++ frag.link.dgram.payload.drop len := by
    rw [hdgram, fillFragment, hbytes]
  refine ⟨hkept, ?_⟩
  simp [hevents, hannounced, hpayload, ← hbytes]

/-- The fragments carry what is left of the payload. -/
theorem carried_sendFragments {n left ptr : Nat} {events : List SendEvent} (hreuse : frag.reuse = true)
    (hroom : ptr + left ≤ transport.length) (htotal : ptr + left + ipv4HdrSize < 2 ^ 16)
    (hsend : frag.sendFragments net mem 1480 transport n left ptr = .ok events) :
    carried events = (transport.drop ptr).take left := by
  unfold ipv4HdrSize at htotal
  induction n generalizing frag left ptr events with
  | zero => cases hsend
  | succ n ih =>
      rw [NetPacket.sendFragments] at hsend
      split at hsend
      · next hmore =>
          obtain ⟨sent, hfirst, hrest⟩ := Halt.bind_eq_ok.mp hsend
          obtain ⟨rest, hlater, hevents⟩ := Halt.bind_eq_ok.mp hrest
          obtain rfl := Except.ok.inj hevents
          rw [u16_eq_of_lt (by omega)] at hlater
          obtain ⟨hkept, hfrag⟩ := carried_sendFragment hreuse (by decide) (by simp; omega) hfirst
          have hothers := ih hkept (by omega) (by omega) hlater
          have hsplit : left = 1480 + (left - 1480) := by omega
          rw [carried_append, hfrag, hothers, ← List.drop_drop]
          conv_rhs => rw [hsplit, List.take_add]
      · next hlast =>
          obtain ⟨sent, hfirst, hevents⟩ := Halt.bind_eq_ok.mp hsend
          obtain rfl := Except.ok.inj hevents
          exact (carried_sendFragment hreuse (by unfold ipv4HdrSize; omega) (by simp; omega) hfirst).2

/-- What a call of `ipv4_send_pkt` sends carries as much of the payload as the size of the packet says. -/
theorem carried_ipv4SendPkt {fresh : NetPacket} {iden : Nat} {r : NetPacket × List SendEvent}
    (hroom : pkt.netSize.toNat - ipv4HdrSize ≤ pkt.link.dgram.payload.length)
    (hsend : pkt.ipv4SendPkt net mem fresh iden = .ok r) :
    carried r.2 = pkt.link.dgram.payload.take (pkt.netSize.toNat - ipv4HdrSize) := by
  obtain ⟨hsize, src, dst, hsrc, hdst⟩ := addressed_of_ipv4SendPkt hsend
  by_cases hwhole : pkt.Whole
  · rw [ipv4SendPkt_whole net mem fresh iden hsize hsrc hdst hwhole] at hsend
    obtain ⟨sent, hsent, rfl⟩ := Halt.map_eq_ok.mp hsend
    obtain ⟨dst', hok, rfl⟩ := NetPacket.ethSendPkt_eq_ok.mp hsent
    have hannounced : (pkt.filled iden src dst).payloadLen = pkt.netSize.toNat - ipv4HdrSize := by
      simp only [Ipv4Datagram.payloadLen, Ipv4Datagram.toHost, NetPacket.filled, NetPacket.header,
        n2h16_n2h16 pkt.netSize.toNat_lt]
    have hframe : ((pkt.withDgram (pkt.filled iden src dst)).ethFrame net dst').dgram =
        pkt.filled iden src dst := rfl
    have hkept : carried (if pkt.reuse then [] else [.dealloc pkt.ptr]) = [] := by
      split <;> simp
    simp only [carried_checksum, carried_frame, hframe, hannounced]
    exact (congrArg _ hkept).trans (List.append_nil _)
  · rw [ipv4SendPkt_cut net mem fresh iden hsize hsrc hdst hwhole] at hsend
    obtain ⟨events, hloop, rfl⟩ := Halt.map_eq_ok.mp hsend
    have htotal : 0 + (pkt.netSize.toNat - ipv4HdrSize) + ipv4HdrSize < 2 ^ 16 := by
      unfold ipv4PayloadMax at hsize
      unfold ipv4HdrSize
      omega
    simp [carried_sendFragments rfl (by omega) htotal hloop]

end Fragments

/-! ## What a socket sends -/

section Send

variable {sock : UdpSender} {net : Netdev} {mem : Memory} {fresh : TransportPacket} {frag : NetPacket}
  {iden : Nat} {port : UInt16} {addr : Ipv4Addr} {data : List UInt8}

/-- `pkt->size` of a packet for `n` bytes, as `__udp_write` sees it. -/
theorem udpWriteSize (n : Nat) :
    u64OfInt (Int16.ofNat (u64 n)).toInt =
      if n % 2 ^ 16 < 2 ^ 15 then n % 2 ^ 16 else n % 2 ^ 16 + (2 ^ 64 - 2 ^ 16) := by
  have hint : (Int16.ofNat (u64 n)).toInt = ((u64 n : Nat) : Int).bmod (2 ^ 16) := Int16.toInt_ofNat
  rw [hint, u64OfInt, u64, Int.bmod_def]
  split_ifs <;> omega

/-- The size of the datagram, with both headers. -/
theorem UdpSender.netSize_packet :
    (sock.packet fresh port addr data).netSize.toNat = (28 + data.length) % 2 ^ 16 := by
  have hsize : (sock.packet fresh port addr data).netSize =
      UInt16.ofNat (u64 (ethHdrSize + data.length + ipv4HdrSize + udpHdrSize)) - UInt16.ofNat ethHdrSize :=
    rfl
  rw [hsize, UInt16.toNat_sub, UInt16.toNat_ofNat', UInt16.toNat_ofNat']
  unfold u64 ethHdrSize ipv4HdrSize udpHdrSize
  omega

theorem UdpSender.transportSize_packet :
    (sock.packet fresh port addr data).transportSize.toNat = (8 + data.length) % 2 ^ 16 := by
  have hsize : (sock.packet fresh port addr data).transportSize =
      (sock.packet fresh port addr data).netSize - UInt16.ofNat ipv4HdrSize := rfl
  rw [hsize, UInt16.toNat_sub, UdpSender.netSize_packet, UInt16.toNat_ofNat']
  unfold ipv4HdrSize
  omega

/-- The payload that `ipv4_send_pkt` is given: behind the UDP header stand the data, unless the size of
the packet does not fit into a `size_t`. -/
theorem UdpSender.payload_packet (hlen : data.length < 2 ^ 63) :
    (sock.packet fresh port addr data).link.dgram.payload.drop udpHdrSize = data := by
  have hroom : udpHdrSize ≤
      u64 (ethHdrSize + data.length + ipv4HdrSize + udpHdrSize) - (ethHdrSize + ipv4HdrSize) := by
    unfold u64 ethHdrSize ipv4HdrSize udpHdrSize
    omega
  simp [UdpSender.packet, netdevAllocPktL5, transportHdrSize, zeroDatagram, hroom]

theorem UdpSender.length_payload_packet :
    data.length ≤ (sock.packet fresh port addr data).link.dgram.payload.length := by
  simp [UdpSender.packet]

/-- The packet as `udp_send_pkt` passes it on. -/
def UdpSender.filled (sock : UdpSender) (fresh : TransportPacket) (port : UInt16) (addr : Ipv4Addr)
    (data : List UInt8) : NetPacket :=
  let pkt := sock.packet fresh port addr data
  pkt.withDgram { pkt.link.dgram with
    payload := udpBytes sock.srcPort.toNat port.toNat pkt.transportSize.toNat
      (pkt.link.dgram.payload.drop udpHdrSize) }

/-- The call with data and a destination: the size of the packet has to be one that a `short` holds. -/
theorem UdpSender.socketSend_eq (hdata : data ≠ []) :
    sock.socketSend net mem fresh frag iden (some (port, addr)) data =
      if (42 + data.length) % 2 ^ 16 < 2 ^ 15 then
        ((sock.filled fresh port addr data).ipv4SendPkt net mem frag iden).map fun r => (0, r.2)
      else .ok (-Errno.einval.toInt, []) := by
  have hsize : u64OfInt (sock.packet fresh port addr data).size.toInt =
      if (42 + data.length) % 2 ^ 16 < 2 ^ 15 then (42 + data.length) % 2 ^ 16
      else (42 + data.length) % 2 ^ 16 + (2 ^ 64 - 2 ^ 16) := by
    have htotal : 42 + data.length = ethHdrSize + data.length + ipv4HdrSize + udpHdrSize := by
      unfold ethHdrSize ipv4HdrSize udpHdrSize
      omega
    rw [← udpWriteSize, htotal]
    rfl
  have hsend : (sock.packet fresh port addr data).udpSendPkt net mem frag iden =
      (sock.filled fresh port addr data).ipv4SendPkt net mem frag iden := rfl
  simp only [UdpSender.socketSend, if_neg hdata, udpWrite, hsize, hsend, udpPayloadMax]
  by_cases hshort : (42 + data.length) % 2 ^ 16 < 2 ^ 15
  · simp only [if_pos hshort]
    rw [if_neg (by omega)]
  · simp only [if_neg hshort]
    rw [if_pos (by omega)]

theorem UdpSender.netSize_filled :
    (sock.filled fresh port addr data).netSize.toNat = (28 + data.length) % 2 ^ 16 := by
  have hsize : (sock.packet fresh port addr data).netSize.toNat = (28 + data.length) % 2 ^ 16 :=
    UdpSender.netSize_packet
  exact hsize

/-- The payload with its header. -/
theorem UdpSender.payload_filled (hlen : data.length < 2 ^ 63) :
    (sock.filled fresh port addr data).link.dgram.payload =
      udpBytes sock.srcPort.toNat port.toNat ((8 + data.length) % 2 ^ 16) data := by
  have hpayload : (sock.filled fresh port addr data).link.dgram.payload =
      udpBytes sock.srcPort.toNat port.toNat (sock.packet fresh port addr data).transportSize.toNat
        ((sock.packet fresh port addr data).link.dgram.payload.drop udpHdrSize) := rfl
  rw [hpayload, UdpSender.payload_packet hlen, UdpSender.transportSize_packet]

theorem UdpSender.length_payload_filled :
    data.length ≤ (sock.filled fresh port addr data).link.dgram.payload.length := by
  have hpacket : data.length ≤ (sock.packet fresh port addr data).link.dgram.payload.length :=
    UdpSender.length_payload_packet
  simp only [UdpSender.filled, NetPacket.withDgram, length_udpBytes, List.length_drop]
  omega

/-- As much of the payload as the size says is there. -/
theorem UdpSender.room_filled :
    (sock.filled fresh port addr data).netSize.toNat - ipv4HdrSize ≤
      (sock.filled fresh port addr data).link.dgram.payload.length := by
  rw [UdpSender.netSize_filled]
  unfold ipv4HdrSize
  by_cases hlen : data.length < 2 ^ 63
  · rw [UdpSender.payload_filled hlen, length_udpBytes]
    unfold udpHdrSize
    omega
  · have hpayload : data.length ≤ (sock.filled fresh port addr data).link.dgram.payload.length :=
      UdpSender.length_payload_filled
    omega

/-- The socket is bound, the destination is resolved, and the entry of the cache that the fragments
are sent in was last used for IPv4 and such a destination. -/
structure UdpSender.Ready (sock : UdpSender) (net : Netdev) (frag : NetPacket) (addr : Ipv4Addr) : Prop where
  bound : sock.srcAddr ≠ none
  resolved : netdevResolvePtr net (some addr) ≠ none
  cache : frag.netProto.toNat = protoIpv4 ∧ netdevResolvePtr net frag.dstAddr ≠ none

/-- A packet that is not too long is sent. -/
theorem UdpSender.Ready.sent (h : sock.Ready net frag addr)
    (hsize : (28 + data.length) % 2 ^ 16 ≤ ipv4PayloadMax) :
    ∃ r, (sock.filled fresh port addr data).ipv4SendPkt net mem frag iden = .ok r := by
  have hoff : (sock.filled fresh port addr data).link.dgram.fOff = 0 := rfl
  have hoffset : (sock.filled fresh port addr data).link.dgram.offset = 0 := by
    simp [Ipv4Datagram.offset, Ipv4Datagram.toHost, hoff, n2h16]
  have hfits : (sock.filled fresh port addr data).SendFits net frag := by
    constructor
    case size =>
      rw [UdpSender.netSize_filled]
      exact hsize
    case addressed => exact ⟨h.bound, Option.some_ne_none _⟩
    case checksum => rfl
    case whole => exact fun _ => ⟨rfl, h.resolved, hoffset⟩
    case cut => exact fun _ => ⟨h.cache.1, h.cache.2, rfl⟩
  obtain ⟨r, hsend, -⟩ := sendRight_iff.mpr hfits
  exact ⟨r, hsend⟩

/-- The call returns 0, and what was sent carries the UDP header and all of the data. -/
def UdpSender.SendsAll (sock : UdpSender) (net : Netdev) (mem : Memory) (fresh : TransportPacket)
    (frag : NetPacket) (iden : Nat) (port : UInt16) (addr : Ipv4Addr) (data : List UInt8) : Prop :=
  ∃ events, sock.socketSend net mem fresh frag iden (some (port, addr)) data = .ok (0, events) ∧
    carried events = udpBytes sock.srcPort.toNat port.toNat (udpHdrSize + data.length) data

/-- A call that returns 0 has sent a packet of a size that fits. -/
theorem UdpSender.sent_of_zero {events : List SendEvent}
    (hsend : sock.socketSend net mem fresh frag iden (some (port, addr)) data = .ok (0, events)) :
    data ≠ [] ∧ (42 + data.length) % 2 ^ 16 < 2 ^ 15 ∧ (28 + data.length) % 2 ^ 16 ≤ ipv4PayloadMax ∧
      ∃ pkt, (sock.filled fresh port addr data).ipv4SendPkt net mem frag iden = .ok (pkt, events) := by
  have hdata : data ≠ [] := by
    rintro rfl
    cases hsend
  rw [UdpSender.socketSend_eq hdata] at hsend
  split at hsend
  · next hshort =>
      obtain ⟨⟨pkt, events'⟩, hcall, heq⟩ := Halt.map_eq_ok.mp hsend
      obtain rfl : events' = events := (Prod.mk.inj heq).2
      obtain ⟨hsize, -⟩ := addressed_of_ipv4SendPkt hcall
      rw [UdpSender.netSize_filled] at hsize
      exact ⟨hdata, hshort, hsize, pkt, hcall⟩
  · cases hsend

/-- A datagram is sent in full just when it has data and at most 32725 bytes of them, which is half of
what {lit}`UDP_PAYLOAD_MAX` allows. -/
theorem sendsAll_iff (h : sock.Ready net frag addr) :
    sock.SendsAll net mem fresh frag iden port addr data ↔ 0 < data.length ∧ data.length ≤ 32725 := by
  have hsizes : udpHdrSize = 8 ∧ ipv4HdrSize = 20 ∧ ipv4PayloadMax = 65515 := ⟨rfl, rfl, rfl⟩
  constructor
  · rintro ⟨events, hsend, hall⟩
    obtain ⟨hdata, hshort, hsize, pkt, hcall⟩ := UdpSender.sent_of_zero hsend
    have hpos : 0 < data.length := List.length_pos_iff.mpr hdata
    -- No more can have been sent than the size of the packet says.
    have hcarried := congrArg List.length (carried_ipv4SendPkt UdpSender.room_filled hcall)
    rw [hall, length_udpBytes, List.length_take, UdpSender.netSize_filled] at hcarried
    omega
  · rintro ⟨hpos, hmax⟩
    have hdata : data ≠ [] := List.length_pos_iff.mp hpos
    have hmod : (28 + data.length) % 2 ^ 16 = 28 + data.length := Nat.mod_eq_of_lt (by omega)
    have hfits : (28 + data.length) % 2 ^ 16 ≤ ipv4PayloadMax := by omega
    obtain ⟨r, hcall⟩ : ∃ r, (sock.filled fresh port addr data).ipv4SendPkt net mem frag iden = .ok r :=
      h.sent hfits
    refine ⟨r.2, ?_, ?_⟩
    · rw [UdpSender.socketSend_eq hdata, if_pos (by omega), hcall]
      rfl
    · rw [carried_ipv4SendPkt UdpSender.room_filled hcall, UdpSender.payload_filled (by omega),
        UdpSender.netSize_filled, hmod]
      have hwhole : (8 + data.length) % 2 ^ 16 = udpHdrSize + data.length := by omega
      rw [hwhole]
      apply List.take_of_length_le
      rw [length_udpBytes]
      omega

/-- A socket that sends to everybody. -/
def broadcaster : UdpSender := ⟨some fun _ => 0, 9⟩

/-- A broadcast needs no reply of DHCP. -/
theorem broadcaster_ready : broadcaster.Ready bootedNetdev handshakePacket fun _ => 255 where
  bound := Option.some_ne_none _
  resolved := by decide
  cache := ⟨rfl, by decide⟩

/-- The frame of a datagram that is not cut carries it. -/
theorem carriesUdp_of_send {events : List SendEvent} {eth : EthFrame} {size : Int16}
    (hwhole : data.length < 1432)
    (hsend : sock.socketSend net mem fresh frag iden (some (port, addr)) data = .ok (0, events))
    (hframe : .frame eth size ∈ events) : eth.CarriesUdp sock.srcPort.toNat port.toNat data := by
  obtain ⟨-, -, hsize, pkt, hcall⟩ := UdpSender.sent_of_zero hsend
  obtain ⟨hmax, src, dst, hsrc, hdst⟩ := addressed_of_ipv4SendPkt hcall
  have hnet : (sock.filled fresh port addr data).Whole := by
    unfold NetPacket.Whole netdevMtu ipv4HdrSize u16
    rw [UdpSender.netSize_filled]
    omega
  rw [ipv4SendPkt_whole net mem frag iden hmax hsrc hdst hnet] at hcall
  obtain ⟨sent, hsent, heq⟩ := Halt.map_eq_ok.mp hcall
  obtain ⟨mac, -, rfl⟩ := NetPacket.ethSendPkt_eq_ok.mp hsent
  obtain ⟨rfl, rfl⟩ := Prod.mk.inj heq
  have hmem : SendEvent.frame eth size ∈ [.checksum ((sock.filled fresh port addr data).header iden src dst),
      .frame (((sock.filled fresh port addr data).withDgram
        ((sock.filled fresh port addr data).filled iden src dst)).ethFrame net mac)
        (sock.filled fresh port addr data).size,
      .dealloc (sock.filled fresh port addr data).ptr] := hframe
  obtain ⟨rfl, -⟩ : eth = _ ∧ size = _ := by simpa using hmem
  constructor
  case type => rfl
  case fOff => rfl
  case proto => rfl
  case payload =>
    have hlen : (8 + data.length) % 2 ^ 16 = udpHdrSize + data.length := Nat.mod_eq_of_lt (by omega)
    rw [← hlen]
    exact UdpSender.payload_filled (by omega)

/-- Something that is carried is in a frame. -/
theorem exists_frame {events : List SendEvent} (hcarried : carried events ≠ []) :
    ∃ eth size, .frame eth size ∈ events := by
  induction events with
  | nil => exact absurd carried_nil hcarried
  | cons event events ih =>
      cases event with
      | frame eth size => exact ⟨eth, size, List.mem_cons_self⟩
      | checksum header =>
          obtain ⟨eth, size, hmem⟩ := ih hcarried
          exact ⟨eth, size, List.mem_cons_of_mem _ hmem⟩
      | dealloc ptr =>
          obtain ⟨eth, size, hmem⟩ := ih hcarried
          exact ⟨eth, size, List.mem_cons_of_mem _ hmem⟩

end Send

/-! ## A socket as a mailbox -/

/-- What happens around a socket. -/
inductive UdpEvent where
  /-- A datagram with these data arrives. -/
  | arrive (data : List UInt8)
  /-- A read with room for `size` bytes, and the bytes that it returned. -/
  | read (size : Nat) (got : List UInt8)
  /-- Other code runs. -/
  | other
deriving DecidableEq, Repr

/-- The datagrams that are still to be read. -/
def mailStep (mail : List (List UInt8)) : UdpEvent → List (List UInt8)
  | .arrive data => mail ++ [data]
  | .read _ _ => mail.tail
  | .other => mail

/-- The datagrams that arrived and were not read, the oldest first. -/
def mailOf (events : List UdpEvent) : List (List UInt8) := events.foldl mailStep []

@[simp]
theorem mailOf_concat (events : List UdpEvent) (event : UdpEvent) :
    mailOf (events ++ [event]) = mailStep (mailOf events) event := by
  simp [mailOf]

/-- No datagram finds ten unread ones. -/
def MailFits (events : List UdpEvent) : Prop :=
  ∀ pre data, pre ++ [.arrive data] <+: events → (mailOf pre).length < skbMaxSize

/-- Every read returns the oldest datagram, as far as there is room for it, and nothing when there is no
datagram. -/
def ReadsMail (events : List UdpEvent) : Prop :=
  ∀ pre size got, pre ++ [.read size got] <+: events → got = ((mailOf pre).headD []).take size

/-- Datagrams for the port are given to the socket at `i`. -/
def NetStack.Listens (s : NetStack) (i : Nat) (port : UInt16) : Prop :=
  ∀ pkt : Packet, pkt.transport.proto = protoUdp → pkt.dstPort = port.toNat → s.socketOf pkt = some i

/-- Some sender has passed the data to `socket_send` for the port, and the frame that was sent for it lies
in the packet. -/
def Packet.SentTo (pkt : Packet) (port : UInt16) (data : List UInt8) : Prop :=
  data.length < 1432 ∧ ∃ (sock : UdpSender) (net : Netdev) (mem : Memory) (fresh : TransportPacket)
    (frag : NetPacket) (iden : Nat) (addr : Ipv4Addr) (events : List SendEvent) (eth : EthFrame)
    (size : Int16), sock.socketSend net mem fresh frag iden (some (port, addr)) data = .ok (0, events) ∧
      .frame eth size ∈ events ∧ pkt.link.HoldsAt 0 eth.bytes

/-- A datagram for the port arrives in a packet that the driver has just allocated, the socket at `i` is
read with `udp_read_skb`, or other code runs that leaves the socket and the packets in its buffer alone. -/
inductive UdpStep (env : NetEnv) (i : Nat) (port : UInt16) : NetStack → UdpEvent → NetStack → Prop
  | arrive {s s' : NetStack} {ptr bytes : Nat} {pkt : Packet} {data : List UInt8} :
      s.heap ptr = none → pkt.SentTo port data →
      NetStack.ethHandleFrame env { s with heap := s.heap.alloc ptr pkt } bytes ptr = .ok s' →
      UdpStep env i port s (.arrive data) s'
  | read {s : NetStack} {skb : Skb} {st : SkbState} {buf buf' : Memory} {size : Nat} {ret : Int} :
      s.socks i = .udp skb → 0 < size →
      udpReadSkb ⟨s.heap, skb⟩ (some buf) size = .ok (st, some buf', ret) →
      UdpStep env i port s (.read size (buf'.bytes 0 ret.toNat))
        { s with heap := st.heap, socks := Function.update s.socks i (.udp st.skb) }
  | other {s s' : NetStack} {skb : Skb} : s.socks i = .udp skb → s'.socks i = .udp skb →
      (∀ k ptr, skb.packets k = some ptr → s'.heap ptr = s.heap ptr) →
      (s.Listens i port → s'.Listens i port) →
      UdpStep env i port s .other s'

/-- The data of a packet for the reader. -/
def Packet.data (pkt : Packet) : List UInt8 := pkt.view pkt.app 0 pkt.app.size

/-- The buffer of the socket holds the datagrams. -/
structure Mailbox (i : Nat) (port : UInt16) (mail : List (List UInt8)) (s : NetStack) : Prop where
  listens : s.Listens i port
  buffer : ∃ skb queue, s.socks i = .udp skb ∧ SkbSync queue ⟨s.heap, skb⟩ ∧
    mail = queue.map fun p => p.2.data

section Mail

variable {env : NetEnv} {i : Nat} {port : UInt16} {mail : List (List UInt8)} {s s' : NetStack} {pkt : Packet}
  {data : List UInt8} {ptr : Nat}

/-- The first socket that was bound to a small port is given the datagrams for it. -/
theorem Bound.listens {binds : List Binding} {b : Binding} (h : Bound s binds)
    (hfirst : (binds.find? fun b => b.port.toNat = port.toNat) = some b) (hsmall : port.toNat < 2 ^ 15) :
    s.Listens b.sock port := by
  intro pkt hproto hport
  rw [h.socketOf_eq (.inl hproto), hport, find_entered_small hsmall, hfirst]
  rfl

theorem Packet.SentTo.fields (h : pkt.SentTo port data) : UdpFields pkt.link port.toNat data := by
  obtain ⟨hwhole, sock, net, mem, fresh, frag, iden, addr, events, eth, size, hsend, hframe, hlink⟩ := h
  exact (carriesUdp_of_send hwhole hsend hframe).fields hlink

/-- What is read from the packet of a datagram. -/
theorem udpReceived_reads (h : UdpFields pkt.link port.toNat data) (hlen : data.length < 1432) :
    (udpReceived pkt).data = data := by
  have hfits : udpHdrSize + data.length < 2 ^ 16 := by
    unfold udpHdrSize
    omega
  obtain ⟨happ, hsize⟩ := udpReceived_app h hfits
  rw [Packet.data, Packet.view, happ, hsize]
  exact udpReceived_data h

/-- A datagram that arrives when there is room is put behind the others. -/
theorem Mailbox.arrive (env : NetEnv) (h : Mailbox i port mail s) (hdhcp : port.toNat ≠ dhcpClientPort)
    (hroom : mail.length < skbMaxSize) (hfree : s.heap ptr = none) (hsent : pkt.SentTo port data)
    (bytes : Nat) :
    ∃ s', NetStack.ethHandleFrame env { s with heap := s.heap.alloc ptr pkt } bytes ptr = .ok s' ∧
      Mailbox i port (mail ++ [data]) s' := by
  obtain ⟨skb, queue, hsock, hsync, rfl⟩ := h.buffer
  rw [List.length_map] at hroom
  have hfields := hsent.fields
  have hput : SkbState.write .udp { heap := s.heap.alloc ptr (udpReceived pkt), skb := skb } ptr = _ :=
    hsync.write_room hroom ptr (s.heap.alloc ptr (udpReceived pkt))
  have hqueue := hsync.put hroom (.put hfree hput)
  rw [write_eq_put] at hput
  obtain ⟨st, hst, heq⟩ := Halt.bind_eq_ok.mp hput
  obtain ⟨hst', -⟩ := Prod.mk.inj (Except.ok.inj heq)
  rw [← hst'] at hqueue
  have hheap : (s.heap.alloc ptr pkt).alloc ptr (udpReceived pkt) = s.heap.alloc ptr (udpReceived pkt) := by
    simp [PktHeap.alloc]
  have hlookup : s.socketOf (udpReceived pkt) = some i :=
    h.listens _ (udpReceived_proto hfields) (udpReceived_dstPort hfields port.toNat_lt)
  refine ⟨{ s with heap := st.heap, socks := Function.update s.socks i (.udp st.skb) }, ?_, ?_⟩
  · rw [NetStack.ethHandleFrame_udp (PktHeap.alloc_self _ _ _) hfields port.toNat_lt hdhcp]
    have hwrite : ({ s with heap := s.heap.alloc ptr pkt } : NetStack).write ptr (udpReceived pkt) =
        { s with heap := s.heap.alloc ptr (udpReceived pkt) } := by
      simp [NetStack.write, hheap]
    have hlookup' : NetStack.socketOf { s with heap := s.heap.alloc ptr (udpReceived pkt) }
        (udpReceived pkt) = some i := hlookup
    rw [hwrite, NetStack.socketHandlePkt, hlookup']
    simp only [Socket.writeSkb, udpReceived_proto hfields, if_true, hsock, Socket.udpWriteSkb, hst]
    rfl
  · constructor
    case listens => exact h.listens
    case buffer =>
      refine ⟨st.skb, _, Function.update_self .., hqueue, ?_⟩
      simp [udpReceived_reads hfields hsent.1]

/-- A read returns the oldest datagram, as far as there is room for it. -/
theorem Mailbox.read (h : Mailbox i port mail s) {skb : Skb} (hskb : s.socks i = .udp skb) {size : Nat}
    (hsize : 0 < size) (buf : Memory) :
    ∃ st buf' ret, udpReadSkb ⟨s.heap, skb⟩ (some buf) size = .ok (st, some buf', ret) ∧
      buf'.bytes 0 ret.toNat = (mail.headD []).take size ∧
      Mailbox i port mail.tail
        { s with heap := st.heap, socks := Function.update s.socks i (.udp st.skb) } := by
  obtain ⟨skb', queue, hsock, hsync, rfl⟩ := h.buffer
  obtain rfl : skb' = skb := Socket.udp.inj (hsock.symm.trans hskb)
  cases queue with
  | nil =>
      have hread := hsync.read_empty hsize buf
      obtain ⟨⟨st, buf', ret⟩, hcall, heq⟩ := Halt.map_eq_ok.mp hread
      simp only [Prod.mk.injEq, SkbReply.datagram.injEq] at heq
      obtain ⟨rfl, rfl, rfl⟩ := heq
      refine ⟨_, _, _, hcall, by simp [Memory.bytes_zero], h.listens, ?_⟩
      exact ⟨skb', [], Function.update_self .., hsync, rfl⟩
  | cons oldest rest =>
      obtain ⟨heap, hheap, hread⟩ : ∃ heap, _ ∧ SkbState.read .udp ⟨s.heap, skb'⟩ size buf = .ok (_, _) :=
        hsync.read_oldest hsize buf
      obtain ⟨⟨st, buf', ret⟩, hcall, heq⟩ := Halt.map_eq_ok.mp hread
      simp only [Prod.mk.injEq, replyOf, SkbReply.datagram.injEq] at heq
      obtain ⟨rfl, rfl, rfl⟩ := heq
      refine ⟨_, _, _, hcall, ?_, h.listens, ?_⟩
      · rw [Int.toNat_natCast, bytes_kmemcpy]
        have hdata : oldest.2.data.length = oldest.2.app.size := Memory.length_bytes
        calc
          oldest.2.link.bytes oldest.2.app.packet (min size oldest.2.app.size)
            = oldest.2.data.take (min size oldest.2.app.size) :=
              (Memory.take_bytes (Nat.min_le_right _ _)).symm
          _ = oldest.2.data.take size := by rw [← hdata, ← List.take_eq_take_min]
      · exact ⟨_, rest, Function.update_self .., hsync.advance hheap, rfl⟩

/-- One step of a socket whose buffer has room. -/
theorem Mailbox.step (h : Mailbox i port mail s) (hdhcp : port.toNat ≠ dhcpClientPort) {event : UdpEvent}
    (hstep : UdpStep env i port s event s')
    (hroom : ∀ data, event = .arrive data → mail.length < skbMaxSize) :
    Mailbox i port (mailStep mail event) s' ∧
      ∀ size got, event = .read size got → got = (mail.headD []).take size := by
  cases hstep with
  | @arrive _ ptr bytes pkt data hfree hsent hcall =>
      obtain ⟨t, ht, hnext⟩ := h.arrive env hdhcp (hroom data rfl) hfree hsent bytes
      obtain rfl := Except.ok.inj (ht.symm.trans hcall)
      exact ⟨hnext, by simp⟩
  | @read skb st buf buf' size ret hskb hsize hcall =>
      obtain ⟨st', buf'', ret', hread, hgot, hnext⟩ := h.read hskb hsize buf
      rw [hread] at hcall
      simp only [Except.ok.injEq, Prod.mk.injEq, Option.some.injEq] at hcall
      obtain ⟨rfl, rfl, rfl⟩ := hcall
      exact ⟨hnext, by simpa using hgot⟩
  | @other _ skb hskb hskb' hkeep hlisten =>
      obtain ⟨skb'', queue, hsock, hsync, rfl⟩ := h.buffer
      obtain rfl : skb'' = skb := Socket.udp.inj (hsock.symm.trans hskb)
      exact ⟨⟨hlisten h.listens, _, queue, hskb', hsync.other hkeep, rfl⟩, by simp⟩

theorem MailFits.of_prefix {events pre : List UdpEvent} (h : MailFits events) (hpre : pre <+: events) :
    MailFits pre :=
  fun first data hfirst => h first data (hfirst.trans hpre)

/-- A run without overflow. -/
theorem Mailbox.run {events : List UdpEvent} (h : Mailbox i port [] s) (hdhcp : port.toNat ≠ dhcpClientPort)
    (hfits : MailFits events) (hrun : Run (UdpStep env i port) s events s') :
    Mailbox i port (mailOf events) s' ∧ ReadsMail events := by
  induction hrun with
  | nil => exact ⟨h, fun pre size got hpre => absurd (List.prefix_nil.mp hpre) (by simp)⟩
  | snoc hfirst hlast ih =>
      obtain ⟨hmail, hreads⟩ := ih (hfits.of_prefix (List.prefix_append _ _))
      obtain ⟨hnext, hgot⟩ := hmail.step hdhcp hlast fun data hdata =>
        hfits _ data (hdata ▸ List.prefix_rfl)
      rw [mailOf_concat]
      refine ⟨hnext, fun pre size got hpre => ?_⟩
      rcases concat_prefix_concat hpre with ⟨rfl, heq⟩ | hearlier
      · exact hgot size got heq.symm
      · exact hreads pre size got hearlier

/-- As long as no datagram for the port of a socket finds ten unread ones, every read returns the oldest
datagram that was not yet read, as it was passed to `socket_send` and cut to the room that there is; and
both the next datagram, if there is room, and the next read are dealt with. -/
theorem udp_mailbox {binds : List Binding} {b : Binding} {events : List UdpEvent} (hbound : Bound s binds)
    (hfirst : (binds.find? fun b => b.port.toNat = port.toNat) = some b) (hsmall : port.toNat < 2 ^ 15)
    (hdhcp : port.toNat ≠ dhcpClientPort) (hnew : s.socks b.sock = .udp Skb.empty)
    (hrun : Run (UdpStep env b.sock port) s events s') (hfits : MailFits events) :
    ReadsMail events ∧
      ((mailOf events).length < skbMaxSize → ∀ ptr bytes pkt data, s'.heap ptr = none →
        Packet.SentTo pkt port data → ∃ t, UdpStep env b.sock port s' (.arrive data) t ∧
          NetStack.ethHandleFrame env { s' with heap := s'.heap.alloc ptr pkt } bytes ptr = .ok t) ∧
      ∀ size, 0 < size →
        ∃ t, UdpStep env b.sock port s' (.read size (((mailOf events).headD []).take size)) t := by
  have hstart : Mailbox b.sock port [] s :=
    ⟨hbound.listens hfirst hsmall, Skb.empty, [], hnew, SkbSync.empty s.heap, rfl⟩
  obtain ⟨hmail, hreads⟩ := hstart.run hdhcp hfits hrun
  refine ⟨hreads, ?_, ?_⟩
  · intro hroom ptr bytes pkt data hfree hsent
    obtain ⟨t, hcall, -⟩ := hmail.arrive env hdhcp hroom hfree hsent bytes
    exact ⟨t, .arrive hfree hsent hcall, hcall⟩
  · intro size hsize
    obtain ⟨skb, -, hsock, -⟩ := hmail.buffer
    obtain ⟨st, buf, ret, hread, hgot, -⟩ := hmail.read hsock hsize fun _ => 0
    have hstep : UdpStep env b.sock port s' (.read size (buf.bytes 0 ret.toNat)) _ :=
      .read hsock hsize hread
    rw [hgot] at hstep
    exact ⟨_, hstep⟩

end Mail

/-- Short data can be sent. -/
theorem exists_sentTo (port : UInt16) {data : List UInt8} (hdata : 0 < data.length)
    (hwhole : data.length < 1432) : ∃ pkt : Packet, pkt.SentTo port data := by
  have hsends : broadcaster.SendsAll bootedNetdev (fun _ => 0) ⟨handshakePacket, 0, 0, 0, 0⟩ handshakePacket 0
      port (fun _ => 255) data := (sendsAll_iff broadcaster_ready).mpr ⟨hdata, by omega⟩
  obtain ⟨events, hsend, hall⟩ := hsends
  have hsome : carried events ≠ [] := by
    apply List.length_pos_iff.mp
    rw [hall, length_udpBytes]
    omega
  obtain ⟨eth, size, hframe⟩ := exists_frame hsome
  have hlink : (Memory.write (fun _ => 0) 0 eth.bytes).HoldsAt 0 eth.bytes := Memory.holdsAt_write
  exact ⟨{ emptyPacket with link := Memory.write (fun _ => 0) 0 eth.bytes }, hwhole, _, _, _, _, _, _, _, _, _,
    _, hsend, hframe, hlink⟩

/-- A datagram of two bytes for port 7, read with room for one. -/
theorem udp_mailbox_one :
    ∃ s', Run (UdpStep quietEnv 2 7) (stackWith (boundTable twoBound)) [.arrive [1, 2], .read 1 [1]] s' ∧
      ReadsMail [.arrive [1, 2], .read 1 [1]] := by
  obtain ⟨pkt, hsent⟩ := exists_sentTo 7 (show 0 < [(1 : UInt8), 2].length by simp) (by simp)
  have hbound := twoBound_bound
  have hnone : MailFits [] := fun pre data hpre => absurd (List.prefix_nil.mp hpre) (by simp)
  have hport : (7 : UInt16).toNat < 2 ^ 15 ∧ (7 : UInt16).toNat ≠ dhcpClientPort := by decide
  obtain ⟨t, harrive, -⟩ := (udp_mailbox hbound rfl hport.1 hport.2 rfl .nil hnone).2.1 (by decide) 3 0 pkt
    [1, 2] rfl hsent
  have hone : Run (UdpStep quietEnv 2 7) (stackWith (boundTable twoBound)) [.arrive [1, 2]] t :=
    Run.nil.snoc harrive
  have hfits : MailFits [.arrive [1, 2]] := by
    intro pre data hpre
    rw [(concat_prefix_singleton hpre).1]
    decide
  obtain ⟨s', hread⟩ := (udp_mailbox hbound rfl hport.1 hport.2 rfl hone hfits).2.2 1 (by decide)
  have htwo : Run (UdpStep quietEnv 2 7) (stackWith (boundTable twoBound)) [.arrive [1, 2], .read 1 [1]] s' :=
    hone.snoc hread
  have hboth : MailFits [.arrive [1, 2], .read 1 [1]] := by
    intro pre data hpre
    rcases concat_prefix_pair hpre with ⟨rfl, heq⟩ | ⟨rfl, -⟩
    · cases heq
    · decide
  exact ⟨s', htwo, (udp_mailbox hbound rfl hport.1 hport.2 rfl htwo hboth).1⟩

end Net
end Micael
