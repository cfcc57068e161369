import Micael.Foundation.Memory
import Micael.Lib.Hashmap

/-!
# IPv4 datagrams: sending, receiving and fragments

A datagram is its header fields, as the 16-bit and 32-bit words that stand in the
buffer, and the bytes that follow the header.  The sender writes the words in
network order; the receiver converts them in place.

Four things come from the slab allocator and the heap and are arguments here: what
a fresh fragment buffer contains (`MM_ZERO` is ignored for entries that were freed
before), what the `transport.proto` field of a fresh packet contains, what the
protocol byte of a fragment's header holds after the fragment was deallocated, and
what stands behind the bytes of a frame, where a copy reads on when a fragment
announces more than it has.

A write outside the 45 slots of a fragment buffer, an access through a null pointer and a
division by zero end in a {lit}`Halt`.  What a copy writes behind the packet that fragments
are merged into is not recorded.
-/

namespace Micael
namespace Net

open Foundation Lib

/-! ## Words and headers -/

/-- `n2h_16` and `h2n_16`. -/
def n2h16 (n : Nat) : Nat := n % 256 * 256 + n / 256 % 256

/-- `n2h_32` and `h2n_32`. -/
def n2h32 (n : Nat) : Nat :=
  n % 256 * 2 ^ 24 + n / 256 % 256 * 2 ^ 16 + n / 2 ^ 16 % 256 * 256 + n / 2 ^ 24 % 256

/-- `IPV4_HDR_SIZE`. -/
def ipv4HdrSize : Nat := 20

/-- `IPV4_FRAG_MASK`: the fragment offset, in units of eight bytes. -/
def ipv4FragMask : Nat := 0x1fff

/-- `IPV4_MORE_FRAGS`. -/
def ipv4MoreFrags : Nat := 0x2000

/-- `IPV4_PAYLOAD_MAX`. -/
def ipv4PayloadMax : Nat := 65515

/-- `netdev_get_mtu()`, set by the RTL8139 driver. -/
def netdevMtu : Nat := 1500

def protoIcmp : Nat := 0x01
def protoTcp : Nat := 0x06
def protoUdp : Nat := 0x11

/-- `ipv4_datagram_t` and the bytes behind it. -/
structure Ipv4Datagram where
  version : Nat
  ihl : Nat
  dscp : Nat
  ecn : Nat
  len : Nat
  iden : Nat
  fOff : Nat
  ttl : Nat
  proto : Nat
  checksum : Nat
  src : Nat
  dst : Nat
  payload : List UInt8

/-- The header as the ten 16-bit words that `__calculate_checksum` adds. -/
def Ipv4Datagram.words (d : Ipv4Datagram) : List Nat :=
  [d.version + d.ihl * 16 + (d.dscp + d.ecn * 64) * 256, d.len, d.iden, d.fOff,
    d.ttl + d.proto * 256, d.checksum, d.src % 2 ^ 16, d.src / 2 ^ 16, d.dst % 2 ^ 16,
    d.dst / 2 ^ 16]

/-- `__calculate_checksum`. -/
def calculateChecksum (d : Ipv4Datagram) : Nat :=
  let sum := u32 d.words.sum
  let carry := sum / 2 ^ 16 % 256
  2 ^ 16 - 1 - u16 (carry + sum)

/-! ## Sending -/

/-- An outgoing packet as `netdev_alloc_pkt_L5` and the transport layer leave it: the
header is zero. -/
structure TxPacket where
  proto : Nat
  src : Nat
  dst : Nat
  transport : List UInt8
deriving DecidableEq, Repr

/-- `net.size`, an `unsigned short`. -/
def TxPacket.netSize (pkt : TxPacket) : Nat := u16 (ipv4HdrSize + pkt.transport.length)

/-- The header that `ipv4_send_pkt` fills in; `iden` is the random identification. -/
def sendHeader (iden : Nat) (pkt : TxPacket) : Ipv4Datagram :=
  let d : Ipv4Datagram :=
    { version := 5
      ihl := 4
      dscp := 0
      ecn := 0
      len := n2h16 pkt.netSize
      iden := n2h16 iden
      fOff := 0
      ttl := 128
      proto := pkt.proto % 256
      checksum := 0
      src := pkt.src
      dst := pkt.dst
      payload := pkt.transport }
  { d with checksum := calculateChecksum d }

/-- Set length, offset and checksum of the packet that is reused for all fragments, and copy
the next bytes over the front of its payload. -/
def fillFragment (frag : Ipv4Datagram) (len fOff : Nat) (bytes : List UInt8) : Ipv4Datagram :=
  let frag := { frag with
    len := n2h16 (u16 len)
    fOff := n2h16 (u16 fOff)
    checksum := 0 }
  { frag with
    checksum := calculateChecksum frag
    payload := bytes ++ frag.payload.drop bytes.length }

/-- The loop of `ipv4_send_pkt` over the fragments, with `n` turns left, and the last fragment. -/
def sendFragments (mtu : Nat) (transport : List UInt8) :
    Nat → Ipv4Datagram → Nat → Nat → Except Halt (List Ipv4Datagram)
  | 0, _, _, _ => .error .hang
  | n + 1, frag, left, ptr =>
      if mtu < left then do
        let frag := fillFragment frag (mtu + ipv4HdrSize) (ipv4MoreFrags ||| (ptr / 8))
          ((transport.drop ptr).take mtu)
        let rest ← sendFragments mtu transport n frag (left - mtu) (u16 (ptr + mtu))
        pure (frag :: rest)
      else
        .ok [fillFragment frag (left + ipv4HdrSize) (ptr / 8) ((transport.drop ptr).take left)]

/-- `ipv4_send_pkt`: the datagrams it passes to `eth_send_pkt`, in order.  A fragment is sent
in a frame of full size, whatever its length. -/
def ipv4SendPkt (iden : Nat) (pkt : TxPacket) : Except Halt (List Ipv4Datagram) :=
  let mtu := u16 (netdevMtu - ipv4HdrSize)
  let dgram := sendHeader iden pkt
  if ¬ pkt.netSize ≤ ipv4PayloadMax then .error .kassert
  else if pkt.netSize < mtu - ipv4HdrSize then .ok [dgram]
  else
    let frag := { dgram with payload := List.replicate mtu 0 }
    sendFragments mtu pkt.transport (2 ^ 16) frag (u16 (pkt.netSize - ipv4HdrSize)) 0

/-! ## Receiving -/

/-- A received packet: its address and the datagram in it. -/
structure RxPacket where
  addr : Nat
  dgram : Ipv4Datagram

/-- `ipv4_fragbuf_t`. -/
structure FragBuf where
  fsize : Nat
  tsize : Int
  npkts : Int
  eIdx : Int
  pkts : Nat → Option RxPacket

/-- The number of entries of `pkts`. -/
def fragBufSlots : Nat := 45

/-- What the memory that the receiver allocates or has released contains, for each number
of allocations made before. -/
structure RxMemory where
  fragBuf : Nat → FragBuf
  mergedProto : Nat → Nat
  freedProto : Nat → Option Nat
  /-- the memory behind the bytes of the frame at an address -/
  behind : Nat → Nat → Memory

/-- The receiver: the fragment table, the fragment buffers behind its pointers, the number of
allocations, and the packets that were deallocated. -/
structure Receiver where
  fragments : Hashmap
  bufs : Nat → FragBuf
  allocs : Nat
  freed : List Nat

/-- The packet that an upper handler is called with. -/
structure UpperPacket where
  transportProto : Nat
  transport : List UInt8
deriving DecidableEq, Repr

/-- What `ipv4_handle_pkt` ends with: the fragment is kept, a handler is called, or the
protocol is not supported. -/
inductive Ipv4Outcome where
  | queued
  | icmp (payload : List UInt8) (size : Nat)
  | udp (pkt : UpperPacket)
  | tcp (pkt : UpperPacket)
  | notSupported
deriving DecidableEq, Repr

/-- The header words in host order. -/
def Ipv4Datagram.toHost (d : Ipv4Datagram) : Ipv4Datagram :=
  { d with
    iden := n2h16 d.iden
    fOff := n2h16 d.fOff
    src := n2h32 d.src
    dst := n2h32 d.dst
    len := n2h16 d.len }

@[simp]
theorem Ipv4Datagram.toHost_proto (d : Ipv4Datagram) : d.toHost.proto = d.proto :=
  rfl

@[simp]
theorem Ipv4Datagram.toHost_payload (d : Ipv4Datagram) : d.toHost.payload = d.payload :=
  rfl

/-- The test for a fragment, on a header in host order. -/
def Ipv4Datagram.isFragment (d : Ipv4Datagram) : Bool :=
  d.fOff &&& ipv4MoreFrags != 0 || d.fOff &&& ipv4FragMask != 0

/-- The lookup or allocation of the fragment buffer. -/
def findFragBuf (rxMem : RxMemory) (rx : Receiver) (d : Ipv4Datagram) : Nat × Receiver :=
  let key := UInt32.ofNat d.iden
  let fb := hmGet hmHashNum rx.fragments key
  if fb ≠ 0 then (fb, rx)
  else
    let fb := rx.allocs + 1
    let buf := { rxMem.fragBuf rx.allocs with
      fsize := u64 (d.len + 2 ^ 64 - ipv4HdrSize)
      eIdx := -1 }
    (fb, { rx with
      fragments := (hmInsert hmHashNum rx.fragments key fb).2
      bufs := Function.update rx.bufs fb buf
      allocs := rx.allocs + 1 })

/-- Enter a fragment into its buffer. -/
def FragBuf.add (buf : FragBuf) (pkt : RxPacket) : Except Halt FragBuf :=
  let fOff : Int := ((pkt.dgram.fOff &&& ipv4FragMask) * 8 : Nat)
  let pLen : Int := (pkt.dgram.len : Int) - ipv4HdrSize
  let isLast := pkt.dgram.fOff &&& ipv4MoreFrags = 0 ∧ pkt.dgram.fOff &&& ipv4FragMask ≠ 0
  if pLen = 0 ∨ (isLast ∧ buf.fsize = 0) then .error .fault
  else
    let off : Int := if isLast then fOff / buf.fsize else fOff.tdiv pLen
    if off < 0 ∨ (fragBufSlots : Int) ≤ off then .error .fault
    else
      .ok { buf with
        eIdx := if isLast then off else buf.eIdx
        pkts := Function.update buf.pkts off.toNat (some pkt)
        tsize := buf.tsize + pLen
        npkts := buf.npkts + 1 }

/-- The bytes of a fragment that are copied, with the memory behind its frame where it announces
more. -/
def Ipv4Datagram.announced (d : Ipv4Datagram) (behind : Memory) : List UInt8 :=
  let n := d.len - ipv4HdrSize
  (d.payload ++ behind.bytes 0 (n - d.payload.length)).take n

/-- The copy loop of `ipv4_handle_pkt` from fragment `i` on, `n` of them left: the bytes copied and
the packets deallocated.  The length of a fragment that is shorter than a header is a large `size_t`. -/
def FragBuf.collect (buf : FragBuf) (behind : Nat → Memory) :
    Nat → Nat → Except Halt (List UInt8 × List Nat)
  | 0, _ => .ok ([], [])
  | n + 1, i =>
      match buf.pkts i with
      | none => .error .fault
      | some pkt =>
          if pkt.dgram.len < ipv4HdrSize then .error .fault
          else do
            let (bytes, freed) ← buf.collect behind n (i + 1)
            pure (pkt.dgram.announced (behind pkt.addr) ++ bytes, pkt.addr :: freed)

/-- Merge the fragments of a buffer into a packet of `netdev_alloc_pkt_L4`, which does not set
`transport.proto`; a total size below minus the headers is a large `size_t` that `kmalloc` has no
memory for. -/
def FragBuf.merge (buf : FragBuf) (behind : Nat → Memory) (staleProto : Nat) :
    Except Halt (UpperPacket × List Nat) :=
  if buf.tsize < -34 then .error .kassert
  else do
    let (bytes, freed) ← buf.collect behind buf.npkts.toNat 0
    let payload := bytes ++ List.replicate (buf.tsize.toNat - bytes.length) 0
    pure (⟨staleProto, payload.take (u16 buf.tsize.toNat)⟩, freed)

/-- Fragments that were merged: a packet of that size was allocated, and they were copied. -/
theorem merge_eq_ok {buf : FragBuf} {behind : Nat → Memory} {stale : Nat}
    {merged : UpperPacket × List Nat} (h : buf.merge behind stale = .ok merged) :
    -34 ≤ buf.tsize ∧ merged.1.transportProto = stale ∧
      ∃ bytes, buf.collect behind buf.npkts.toNat 0 = .ok (bytes, merged.2) := by
  rw [FragBuf.merge] at h
  obtain ⟨hsize, h⟩ := guard_eq_ok.mp h
  obtain ⟨⟨bytes, freed⟩, hcollect, hrest⟩ := Halt.bind_eq_ok.mp h
  obtain rfl := Except.ok.inj hrest
  exact ⟨not_lt.mp hsize, rfl, bytes, hcollect⟩

/-- The `switch` over the protocol of the header. -/
def dispatch (proto : Nat) (pkt : UpperPacket) (d : Ipv4Datagram) : Ipv4Outcome :=
  if proto = protoIcmp then .icmp d.payload (n2h16 d.len)
  else if proto = protoUdp then .udp pkt
  else if proto = protoTcp then .tcp pkt
  else .notSupported

/-- All fragments are there: merge them, release the buffer, and dispatch on the protocol byte of
the last fragment, which has been deallocated. -/
def finishFragments (rxMem : RxMemory) (rx : Receiver) (buf : FragBuf) (d : Ipv4Datagram) :
    Except Halt (Ipv4Outcome × Receiver) :=
  match buf.merge (rxMem.behind rx.allocs) (rxMem.mergedProto rx.allocs) with
  | .error e => .error e
  | .ok merged =>
      match hmRemove hmHashNum rx.fragments (UInt32.ofNat d.iden) with
      | .error e => .error e
      | .ok removed =>
          .ok (dispatch ((rxMem.freedProto rx.allocs).getD d.proto) merged.1 d, { rx with
            fragments := removed.2
            freed := merged.2 ++ rx.freed
            allocs := rx.allocs + 1 })

/-- The part of `ipv4_handle_pkt` for a fragment, whose header is in host order. -/
def handleFragment (rxMem : RxMemory) (rx : Receiver) (pkt : RxPacket) :
    Except Halt (Ipv4Outcome × Receiver) :=
  let found := findFragBuf rxMem rx pkt.dgram
  match (found.2.bufs found.1).add pkt with
  | .error e => .error e
  | .ok buf =>
      let rx := { found.2 with bufs := Function.update found.2.bufs found.1 buf }
      if buf.npkts - 1 ≠ buf.eIdx ∨ buf.eIdx = -1 then .ok (.queued, rx)
      else finishFragments rxMem rx buf pkt.dgram

/-- `ipv4_handle_pkt`. -/
def ipv4HandlePkt (rxMem : RxMemory) (rx : Receiver) (pkt : RxPacket) :
    Except Halt (Ipv4Outcome × Receiver) :=
  let d := pkt.dgram.toHost
  if d.isFragment then handleFragment rxMem rx { pkt with dgram := d }
  else .ok (dispatch d.proto ⟨d.proto, d.payload⟩ d, rx)

end Net
end Micael
