import Micael.Net.Receive
import Micael.Net.TcpRead

/-!
# Segments on a connected TCP socket

`__handle_connected` queues an in-order segment and acknowledges it.  It takes the length of the
payload from the length of the frame, less the headers without options and less four bytes for the
checksum that the RTL8139 leaves at the end; `__tcp_read` takes it from the same length without the
four bytes.

Main results:

- Theorem {lit}`handleConnected_advance_iff`: the acknowledged length is right exactly for segments without
  options whose frame is not padded.
- Theorem {lit}`tcp_lengths_never_agree`: the acknowledged and the delivered length are never both the
  length of the payload.
-/

namespace Micael
namespace Net

open Foundation Lib

/-- `TCP_FLAG_MASK`. -/
def tcpFlagMask : Nat := 0xff00

/-- `TCP_FLAG_PSH`. -/
def tcpFlagPsh : Nat := 2 ^ 11

/-- `TCP_FLAG_ACK`. -/
def tcpFlagAck : Nat := 2 ^ 12

/-- `TCP_NO_OPTS`. -/
def tcpNoOpts : Nat := 5 * 2 ^ 4

/-- `TCP_WINDOW_SIZE`. -/
def tcpWindowSize : Nat := 1460

/-- `tcp_pkt_t` as its words stand in memory. -/
structure TcpHeader where
  src : Nat
  dst : Nat
  seq : Nat
  aseq : Nat
  off : Nat
  len : Nat
  cks : Nat
  uptr : Nat
deriving DecidableEq, Repr

/-- The header as the ten 16-bit words that `__calculate_checksum` adds. -/
def TcpHeader.words (tcp : TcpHeader) : List Nat :=
  [tcp.src, tcp.dst, tcp.seq % 2 ^ 16, tcp.seq / 2 ^ 16, tcp.aseq % 2 ^ 16, tcp.aseq / 2 ^ 16,
    tcp.off, tcp.len, tcp.cks, tcp.uptr]

/-- `__calculate_checksum` of a segment without payload between two addresses: the pseudo header,
then the header. -/
def tcpChecksum (src dst : Nat) (tcp : TcpHeader) : Nat :=
  let pseudo := [src % 2 ^ 16, src / 2 ^ 16, dst % 2 ^ 16, dst / 2 ^ 16, protoTcp * 256,
    n2h16 tcpHdrSize]
  let sum := u32 (pseudo.sum + tcp.words.sum)
  2 ^ 16 - 1 - u16 (sum / 2 ^ 16 % 256 + sum)

/-- `tcp_ctx_t`: what a connected socket uses. -/
structure TcpCtx where
  seq : Nat
  aseq : Nat
  rtQueue : Hashmap

/-- A TCP socket: its addresses and ports, its context and its socket buffer. -/
structure TcpSocket where
  srcAddr : Nat
  dstAddr : Nat
  srcPort : Nat
  dstPort : Nat
  ctx : TcpCtx
  state : SkbState

/-- The TCP header of a packet, as `tcp_handle_pkt` left it: all words but `off` in host order. -/
def Packet.tcp (pkt : Packet) : TcpHeader :=
  let tcp := pkt.transport.packet
  { src := pkt.link.load tcp 2
    dst := pkt.link.load (tcp + 2) 2
    seq := pkt.link.load (tcp + 4) 4
    aseq := pkt.link.load (tcp + 8) 4
    off := pkt.link.load (tcp + 12) 2
    len := pkt.link.load (tcp + 14) 2
    cks := pkt.link.load (tcp + 16) 2
    uptr := pkt.link.load (tcp + 18) 2 }

/-- The acknowledgement number after a segment: `ctx->aseq` plus the length computed from
`transport.size`. -/
def ackNumber (ctx : TcpCtx) (pkt : Packet) : Nat :=
  u32 (ctx.aseq + pkt.transport.size + 2 ^ 64 - tcpHdrSize - 4)

/-- The header of the acknowledgement that `__handle_connected` sends. -/
def ackHeader (sock : TcpSocket) (pkt : Packet) : TcpHeader :=
  let tcp : TcpHeader :=
    { src := n2h16 sock.srcPort
      dst := n2h16 sock.dstPort
      off := tcpNoOpts ||| tcpFlagAck
      len := n2h16 tcpWindowSize
      seq := n2h32 sock.ctx.seq
      aseq := n2h32 (ackNumber sock.ctx pkt)
      cks := 0
      uptr := 0 }
  { tcp with cks := tcpChecksum sock.srcAddr sock.dstAddr tcp }

/-- `__handle_connected` for the packet at `ptr`: the socket, and the header of the segment that is
passed to `tcp_send_pkt`. -/
def handleConnected (sock : TcpSocket) (ptr : Nat) : Except Halt (TcpSocket × Option TcpHeader) := do
  let pkt ← sock.state.heap.deref (some ptr)
  let flags := pkt.tcp.off &&& tcpFlagMask
  if flags = tcpFlagPsh ||| tcpFlagAck then
    if pkt.tcp.seq ≠ sock.ctx.aseq then do
      let heap ← netdevDeallocPkt sock.state.heap (some ptr)
      pure ({ sock with state := { sock.state with heap := heap } }, none)
    else do
      let put ← skbPut sock.state (some ptr)
      let ctx := { sock.ctx with aseq := ackNumber sock.ctx pkt }
      pure ({ sock with state := put.1, ctx := ctx }, some (ackHeader sock pkt))
  else if flags = tcpFlagAck then do
    let removed ← hmRemove hmHashNum sock.ctx.rtQueue (UInt32.ofNat pkt.tcp.aseq)
    pure ({ sock with ctx := { sock.ctx with rtQueue := removed.2 } }, none)
  else
    .error .kassert

/-! ## Lengths of a frame -/

/-- The total length in the IPv4 header of a frame. -/
def Packet.totalLength (frame : Packet) : Nat := n2h16 (frame.link.load 16 2)

/-- The length of the IPv4 header, options included. -/
def Packet.ipHeaderLength (frame : Packet) : Nat := 4 * ((frame.link 14).toNat % 16)

/-- The length of the TCP header, options included. -/
def Packet.tcpHeaderLength (frame : Packet) : Nat :=
  4 * ((frame.link (ethHdrSize + frame.ipHeaderLength + 12)).toNat / 16)

/-- The length of the TCP payload. -/
def Packet.payloadLength (frame : Packet) : Nat :=
  frame.totalLength - frame.ipHeaderLength - frame.tcpHeaderLength

/-- The packet that the Ethernet, IPv4 and TCP handlers make of a frame. -/
def segmentOf (frame : Packet) : Packet := (tcpHandlePkt 0 (ipv4View (ethView frame))).pkt

/-- The frame is an in-order segment with data for a connected socket, recorded as the driver does:
padded to 46 bytes behind the Ethernet header, and with the four bytes of its checksum.  Its packet
is the one at {lit}`ptr`. -/
structure ArrivesInOrder (sock : TcpSocket) (ptr : Nat) (frame : Packet) : Prop where
  recorded : frame.size = shortOfInt (14 + max 46 frame.totalLength + 4 : Nat)
  ipHeader : 20 ≤ frame.ipHeaderLength
  tcpHeader : 20 ≤ frame.tcpHeaderLength
  fits : frame.ipHeaderLength + frame.tcpHeaderLength ≤ frame.totalLength
  allocated : sock.state.heap ptr = some (segmentOf frame)
  pushAck : (segmentOf frame).tcp.off &&& tcpFlagMask = tcpFlagPsh ||| tcpFlagAck
  inOrder : (segmentOf frame).tcp.seq = sock.ctx.aseq

/-- Both sides take the length of the segment to be `len`: the acknowledgement advances by it, and a
read returns as many bytes from a buffer that holds only this segment. -/
structure LengthsAgree (sock sock' : TcpSocket) (ack : Option TcpHeader) (segment : Packet)
    (len : Nat) : Prop where
  advanced : sock'.ctx.aseq = u32 (sock.ctx.aseq + len)
  acknowledged : ack.map TcpHeader.aseq = some (n2h32 (u32 (sock.ctx.aseq + len)))
  delivered : ∀ ptr s size buf s' buf' n, SegSync [(ptr, segment)] s → s.skb.sptr = 0 →
    2 ^ 16 ≤ size → size < 2 ^ 63 → tcpRead s size buf = .ok (s', buf', n) → n = (len : Int)

variable {sock sock' : TcpSocket} {ptr : Nat} {frame : Packet} {ack : Option TcpHeader}

theorem Packet.totalLength_lt (frame : Packet) : frame.totalLength < 2 ^ 16 :=
  n2h16_lt _

/-- The 16-bit subtractions of the layers cancel: the length of the segment is that of the padded
datagram and the checksum, less the IPv4 header without options. -/
theorem ArrivesInOrder.transport_size (h : ArrivesInOrder sock ptr frame) :
    (segmentOf frame).transport.size = max 46 frame.totalLength - 16 := by
  have hlt := frame.totalLength_lt
  have hsize : (segmentOf frame).transport.size =
      u16OfInt ((u16OfInt (frame.size - 14) : Int) - 20) := rfl
  have hpad : 46 ≤ max 46 frame.totalLength := Nat.le_max_left _ _
  have hbound : max 46 frame.totalLength < 2 ^ 16 := by omega
  rw [hsize, h.recorded, shortOfInt, Int.bmod_def]
  generalize max 46 frame.totalLength = m at hpad hbound
  unfold u16OfInt
  split <;> omega

/-- What a call for an in-order segment returns. -/
theorem ArrivesInOrder.handleConnected (h : ArrivesInOrder sock ptr frame)
    (hcall : handleConnected sock ptr = .ok (sock', ack)) :
    sock'.ctx.aseq = ackNumber sock.ctx (segmentOf frame) ∧
      ack = some (ackHeader sock (segmentOf frame)) := by
  rw [Net.handleConnected, PktHeap.deref_some h.allocated, Halt.ok_bind] at hcall
  dsimp only at hcall
  rw [if_pos h.pushAck, if_neg (not_not_intro h.inOrder)] at hcall
  obtain ⟨put, -, hrest⟩ := Halt.bind_eq_ok.mp hcall
  obtain ⟨rfl, rfl⟩ := Prod.mk.inj (Except.ok.inj hrest)
  exact ⟨rfl, rfl⟩

/-- The acknowledgement advances by the length of the padded datagram less 40. -/
theorem ArrivesInOrder.ackNumber_eq (h : ArrivesInOrder sock ptr frame) :
    ackNumber sock.ctx (segmentOf frame) =
      u32 (sock.ctx.aseq + (max 46 frame.totalLength - 40)) := by
  have hpad : 46 ≤ max 46 frame.totalLength := Nat.le_max_left _ _
  rw [ackNumber, h.transport_size]
  unfold u32 tcpHdrSize
  omega

/-- The acknowledged length is the length of the payload exactly for segments without options whose
frame is not padded. -/
theorem handleConnected_advance_iff (h : ArrivesInOrder sock ptr frame)
    (hcall : handleConnected sock ptr = .ok (sock', ack)) :
    sock'.ctx.aseq = u32 (sock.ctx.aseq + frame.payloadLength) ↔
      46 ≤ frame.totalLength ∧ frame.ipHeaderLength = 20 ∧ frame.tcpHeaderLength = 20 := by
  have hlt := frame.totalLength_lt
  have hip := h.ipHeader
  have htcp := h.tcpHeader
  have hfits := h.fits
  rw [(h.handleConnected hcall).1, h.ackNumber_eq, Packet.payloadLength]
  unfold u32
  omega

/-- A read returns the four bytes of the checksum too. -/
theorem ArrivesInOrder.delivered (h : ArrivesInOrder sock ptr frame) {p size : Nat} {s : SkbState}
    (hsync : SegSync [(p, segmentOf frame)] s) (hsptr : s.skb.sptr = 0) (hlarge : 2 ^ 16 ≤ size)
    (hsize : size < 2 ^ 63) (buf : Memory) :
    ∃ s' buf', tcpRead s size buf = .ok (s', buf', ((max 46 frame.totalLength - 36 : Nat) : Int)) := by
  have hlt := frame.totalLength_lt
  obtain ⟨s', -, buf', n, hread, -, -, -, hn⟩ :=
    hsync.tcpRead (show size < 2 ^ 64 by omega) buf
  have hunread : s.unread.flatten.length = max 46 frame.totalLength - 36 := by
    rw [hsync.unread, hsptr]
    simp only [List.map_cons, List.map_nil, unreadOf, List.drop_zero, List.flatten_cons,
      List.flatten_nil, List.append_nil, length_payload, h.transport_size]
    unfold tcpHdrSize
    omega
  refine ⟨s', buf', ?_⟩
  rw [hread, hn hsize, hunread, Nat.min_eq_right (by omega)]

/-- A buffer that holds one segment. -/
def oneSegment (segment : Packet) : SkbState where
  heap := PktHeap.empty.alloc 0 segment
  skb :=
    { rptr := 0
      wptr := 1
      sptr := 0
      npkts := 1
      packets := fun i => if i = 0 then some 0 else none }

theorem segSync_oneSegment {segment : Packet} (hheader : tcpHdrSize ≤ segment.transport.size)
    (hlt : segment.transport.size < 2 ^ 16) : SegSync [(0, segment)] (oneSegment segment) where
  length_le := show 1 ≤ 10 by decide
  npkts := rfl
  wptr := rfl
  holds := by
    intro i
    fin_cases i <;> rfl
  live := by
    intro p hp
    obtain rfl := List.mem_singleton.mp hp
    rfl
  nodup := List.nodup_singleton _
  header := by
    intro p hp
    obtain rfl := List.mem_singleton.mp hp
    exact ⟨hheader, hlt⟩
  sptr := Nat.zero_le _

/-- The acknowledged and the delivered length of a segment are never both the length of its
payload: a read returns at least four bytes more. -/
theorem tcp_lengths_never_agree (h : ArrivesInOrder sock ptr frame)
    (_hcall : handleConnected sock ptr = .ok (sock', ack)) :
    ¬ LengthsAgree sock sock' ack (segmentOf frame) frame.payloadLength := by
  intro hagree
  have hlt := frame.totalLength_lt
  have hip := h.ipHeader
  have htcp := h.tcpHeader
  have hfits := h.fits
  have hsync : SegSync [(0, segmentOf frame)] (oneSegment (segmentOf frame)) := by
    apply segSync_oneSegment
    · rw [h.transport_size]
      unfold tcpHdrSize
      omega
    · rw [h.transport_size]
      omega
  obtain ⟨s', buf', hread⟩ := h.delivered hsync rfl (Nat.le_refl _) (by norm_num) (fun _ => 0)
  have hcount := hagree.delivered 0 _ _ _ _ _ _ hsync rfl (Nat.le_refl _) (by norm_num) hread
  rw [Packet.payloadLength] at hcount
  omega

/-! ## One byte in a padded frame -/

/-- A call for an in-order segment returns when there is room. -/
theorem ArrivesInOrder.returns (h : ArrivesInOrder sock ptr frame)
    (hroom : sock.state.skb.packets sock.state.skb.wptr = none) :
    ∃ sock', Net.handleConnected sock ptr =
      .ok (sock', some (ackHeader sock (segmentOf frame))) := by
  rw [Net.handleConnected, PktHeap.deref_some h.allocated, Halt.ok_bind]
  dsimp only
  rw [if_pos h.pushAck, if_neg (not_not_intro h.inOrder)]
  simp only [skbPut, put_of_room hroom]
  exact ⟨_, rfl⟩

/-- The frame of a segment with one byte of payload: total length 41, no options, PSH and ACK. -/
def oneByteFrame : Packet where
  size := 64
  link := fun x => if x = 12 then 0x08 else if x = 14 then 0x45 else if x = 17 then 41
    else if x = 23 then 0x06 else if x = 46 then 0x50 else if x = 47 then 0x18 else 0
  net := ⟨0, 0, 0⟩
  transport := ⟨0, 0, 0⟩
  app := ⟨0, 0, 0⟩

/-- A connected socket that expects the frame, whose packet is at address 0. -/
def oneByteSocket : TcpSocket where
  srcAddr := 1
  dstAddr := 2
  srcPort := 80
  dstPort := 4000
  ctx := ⟨1, 0, hmAllocHashmap 16⟩
  state := ⟨PktHeap.empty.alloc 0 (segmentOf oneByteFrame), Skb.empty⟩

theorem oneByteFrame_arrives : ArrivesInOrder oneByteSocket 0 oneByteFrame where
  recorded := by decide
  ipHeader := by decide
  tcpHeader := by decide
  fits := by decide
  allocated := rfl
  pushAck := by decide
  inOrder := by decide

theorem oneByteFrame_lengths_disagree : ∃ sock' ack,
    handleConnected oneByteSocket 0 = .ok (sock', ack) ∧
      ¬ LengthsAgree oneByteSocket sock' ack (segmentOf oneByteFrame) oneByteFrame.payloadLength := by
  obtain ⟨sock', hcall⟩ := oneByteFrame_arrives.returns rfl
  exact ⟨sock', _, hcall, tcp_lengths_never_agree oneByteFrame_arrives hcall⟩

/-- One byte is acknowledged as six. -/
theorem oneByteFrame_acknowledged_as_six : oneByteFrame.payloadLength = 1 ∧
    ∃ sock' ack, handleConnected oneByteSocket 0 = .ok (sock', ack) ∧ sock'.ctx.aseq = 6 ∧
      ¬ LengthsAgree oneByteSocket sock' ack (segmentOf oneByteFrame) oneByteFrame.payloadLength := by
  have hpayload : oneByteFrame.payloadLength = 1 := by decide
  obtain ⟨sock', hcall⟩ := oneByteFrame_arrives.returns rfl
  have haseq : sock'.ctx.aseq = 6 := by
    rw [(oneByteFrame_arrives.handleConnected hcall).1, oneByteFrame_arrives.ackNumber_eq]
    decide
  refine ⟨hpayload, sock', _, hcall, haseq, fun hagree => ?_⟩
  have hone := hagree.advanced
  rw [haseq, hpayload] at hone
  exact absurd hone (by decide)

end Net
end Micael
