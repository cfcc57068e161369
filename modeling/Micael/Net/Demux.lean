import Micael.Net.CumulativeAck
import Micael.Net.Ownership

/-!
# Which socket gets a packet

`socket_bind` enters a socket into the first free place of the table.  The port goes from an
`unsigned short` through a `short` to an `int`, so that a port from {lit}`2 ^ 15` on is entered as a
negative number.  `socket_handle_pkt` compares it with the port of the packet, which is never negative,
and writes the packet to the first socket that it finds, through the function for the protocol of
the packet and whatever the protocol of the socket is.

No socket is ever taken out of the table.  The addresses that are given to `socket_bind` are
`INADDR_ANY`; any other one ends in a panic.

Main results:

- Theorem {lit}`Bound.socketOf_eq`: the search finds the first socket whose port, as it was entered, is that
  of the packet.
- Theorem {lit}`Socket.writeSkb_returns_iff`: the segments that a TCP socket can be given.
- Theorem {lit}`socket_demux_right_iff`: the packet is written to the socket that was bound to its protocol and
  port, and is freed and refused when there is none, just when a small port was bound first for its protocol,
  to a socket that can be given the packet, and a large one not at all for it.
-/

namespace Micael
namespace Net

open Foundation Lib

/-! ## Binding -/

/-- `sockets`. -/
abbrev SocketTable := Fin maxSockets → SocketEntry

/-- The table after `socket_init`. -/
def emptySocketTable : SocketTable := fun _ => ⟨0, false, 0⟩

/-- `__add_listener`; the port is a `short`. -/
def addListener (sockets : SocketTable) (srcPort : Int) (sock : Nat) : Except Errno SocketTable :=
  match (List.finRange maxSockets).find? fun i => !(sockets i).active with
  | some i => .ok (Function.update sockets i ⟨srcPort, true, sock⟩)
  | none => .error .enomem

/-- `socket_bind` of a socket to `sin_port`. -/
def socketBind (sockets : SocketTable) (sinPort : UInt16) (sock : Nat) : Except Errno SocketTable :=
  addListener sockets (shortOfInt sinPort.toNat) sock

/-- A call of `socket_bind`. -/
structure Binding where
  port : UInt16
  sock : Nat
deriving DecidableEq, Repr

/-- A successful `socket_bind`. -/
def BindStep (sockets : SocketTable) (b : Binding) (sockets' : SocketTable) : Prop :=
  socketBind sockets b.port b.sock = .ok sockets'

/-- The port as it is entered into the table. -/
def Binding.entered (b : Binding) : Int := shortOfInt b.port.toNat

/-- The table holds some bindings in order, and nothing else. -/
def Holds (sockets : SocketTable) (binds : List Binding) : Prop :=
  ∀ i : Fin maxSockets,
    sockets i = match binds[i.val]? with
      | some b => ⟨b.entered, true, b.sock⟩
      | none => ⟨0, false, 0⟩

/-- An entry is active just when a binding is there. -/
theorem Holds.active {sockets : SocketTable} {binds : List Binding} (h : Holds sockets binds)
    (i : Fin maxSockets) : (sockets i).active = decide (i.val < binds.length) := by
  rw [h i]
  by_cases hi : i.val < binds.length
  · simp [hi]
  · simp [hi]

theorem Holds.entry {sockets : SocketTable} {binds : List Binding} (h : Holds sockets binds)
    {i : Nat} (hi : i < maxSockets) (hb : i < binds.length) :
    sockets ⟨i, hi⟩ = ⟨binds[i].entered, true, binds[i].sock⟩ := by
  rw [h ⟨i, hi⟩]
  simp [hb]

/-- A successful `socket_bind` enters its socket behind those that were there. -/
theorem Holds.bind {sockets sockets' : SocketTable} {binds : List Binding} {b : Binding}
    (h : Holds sockets binds) (hstep : BindStep sockets b sockets') :
    Holds sockets' (binds ++ [b]) ∧ binds.length < maxSockets := by
  unfold BindStep socketBind addListener at hstep
  cases hfree : (List.finRange maxSockets).find? fun i => !(sockets i).active with
  | none =>
      rw [hfree] at hstep
      cases hstep
  | some i =>
      rw [hfree] at hstep
      obtain rfl := Except.ok.inj hstep
      obtain ⟨hinactive, k, hk, hki, hearlier⟩ := List.find?_eq_some_iff_getElem.mp hfree
      rw [List.length_finRange] at hk
      have hindex : k = i.val := by
        rw [← hki]
        simp
      subst hindex
      have hafter : ¬ i.val < binds.length := by
        simpa [h.active] using hinactive
      -- All earlier places are taken, so that this is the one behind the last binding.
      have hlength : i.val = binds.length := by
        refine le_antisymm ?_ (not_lt.mp hafter)
        by_contra hgap
        have hfirst := hearlier binds.length (by omega)
        simp [h.active] at hfirst
      refine ⟨fun j => ?_, by omega⟩
      rcases eq_or_ne j i with rfl | hne
      · rw [Function.update_self, hlength]
        simp [Binding.entered]
      · have hj : j.val ≠ binds.length := fun heq => hne (Fin.ext (heq.trans hlength.symm))
        rw [Function.update_of_ne hne, h j]
        rcases Nat.lt_or_gt_of_ne hj with hlt | hgt
        · rw [List.getElem?_append_left hlt]
        · rw [List.getElem?_eq_none (by omega), List.getElem?_eq_none (by simp; omega)]

/-- The table after some calls of `socket_bind`. -/
theorem holds_of_run {sockets : SocketTable} {binds : List Binding}
    (hrun : Run BindStep emptySocketTable binds sockets) :
    Holds sockets binds ∧ binds.length ≤ maxSockets := by
  induction hrun with
  | nil => exact ⟨fun i => rfl, Nat.zero_le _⟩
  | snoc _ hstep ih =>
      obtain ⟨hholds, hroom⟩ := ih.1.bind hstep
      refine ⟨hholds, ?_⟩
      rw [List.length_append]
      exact hroom

/-! ## Delivery -/

/-- The protocol of a socket. -/
def Socket.proto : Socket → Nat
  | .udp _ => protoUdp
  | .tcp _ => protoTcp

/-- The sockets of the table were bound by calls of `socket_bind`, at most one to each protocol and
port. -/
structure Bound (s : NetStack) (binds : List Binding) : Prop where
  run : Run BindStep emptySocketTable binds s.sockets
  single : ∀ b ∈ binds, ∀ b' ∈ binds, b.port = b'.port →
    (s.socks b.sock).proto = (s.socks b'.sock).proto → b = b'

/-- The socket was bound to the protocol and the destination port of the packet. -/
def Binding.IsFor (s : NetStack) (pkt : Packet) (b : Binding) : Prop :=
  (s.socks b.sock).proto = pkt.transport.proto ∧ b.port.toNat = pkt.dstPort

/-- `socket_handle_pkt` writes the packet to the socket at an address, through the function for its protocol,
and changes no other socket; a datagram is queued in the buffer. -/
structure NetStack.Delivers (s : NetStack) (ptr : Nat) (pkt : Packet) (sock : Nat) (t : NetStack)
    (ret : Option Int) : Prop where
  call : s.socketHandlePkt ptr pkt = .ok (t, ret)
  written : (s.socks sock).writeSkb s.heap ptr pkt = .ok (t.heap, t.socks sock)
  others : ∀ i, i ≠ sock → t.socks i = s.socks i
  queued : pkt.transport.proto = protoUdp → (t.socks sock).Has none ptr

/-- `socket_handle_pkt` delivers the packet to the socket that was bound to its protocol and port, and frees it
and returns `-ENOTSUP` just when there is none.  A function that ends without a value returns what stands in the
register, {lit}`eax`. -/
structure DemuxRight (eax : Int) (s : NetStack) (binds : List Binding) (ptr : Nat) (pkt : Packet) :
    Prop where
  delivered : ∀ b ∈ binds, b.IsFor s pkt → ∃ t ret, s.Delivers ptr pkt b.sock t ret ∧
    ret.getD eax ≠ -Errno.enotsup.toInt
  refused : (∀ b ∈ binds, ¬ b.IsFor s pkt) →
    s.socketHandlePkt ptr pkt = .ok ({ s with heap := s.heap.free ptr }, some (-Errno.enotsup.toInt))

/-- The segment has a handler in the state that the socket is in; where that handler ends without a value, the
register does not hold `-ENOTSUP`. -/
def TcpSock.Handles (eax : Int) (t : TcpSock) (pkt : Packet) : Prop :=
  if t.flags.synSent then True
  else if t.flags.passive then
    pkt.tcpFlags = tcpFlagSyn ∨ pkt.tcpFlags = tcpFlagAck ∨
      (t.listening .empty).clientOf pkt.peer ≠ none ∨ eax ≠ -Errno.enotsup.toInt
  else if t.flags.connected then
    pkt.tcpFlags = tcpFlagPsh ||| tcpFlagAck ∨
      (pkt.tcpFlags = tcpFlagAck ∧ ProbeEnds t.ctx.rtQueue (UInt32.ofNat pkt.tcp.aseq) ∧
        eax ≠ -Errno.enotsup.toInt)
  else False

/-- A UDP socket takes every datagram. -/
def Socket.Handles (eax : Int) (sock : Socket) (pkt : Packet) : Prop :=
  match sock with
  | .udp _ => True
  | .tcp t => t.Handles eax pkt

/-- A port that a `short` holds was bound first for the protocol of the packet, if at all, and to a socket that
handles the packet; any other one was not bound for it. -/
structure DemuxFits (eax : Int) (s : NetStack) (binds : List Binding) (pkt : Packet) : Prop where
  small : pkt.dstPort < 2 ^ 15 →
    ∀ b, binds.find? (fun b => b.port.toNat = pkt.dstPort) = some b →
      (s.socks b.sock).proto = pkt.transport.proto ∧ (s.socks b.sock).Handles eax pkt
  large : 2 ^ 15 ≤ pkt.dstPort → ∀ b ∈ binds, ¬ b.IsFor s pkt

/-! ### The functions that write -/

section Writing

variable {heap heap' : PktHeap} {ptr : Nat} {pkt : Packet} {t : TcpSock} {sock sock' : Socket} {eax : Int}

theorem map_returns_iff {α β : Type} {x : Except Halt α} {f : α → β} :
    (∃ r, x.map f = .ok r) ↔ ∃ r, x = .ok r := by
  constructor
  · rintro ⟨r, hr⟩
    obtain ⟨r', hcall, -⟩ := Halt.map_eq_ok.mp hr
    exact ⟨r', hcall⟩
  · rintro ⟨r, hcall⟩
    exact ⟨_, Halt.map_eq_ok.mpr ⟨r, hcall, rfl⟩⟩

theorem put_returns (s : SkbState) (ptr : Nat) : ∃ s', s.put ptr = .ok s' ∧ s'.skb = s.skb.push ptr := by
  cases hslot : s.skb.packets s.skb.wptr with
  | none => exact ⟨_, put_eq_ok_iff.mpr (.inl ⟨hslot, rfl⟩), rfl⟩
  | some old => exact ⟨_, put_eq_ok_iff.mpr (.inr ⟨old, hslot, rfl⟩), rfl⟩

theorem skbPut_returns (s : SkbState) (ptr : Nat) : ∃ s', skbPut s (some ptr) = .ok (s', 0) := by
  obtain ⟨s', hput, -⟩ := put_returns s ptr
  exact ⟨s', skbPut_eq_ok_iff.mpr ⟨hput, rfl⟩⟩

theorem handleSyn_returns {l : ListenSocket} (hpkt : l.heap ptr = some pkt) :
    ∃ r, handleSyn l ptr = .ok r := by
  obtain ⟨s', hput⟩ := skbPut_returns ⟨l.heap, l.skb⟩ ptr
  rw [handleSyn, PktHeap.deref_some hpkt, Halt.ok_bind]
  split
  · exact ⟨_, rfl⟩
  · split
    · exact ⟨_, Halt.bind_eq_ok.mpr ⟨_, hput, rfl⟩⟩
    · exact ⟨_, rfl⟩

theorem handleAccept_returns {l : ListenSocket} (hpkt : l.heap ptr = some pkt) :
    ∃ r, handleAccept l ptr = .ok r := by
  rw [handleAccept, PktHeap.deref_some hpkt, Halt.ok_bind]
  dsimp only
  split
  · obtain ⟨s', hput⟩ := skbPut_returns ⟨l.heap, l.skb⟩ ptr
    exact ⟨_, Halt.bind_eq_ok.mpr ⟨_, hput, rfl⟩⟩
  · split
    · exact ⟨_, rfl⟩
    · cases l.clientOf pkt.peer with
      | none => exact ⟨_, rfl⟩
      | some i =>
          obtain ⟨s', hput⟩ := skbPut_returns ⟨l.heap, (l.clients i).skb⟩ ptr
          exact ⟨_, Halt.bind_eq_ok.mpr ⟨_, hput, rfl⟩⟩

/-- A connected socket returns for data, and for an ACK whose search ends. -/
theorem handleConnected_returns_iff {c : TcpSocket} (hpkt : c.state.heap ptr = some pkt) :
    (∃ r, handleConnected c ptr = .ok r) ↔ pkt.tcpFlags = tcpFlagPsh ||| tcpFlagAck ∨
      (pkt.tcpFlags = tcpFlagAck ∧ ProbeEnds c.ctx.rtQueue (UInt32.ofNat pkt.tcp.aseq)) := by
  have hne : tcpFlagAck ≠ tcpFlagPsh ||| tcpFlagAck := by decide
  rw [handleConnected, PktHeap.deref_some hpkt, Halt.ok_bind]
  dsimp only
  change (∃ r, (if pkt.tcpFlags = tcpFlagPsh ||| tcpFlagAck then _ else
    if pkt.tcpFlags = tcpFlagAck then _ else _) = _) ↔ _
  by_cases hpush : pkt.tcpFlags = tcpFlagPsh ||| tcpFlagAck
  · rw [if_pos hpush]
    refine iff_of_true ?_ (.inl hpush)
    split
    · exact ⟨_, rfl⟩
    · obtain ⟨s', hput⟩ := skbPut_returns c.state ptr
      exact ⟨_, Halt.bind_eq_ok.mpr ⟨_, hput, rfl⟩⟩
  · rw [if_neg hpush]
    by_cases hack : pkt.tcpFlags = tcpFlagAck
    · rw [if_pos hack, hack, ← hmRemove_returns_iff]
      simp only [hne, false_or, true_and]
      constructor
      · rintro ⟨r, hr⟩
        obtain ⟨removed, hremove, -⟩ := Halt.bind_eq_ok.mp hr
        exact ⟨removed, hremove⟩
      · rintro ⟨removed, hremove⟩
        exact ⟨_, Halt.bind_eq_ok.mpr ⟨removed, hremove, rfl⟩⟩
    · rw [if_neg hack]
      refine iff_of_false ?_ (by simp [hpush, hack])
      rintro ⟨r, hr⟩
      cases hr

/-- A TCP socket returns something else than `-ENOTSUP` just for the segments that it handles. -/
theorem TcpSock.writeSkb_returns_iff (hpkt : heap ptr = some pkt) :
    (∃ r, t.writeSkb heap ptr = .ok r) ∧ (t.writeRet pkt).getD eax ≠ -Errno.enotsup.toInt ↔
      t.Handles eax pkt := by
  have hzero : (0 : Int) ≠ -Errno.enotsup.toInt := by decide
  unfold TcpSock.writeSkb TcpSock.writeRet TcpSock.Handles
  by_cases hsent : t.flags.synSent = true
  · simp only [hsent, if_true, map_returns_iff]
    refine iff_of_true ⟨handleSyn_returns (l := t.listening heap) hpkt, ?_⟩ trivial
    split_ifs <;> simp [Errno.toInt]
  · simp only [if_neg hsent]
    by_cases hpassive : t.flags.passive = true
    · simp only [hpassive, if_true, map_returns_iff]
      refine (and_iff_right (handleAccept_returns (l := t.listening heap) hpkt)).trans ?_
      by_cases hsyn : pkt.tcpFlags = tcpFlagSyn
      · simp [hsyn, hzero]
      · by_cases hack : pkt.tcpFlags = tcpFlagAck
        · simp [hack, hzero]
        · cases (t.listening .empty).clientOf pkt.peer <;> simp [hsyn, hack, hzero]
    · simp only [if_neg hpassive]
      by_cases hconnected : t.flags.connected = true
      · simp only [hconnected, if_true, map_returns_iff]
        rw [handleConnected_returns_iff (c := t.connection heap) hpkt]
        by_cases hpush : pkt.tcpFlags = tcpFlagPsh ||| tcpFlagAck
        · simp [hpush, hzero]
        · simp only [hpush, false_or, if_false, Option.getD_none]
          exact and_assoc
      · simp [hconnected]

/-- A socket returns something else than `-ENOTSUP` just for the packets of its protocol that it handles. -/
theorem Socket.writeSkb_returns_iff (hpkt : heap ptr = some pkt)
    (hproto : sock.proto = pkt.transport.proto) :
    (∃ r, sock.writeSkb heap ptr pkt = .ok r) ∧ (sock.writeRet pkt).getD eax ≠ -Errno.enotsup.toInt ↔
      sock.Handles eax pkt := by
  unfold Socket.writeSkb Socket.writeRet
  cases sock with
  | udp skb =>
      obtain ⟨s', hput, -⟩ := put_returns ⟨heap, skb⟩ ptr
      have hudp : pkt.transport.proto = protoUdp := hproto.symm
      rw [if_pos hudp, if_pos hudp]
      exact iff_of_true ⟨⟨_, Halt.map_eq_ok.mpr ⟨s', hput, rfl⟩⟩, by simp [Errno.toInt]⟩ trivial
  | tcp t =>
      have hudp : pkt.transport.proto ≠ protoUdp := fun h =>
        absurd (show protoTcp = protoUdp from hproto.trans h) (by decide)
      rw [if_neg hudp, if_neg hudp]
      exact (and_congr_left' map_returns_iff).trans (TcpSock.writeSkb_returns_iff hpkt)

/-- A datagram for a UDP socket is in its buffer. -/
theorem Socket.writeSkb_queued (hproto : sock.proto = pkt.transport.proto)
    (hudp : pkt.transport.proto = protoUdp)
    (hwrite : sock.writeSkb heap ptr pkt = .ok (heap', sock')) : sock'.Has none ptr := by
  cases sock with
  | udp skb =>
      rw [Socket.writeSkb, if_pos hudp] at hwrite
      obtain ⟨s', hput, hret⟩ := Halt.map_eq_ok.mp hwrite
      obtain ⟨-, rfl⟩ := Prod.mk.inj hret
      refine ⟨s'.skb, rfl, ?_⟩
      rw [(put_spec hput).1]
      exact skb.has_push_self ptr
  | tcp t =>
      exact absurd (show protoTcp = protoUdp from hproto.trans hudp) (by decide)

theorem wptr_ne_succ (i : Fin skbMaxSize) : i ≠ i + 1 := by
  revert i
  decide

/-- A socket of the other protocol does not stay as it was: a datagram is taken into a buffer of TCP, and a
segment for a UDP socket fails an assertion. -/
theorem Socket.writeSkb_ne (hne : sock.proto ≠ pkt.transport.proto)
    (hproto : pkt.transport.proto = protoUdp ∨ pkt.transport.proto = protoTcp)
    (hwrite : sock.writeSkb heap ptr pkt = .ok (heap', sock')) : sock' ≠ sock := by
  unfold Socket.writeSkb at hwrite
  rcases hproto with hudp | htcp
  · rw [if_pos hudp] at hwrite
    cases sock with
    | udp skb => exact absurd hudp.symm hne
    | tcp t =>
        obtain ⟨r, hput, hret⟩ := Halt.map_eq_ok.mp hwrite
        obtain ⟨-, rfl⟩ := Prod.mk.inj hret
        obtain ⟨mid, -, rfl⟩ := Halt.map_eq_ok.mp hput
        intro heq
        have hskb : t.skb.udpPush ptr = t.skb := congrArg TcpSock.skb (Socket.tcp.inj heq)
        have hwptr : (t.skb.udpPush ptr).wptr = t.skb.wptr + 1 := by
          unfold Skb.udpPush
          split <;> rfl
        rw [hskb] at hwptr
        exact wptr_ne_succ _ hwptr
  · have hudp : pkt.transport.proto ≠ protoUdp := by
      rw [htcp]
      decide
    rw [if_neg hudp] at hwrite
    cases sock with
    | udp skb => cases hwrite
    | tcp t => exact absurd htcp.symm hne

end Writing

section Delivery

variable {s t : NetStack} {binds : List Binding} {ptr : Nat} {pkt : Packet} {eax : Int} {ret : Option Int}

/-- The search finds the first socket whose port, as it was entered, is that of the packet. -/
theorem Bound.socketOf_eq (h : Bound s binds)
    (hproto : pkt.transport.proto = protoUdp ∨ pkt.transport.proto = protoTcp) :
    s.socketOf pkt = (binds.find? fun b : Binding => b.entered = pkt.dstPort).map Binding.sock := by
  obtain ⟨hholds, hlength⟩ := holds_of_run h.run
  rw [NetStack.socketOf, if_pos hproto]
  cases hfound : binds.find? fun b : Binding => b.entered = pkt.dstPort with
  | none =>
      have hnone : ((List.finRange maxSockets).find? fun i =>
          (s.sockets i).active && (s.sockets i).port == pkt.dstPort) = none := by
        rw [List.find?_eq_none]
        intro i _
        by_cases hi : i.val < binds.length
        · have hport := List.find?_eq_none.mp hfound _ (List.getElem_mem hi)
          rw [hholds.entry i.isLt hi]
          simpa using hport
        · simp [hholds.active, hi]
      rw [hnone]
      rfl
  | some b =>
      obtain ⟨hport, k, hk, rfl, hearlier⟩ := List.find?_eq_some_iff_getElem.mp hfound
      have hkmax : k < maxSockets := by omega
      have hsome : ((List.finRange maxSockets).find? fun i =>
          (s.sockets i).active && (s.sockets i).port == pkt.dstPort) = some ⟨k, hkmax⟩ := by
        rw [List.find?_eq_some_iff_getElem]
        refine ⟨?_, k, by rwa [List.length_finRange], by simp, fun j hj => ?_⟩
        · rw [hholds.entry hkmax hk]
          simpa using hport
        · have hother := hearlier j hj
          rw [List.getElem_finRange]
          simp only [Fin.cast_mk]
          rw [hholds.entry (by omega) (by omega)]
          simpa using hother
      rw [hsome]
      simp [hholds.entry hkmax hk]

/-- A port below {lit}`2 ^ 15` is entered as it is. -/
theorem entered_eq_small {b : Binding} {port : Nat} (hport : port < 2 ^ 15) :
    b.entered = port ↔ b.port.toNat = port := by
  have hb := b.port.toNat_lt
  unfold Binding.entered shortOfInt
  rw [Int.bmod_def]
  omega

/-- No port is entered as one from {lit}`2 ^ 15` on. -/
theorem entered_ne_large (b : Binding) {port : Nat} (hport : 2 ^ 15 ≤ port) : b.entered ≠ port := by
  have hb := b.port.toNat_lt
  unfold Binding.entered shortOfInt
  rw [Int.bmod_def]
  omega

/-- The search for a small port finds the first socket that was bound to it. -/
theorem find_entered_small {port : Nat} (hport : port < 2 ^ 15) :
    (binds.find? fun b : Binding => b.entered = port) = binds.find? fun b => b.port.toNat = port := by
  have htest : (fun b : Binding => decide (b.entered = port)) =
      fun b => decide (b.port.toNat = port) :=
    funext fun b => decide_eq_decide.mpr (entered_eq_small hport)
  rw [htest]

/-- The search for a large port finds nothing. -/
theorem find_entered_large {port : Nat} (hport : 2 ^ 15 ≤ port) :
    (binds.find? fun b : Binding => b.entered = port) = none := by
  rw [List.find?_eq_none]
  intro b _
  simpa using entered_ne_large b hport

/-- A packet that no socket is found for is freed. -/
theorem socketHandlePkt_of_none (hsock : s.socketOf pkt = none) :
    s.socketHandlePkt ptr pkt =
      .ok ({ s with heap := s.heap.free ptr }, some (-Errno.enotsup.toInt)) := by
  rw [NetStack.socketHandlePkt, hsock]
  rfl

/-- A packet that a socket was found for. -/
theorem socketHandlePkt_of_some {i : Nat} (hsock : s.socketOf pkt = some i)
    (hcall : s.socketHandlePkt ptr pkt = .ok (t, ret)) :
    ∃ heap sock', (s.socks i).writeSkb s.heap ptr pkt = .ok (heap, sock') ∧
      t = { s with heap := heap, socks := Function.update s.socks i sock' } ∧
      ret = (s.socks i).writeRet pkt := by
  rw [NetStack.socketHandlePkt, hsock] at hcall
  obtain ⟨⟨heap, sock'⟩, hwrite, hret⟩ := Halt.map_eq_ok.mp hcall
  obtain ⟨rfl, rfl⟩ := Prod.mk.inj hret
  exact ⟨heap, sock', hwrite, rfl, rfl⟩

/-- A socket that was found and has not changed is one for the protocol of the packet. -/
theorem proto_of_unchanged {i : Nat} (hsock : s.socketOf pkt = some i)
    (hproto : pkt.transport.proto = protoUdp ∨ pkt.transport.proto = protoTcp)
    (hcall : s.socketHandlePkt ptr pkt = .ok (t, ret)) (hsame : t.socks i = s.socks i) :
    (s.socks i).proto = pkt.transport.proto := by
  obtain ⟨heap, sock', hwrite, rfl, -⟩ := socketHandlePkt_of_some hsock hcall
  by_contra hne
  exact Socket.writeSkb_ne hne hproto hwrite (by simpa using hsame)

/-- A packet for a socket of its protocol is delivered, with a value other than `-ENOTSUP`, just when the
socket handles it. -/
theorem delivers_iff (hpkt : s.heap ptr = some pkt) {i : Nat} (hsock : s.socketOf pkt = some i)
    (hproto : (s.socks i).proto = pkt.transport.proto) :
    (∃ t ret, s.Delivers ptr pkt i t ret ∧ ret.getD eax ≠ -Errno.enotsup.toInt) ↔
      (s.socks i).Handles eax pkt := by
  rw [← Socket.writeSkb_returns_iff hpkt hproto]
  constructor
  · rintro ⟨t, ret, hdelivers, hret⟩
    obtain ⟨heap, sock', hwrite, -, rfl⟩ := socketHandlePkt_of_some hsock hdelivers.call
    exact ⟨⟨_, hwrite⟩, hret⟩
  · rintro ⟨⟨⟨heap, sock'⟩, hwrite⟩, hret⟩
    refine ⟨{ s with heap := heap, socks := Function.update s.socks i sock' }, _, ⟨?_, ?_, ?_, ?_⟩, hret⟩
    · rw [NetStack.socketHandlePkt, hsock]
      exact Halt.map_eq_ok.mpr ⟨_, hwrite, rfl⟩
    · simpa using hwrite
    · intro j hj
      exact Function.update_of_ne hj ..
    · intro hudp
      simpa using Socket.writeSkb_queued hproto hudp hwrite

/-- A packet is delivered to the socket that was bound to its protocol and port, and to no other one, and is
freed and refused when there is none, just when a small port was bound first for the protocol, to a socket
that handles the packet, and a large one not at all. -/
theorem socket_demux_right_iff (h : Bound s binds) (hpkt : s.heap ptr = some pkt)
    (hproto : pkt.transport.proto = protoUdp ∨ pkt.transport.proto = protoTcp) :
    DemuxRight eax s binds ptr pkt ↔ DemuxFits eax s binds pkt := by
  have htarget := h.socketOf_eq hproto
  rcases Nat.lt_or_ge pkt.dstPort (2 ^ 15) with hsmall | hlarge
  · rw [find_entered_small hsmall] at htarget
    constructor
    · intro hright
      refine ⟨fun _ b hb => ?_, fun hlarge => absurd hsmall (not_lt.mpr hlarge)⟩
      have hmem := List.mem_of_find?_eq_some hb
      have hport : b.port.toNat = pkt.dstPort := by simpa using List.find?_some hb
      rw [hb] at htarget
      -- The packet goes to the first socket of the port, which changes, so that it is the one it is for.
      have hsame : (s.socks b.sock).proto = pkt.transport.proto := by
        by_contra hne
        by_cases hfor : ∃ b' ∈ binds, b'.IsFor s pkt
        · obtain ⟨b', hb', hfor'⟩ := hfor
          obtain ⟨t, ret, hdelivers, -⟩ := hright.delivered b' hb' hfor'
          have hsock : b.sock ≠ b'.sock := fun heq => hne (heq ▸ hfor'.1)
          exact hne (proto_of_unchanged htarget hproto hdelivers.call (hdelivers.others _ hsock))
        · push Not at hfor
          exact hne (proto_of_unchanged htarget hproto (hright.refused hfor) rfl)
      exact ⟨hsame, (delivers_iff hpkt htarget hsame).mp (hright.delivered b hmem ⟨hsame, hport⟩)⟩
    · intro hfits
      constructor
      · intro b hb hfor
        cases hfound : binds.find? fun b => b.port.toNat = pkt.dstPort with
        | none =>
            have hnot := List.find?_eq_none.mp hfound b hb
            exact absurd hfor.2 (by simpa using hnot)
        | some b' =>
            obtain ⟨hfirst, hhandles⟩ := hfits.small hsmall b' hfound
            have hport : b'.port.toNat = pkt.dstPort := by simpa using List.find?_some hfound
            obtain rfl := h.single b' (List.mem_of_find?_eq_some hfound) b hb
              (UInt16.toNat_inj.mp (hport.trans hfor.2.symm)) (hfirst.trans hfor.1.symm)
            rw [hfound] at htarget
            exact (delivers_iff hpkt htarget hfirst).mpr hhandles
      · intro hnone
        cases hfound : binds.find? fun b => b.port.toNat = pkt.dstPort with
        | none =>
            rw [hfound] at htarget
            exact socketHandlePkt_of_none htarget
        | some b =>
            have hport : b.port.toNat = pkt.dstPort := by simpa using List.find?_some hfound
            exact absurd ⟨(hfits.small hsmall b hfound).1, hport⟩
              (hnone b (List.mem_of_find?_eq_some hfound))
  · rw [find_entered_large hlarge] at htarget
    constructor
    · intro hright
      refine ⟨fun hsmall => absurd hlarge (not_le.mpr hsmall), fun _ b hb hfor => ?_⟩
      obtain ⟨t, ret, hdelivers, hret⟩ := hright.delivered b hb hfor
      have hcall := hdelivers.call
      rw [socketHandlePkt_of_none htarget] at hcall
      obtain ⟨-, rfl⟩ := Prod.mk.inj (Except.ok.inj hcall)
      exact hret rfl
    · intro hfits
      exact ⟨fun b hb hfor => absurd hfor (hfits.large hlarge b hb),
        fun _ => socketHandlePkt_of_none htarget⟩

end Delivery

/-- A datagram for a port, given by its two bytes in host order. -/
def datagramFor (low high : UInt8) : Packet where
  size := 42
  link := fun x => if x = 36 then low else if x = 37 then high else 0
  net := ⟨0, 28, 14⟩
  transport := ⟨protoUdp, 8, 34⟩
  app := ⟨0, 0, 42⟩

/-- A TCP socket that is connected. -/
def connectedSock : TcpSock where
  srcAddr := 1
  dstAddr := 2
  srcPort := 7
  dstPort := 4000
  flags := ⟨false, false, false, false, true⟩
  ctx := ⟨1, 0, hmAllocHashmap 16⟩
  nclients := 0
  clients := fun _ => ⟨0, 0, 0, 0, 0, 0, Skb.empty⟩
  skb := Skb.empty

/-- A network stack with a table of bound sockets, of which socket one is a TCP socket. -/
def stackWith (sockets : SocketTable) : NetStack :=
  { quietStack (datagramFor 7 0) with
    sockets := sockets
    socks := fun i => if i = 1 then .tcp connectedSock else .udp Skb.empty }

/-- The table with one or two bindings. -/
def boundTable (binds : List Binding) : SocketTable := fun i =>
  match binds[i.val]? with
  | some b => ⟨b.entered, true, b.sock⟩
  | none => ⟨0, false, 0⟩

theorem boundTable_step (binds : List Binding) (b : Binding) (hroom : binds.length < maxSockets) :
    BindStep (boundTable binds) b (boundTable (binds ++ [b])) := by
  have hholds : Holds (boundTable binds) binds := fun i => rfl
  unfold BindStep socketBind addListener
  have hfree : ((List.finRange maxSockets).find? fun i => !(boundTable binds i).active) =
      some ⟨binds.length, hroom⟩ := by
    rw [List.find?_eq_some_iff_getElem]
    refine ⟨by simp [hholds.active], binds.length, by simpa using hroom, by simp, fun j hj => ?_⟩
    simp [hholds.active, hj]
  rw [hfree]
  refine congrArg Except.ok (funext fun i => ?_)
  rcases eq_or_ne i ⟨binds.length, hroom⟩ with rfl | hne
  · rw [Function.update_self]
    simp [boundTable, Binding.entered]
  · have hi : i.val ≠ binds.length := fun heq => hne (Fin.ext heq)
    rw [Function.update_of_ne hne]
    unfold boundTable
    rcases Nat.lt_or_gt_of_ne hi with hlt | hgt
    · rw [List.getElem?_append_left hlt]
    · rw [List.getElem?_eq_none (by omega), List.getElem?_eq_none (by simp; omega)]

theorem boundTable_run (binds : List Binding) (hroom : binds.length ≤ maxSockets) :
    Run BindStep emptySocketTable binds (boundTable binds) := by
  induction binds using List.reverseRecOn with
  | nil => exact .nil
  | append_singleton binds b ih =>
      rw [List.length_append, List.length_singleton] at hroom
      exact (ih (by omega)).snoc (boundTable_step binds b (by omega))

/-- A TCP socket on port 80 and a UDP socket on port 7. -/
def twoBound : List Binding := [⟨80, 1⟩, ⟨7, 2⟩]

theorem twoBound_bound : Bound (stackWith (boundTable twoBound)) twoBound where
  run := boundTable_run twoBound (by decide)
  single := by decide

/-- A datagram for port 7 goes to the UDP socket that was bound to it, behind a TCP socket of another port. -/
theorem small_port_delivered :
    DemuxRight 0 (stackWith (boundTable twoBound)) twoBound 1 (datagramFor 7 0) := by
  refine (socket_demux_right_iff twoBound_bound rfl (.inl rfl)).mpr ⟨?_, ?_⟩
  · intro _ b hb
    have hfound : twoBound.find? (fun b => b.port.toNat = (datagramFor 7 0).dstPort) = some ⟨7, 2⟩ := by
      decide
    obtain rfl := Option.some.inj (hfound.symm.trans hb)
    exact ⟨rfl, trivial⟩
  · intro hlarge
    exact absurd hlarge (by decide)

/-- A datagram for port 40000 is freed and refused although a UDP socket was bound to it, and a datagram for
port 7 reaches the TCP socket that was bound to it before the UDP socket. -/
theorem ports_confused :
    (Bound (stackWith (boundTable [⟨40000, 2⟩])) [⟨40000, 2⟩] ∧
        (stackWith (boundTable [⟨40000, 2⟩])).socketOf (datagramFor 0x40 0x9c) = none ∧
        ¬ DemuxRight 0 (stackWith (boundTable [⟨40000, 2⟩])) [⟨40000, 2⟩] 1 (datagramFor 0x40 0x9c)) ∧
      Run BindStep emptySocketTable [⟨7, 1⟩, ⟨7, 2⟩] (boundTable [⟨7, 1⟩, ⟨7, 2⟩]) ∧
        (stackWith (boundTable [⟨7, 1⟩, ⟨7, 2⟩])).socketOf (datagramFor 7 0) = some 1 := by
  have hnone : (stackWith (boundTable [⟨40000, 2⟩])).socketOf (datagramFor 0x40 0x9c) = none := by
    decide
  have hbound : Bound (stackWith (boundTable [⟨40000, 2⟩])) [⟨40000, 2⟩] :=
    ⟨boundTable_run [⟨40000, 2⟩] (by decide), by decide⟩
  refine ⟨⟨hbound, hnone, fun hright => ?_⟩, boundTable_run _ (by decide), by decide⟩
  obtain ⟨t, ret, hdelivers, hret⟩ :=
    hright.delivered ⟨40000, 2⟩ List.mem_cons_self ⟨rfl, by decide⟩
  have hcall := hdelivers.call
  rw [socketHandlePkt_of_none hnone] at hcall
  obtain ⟨-, rfl⟩ := Prod.mk.inj (Except.ok.inj hcall)
  exact hret rfl

end Net
end Micael
