import Micael.Net.TcpHandshake

/-!
# The socket table and what becomes of a packet

`socket_handle_pkt` gives a packet to the first active socket of its port, whatever the socket's
protocol is.  The buffers of UDP and TCP sockets are members of one union: a datagram for the port
of a TCP socket goes through `udp_write_skb`, which takes the `tcp_skb_t` for a `udp_skb_t`.  There
the stream pointer is where the count of packets should be, and the count of packets where
the first entry should be.  A segment for the port of a UDP socket fails an assertion.

A packet that was delivered is freed, is queued in one buffer, or is forgotten.

Main results:

- Theorem {lit}`TcpSock.writeSkb_delivered`, {lit}`Socket.udpWriteSkb_delivered`: the fate of a
  packet, which is known from the socket and the packet, and that no other packet is touched but the
  one whose place it took.
-/

namespace Micael
namespace Net

open Foundation

/-! ## Sockets -/

/-- A TCP socket that has been bound: `socket_t` and its `tcp_ctx_t`. -/
structure TcpSock where
  srcAddr : Nat
  dstAddr : Nat
  srcPort : Nat
  dstPort : Nat
  flags : TcpFlags
  ctx : TcpCtx
  nclients : Nat
  clients : Nat → AcceptedSocket
  skb : Skb

/-- The socket as `__handle_syn` and `__handle_accept` use it. -/
def TcpSock.listening (t : TcpSock) (heap : PktHeap) : ListenSocket where
  srcAddr := t.srcAddr
  srcPort := t.srcPort
  flags := t.flags
  nclients := t.nclients
  clients := t.clients
  skb := t.skb
  heap := heap

/-- The socket after one of them. -/
def TcpSock.afterListening (t : TcpSock) (l : ListenSocket) : TcpSock :=
  { t with
    flags := l.flags
    nclients := l.nclients
    clients := l.clients
    skb := l.skb }

/-- The socket as `__handle_connected` uses it. -/
def TcpSock.connection (t : TcpSock) (heap : PktHeap) : TcpSocket where
  srcAddr := t.srcAddr
  dstAddr := t.dstAddr
  srcPort := t.srcPort
  dstPort := t.dstPort
  ctx := t.ctx
  state := ⟨heap, t.skb⟩

/-- `tcp_write_skb`. -/
def TcpSock.writeSkb (t : TcpSock) (heap : PktHeap) (ptr : Nat) : Except Halt (PktHeap × TcpSock) :=
  if t.flags.synSent then
    (handleSyn (t.listening heap) ptr).map fun r => (r.sock.heap, t.afterListening r.sock)
  else if t.flags.passive then
    (handleAccept (t.listening heap) ptr).map fun r => (r.sock.heap, t.afterListening r.sock)
  else if t.flags.connected then
    (handleConnected (t.connection heap) ptr).map fun r =>
      (r.1.state.heap, { t with ctx := r.1.ctx, skb := r.1.state.skb })
  else
    .error .kassert

/-- The value that `tcp_write_skb` returns for a segment.  `__handle_accept` ends without one for a peer
that is no client, and `__handle_connected` for a pure ACK. -/
def TcpSock.writeRet (t : TcpSock) (pkt : Packet) : Option Int :=
  if t.flags.synSent then
    if pkt.tcpFlags = tcpFlagAck ||| tcpFlagRst then some (-Errno.efault.toInt)
    else if pkt.tcpFlags = tcpFlagAck ||| tcpFlagSyn then some 0
    else some (-Errno.einval.toInt)
  else if t.flags.passive then
    if pkt.tcpFlags = tcpFlagSyn then some 0
    else if pkt.tcpFlags = tcpFlagAck then some 0
    else ((t.listening .empty).clientOf pkt.peer).map fun _ => 0
  else if pkt.tcpFlags = tcpFlagPsh ||| tcpFlagAck then some 0
  else none

/-- A socket; only the buffer of a UDP socket is used. -/
inductive Socket where
  | udp (skb : Skb)
  | tcp (sock : TcpSock)

/-- The entry at the write pointer when a `tcp_skb_t` is taken for a `udp_skb_t`: entry `i + 1` is
entry `i` of the packets, and entry zero is the count of packets. -/
def Skb.udpEntry (skb : Skb) : Option Nat :=
  if skb.wptr = 0 then
    if skb.npkts = 0 then none else some skb.npkts
  else
    skb.packets (skb.wptr - 1)

/-- The same buffer with a packet in that entry; the stream pointer is counted up in place of the
count. -/
def Skb.udpPush (skb : Skb) (ptr : Nat) : Skb :=
  if skb.wptr = 0 then
    { skb with
      npkts := ptr
      wptr := skb.wptr + 1
      sptr := u64 (skb.sptr + 1) }
  else
    { skb with
      packets := Function.update skb.packets (skb.wptr - 1) (some ptr)
      wptr := skb.wptr + 1
      sptr := u64 (skb.sptr + 1) }

/-- The packet of an entry that is to be set is freed. -/
def freeEntry (heap : PktHeap) : Option Nat → Except Halt PktHeap
  | none => .ok heap
  | some old => netdevDeallocPkt heap (some old)

/-- `udp_write_skb` on the `tcp_skb_t` of a TCP socket. -/
def udpWriteTcpSkb (heap : PktHeap) (skb : Skb) (ptr : Nat) : Except Halt (PktHeap × Skb) :=
  (freeEntry heap skb.udpEntry).map fun heap => (heap, skb.udpPush ptr)

/-- `udp_write_skb`. -/
def Socket.udpWriteSkb (sock : Socket) (heap : PktHeap) (ptr : Nat) :
    Except Halt (PktHeap × Socket) :=
  match sock with
  | .udp skb => (SkbState.put ⟨heap, skb⟩ ptr).map fun s => (s.heap, .udp s.skb)
  | .tcp t => (udpWriteTcpSkb heap t.skb ptr).map fun r => (r.1, .tcp { t with skb := r.2 })

/-- `tcp_write_skb`; the flags of a UDP socket are zero. -/
def Socket.tcpWriteSkb (sock : Socket) (heap : PktHeap) (ptr : Nat) :
    Except Halt (PktHeap × Socket) :=
  match sock with
  | .udp _ => .error .kassert
  | .tcp t => (t.writeSkb heap ptr).map fun r => (r.1, .tcp r.2)

/-! ## The fate of a packet -/

/-- What becomes of a packet: it is queued in the buffer of the socket itself or of one of its
clients, it is freed, or nobody has it. -/
inductive Fate where
  | queued (client : Option Nat)
  | freed
  | forgotten
deriving DecidableEq, Repr

/-- The buffer holds the packet. -/
def Skb.Has (skb : Skb) (ptr : Nat) : Prop := ∃ i, skb.packets i = some ptr

/-- The buffers of a socket: its own, and those of the clients it has accepted. -/
def Socket.buffer : Socket → Option Nat → Option Skb
  | .udp skb, none => some skb
  | .udp _, some _ => none
  | .tcp t, none => some t.skb
  | .tcp t, some i => if i < t.nclients then some (t.clients i).skb else none

/-- A buffer of the socket holds the packet. -/
def Socket.Has (sock : Socket) (client : Option Nat) (ptr : Nat) : Prop :=
  ∃ skb, sock.buffer client = some skb ∧ skb.Has ptr

/-- A word of the socket that the code may take for a pointer points to the packet. -/
def Socket.Mentions (sock : Socket) (ptr : Nat) : Prop :=
  (∃ c, sock.Has c ptr) ∨ ∃ t, sock = .tcp t ∧ t.skb.npkts = ptr

/-- The packet at an address is the same in both heaps, and was not freed in between. -/
def PktHeap.SameAt (heap heap' : PktHeap) (p : Nat) : Prop :=
  heap' p = heap p ∧ heap'.frees p = heap.frees p

/-- All other packets that the socket did not mention are as before, and the packet has met its fate if
the socket did not mention it either. -/
structure Delivered (heap : PktHeap) (sock : Socket) (ptr : Nat) (fate : Fate) (heap' : PktHeap)
    (sock' : Socket) : Prop where
  heap_other : ∀ p, p ≠ ptr → ¬ sock.Mentions p → heap.SameAt heap' p
  has_other : ∀ p c, p ≠ ptr → sock'.Has c p → sock.Has c p
  heap_self : ¬ sock.Mentions ptr → fate ≠ .freed → heap.SameAt heap' ptr
  heap_freed : ¬ sock.Mentions ptr → fate = .freed → heap' = heap.free ptr
  has_self : ¬ sock.Mentions ptr → ∀ c, sock'.Has c ptr ↔ fate = .queued c

/-- The fate of a segment on a socket that `tcp_write_skb` can handle. -/
def TcpSock.fate (t : TcpSock) (pkt : Packet) : Fate :=
  if t.flags.synSent then
    if pkt.tcpFlags = tcpFlagAck ||| tcpFlagSyn then .queued none else .freed
  else if t.flags.passive then
    if pkt.tcpFlags = tcpFlagSyn then .queued none
    else if pkt.tcpFlags = tcpFlagAck then .forgotten
    else
      match (t.listening .empty).clientOf pkt.peer with
      | some i => .queued (some i)
      | none => .forgotten
  else if pkt.tcpFlags = tcpFlagPsh ||| tcpFlagAck then
    if pkt.tcp.seq ≠ t.ctx.aseq then .freed else .queued none
  else .forgotten

/-- The fate of a datagram. -/
def Socket.udpFate : Socket → Fate
  | .udp _ => .queued none
  | .tcp t => if t.skb.wptr = 0 then .forgotten else .queued none

/-! ### Buffers -/

theorem Skb.has_push_self (skb : Skb) (ptr : Nat) : (skb.push ptr).Has ptr :=
  ⟨skb.wptr, Function.update_self ..⟩

/-- A packet that one entry was not set to was there before. -/
theorem Skb.Has.of_update {skb skb' : Skb} {ptr p : Nat} {k : Fin skbMaxSize} (h : skb'.Has p)
    (hset : skb'.packets = Function.update skb.packets k (some ptr)) (hne : p ≠ ptr) :
    skb.Has p := by
  obtain ⟨i, hi⟩ := h
  rw [hset] at hi
  by_cases hk : i = k
  · subst hk
    rw [Function.update_self] at hi
    exact absurd (Option.some.inj hi).symm hne
  · rw [Function.update_of_ne hk] at hi
    exact ⟨i, hi⟩

theorem Skb.Has.of_push {skb : Skb} {ptr p : Nat} (h : (skb.push ptr).Has p) (hne : p ≠ ptr) :
    skb.Has p :=
  h.of_update rfl hne

theorem PktHeap.SameAt.refl (heap : PktHeap) (p : Nat) : heap.SameAt heap p :=
  ⟨rfl, rfl⟩

theorem PktHeap.SameAt.trans {heap mid heap' : PktHeap} {p : Nat} (h : heap.SameAt mid p)
    (h' : mid.SameAt heap' p) : heap.SameAt heap' p :=
  ⟨h'.1.trans h.1, h'.2.trans h.2⟩

/-- Freeing one packet touches no other. -/
theorem PktHeap.sameAt_free (heap : PktHeap) {old p : Nat} (hne : p ≠ old) :
    heap.SameAt (heap.free old) p :=
  ⟨PktHeap.free_of_ne hne, PktHeap.frees_free_of_ne hne⟩

theorem dealloc_other {heap heap' : PktHeap} {old p : Nat}
    (hfree : netdevDeallocPkt heap (some old) = .ok heap') (hne : p ≠ old) : heap.SameAt heap' p := by
  rw [netdevDeallocPkt_some] at hfree
  rw [← Except.ok.inj hfree]
  exact heap.sameAt_free hne

/-- A packet that was put into a buffer. -/
theorem put_spec {heap : PktHeap} {skb : Skb} {ptr : Nat} {s' : SkbState}
    (hput : SkbState.put ⟨heap, skb⟩ ptr = .ok s') :
    s'.skb = skb.push ptr ∧ ∀ p, ¬ skb.Has p → heap.SameAt s'.heap p := by
  rcases put_eq_ok_iff.mp hput with ⟨-, rfl⟩ | ⟨old, hslot, rfl⟩
  · exact ⟨rfl, fun p hp => .refl heap p⟩
  · refine ⟨rfl, fun p hp => heap.sameAt_free ?_⟩
    rintro rfl
    exact hp ⟨_, hslot⟩

/-! ### Ways to meet a fate -/

section Ways

variable {heap heap' : PktHeap} {sock sock' : Socket} {ptr : Nat}

/-- One buffer takes the packet, and all others stay as they are. -/
theorem Delivered.of_queued {client : Option Nat} {skb skb' : Skb}
    (hbuffer : sock.buffer client = some skb) (hbuffer' : sock'.buffer client = some skb')
    (hrest : ∀ c, c ≠ client → sock'.buffer c = sock.buffer c)
    (hself : skb'.Has ptr) (hother : ∀ p, p ≠ ptr → skb'.Has p → skb.Has p)
    (hheap : ∀ p, ¬ sock.Mentions p → heap.SameAt heap' p) :
    Delivered heap sock ptr (.queued client) heap' sock' where
  heap_other p _ hp := hheap p hp
  has_other p c hne hhas := by
    obtain ⟨b, hb, hbp⟩ := hhas
    by_cases hc : c = client
    · subst hc
      obtain rfl := Option.some.inj (hbuffer'.symm.trans hb)
      exact ⟨skb, hbuffer, hother p hne hbp⟩
    · exact ⟨b, (hrest c hc).symm.trans hb, hbp⟩
  heap_self hnew _ := hheap ptr hnew
  heap_freed _ hfate := by cases hfate
  has_self hnew c := by
    constructor
    · rintro ⟨b, hb, hbp⟩
      by_contra hfate
      have hc : c ≠ client := fun h => hfate (congrArg Fate.queued h.symm)
      exact hnew (.inl ⟨c, b, (hrest c hc).symm.trans hb, hbp⟩)
    · intro hfate
      obtain rfl := Fate.queued.inj hfate
      exact ⟨skb', hbuffer', hself⟩

/-- `__skb_put` stores the packet in one of the buffers. -/
theorem Delivered.of_put {client : Option Nat} {skb : Skb} {s' : SkbState}
    (hput : SkbState.put ⟨heap, skb⟩ ptr = .ok s') (hbuffer : sock.buffer client = some skb)
    (hbuffer' : sock'.buffer client = some s'.skb)
    (hrest : ∀ c, c ≠ client → sock'.buffer c = sock.buffer c) :
    Delivered heap sock ptr (.queued client) s'.heap sock' := by
  obtain ⟨hskb, hheap⟩ := put_spec hput
  refine Delivered.of_queued hbuffer hbuffer' hrest ?_ (fun p hne hhas => ?_) (fun p hp => ?_)
  · rw [hskb]
    exact skb.has_push_self ptr
  · rw [hskb] at hhas
    exact hhas.of_push hne
  · exact hheap p fun hhas => hp (.inl ⟨client, skb, hbuffer, hhas⟩)

/-- The packet is freed and no buffer changes. -/
theorem Delivered.of_freed (hfree : netdevDeallocPkt heap (some ptr) = .ok heap')
    (hrest : ∀ c, sock'.buffer c = sock.buffer c) :
    Delivered heap sock ptr .freed heap' sock' where
  heap_other p hne _ := dealloc_other hfree hne
  has_other p c _ hhas := by
    obtain ⟨b, hb, hbp⟩ := hhas
    exact ⟨b, (hrest c).symm.trans hb, hbp⟩
  heap_self _ hfate := absurd rfl hfate
  heap_freed _ _ := by
    rw [netdevDeallocPkt_some] at hfree
    exact (Except.ok.inj hfree).symm
  has_self hnew c := by
    constructor
    · rintro ⟨b, hb, hbp⟩
      exact absurd (.inl ⟨c, b, (hrest c).symm.trans hb, hbp⟩) hnew
    · intro hfate
      cases hfate

/-- Nothing is done about the packet. -/
theorem Delivered.of_forgotten (hheap : ∀ p, ¬ sock.Mentions p → heap.SameAt heap' p)
    (hrest : ∀ c p, sock'.Has c p → sock.Has c p) :
    Delivered heap sock ptr .forgotten heap' sock' where
  heap_other p _ hp := hheap p hp
  has_other p c _ hhas := hrest c p hhas
  heap_self hnew _ := hheap ptr hnew
  heap_freed _ hfate := by cases hfate
  has_self hnew c := by
    constructor
    · intro hhas
      exact absurd (.inl ⟨c, hrest c ptr hhas⟩) hnew
    · intro hfate
      cases hfate

end Ways

/-! ### The handlers -/

variable {heap heap' : PktHeap} {sock' : Socket} {ptr : Nat} {pkt : Packet}

/-- The word that `udp_write_skb` takes for a pointer on a TCP socket is one that the socket
mentions. -/
theorem mentions_of_udpEntry {t : TcpSock} {p : Nat} (h : t.skb.udpEntry = some p) :
    (Socket.tcp t).Mentions p := by
  unfold Skb.udpEntry at h
  by_cases hw : t.skb.wptr = 0
  · rw [if_pos hw] at h
    by_cases hnone : t.skb.npkts = 0
    · rw [if_pos hnone] at h
      cases h
    · rw [if_neg hnone] at h
      exact .inr ⟨t, rfl, Option.some.inj h⟩
  · rw [if_neg hw] at h
    exact .inl ⟨none, t.skb, rfl, _, h⟩

/-- Freeing an entry leaves all other packets. -/
theorem freeEntry_other {entry : Option Nat} {p : Nat} (hfree : freeEntry heap entry = .ok heap')
    (hne : entry ≠ some p) : heap.SameAt heap' p := by
  cases entry with
  | none =>
      rw [← Except.ok.inj hfree]
      exact .refl heap p
  | some old => exact dealloc_other hfree fun heq => hne (congrArg some heq.symm)

/-- A datagram is delivered. -/
theorem Socket.udpWriteSkb_delivered {sock : Socket}
    (hwrite : sock.udpWriteSkb heap ptr = .ok (heap', sock')) :
    Delivered heap sock ptr sock.udpFate heap' sock' := by
  cases sock with
  | udp skb =>
      obtain ⟨s', hput, hret⟩ := Halt.map_eq_ok.mp hwrite
      obtain ⟨rfl, rfl⟩ := Prod.mk.inj hret
      refine Delivered.of_put hput rfl rfl (fun c hc => ?_)
      cases c with
      | none => exact absurd rfl hc
      | some i => rfl
  | tcp t =>
      obtain ⟨r, hput, hret⟩ := Halt.map_eq_ok.mp hwrite
      obtain ⟨rfl, rfl⟩ := Prod.mk.inj hret
      obtain ⟨mid, hfree, rfl⟩ := Halt.map_eq_ok.mp hput
      have hheap : ∀ p, ¬ (Socket.tcp t).Mentions p → heap.SameAt mid p := fun p hp =>
        freeEntry_other hfree fun hentry => hp (mentions_of_udpEntry hentry)
      by_cases hw : t.skb.wptr = 0
      · have hpush : (t.skb.udpPush ptr).packets = t.skb.packets := by
          rw [Skb.udpPush, if_pos hw]
        rw [Socket.udpFate, if_pos hw]
        refine Delivered.of_forgotten hheap (fun c p hhas => ?_)
        cases c with
        | some i => exact hhas
        | none =>
            obtain ⟨skb, hskb, i, hi⟩ := hhas
            obtain rfl := Option.some.inj hskb
            exact ⟨t.skb, rfl, i, hpush ▸ hi⟩
      · have hpush : (t.skb.udpPush ptr).packets =
            Function.update t.skb.packets (t.skb.wptr - 1) (some ptr) := by
          rw [Skb.udpPush, if_neg hw]
        rw [Socket.udpFate, if_neg hw]
        have hbuffer : (Socket.tcp t).buffer none = some t.skb := rfl
        have hbuffer' : (Socket.tcp { t with skb := t.skb.udpPush ptr }).buffer none =
            some (t.skb.udpPush ptr) := rfl
        refine Delivered.of_queued hbuffer hbuffer' (fun c hc => ?_) ?_
          (fun p hne hhas => hhas.of_update hpush hne) hheap
        · cases c with
          | none => exact absurd rfl hc
          | some i => rfl
        · exact ⟨t.skb.wptr - 1, hpush ▸ Function.update_self ..⟩

/-- Buffers of a TCP socket whose own buffer was replaced. -/
theorem buffer_of_own {t t' : TcpSock} (hclients : t'.clients = t.clients)
    (hn : t'.nclients = t.nclients) {c : Option Nat} (hc : c ≠ none) :
    (Socket.tcp t').buffer c = (Socket.tcp t).buffer c := by
  cases c with
  | none => exact absurd rfl hc
  | some i => rw [Socket.buffer, Socket.buffer, hn, hclients]

/-- A socket whose buffers did not change. -/
theorem buffer_of_same {t t' : TcpSock} (hclients : t'.clients = t.clients)
    (hn : t'.nclients = t.nclients) (hskb : t'.skb = t.skb) (c : Option Nat) :
    (Socket.tcp t').buffer c = (Socket.tcp t).buffer c := by
  cases c with
  | none => rw [Socket.buffer, Socket.buffer, hskb]
  | some i => exact buffer_of_own hclients hn (by simp)

variable {t t' : TcpSock}

/-- A segment that went into the buffer of the socket itself. -/
theorem Delivered.of_own_put {s' : SkbState} (hput : SkbState.put ⟨heap, t.skb⟩ ptr = .ok s')
    (hclients : t'.clients = t.clients)
    (hn : t'.nclients = t.nclients) (hskb : t'.skb = s'.skb) :
    Delivered heap (.tcp t) ptr (.queued none) s'.heap (.tcp t') :=
  Delivered.of_put hput rfl (congrArg some hskb) (fun _ hc => buffer_of_own hclients hn hc)

/-- A segment that only changed other fields of the socket. -/
theorem Delivered.of_ignored
    (hclients : t'.clients = t.clients) (hn : t'.nclients = t.nclients)
    (hskb : t'.skb = t.skb) : Delivered heap (.tcp t) ptr .forgotten heap (.tcp t') := by
  refine Delivered.of_forgotten (fun p _ => .refl heap p) (fun c p hhas => ?_)
  obtain ⟨skb, hbuffer, hp⟩ := hhas
  exact ⟨skb, (buffer_of_same hclients hn hskb c).symm.trans hbuffer, hp⟩

/-- A segment on a socket that waits for the answer to its SYN. -/
theorem TcpSock.delivered_syn (hpkt : heap ptr = some pkt)
    (hsent : t.flags.synSent = true) {r : TcpReply}
    (hcall : handleSyn (t.listening heap) ptr = .ok r) :
    Delivered heap (.tcp t) ptr (t.fate pkt) r.sock.heap (.tcp (t.afterListening r.sock)) := by
  have hne : tcpFlagAck ||| tcpFlagRst ≠ tcpFlagAck ||| tcpFlagSyn := by decide
  rw [handleSyn, PktHeap.deref_some (show (t.listening heap).heap ptr = some pkt from hpkt),
    Halt.ok_bind] at hcall
  rw [TcpSock.fate, if_pos hsent]
  by_cases hrst : pkt.tcpFlags = tcpFlagAck ||| tcpFlagRst
  · rw [if_pos hrst] at hcall
    obtain ⟨heap', hfree, hret⟩ := Halt.bind_eq_ok.mp hcall
    obtain rfl := Except.ok.inj hret
    rw [hrst, if_neg hne]
    exact Delivered.of_freed hfree (buffer_of_same rfl rfl rfl)
  · rw [if_neg hrst] at hcall
    by_cases hsyn : pkt.tcpFlags = tcpFlagAck ||| tcpFlagSyn
    · rw [if_pos hsyn] at hcall
      obtain ⟨⟨s', ret⟩, hput, hret⟩ := Halt.bind_eq_ok.mp hcall
      obtain rfl := Except.ok.inj hret
      rw [if_pos hsyn]
      exact Delivered.of_own_put (skbPut_eq_ok_iff.mp hput).1 rfl rfl rfl
    · rw [if_neg hsyn] at hcall
      obtain ⟨heap', hfree, hret⟩ := Halt.bind_eq_ok.mp hcall
      obtain rfl := Except.ok.inj hret
      rw [if_neg hsyn]
      exact Delivered.of_freed hfree (buffer_of_same rfl rfl rfl)

/-- A segment on a listening socket. -/
theorem TcpSock.delivered_accept (hpkt : heap ptr = some pkt)
    (hsent : t.flags.synSent = false)
    (hpassive : t.flags.passive = true) {r : TcpReply}
    (hcall : handleAccept (t.listening heap) ptr = .ok r) :
    Delivered heap (.tcp t) ptr (t.fate pkt) r.sock.heap (.tcp (t.afterListening r.sock)) := by
  rw [handleAccept, PktHeap.deref_some (show (t.listening heap).heap ptr = some pkt from hpkt),
    Halt.ok_bind] at hcall
  dsimp only at hcall
  change (if pkt.tcpFlags = tcpFlagSyn then _ else if pkt.tcpFlags = tcpFlagAck then _ else _) = _
    at hcall
  rw [TcpSock.fate, if_neg (by simp [hsent]), if_pos hpassive]
  by_cases hsyn : pkt.tcpFlags = tcpFlagSyn
  · rw [if_pos hsyn] at hcall ⊢
    obtain ⟨⟨s', ret⟩, hput, hret⟩ := Halt.bind_eq_ok.mp hcall
    obtain rfl := Except.ok.inj hret
    exact Delivered.of_own_put (skbPut_eq_ok_iff.mp hput).1 rfl rfl rfl
  · rw [if_neg hsyn] at hcall ⊢
    by_cases hack : pkt.tcpFlags = tcpFlagAck
    · rw [if_pos hack] at hcall ⊢
      obtain rfl := Except.ok.inj hcall
      exact Delivered.of_ignored rfl rfl rfl
    · rw [if_neg hack] at hcall ⊢
      have hsame : (t.listening heap).clientOf pkt.peer =
          (t.listening .empty).clientOf pkt.peer := rfl
      rw [hsame] at hcall
      cases hclient : (t.listening .empty).clientOf pkt.peer with
      | none =>
          rw [hclient] at hcall
          obtain rfl := Except.ok.inj hcall
          exact Delivered.of_ignored rfl rfl rfl
      | some i =>
          rw [hclient] at hcall
          obtain ⟨⟨s', ret⟩, hput, hret⟩ := Halt.bind_eq_ok.mp hcall
          obtain rfl := Except.ok.inj hret
          have hi : i < t.nclients := List.mem_range.mp (List.mem_of_find?_eq_some hclient)
          refine Delivered.of_put (skbPut_eq_ok_iff.mp hput).1 ?_ ?_ (fun c hc => ?_)
          · rw [Socket.buffer, if_pos hi]
            rfl
          · simp [Socket.buffer, TcpSock.afterListening, TcpSock.listening, hi]
          · cases c with
            | none => rfl
            | some j =>
                have hj : j ≠ i := fun heq => hc (congrArg some heq)
                simp [Socket.buffer, TcpSock.afterListening, TcpSock.listening, hj]

/-- A segment on a connected socket. -/
theorem TcpSock.delivered_connected (hpkt : heap ptr = some pkt)
    (hsent : t.flags.synSent = false)
    (hpassive : t.flags.passive = false) {r : TcpSocket × Option TcpHeader}
    (hcall : handleConnected (t.connection heap) ptr = .ok r) :
    Delivered heap (.tcp t) ptr (t.fate pkt) r.1.state.heap
      (.tcp { t with ctx := r.1.ctx, skb := r.1.state.skb }) := by
  rw [handleConnected,
    PktHeap.deref_some (show (t.connection heap).state.heap ptr = some pkt from hpkt),
    Halt.ok_bind] at hcall
  dsimp only at hcall
  change (if pkt.tcpFlags = tcpFlagPsh ||| tcpFlagAck then _ else _) = _ at hcall
  rw [TcpSock.fate, if_neg (by simp [hsent]), if_neg (by simp [hpassive])]
  by_cases hpush : pkt.tcpFlags = tcpFlagPsh ||| tcpFlagAck
  · rw [if_pos hpush] at hcall ⊢
    by_cases hseq : pkt.tcp.seq ≠ t.ctx.aseq
    · rw [if_pos (show pkt.tcp.seq ≠ (t.connection heap).ctx.aseq from hseq)] at hcall
      rw [if_pos hseq]
      obtain ⟨heap', hfree, hret⟩ := Halt.bind_eq_ok.mp hcall
      obtain rfl := Except.ok.inj hret
      exact Delivered.of_freed hfree (buffer_of_same rfl rfl rfl)
    · rw [if_neg (show ¬ pkt.tcp.seq ≠ (t.connection heap).ctx.aseq from hseq)] at hcall
      rw [if_neg hseq]
      obtain ⟨⟨s', ret⟩, hput, hret⟩ := Halt.bind_eq_ok.mp hcall
      obtain rfl := Except.ok.inj hret
      exact Delivered.of_own_put (skbPut_eq_ok_iff.mp hput).1 rfl rfl rfl
  · rw [if_neg hpush] at hcall ⊢
    by_cases hack : pkt.tcpFlags = tcpFlagAck
    · rw [if_pos (show pkt.tcp.off &&& tcpFlagMask = tcpFlagAck from hack)] at hcall
      obtain ⟨removed, -, hret⟩ := Halt.bind_eq_ok.mp hcall
      obtain rfl := Except.ok.inj hret
      exact Delivered.of_ignored rfl rfl rfl
    · rw [if_neg (show ¬ pkt.tcp.off &&& tcpFlagMask = tcpFlagAck from hack)] at hcall
      cases hcall

/-- A segment that `tcp_write_skb` has handled. -/
theorem TcpSock.writeSkb_delivered (hpkt : heap ptr = some pkt)
    (hwrite : t.writeSkb heap ptr = .ok (heap', t')) :
    Delivered heap (.tcp t) ptr (t.fate pkt) heap' (.tcp t') := by
  unfold TcpSock.writeSkb at hwrite
  by_cases hsent : t.flags.synSent = true
  · rw [if_pos hsent] at hwrite
    obtain ⟨r, hcall, hret⟩ := Halt.map_eq_ok.mp hwrite
    obtain ⟨rfl, rfl⟩ := Prod.mk.inj hret
    exact TcpSock.delivered_syn hpkt hsent hcall
  · rw [if_neg hsent] at hwrite
    have hsent' : t.flags.synSent = false := by simpa using hsent
    by_cases hpassive : t.flags.passive = true
    · rw [if_pos hpassive] at hwrite
      obtain ⟨r, hcall, hret⟩ := Halt.map_eq_ok.mp hwrite
      obtain ⟨rfl, rfl⟩ := Prod.mk.inj hret
      exact TcpSock.delivered_accept hpkt hsent' hpassive hcall
    · rw [if_neg hpassive] at hwrite
      by_cases hconnected : t.flags.connected = true
      · rw [if_pos hconnected] at hwrite
        obtain ⟨r, hcall, hret⟩ := Halt.map_eq_ok.mp hwrite
        obtain ⟨rfl, rfl⟩ := Prod.mk.inj hret
        exact TcpSock.delivered_connected hpkt hsent' (by simpa using hpassive) hcall
      · rw [if_neg hconnected] at hwrite
        cases hwrite

/-- The fate of a segment; on a UDP socket an assertion fails. -/
def Socket.tcpFate : Socket → Packet → Fate
  | .udp _, _ => .forgotten
  | .tcp t, pkt => t.fate pkt

theorem Socket.tcpWriteSkb_delivered {sock : Socket} (hpkt : heap ptr = some pkt)
    (hwrite : sock.tcpWriteSkb heap ptr = .ok (heap', sock')) :
    Delivered heap sock ptr (sock.tcpFate pkt) heap' sock' := by
  cases sock with
  | udp skb => cases hwrite
  | tcp t =>
      obtain ⟨r, hcall, hret⟩ := Halt.map_eq_ok.mp hwrite
      obtain ⟨rfl, rfl⟩ := Prod.mk.inj hret
      exact TcpSock.writeSkb_delivered hpkt hcall

end Net
end Micael
