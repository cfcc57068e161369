import Micael.Net.Tcp

/-!
# Segments on a listening TCP socket

A listening socket receives the segments of all its peers.  `__handle_accept` queues a
SYN and notes an acknowledgement in the flags of the socket itself; every other segment
goes to the accepted socket of its peer, where it is queued and acknowledged.  The
socket that `tcp_connect` opens has its own function, `__handle_connected`, for the last
part.  Only that one drops a segment that is not the next of the stream.

Main results:

- Theorem {lit}`ActiveStep.run_eq`, {lit}`AcceptedStep.run_eq`: what a run of segments
  leaves on either path.
- Theorem {lit}`active_run_exists`, {lit}`accepted_run_exists`: both paths take every segment.
- Theorem {lit}`receive_paths_agree_iff`: the two paths agree exactly on streams without a
  repeated, reordered or lost segment.
-/

namespace Micael
namespace Net

open Foundation

/-! ## The listening socket -/

/-- `TCP_FLAG_SYN`. -/
def tcpFlagSyn : Nat := 2 ^ 9

/-- `TCP_FLAG_RST`. -/
def tcpFlagRst : Nat := 2 ^ 10

/-- The bits of `sock->flags`. -/
structure TcpFlags where
  passive : Bool
  synSent : Bool
  synReceived : Bool
  portClosed : Bool
  connected : Bool
deriving DecidableEq, Repr

/-- The remote end of a connection. -/
structure Peer where
  addr : Nat
  port : Nat
deriving DecidableEq, Repr

/-- `dgram->src` of a packet, which `ipv4_handle_pkt` left in host order. -/
def Packet.ipSrc (pkt : Packet) : Nat := pkt.link.load (pkt.net.packet + 12) 4

/-- The peer that sent a segment. -/
def Packet.peer (pkt : Packet) : Peer := ⟨pkt.ipSrc, pkt.tcp.src⟩

/-- A socket that `tcp_accept` made.  Its `dstAddr` is the four bytes of the address read
as one word, as `TO_U32` does. -/
structure AcceptedSocket where
  srcAddr : Nat
  dstAddr : Nat
  srcPort : Nat
  dstPort : Nat
  seq : Nat
  aseq : Nat
  skb : Skb

/-- A listening socket with the clients it has accepted and the packets that are
allocated. -/
structure ListenSocket where
  srcAddr : Nat
  srcPort : Nat
  flags : TcpFlags
  nclients : Nat
  clients : Nat → AcceptedSocket
  skb : Skb
  heap : PktHeap

/-- The comparison that `__handle_accept` makes for every client. -/
def AcceptedSocket.Serves (client : AcceptedSocket) (peer : Peer) : Prop :=
  n2h32 peer.addr = client.dstAddr ∧ n2h16 peer.port = n2h16 client.dstPort

instance (client : AcceptedSocket) (peer : Peer) : Decidable (client.Serves peer) :=
  inferInstanceAs (Decidable (_ ∧ _))

/-- The first client for a peer. -/
def ListenSocket.clientOf (sock : ListenSocket) (peer : Peer) : Option Nat :=
  (List.range sock.nclients).find? fun i => (sock.clients i).Serves peer

/-- `aseq` after a segment was accepted. -/
def nextAseq (aseq : Nat) (pkt : Packet) : Nat :=
  u32 (aseq + pkt.transport.size + 2 ^ 64 - tcpHdrSize - 4)

/-- The acknowledgement that `__handle_accept` sends. -/
def AcceptedSocket.ackHeader (client : AcceptedSocket) (pkt : Packet) : TcpHeader :=
  let tcp : TcpHeader :=
    { src := n2h16 client.srcPort
      dst := n2h16 client.dstPort
      off := tcpNoOpts ||| tcpFlagAck
      len := n2h16 tcpWindowSize
      seq := n2h32 client.seq
      aseq := n2h32 (nextAseq client.aseq pkt)
      cks := 0
      uptr := 0 }
  { tcp with cks := tcpChecksum client.srcAddr client.dstAddr tcp }

/-- The wait queue that a handler wakes up. -/
inductive TcpWaitQueue where
  /-- the queue of the listening socket -/
  | own
  | client (i : Nat)
deriving DecidableEq, Repr

/-- What a handler of a listening socket leaves and does. -/
structure TcpReply where
  sock : ListenSocket
  /-- the header of the segment that is passed to `__send_pkt` -/
  ack : Option TcpHeader
  wakes : Option TcpWaitQueue

/-- `__handle_accept` for the packet at `ptr`.  A segment for no client is neither queued
nor freed. -/
def handleAccept (sock : ListenSocket) (ptr : Nat) : Except Halt TcpReply := do
  let pkt ← sock.heap.deref (some ptr)
  let flags := pkt.tcp.off &&& tcpFlagMask
  if flags = tcpFlagSyn then do
    let put ← skbPut ⟨sock.heap, sock.skb⟩ (some ptr)
    pure
      { sock :=
          { sock with
            heap := put.1.heap
            skb := put.1.skb
            flags := { sock.flags with synReceived := true } }
        ack := none
        wakes := some .own }
  else if flags = tcpFlagAck then
    pure
      { sock := { sock with flags := { sock.flags with connected := true } }
        ack := none
        wakes := some .own }
  else
    match sock.clientOf pkt.peer with
    | none => pure ⟨sock, none, none⟩
    | some i => do
        let client := sock.clients i
        let put ← skbPut ⟨sock.heap, client.skb⟩ (some ptr)
        pure
          { sock :=
              { sock with
                heap := put.1.heap
                clients := Function.update sock.clients i
                  { client with
                    skb := put.1.skb
                    aseq := nextAseq client.aseq pkt } }
            ack := some (client.ackHeader pkt)
            wakes := some (.client i) }

/-! ## Buffers whose packets are allocated -/

/-- The entries of a buffer are different packets that are allocated. -/
structure Skb.Live (heap : PktHeap) (skb : Skb) : Prop where
  allocated : ∀ i p, skb.packets i = some p → heap p ≠ none
  distinct : ∀ i j p, skb.packets i = some p → skb.packets j = some p → i = j

theorem Skb.live_empty (heap : PktHeap) : Skb.empty.Live heap where
  allocated := fun _ _ h => absurd h (by simp [Skb.empty])
  distinct := fun _ _ _ h => absurd h (by simp [Skb.empty])

/-- The buffer with one more packet. -/
def Skb.push (skb : Skb) (ptr : Nat) : Skb :=
  { skb with
    packets := Function.update skb.packets skb.wptr (some ptr)
    wptr := skb.wptr + 1
    npkts := u64 (skb.npkts + 1) }

/-- What `__skb_put` leaves when it returns: the packet is stored, and the one it overwrote
is freed. -/
theorem put_eq_ok_iff {s s' : SkbState} {ptr : Nat} :
    s.put ptr = .ok s' ↔
      (s.skb.packets s.skb.wptr = none ∧ s' = ⟨s.heap, s.skb.push ptr⟩) ∨
      ∃ old, s.skb.packets s.skb.wptr = some old ∧ s' = ⟨s.heap.free old, s.skb.push ptr⟩ := by
  unfold SkbState.put
  cases hslot : s.skb.packets s.skb.wptr with
  | none => simp [Skb.push, eq_comm]
  | some old => simp [netdevDeallocPkt, Skb.push, eq_comm]

theorem skbPut_eq_ok_iff {s s' : SkbState} {ptr : Nat} {ret : Int} :
    skbPut s (some ptr) = .ok (s', ret) ↔ s.put ptr = .ok s' ∧ ret = 0 := by
  constructor
  · intro hcall
    obtain ⟨t, hput, hret⟩ := Halt.bind_eq_ok.mp hcall
    obtain ⟨rfl, rfl⟩ := Prod.mk.inj (Except.ok.inj hret)
    exact ⟨hput, rfl⟩
  · rintro ⟨hput, rfl⟩
    exact Halt.bind_eq_ok.mpr ⟨s', hput, rfl⟩

/-- The buffer that `__skb_put` leaves. -/
theorem skbPut_skb {s : SkbState} {ptr : Nat} {put : SkbState × Int}
    (hput : skbPut s (some ptr) = .ok put) : put.1.skb = s.skb.push ptr := by
  obtain ⟨hcall, -⟩ := skbPut_eq_ok_iff.mp (show skbPut s (some ptr) = .ok (put.1, put.2) from hput)
  rcases put_eq_ok_iff.mp hcall with ⟨-, heq⟩ | ⟨old, -, heq⟩
  · rw [heq]
  · rw [heq]

/-- A buffer with a new packet is live in every heap that has the packets of its other
entries. -/
theorem Skb.Live.push {heap heap' : PktHeap} {skb : Skb} (hlive : skb.Live heap) {ptr : Nat}
    (hfree : heap ptr = none) (hptr : heap' ptr ≠ none)
    (hkept : ∀ i p, i ≠ skb.wptr → skb.packets i = some p → heap' p ≠ none) :
    (skb.push ptr).Live heap' := by
  have hother : ∀ i p, skb.packets i = some p → p ≠ ptr := by
    intro i p hp heq
    exact hlive.allocated i p hp (heq ▸ hfree)
  unfold Skb.push
  constructor
  · intro i p hp
    by_cases hi : i = skb.wptr
    · subst hi
      simp only [Function.update_self, Option.some.injEq] at hp
      exact hp ▸ hptr
    · simp only [Function.update_of_ne hi] at hp
      exact hkept i p hi hp
  · intro i j p hi hj
    by_cases hiw : i = skb.wptr <;> by_cases hjw : j = skb.wptr
    · rw [hiw, hjw]
    · subst hiw
      simp only [Function.update_self, Option.some.injEq, Function.update_of_ne hjw] at hi hj
      exact absurd hi.symm (hother j p hj)
    · subst hjw
      simp only [Function.update_self, Option.some.injEq, Function.update_of_ne hiw] at hi hj
      exact absurd hj.symm (hother i p hi)
    · simp only [Function.update_of_ne hiw, Function.update_of_ne hjw] at hi hj
      exact hlive.distinct i j p hi hj

/-- A new packet can always be put into a live buffer, which stays live. -/
theorem Skb.Live.put {heap : PktHeap} {skb : Skb} (hlive : skb.Live heap) {ptr : Nat}
    (hfree : heap ptr = none) (pkt : Packet) :
    ∃ heap', SkbState.put ⟨heap.alloc ptr pkt, skb⟩ ptr = .ok ⟨heap', skb.push ptr⟩ ∧
      (skb.push ptr).Live heap' ∧ ∀ q, heap' q ≠ none → q = ptr ∨ heap q ≠ none := by
  have hother : ∀ i p, skb.packets i = some p → p ≠ ptr := by
    intro i p hp heq
    exact hlive.allocated i p hp (heq ▸ hfree)
  have hgrow : ∀ q, heap.alloc ptr pkt q ≠ none → q = ptr ∨ heap q ≠ none := by
    intro q hq
    by_cases h : q = ptr
    · exact Or.inl h
    · rw [PktHeap.alloc_of_ne h] at hq
      exact Or.inr hq
  cases hslot : skb.packets skb.wptr with
  | none =>
      refine ⟨heap.alloc ptr pkt, put_eq_ok_iff.mpr (Or.inl ⟨hslot, rfl⟩),
        hlive.push hfree ?_ ?_, hgrow⟩
      · rw [PktHeap.alloc_self]
        simp
      · intro i p _ hp
        rw [PktHeap.alloc_of_ne (hother i p hp)]
        exact hlive.allocated i p hp
  | some old =>
      have hold : heap.alloc ptr pkt old ≠ none := by
        rw [PktHeap.alloc_of_ne (hother _ old hslot)]
        exact hlive.allocated _ old hslot
      refine ⟨(heap.alloc ptr pkt).free old,
        put_eq_ok_iff.mpr (Or.inr ⟨old, hslot, rfl⟩), hlive.push hfree ?_ ?_, ?_⟩
      · rw [PktHeap.free_of_ne (Ne.symm (hother _ old hslot)), PktHeap.alloc_self]
        simp
      · intro i p hi hp
        have hpo : p ≠ old := fun heq => hi (hlive.distinct i _ p hp (heq ▸ hslot))
        rw [PktHeap.free_of_ne hpo, PktHeap.alloc_of_ne (hother i p hp)]
        exact hlive.allocated i p hp
      · intro q hq
        apply hgrow q
        by_cases h : q = old
        · subst h
          exact hold
        · rwa [PktHeap.free_of_ne h] at hq

/-! ## Streams of segments -/

/-- A segment with data: PSH and ACK are set, and no other flag. -/
def Packet.PushAck (pkt : Packet) : Prop :=
  pkt.tcp.off &&& tcpFlagMask = tcpFlagPsh ||| tcpFlagAck

/-- What a call queued: `__skb_put` counts `npkts` up, and nothing else on these paths
does. -/
def Skb.took (before after : Skb) (seg : Packet) : List Packet :=
  if after.npkts = before.npkts then [] else [seg]

/-- A socket that `tcp_connect` opened, and the segments queued for its reader so far. -/
structure ActiveEnd where
  sock : TcpSocket
  queued : List Packet

/-- A listening socket, and the segments queued so far for the reader of one client. -/
structure AcceptedEnd where
  sock : ListenSocket
  queued : List Packet

/-- The socket after the driver has allocated a packet. -/
def TcpSocket.receive (sock : TcpSocket) (ptr : Nat) (seg : Packet) : TcpSocket :=
  { sock with state := { sock.state with heap := sock.state.heap.alloc ptr seg } }

/-- The listening socket after the driver has allocated a packet. -/
def ListenSocket.receive (sock : ListenSocket) (ptr : Nat) (seg : Packet) : ListenSocket :=
  { sock with heap := sock.heap.alloc ptr seg }

/-- A segment arrives at an actively opened connection. -/
inductive ActiveStep : ActiveEnd → Packet → ActiveEnd → Prop
  | receive {s : ActiveEnd} {seg : Packet} {ptr : Nat} {sock' : TcpSocket}
      {ack : Option TcpHeader} : s.sock.state.heap ptr = none →
      handleConnected (s.sock.receive ptr seg) ptr = .ok (sock', ack) →
      ActiveStep s seg ⟨sock', s.queued ++ s.sock.state.skb.took sock'.state.skb seg⟩

/-- A segment arrives at a listening socket; the segments of client `i` are recorded. -/
inductive AcceptedStep (i : Nat) : AcceptedEnd → Packet → AcceptedEnd → Prop
  | receive {s : AcceptedEnd} {seg : Packet} {ptr : Nat} {reply : TcpReply} :
      s.sock.heap ptr = none → handleAccept (s.sock.receive ptr seg) ptr = .ok reply →
      AcceptedStep i s seg
        ⟨reply.sock, s.queued ++ (s.sock.clients i).skb.took (reply.sock.clients i).skb seg⟩

/-- The two ends hold the same packets for their readers and expect the same number. -/
structure SameReception (i : Nat) (s : ActiveEnd) (t : AcceptedEnd) : Prop where
  queued_eq : s.queued = t.queued
  aseq_eq : s.sock.ctx.aseq = (t.sock.clients i).aseq

/-- Every segment carries the number that the segments before it lead to. -/
def InOrder : Nat → List Packet → Prop
  | _, [] => True
  | aseq, seg :: segs => seg.tcp.seq = aseq ∧ InOrder (nextAseq aseq seg) segs

/-- The expected number and the queued segments of a receiver that drops what is not the
next segment. -/
def receiveNext (s : Nat × List Packet) (seg : Packet) : Nat × List Packet :=
  if seg.tcp.seq = s.1 then (nextAseq s.1 seg, s.2 ++ [seg]) else s

/-- The expected number and the queued segments of a receiver that takes everything. -/
def receiveAny (s : Nat × List Packet) (seg : Packet) : Nat × List Packet :=
  (nextAseq s.1 seg, s.2 ++ [seg])

theorem Skb.took_push (skb : Skb) (ptr : Nat) (seg : Packet) :
    skb.took (skb.push ptr) seg = [seg] := by
  have hcount : (skb.push ptr).npkts ≠ skb.npkts := by
    unfold Skb.push u64
    simp only
    omega
  rw [Skb.took, if_neg hcount]

theorem Skb.took_self (skb : Skb) (seg : Packet) : skb.took skb seg = [] :=
  if_pos rfl

/-- An actively opened connection takes the next segment and drops any other. -/
theorem ActiveStep.eq {s t : ActiveEnd} {seg : Packet} (hstep : ActiveStep s seg t)
    (hseg : seg.PushAck) :
    (t.sock.ctx.aseq, t.queued) = receiveNext (s.sock.ctx.aseq, s.queued) seg := by
  unfold Packet.PushAck at hseg
  cases hstep with
  | @receive ptr sock' ack hfree hcall =>
      have hpkt : (s.sock.receive ptr seg).state.heap ptr = some seg := PktHeap.alloc_self _ _ _
      rw [handleConnected, PktHeap.deref_some hpkt, Halt.ok_bind] at hcall
      dsimp only at hcall
      rw [if_pos hseg] at hcall
      have haseq : (s.sock.receive ptr seg).ctx.aseq = s.sock.ctx.aseq := rfl
      rw [haseq] at hcall
      by_cases hnext : seg.tcp.seq = s.sock.ctx.aseq
      · rw [if_neg (not_not_intro hnext)] at hcall
        obtain ⟨put, hput, hret⟩ := Halt.bind_eq_ok.mp hcall
        obtain ⟨rfl, -⟩ := Prod.mk.inj (Except.ok.inj hret)
        have hskb : put.1.skb = (s.sock.receive ptr seg).state.skb.push ptr := skbPut_skb hput
        have hsame : (s.sock.receive ptr seg).state.skb = s.sock.state.skb := rfl
        rw [hsame] at hskb
        rw [receiveNext, if_pos hnext]
        simp only [hskb, Skb.took_push]
        rfl
      · rw [if_pos hnext] at hcall
        obtain ⟨heap, -, hret⟩ := Halt.bind_eq_ok.mp hcall
        obtain ⟨rfl, -⟩ := Prod.mk.inj (Except.ok.inj hret)
        rw [receiveNext, if_neg hnext]
        simp only [TcpSocket.receive, Skb.took_self, List.append_nil]

/-- A client with one more segment. -/
def AcceptedSocket.store (client : AcceptedSocket) (ptr : Nat) (seg : Packet) : AcceptedSocket :=
  { client with
    skb := client.skb.push ptr
    aseq := nextAseq client.aseq seg }

/-- The listening socket after a segment was stored for the client `i`. -/
def ListenSocket.deliver (sock : ListenSocket) (heap : PktHeap) (i ptr : Nat) (seg : Packet) :
    ListenSocket :=
  { sock with
    heap := heap
    clients := Function.update sock.clients i ((sock.clients i).store ptr seg) }

/-- Storing a segment does not change which client serves a peer. -/
theorem ListenSocket.deliver_clientOf (sock : ListenSocket) (heap : PktHeap) (i ptr : Nat)
    (seg : Packet) (peer : Peer) :
    (sock.deliver heap i ptr seg).clientOf peer = sock.clientOf peer := by
  have hserves : ∀ j, ((sock.deliver heap i ptr seg).clients j).Serves peer ↔
      (sock.clients j).Serves peer := by
    intro j
    unfold ListenSocket.deliver AcceptedSocket.Serves
    by_cases hj : j = i
    · subst hj
      simp only [Function.update_self, AcceptedSocket.store]
    · simp only [Function.update_of_ne hj]
  unfold ListenSocket.clientOf
  simp only [hserves]
  rfl

/-- What a call for the segment of a client leaves. -/
theorem handleAccept_client {sock : ListenSocket} {ptr i : Nat} {seg : Packet}
    {reply : TcpReply} (hpkt : sock.heap ptr = some seg) (hseg : seg.PushAck)
    (hclient : sock.clientOf seg.peer = some i) (hcall : handleAccept sock ptr = .ok reply) :
    ∃ heap, reply.sock = sock.deliver heap i ptr seg := by
  unfold Packet.PushAck at hseg
  rw [handleAccept, PktHeap.deref_some hpkt, Halt.ok_bind] at hcall
  dsimp only at hcall
  rw [hseg, if_neg (by decide), if_neg (by decide), hclient] at hcall
  obtain ⟨put, hput, hret⟩ := Halt.bind_eq_ok.mp hcall
  obtain rfl := Except.ok.inj hret
  exact ⟨put.1.heap, by rw [skbPut_skb hput]; rfl⟩

/-- A listening socket takes every segment of the client. -/
theorem AcceptedStep.eq {i : Nat} {s t : AcceptedEnd} {seg : Packet}
    (hstep : AcceptedStep i s seg t) (hseg : seg.PushAck)
    (hclient : s.sock.clientOf seg.peer = some i) :
    ((t.sock.clients i).aseq, t.queued) = receiveAny ((s.sock.clients i).aseq, s.queued) seg ∧
      ∀ peer, t.sock.clientOf peer = s.sock.clientOf peer := by
  cases hstep with
  | @receive ptr reply hfree hcall =>
      have hpkt : (s.sock.receive ptr seg).heap ptr = some seg := PktHeap.alloc_self _ _ _
      have hsame : (s.sock.receive ptr seg).clientOf seg.peer = some i := hclient
      obtain ⟨heap, hsock⟩ := handleAccept_client hpkt hseg hsame hcall
      have hstored : reply.sock.clients i = (s.sock.clients i).store ptr seg := by
        simp only [hsock, ListenSocket.deliver, Function.update_self, ListenSocket.receive]
      constructor
      · rw [receiveAny]
        simp only [hstored, AcceptedSocket.store, Skb.took_push]
      · intro peer
        simp only [hsock, ListenSocket.deliver_clientOf]
        rfl

/-- What a run of segments leaves on an actively opened connection. -/
theorem ActiveStep.run_eq {s t : ActiveEnd} {segs : List Packet} (hrun : Run ActiveStep s segs t)
    (hsegs : ∀ seg ∈ segs, seg.PushAck) :
    (t.sock.ctx.aseq, t.queued) = segs.foldl receiveNext (s.sock.ctx.aseq, s.queued) := by
  induction hrun with
  | nil => rfl
  | @snoc segs t u seg _ hlast ih =>
      rw [List.foldl_append, ← ih fun seg' hmem => hsegs seg' (List.mem_append_left _ hmem)]
      exact hlast.eq (hsegs seg (by simp))

/-- What a run of segments leaves on an accepted connection. -/
theorem AcceptedStep.run_eq {i : Nat} {s t : AcceptedEnd} {segs : List Packet} {peer : Peer}
    (hrun : Run (AcceptedStep i) s segs t) (hsegs : ∀ seg ∈ segs, seg.PushAck ∧ seg.peer = peer)
    (hclient : s.sock.clientOf peer = some i) :
    ((t.sock.clients i).aseq, t.queued) =
        segs.foldl receiveAny ((s.sock.clients i).aseq, s.queued) ∧
      t.sock.clientOf peer = some i := by
  induction hrun with
  | nil => exact ⟨rfl, hclient⟩
  | @snoc segs t u seg _ hlast ih =>
      obtain ⟨hfold, hsame⟩ := ih fun seg' hmem => hsegs seg' (List.mem_append_left _ hmem)
      obtain ⟨hpush, hpeer⟩ := hsegs seg (by simp)
      obtain ⟨hstep, hclients⟩ := hlast.eq hpush (by rw [hpeer]; exact hsame)
      constructor
      · rw [List.foldl_append, ← hfold]
        exact hstep
      · rw [hclients]
        exact hsame

/-! ## Every segment is taken -/

/-- The state of an end from which every segment can be taken: its packets are allocated,
and the driver finds an address for the next one. -/
structure Ready (heap : PktHeap) (skb : Skb) : Prop where
  live : skb.Live heap
  finite : {q | heap q ≠ none}.Finite

theorem Ready.exists_free {heap : PktHeap} {skb : Skb} (hready : Ready heap skb) :
    ∃ ptr, heap ptr = none := by
  obtain ⟨ptr, hptr⟩ := hready.finite.exists_notMem
  exact ⟨ptr, by simpa using hptr⟩

/-- Putting a packet keeps an end ready. -/
theorem Ready.put {heap : PktHeap} {skb : Skb} (hready : Ready heap skb) {ptr : Nat}
    (hfree : heap ptr = none) (seg : Packet) :
    ∃ heap', skbPut ⟨heap.alloc ptr seg, skb⟩ (some ptr) = .ok (⟨heap', skb.push ptr⟩, 0) ∧
      Ready heap' (skb.push ptr) := by
  obtain ⟨heap', hput, hlive, hgrow⟩ := hready.live.put hfree seg
  exact ⟨heap', skbPut_eq_ok_iff.mpr ⟨hput, rfl⟩, hlive,
    (hready.finite.insert ptr).subset hgrow⟩

/-- Dropping a packet that has just arrived keeps an end ready. -/
theorem Ready.drop {heap : PktHeap} {skb : Skb} (hready : Ready heap skb) {ptr : Nat}
    (hfree : heap ptr = none) (seg : Packet) : Ready ((heap.alloc ptr seg).free ptr) skb := by
  have hsame : ∀ q, (heap.alloc ptr seg).free ptr q = heap q := by
    intro q
    by_cases hq : q = ptr
    · subst hq
      rw [PktHeap.free_self, hfree]
    · rw [PktHeap.free_of_ne hq, PktHeap.alloc_of_ne hq]
  refine ⟨⟨fun i p hp => ?_, hready.live.distinct⟩, ?_⟩
  · rw [hsame]
    exact hready.live.allocated i p hp
  · simp only [hsame]
    exact hready.finite

/-- An actively opened connection takes every segment. -/
theorem ActiveStep.exists {s : ActiveEnd} (hready : Ready s.sock.state.heap s.sock.state.skb)
    {seg : Packet} (hseg : seg.PushAck) :
    ∃ t, ActiveStep s seg t ∧ Ready t.sock.state.heap t.sock.state.skb := by
  unfold Packet.PushAck at hseg
  obtain ⟨ptr, hfree⟩ := hready.exists_free
  have hpkt : (s.sock.receive ptr seg).state.heap ptr = some seg := PktHeap.alloc_self _ _ _
  have hreturns : ∃ result, handleConnected (s.sock.receive ptr seg) ptr = .ok result ∧
      Ready result.1.state.heap result.1.state.skb := by
    rw [handleConnected, PktHeap.deref_some hpkt, Halt.ok_bind]
    dsimp only
    rw [if_pos hseg]
    by_cases hnext : seg.tcp.seq = (s.sock.receive ptr seg).ctx.aseq
    · rw [if_neg (not_not_intro hnext)]
      obtain ⟨heap', hput, hready'⟩ := hready.put hfree seg
      exact ⟨_, Halt.bind_eq_ok.mpr ⟨_, hput, rfl⟩, hready'⟩
    · rw [if_pos hnext]
      exact ⟨_, Halt.bind_eq_ok.mpr ⟨_, netdevDeallocPkt_some _ _, rfl⟩, hready.drop hfree seg⟩
  obtain ⟨result, hcall, hready'⟩ := hreturns
  exact ⟨_, .receive hfree hcall, hready'⟩

/-- A listening socket takes every segment of a client. -/
theorem AcceptedStep.exists {i : Nat} {s : AcceptedEnd}
    (hready : Ready s.sock.heap (s.sock.clients i).skb) {seg : Packet} (hseg : seg.PushAck)
    (hclient : s.sock.clientOf seg.peer = some i) :
    ∃ t, AcceptedStep i s seg t ∧ Ready t.sock.heap (t.sock.clients i).skb := by
  unfold Packet.PushAck at hseg
  obtain ⟨ptr, hfree⟩ := hready.exists_free
  have hpkt : (s.sock.receive ptr seg).heap ptr = some seg := PktHeap.alloc_self _ _ _
  have hsame : (s.sock.receive ptr seg).clientOf seg.peer = some i := hclient
  have hreturns : ∃ reply, handleAccept (s.sock.receive ptr seg) ptr = .ok reply ∧
      Ready reply.sock.heap (reply.sock.clients i).skb := by
    rw [handleAccept, PktHeap.deref_some hpkt, Halt.ok_bind]
    dsimp only
    rw [hseg, if_neg (by decide), if_neg (by decide), hsame]
    obtain ⟨heap', hput, hready'⟩ := hready.put hfree seg
    refine ⟨_, Halt.bind_eq_ok.mpr ⟨_, hput, rfl⟩, ?_⟩
    simp only [Function.update_self]
    exact hready'
  obtain ⟨reply, hcall, hready'⟩ := hreturns
  exact ⟨_, .receive hfree hcall, hready'⟩

/-- Every sequence of segments has a run on an actively opened connection. -/
theorem active_run_exists {s : ActiveEnd} (hready : Ready s.sock.state.heap s.sock.state.skb)
    {segs : List Packet} (hsegs : ∀ seg ∈ segs, seg.PushAck) :
    ∃ t, Run ActiveStep s segs t ∧ Ready t.sock.state.heap t.sock.state.skb := by
  induction segs using List.reverseRecOn with
  | nil => exact ⟨s, .nil, hready⟩
  | append_singleton segs seg ih =>
      obtain ⟨t, hrun, hready'⟩ := ih fun seg' hmem => hsegs seg' (List.mem_append_left _ hmem)
      obtain ⟨u, hstep, hready''⟩ := ActiveStep.exists hready' (hsegs seg (by simp))
      exact ⟨u, .snoc hrun hstep, hready''⟩

/-- Every sequence of segments of a client has a run on a listening socket. -/
theorem accepted_run_exists {i : Nat} {s : AcceptedEnd} {peer : Peer}
    (hready : Ready s.sock.heap (s.sock.clients i).skb) (hclient : s.sock.clientOf peer = some i)
    {segs : List Packet} (hsegs : ∀ seg ∈ segs, seg.PushAck ∧ seg.peer = peer) :
    ∃ t, Run (AcceptedStep i) s segs t ∧ Ready t.sock.heap (t.sock.clients i).skb := by
  induction segs using List.reverseRecOn with
  | nil => exact ⟨s, .nil, hready⟩
  | append_singleton segs seg ih =>
      have hbefore : ∀ seg' ∈ segs, seg'.PushAck ∧ seg'.peer = peer :=
        fun seg' hmem => hsegs seg' (List.mem_append_left _ hmem)
      obtain ⟨t, hrun, hready'⟩ := ih hbefore
      obtain ⟨hpush, hpeer⟩ := hsegs seg (by simp)
      have hserved := (AcceptedStep.run_eq hrun hbefore hclient).2
      obtain ⟨u, hstep, hready''⟩ :=
        AcceptedStep.exists hready' hpush (by rw [hpeer]; exact hserved)
      exact ⟨u, .snoc hrun hstep, hready''⟩

/-! ## The two receivers -/

theorem length_foldl_receiveNext_le (segs : List Packet) (s : Nat × List Packet) :
    (segs.foldl receiveNext s).2.length ≤ s.2.length + segs.length := by
  induction segs generalizing s with
  | nil => simp
  | cons seg segs ih =>
      have hstep : (receiveNext s seg).2.length ≤ s.2.length + 1 := by
        unfold receiveNext
        split <;> simp
      have hrest := ih (receiveNext s seg)
      simp only [List.foldl_cons, List.length_cons]
      omega

theorem length_foldl_receiveAny (segs : List Packet) (s : Nat × List Packet) :
    (segs.foldl receiveAny s).2.length = s.2.length + segs.length := by
  induction segs generalizing s with
  | nil => simp
  | cons seg segs ih =>
      rw [List.foldl_cons, ih]
      simp only [receiveAny, List.length_append, List.length_cons, List.length_nil]
      omega

/-- The two receivers do the same exactly on streams in order. -/
theorem receivers_agree_iff (segs : List Packet) (s : Nat × List Packet) :
    segs.foldl receiveNext s = segs.foldl receiveAny s ↔ InOrder s.1 segs := by
  induction segs generalizing s with
  | nil => simp [InOrder]
  | cons seg segs ih =>
      rw [List.foldl_cons, List.foldl_cons, InOrder]
      by_cases hnext : seg.tcp.seq = s.1
      · have hsame : receiveNext s seg = receiveAny s seg := if_pos hnext
        rw [hsame, ih]
        simp [hnext, receiveAny]
      · have hdrop : receiveNext s seg = s := if_neg hnext
        rw [hdrop]
        simp only [hnext, false_and, iff_false]
        intro heq
        -- the receiver that takes everything has at least one segment more
        have hle := length_foldl_receiveNext_le segs s
        have hall := length_foldl_receiveAny segs (receiveAny s seg)
        rw [heq, hall] at hle
        simp only [receiveAny, List.length_append, List.length_cons, List.length_nil] at hle
        omega

/-- Both receive paths queue the same segments and expect the same number exactly when
every segment is the next of the stream. -/
theorem receive_paths_agree_iff {sock : TcpSocket} {listen : ListenSocket} {i : Nat} {peer : Peer}
    {segs : List Packet} {s : ActiveEnd} {t : AcceptedEnd}
    (haseq : (listen.clients i).aseq = sock.ctx.aseq) (hclient : listen.clientOf peer = some i)
    (hsegs : ∀ seg ∈ segs, seg.PushAck ∧ seg.peer = peer)
    (hactive : Run ActiveStep ⟨sock, []⟩ segs s)
    (haccepted : Run (AcceptedStep i) ⟨listen, []⟩ segs t) :
    SameReception i s t ↔ InOrder sock.ctx.aseq segs := by
  have hs := ActiveStep.run_eq hactive fun seg hmem => (hsegs seg hmem).1
  have ht := (AcceptedStep.run_eq haccepted hsegs hclient).1
  rw [haseq] at ht
  rw [← receivers_agree_iff segs (sock.ctx.aseq, []), ← hs, ← ht]
  constructor
  · rintro ⟨hqueued, hnumber⟩
    rw [hqueued, hnumber]
  · intro heq
    exact ⟨(Prod.mk.inj heq).2, (Prod.mk.inj heq).1⟩

/-! ## A repeated segment -/

/-- The segment with one byte of payload and sequence number 0. -/
def oneByteSegment : Packet := segmentOf oneByteFrame

/-- An actively opened connection that expects the number 0. -/
def activeSocket : TcpSocket := { oneByteSocket with state := newBuffer }

/-- A listening socket with one client, which expects the number 0 from the sender of the
segment. -/
def listenSocket : ListenSocket where
  srcAddr := 1
  srcPort := 80
  flags := ⟨true, false, true, false, true⟩
  nclients := 1
  clients := fun _ => ⟨1, n2h32 oneByteSegment.peer.addr, 80, oneByteSegment.peer.port, 1, 0,
    Skb.empty⟩
  skb := Skb.empty
  heap := .empty

theorem oneByteSegment_pushAck : oneByteSegment.PushAck := oneByteFrame_arrives.pushAck

theorem listenSocket_clientOf : listenSocket.clientOf oneByteSegment.peer = some 0 := by
  have hserves : (listenSocket.clients 0).Serves oneByteSegment.peer := ⟨rfl, rfl⟩
  have hcount : listenSocket.nclients = 1 := rfl
  rw [ListenSocket.clientOf, hcount, List.range_one, List.find?_cons_of_pos]
  exact decide_eq_true hserves

theorem ready_empty : Ready .empty Skb.empty where
  live := Skb.live_empty _
  finite := by simp [PktHeap.empty]

theorem replicate_pushAck (n : Nat) : ∀ seg ∈ List.replicate n oneByteSegment,
    seg.PushAck ∧ seg.peer = oneByteSegment.peer := by
  intro seg hmem
  rw [List.eq_of_mem_replicate hmem]
  exact ⟨oneByteSegment_pushAck, rfl⟩

/-- The segment behind it: number 6, another byte. -/
def nextByteSegment : Packet :=
  { oneByteSegment with link := (oneByteSegment.link.store 38 4 6).store 54 1 66 }

/-- The other words of its headers are the same. -/
theorem nextByteSegment_load {a n : Nat} (hin : a + n ≤ 38 ∨ 42 ≤ a ∧ a + n ≤ 54) :
    nextByteSegment.link.load a n = oneByteSegment.link.load a n :=
  (Memory.load_store_of_disjoint (by omega)).trans (Memory.load_store_of_disjoint (by omega))

theorem twoSegments_pushAck : ∀ seg ∈ [oneByteSegment, nextByteSegment],
    seg.PushAck ∧ seg.peer = oneByteSegment.peer := by
  have hnet : nextByteSegment.net.packet + 12 = 26 := rfl
  have htcp : nextByteSegment.transport.packet = 34 := rfl
  have hpush : nextByteSegment.tcp.off = oneByteSegment.tcp.off :=
    nextByteSegment_load (by rw [htcp]; decide)
  have haddr : nextByteSegment.ipSrc = oneByteSegment.ipSrc := nextByteSegment_load (by rw [hnet]; decide)
  have hport : nextByteSegment.tcp.src = oneByteSegment.tcp.src := nextByteSegment_load (by rw [htcp]; decide)
  simp only [List.mem_cons, List.not_mem_nil, or_false]
  rintro seg (rfl | rfl)
  · exact ⟨oneByteSegment_pushAck, rfl⟩
  · rw [Packet.PushAck, hpush, Packet.peer, haddr, hport]
    exact ⟨oneByteSegment_pushAck, rfl⟩

theorem nextByteSegment_seq : nextByteSegment.tcp.seq = nextAseq 0 oneByteSegment := by
  have hseq : nextByteSegment.tcp.seq = 6 := by
    have hstored : nextByteSegment.link.load 38 4 = 6 :=
      (Memory.load_store_of_disjoint (by decide)).trans Memory.load_store_self
    exact hstored
  rw [hseq]
  decide

/-- Segments from the client arrive on both paths. -/
theorem segments_runs {segs : List Packet} (hsegs : ∀ seg ∈ segs, seg.PushAck ∧ seg.peer = oneByteSegment.peer) :
    ∃ s t, Run ActiveStep ⟨activeSocket, []⟩ segs s ∧ Run (AcceptedStep 0) ⟨listenSocket, []⟩ segs t := by
  obtain ⟨s, hs, -⟩ := active_run_exists (s := ⟨activeSocket, []⟩) ready_empty fun seg hmem => (hsegs seg hmem).1
  obtain ⟨t, ht, -⟩ := accepted_run_exists (s := ⟨listenSocket, []⟩) ready_empty listenSocket_clientOf hsegs
  exact ⟨s, t, hs, ht⟩

/-- Two segments in order are received alike. -/
theorem two_segments_received_alike :
    ∃ s t, Run ActiveStep ⟨activeSocket, []⟩ [oneByteSegment, nextByteSegment] s ∧
      Run (AcceptedStep 0) ⟨listenSocket, []⟩ [oneByteSegment, nextByteSegment] t ∧ SameReception 0 s t := by
  obtain ⟨s, t, hs, ht⟩ := segments_runs twoSegments_pushAck
  refine ⟨s, t, hs, ht, ?_⟩
  rw [receive_paths_agree_iff rfl listenSocket_clientOf twoSegments_pushAck hs ht]
  exact ⟨oneByteFrame_arrives.inOrder, nextByteSegment_seq, trivial⟩

/-- A repeated segment is queued twice by a listening socket, and once by the other. -/
theorem repeated_segment_queued_twice :
    ∃ s t, Run ActiveStep ⟨activeSocket, []⟩ (List.replicate 2 oneByteSegment) s ∧
      Run (AcceptedStep 0) ⟨listenSocket, []⟩ (List.replicate 2 oneByteSegment) t ∧
      ¬ SameReception 0 s t := by
  obtain ⟨s, t, hs, ht⟩ := segments_runs (replicate_pushAck 2)
  refine ⟨s, t, hs, ht, ?_⟩
  intro hsame
  have hactive := ActiveStep.run_eq hs fun seg hmem => (replicate_pushAck 2 seg hmem).1
  have haccepted := (AcceptedStep.run_eq ht (replicate_pushAck 2) listenSocket_clientOf).1
  rw [hsame.queued_eq, hsame.aseq_eq, haccepted] at hactive
  obtain ⟨-, hsecond, -⟩ := (receivers_agree_iff _ (0, [])).mp hactive.symm
  exact absurd hsecond (by decide)

end Net
end Micael
