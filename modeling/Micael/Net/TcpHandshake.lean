import Micael.Net.TcpAccept

/-!
# The handshake of accepted connections

`tcp_accept` sleeps twice: until a SYN has arrived, which it answers with a SYN+ACK, and
until that was acknowledged.  What it waits for is a flag of the listening socket, set by
the acknowledgement of any peer and never cleared, and both a SYN and an acknowledgement
wake it up.

A run is any interleaving of segments from any peers with successive calls of
`tcp_accept`.  Its history records the segments that arrived, the SYN+ACKs that were sent
and the clients that were created.

Main results:

- Theorem {lit}`tcpWriteSkb_effect`: what a segment does to the flags and to a sleeping call.
- Theorem {lit}`accept_handshaken`: in a run where nothing but the peer's own acknowledgement
  can complete a handshake, every client was created after its peer's acknowledgement.
- Theorem {lit}`accept_disorderly_fails`: after any other segment the next step of the call
  breaks this.
-/

namespace Micael
namespace Net

open Foundation

/-- `TCP_MAX_CLIENTS`. -/
def tcpMaxClients : Nat := 5

/-- The flags of a segment. -/
def Packet.tcpFlags (pkt : Packet) : Nat := pkt.tcp.off &&& tcpFlagMask

/-! ## Segments -/

/-- `__handle_syn` for the packet at `ptr`. -/
def handleSyn (sock : ListenSocket) (ptr : Nat) : Except Halt TcpReply := do
  let pkt ← sock.heap.deref (some ptr)
  if pkt.tcpFlags = tcpFlagAck ||| tcpFlagRst then do
    let heap ← netdevDeallocPkt sock.heap (some ptr)
    pure
      { sock :=
          { sock with
            heap := heap
            flags := { sock.flags with
              synSent := false
              portClosed := true } }
        ack := none
        wakes := some .own }
  else if pkt.tcpFlags = tcpFlagAck ||| tcpFlagSyn then do
    let put ← skbPut ⟨sock.heap, sock.skb⟩ (some ptr)
    pure
      { sock :=
          { sock with
            heap := put.1.heap
            skb := put.1.skb }
        ack := none
        wakes := some .own }
  else do
    let heap ← netdevDeallocPkt sock.heap (some ptr)
    pure
      { sock := { sock with heap := heap }
        ack := none
        wakes := none }

/-- `tcp_write_skb` for a socket with `TCP_STATE_PASSIVE`. -/
def tcpWriteSkb (sock : ListenSocket) (ptr : Nat) : Except Halt TcpReply :=
  if sock.flags.synSent then handleSyn sock ptr else handleAccept sock ptr

/-! ## The three parts of `tcp_accept` -/

/-- The checks before the first sleep: the error number of a call that returns at once. -/
def acceptRefused (sock : ListenSocket) : Option Errno :=
  if sock.flags.passive = false then some .enotsup
  else if sock.nclients = tcpMaxClients then some .enomem
  else none

/-- The SYN+ACK that answers a SYN. -/
def synAckHeader (sock : ListenSocket) (inPkt : Packet) : TcpHeader :=
  let tcp : TcpHeader :=
    { src := n2h16 sock.srcPort
      dst := n2h16 inPkt.tcp.src
      off := tcpNoOpts ||| tcpFlagSyn ||| tcpFlagAck
      len := n2h16 tcpWindowSize
      seq := 0
      aseq := n2h32 (u32 (inPkt.tcp.seq + 1))
      cks := 0
      uptr := 0 }
  { tcp with cks := tcpChecksum sock.srcAddr (n2h32 inPkt.ipSrc) tcp }

/-- From the first sleep to the second: the oldest packet of the buffer is answered.  The
packet is in no buffer any more, so nothing writes or frees it during the second sleep. -/
def acceptSynAck (sock : ListenSocket) : Except Halt (ListenSocket × Packet × TcpHeader) := do
  let got ← skbGet ⟨sock.heap, sock.skb⟩
  let inPkt ← got.1.heap.deref got.2
  pure ({ sock with skb := got.1.skb }, inPkt, synAckHeader sock inPkt)

/-- The client that a call makes for the packet it answered. -/
def acceptedClient (sock : ListenSocket) (inPkt : Packet) : AcceptedSocket where
  srcAddr := sock.srcAddr
  dstAddr := n2h32 inPkt.ipSrc
  srcPort := sock.srcPort
  dstPort := inPkt.tcp.src
  seq := 1
  aseq := u32 (inPkt.tcp.seq + 1)
  skb := Skb.empty

/-- After the second sleep: `none` when the call returns `-EFAULT`. -/
def acceptClient (sock : ListenSocket) (inPkt : Packet) : Option ListenSocket :=
  if sock.flags.connected = false then none
  else some
    { sock with
      clients := Function.update sock.clients sock.nclients (acceptedClient sock inPkt)
      nclients := sock.nclients + 1 }

/-! ## Runs -/

/-- Where a call of `tcp_accept` is: not running, or in its first or second sleep.  A task
that was woken up continues some time later. -/
inductive AcceptPhase where
  | idle
  | waitSyn (woken : Bool)
  | waitAck (inPkt : Packet) (woken : Bool)

/-- What has happened. -/
inductive TcpEvent where
  | arrived (peer : Peer) (flags : Nat)
  | synAck (dstAddr : Nat) (tcp : TcpHeader)
  | created (client : AcceptedSocket)

/-- A listening socket, the call of `tcp_accept`, and the history. -/
structure AcceptState where
  sock : ListenSocket
  phase : AcceptPhase
  log : List TcpEvent

/-- The steps of a run. -/
inductive AcceptOp where
  | segment (seg : Packet)
  | accept
  | resume

/-- `wq_wakeup` on the queue that a call sleeps on. -/
def AcceptPhase.wake (phase : AcceptPhase) (wakes : Option TcpWaitQueue) : AcceptPhase :=
  match phase with
  | .idle => .idle
  | .waitSyn woken => .waitSyn (woken || wakes = some .own)
  | .waitAck inPkt woken => .waitAck inPkt (woken || wakes = some .own)

/-- One step. -/
inductive AcceptStep : AcceptState → AcceptOp → AcceptState → Prop
  | segment {s : AcceptState} {seg : Packet} {ptr : Nat} {reply : TcpReply} :
      s.sock.heap ptr = none → tcpWriteSkb (s.sock.receive ptr seg) ptr = .ok reply →
      AcceptStep s (.segment seg)
        ⟨reply.sock, s.phase.wake reply.wakes, s.log ++ [.arrived seg.peer seg.tcpFlags]⟩
  | refused {s : AcceptState} {e : Errno} :
      s.phase = .idle → acceptRefused s.sock = some e → AcceptStep s .accept s
  | accept {s : AcceptState} :
      s.phase = .idle → acceptRefused s.sock = none →
      AcceptStep s .accept { s with phase := .waitSyn false }
  | synAck {s : AcceptState} {sock' : ListenSocket} {inPkt : Packet} {tcp : TcpHeader} :
      s.phase = .waitSyn true → acceptSynAck s.sock = .ok (sock', inPkt, tcp) →
      AcceptStep s .resume
        ⟨sock', .waitAck inPkt false, s.log ++ [.synAck (n2h32 inPkt.ipSrc) tcp]⟩
  | failed {s : AcceptState} {inPkt : Packet} :
      s.phase = .waitAck inPkt true → acceptClient s.sock inPkt = none →
      AcceptStep s .resume { s with phase := .idle }
  | created {s : AcceptState} {inPkt : Packet} {sock' : ListenSocket} :
      s.phase = .waitAck inPkt true → acceptClient s.sock inPkt = some sock' →
      AcceptStep s .resume
        ⟨sock', .idle, s.log ++ [.created (sock'.clients s.sock.nclients)]⟩

/-! ## The property -/

/-- The peer of a client. -/
def AcceptedSocket.peer (client : AcceptedSocket) : Peer := ⟨n2h32 client.dstAddr, client.dstPort⟩

/-- A segment with these flags acknowledges something. -/
def HasAck (flags : Nat) : Prop := flags &&& tcpFlagAck ≠ 0

instance (flags : Nat) : Decidable (HasAck flags) := inferInstanceAs (Decidable (_ ≠ _))

/-- The last SYN+ACK of the history went to {lit}`peer`, and {lit}`mid` came after it. -/
structure LastSynAck (log : List TcpEvent) (peer : Peer) (mid : List TcpEvent) : Prop where
  sent : ∃ pre dstAddr tcp, log = pre ++ .synAck dstAddr tcp :: mid ∧
    (⟨n2h32 dstAddr, n2h16 tcp.dst⟩ : Peer) = peer
  last : ∀ dstAddr tcp, .synAck dstAddr tcp ∉ mid

/-- After the last SYN+ACK, which went to {lit}`peer`, that peer sent an acknowledgement. -/
def Answered (log : List TcpEvent) (peer : Peer) : Prop :=
  ∃ mid flags, LastSynAck log peer mid ∧ .arrived peer flags ∈ mid ∧ HasAck flags

/-- Every client was created after an acknowledgement of its peer that followed the
SYN+ACK to this peer. -/
def Handshaken (log : List TcpEvent) : Prop :=
  ∀ pre client post, log = pre ++ .created client :: post → Answered pre client.peer

/-! ## What a segment does to a sleeping call -/

/-- The segments that wake up a call of `tcp_accept`. -/
def WakesAccept (flags : TcpFlags) (segFlags : Nat) : Prop :=
  (flags.synSent = true ∧
    (segFlags = tcpFlagAck ||| tcpFlagRst ∨ segFlags = tcpFlagAck ||| tcpFlagSyn)) ∨
  (flags.synSent = false ∧ (segFlags = tcpFlagSyn ∨ segFlags = tcpFlagAck))

/-- After the segment the socket counts as connected. -/
def ConnectedAfter (flags : TcpFlags) (segFlags : Nat) : Prop :=
  flags.connected = true ∨ (flags.synSent = false ∧ segFlags = tcpFlagAck)

/-- What matters of a segment. -/
structure SegmentEffect (flags : TcpFlags) (segFlags : Nat) (reply : TcpReply) : Prop where
  wakes_iff : reply.wakes = some .own ↔ WakesAccept flags segFlags
  connected_iff : reply.sock.flags.connected = true ↔ ConnectedAfter flags segFlags

theorem handleSyn_effect {sock : ListenSocket} {ptr : Nat} {seg : Packet} {reply : TcpReply}
    (hpkt : sock.heap ptr = some seg) (hsent : sock.flags.synSent = true)
    (hcall : handleSyn sock ptr = .ok reply) : SegmentEffect sock.flags seg.tcpFlags reply := by
  rw [handleSyn, PktHeap.deref_some hpkt, Halt.ok_bind] at hcall
  by_cases hrst : seg.tcpFlags = tcpFlagAck ||| tcpFlagRst
  · rw [if_pos hrst] at hcall
    obtain ⟨heap, -, hret⟩ := Halt.bind_eq_ok.mp hcall
    obtain rfl := Except.ok.inj hret
    constructor
    · simp [WakesAccept, hsent, hrst]
    · simp [ConnectedAfter, hsent]
  · rw [if_neg hrst] at hcall
    by_cases hsyn : seg.tcpFlags = tcpFlagAck ||| tcpFlagSyn
    · rw [if_pos hsyn] at hcall
      obtain ⟨put, -, hret⟩ := Halt.bind_eq_ok.mp hcall
      obtain rfl := Except.ok.inj hret
      constructor
      · simp [WakesAccept, hsent, hsyn]
      · simp [ConnectedAfter, hsent]
    · rw [if_neg hsyn] at hcall
      obtain ⟨heap, -, hret⟩ := Halt.bind_eq_ok.mp hcall
      obtain rfl := Except.ok.inj hret
      constructor
      · simp [WakesAccept, hsent, hrst, hsyn]
      · simp [ConnectedAfter, hsent]

theorem handleAccept_effect {sock : ListenSocket} {ptr : Nat} {seg : Packet} {reply : TcpReply}
    (hpkt : sock.heap ptr = some seg) (hsent : sock.flags.synSent = false)
    (hcall : handleAccept sock ptr = .ok reply) :
    SegmentEffect sock.flags seg.tcpFlags reply := by
  rw [handleAccept, PktHeap.deref_some hpkt, Halt.ok_bind] at hcall
  dsimp only at hcall
  change (if seg.tcpFlags = tcpFlagSyn then _ else if seg.tcpFlags = tcpFlagAck then _ else _) = _
    at hcall
  by_cases hsyn : seg.tcpFlags = tcpFlagSyn
  · rw [if_pos hsyn] at hcall
    obtain ⟨put, -, hret⟩ := Halt.bind_eq_ok.mp hcall
    obtain rfl := Except.ok.inj hret
    have hne : tcpFlagSyn ≠ tcpFlagAck := by decide
    constructor
    · simp [WakesAccept, hsent, hsyn]
    · simp [ConnectedAfter, hsent, hsyn, hne]
  · rw [if_neg hsyn] at hcall
    by_cases hack : seg.tcpFlags = tcpFlagAck
    · rw [if_pos hack] at hcall
      obtain rfl := Except.ok.inj hcall
      constructor
      · simp [WakesAccept, hsent, hack]
      · simp [ConnectedAfter, hsent, hack]
    · rw [if_neg hack] at hcall
      cases hclient : sock.clientOf seg.peer with
      | none =>
          rw [hclient] at hcall
          obtain rfl := Except.ok.inj hcall
          constructor
          · simp [WakesAccept, hsent, hsyn, hack]
          · simp [ConnectedAfter, hsent, hack]
      | some i =>
          rw [hclient] at hcall
          obtain ⟨put, -, hret⟩ := Halt.bind_eq_ok.mp hcall
          obtain rfl := Except.ok.inj hret
          constructor
          · simp [WakesAccept, hsent, hsyn, hack]
          · simp [ConnectedAfter, hsent, hack]

/-- A segment wakes up the call, or not, and sets the flag, or not. -/
theorem tcpWriteSkb_effect {sock : ListenSocket} {ptr : Nat} {seg : Packet} {reply : TcpReply}
    (hpkt : sock.heap ptr = some seg) (hcall : tcpWriteSkb sock ptr = .ok reply) :
    SegmentEffect sock.flags seg.tcpFlags reply := by
  unfold tcpWriteSkb at hcall
  by_cases hsent : sock.flags.synSent = true
  · rw [if_pos hsent] at hcall
    exact handleSyn_effect hpkt hsent hcall
  · rw [if_neg hsent] at hcall
    exact handleAccept_effect hpkt (by simpa using hsent) hcall

/-! ## Histories -/

variable {log : List TcpEvent} {peer : Peer} {mid : List TcpEvent} {event : TcpEvent}

/-- An event that is no SYN+ACK leaves the last SYN+ACK as it is. -/
theorem LastSynAck.concat (hlast : LastSynAck log peer mid)
    (hevent : ∀ dstAddr tcp, event ≠ .synAck dstAddr tcp) :
    LastSynAck (log ++ [event]) peer (mid ++ [event]) where
  sent := by
    obtain ⟨pre, dstAddr, tcp, rfl, hpeer⟩ := hlast.sent
    exact ⟨pre, dstAddr, tcp, by simp, hpeer⟩
  last := by
    intro dstAddr tcp hmem
    rcases List.mem_append.mp hmem with h | h
    · exact hlast.last dstAddr tcp h
    · exact hevent dstAddr tcp (List.mem_singleton.mp h).symm

theorem Answered.concat (hanswered : Answered log peer)
    (hevent : ∀ dstAddr tcp, event ≠ .synAck dstAddr tcp) : Answered (log ++ [event]) peer := by
  obtain ⟨mid, flags, hlast, hmem, hack⟩ := hanswered
  exact ⟨mid ++ [event], flags, hlast.concat hevent, List.mem_append_left _ hmem, hack⟩

/-- The acknowledgement of the peer answers the SYN+ACK. -/
theorem LastSynAck.answered (hlast : LastSynAck log peer mid) {flags : Nat} (hack : HasAck flags) :
    Answered (log ++ [.arrived peer flags]) peer :=
  ⟨mid ++ [.arrived peer flags], flags, hlast.concat (by simp), by simp, hack⟩

/-- An event that creates no client keeps the property. -/
theorem Handshaken.concat (hshaken : Handshaken log)
    (hevent : ∀ client, event = .created client → Answered log client.peer) :
    Handshaken (log ++ [event]) := by
  intro pre client post heq
  rcases List.eq_nil_or_concat post with rfl | ⟨post', last, rfl⟩
  · obtain ⟨rfl, hlast⟩ := List.append_inj' heq rfl
    exact hevent client (List.singleton_inj.mp hlast)
  · have heq' : log ++ [event] = (pre ++ .created client :: post') ++ [last] := by
      rw [heq]
      simp
    obtain ⟨rfl, -⟩ := List.append_inj' heq' rfl
    exact hshaken pre client post' rfl

/-- `n2h_32` reverses four bytes. -/
theorem n2h32_bytes {a b c d : Nat} (ha : a < 256) (hb : b < 256) (hc : c < 256) (hd : d < 256) :
    n2h32 (a * 2 ^ 24 + b * 2 ^ 16 + c * 256 + d) = d * 2 ^ 24 + c * 2 ^ 16 + b * 256 + a := by
  unfold n2h32
  omega

theorem n2h32_n2h32 {n : Nat} (hn : n < 2 ^ 32) : n2h32 (n2h32 n) = n := by
  have hlt : ∀ m : Nat, m % 256 < 256 := fun m => Nat.mod_lt m (by norm_num)
  have hbytes := n2h32_bytes (hlt n) (hlt (n / 256)) (hlt (n / 2 ^ 16)) (hlt (n / 2 ^ 24))
  have hdigits : n / 2 ^ 24 % 256 * 2 ^ 24 + n / 2 ^ 16 % 256 * 2 ^ 16 + n / 256 % 256 * 256 +
      n % 256 = n := by
    omega
  rw [hdigits] at hbytes
  exact hbytes

theorem Packet.ipSrc_lt (pkt : Packet) : pkt.ipSrc < 2 ^ 32 :=
  Memory.load_lt _ _ 4

/-- The client is for the peer whose SYN was answered. -/
theorem acceptedClient_peer (sock : ListenSocket) (inPkt : Packet) :
    (acceptedClient sock inPkt).peer = inPkt.peer := by
  unfold AcceptedSocket.peer acceptedClient Packet.peer
  simp only [n2h32_n2h32 inPkt.ipSrc_lt]

theorem acceptClient_eq_some {sock sock' : ListenSocket} {inPkt : Packet}
    (h : acceptClient sock inPkt = some sock') :
    sock.flags.connected = true ∧ sock'.clients sock.nclients = acceptedClient sock inPkt := by
  unfold acceptClient at h
  by_cases hconnected : sock.flags.connected = false
  · rw [if_pos hconnected] at h
    exact absurd h (by simp)
  · rw [if_neg hconnected] at h
    obtain rfl := Option.some.inj h
    exact ⟨by simpa using hconnected, by simp⟩

/-- The SYN+ACK goes to the peer whose SYN it answers. -/
theorem synAck_lastSynAck (log : List TcpEvent) (sock : ListenSocket) (inPkt : Packet) :
    LastSynAck (log ++ [.synAck (n2h32 inPkt.ipSrc) (synAckHeader sock inPkt)]) inPkt.peer [] where
  sent := by
    refine ⟨log, _, _, rfl, ?_⟩
    have hport : inPkt.tcp.src < 2 ^ 16 := Memory.load_lt _ _ 2
    unfold Packet.peer synAckHeader
    simp only [n2h32_n2h32 inPkt.ipSrc_lt, n2h16_n2h16 hport]
  last := by simp

/-! ## Orderly runs -/

/-- While a call waits for the acknowledgement of a peer that has not come yet, no other
segment wakes the call up and leaves the socket connected: no acknowledgement of another
peer arrives, and no SYN when the flag is already set. -/
def Orderly (s : AcceptState) : AcceptOp → Prop
  | .segment seg => ∀ inPkt woken, s.phase = .waitAck inPkt woken →
      Answered s.log inPkt.peer ∨ (seg.peer = inPkt.peer ∧ HasAck seg.tcpFlags) ∨
      ¬ (WakesAccept s.sock.flags seg.tcpFlags ∧ ConnectedAfter s.sock.flags seg.tcpFlags)
  | .accept => True
  | .resume => True

/-- What holds in every state of an orderly run. -/
structure AcceptInv (s : AcceptState) : Prop where
  handshaken : Handshaken s.log
  sent : ∀ inPkt woken, s.phase = .waitAck inPkt woken → ∃ mid, LastSynAck s.log inPkt.peer mid
  answered : ∀ inPkt, s.phase = .waitAck inPkt true → s.sock.flags.connected = true →
    Answered s.log inPkt.peer

/-- The phases from which a segment leads to the second sleep. -/
theorem AcceptPhase.wake_eq_waitAck {phase : AcceptPhase} {wakes : Option TcpWaitQueue}
    {inPkt : Packet} {woken : Bool} (h : phase.wake wakes = .waitAck inPkt woken) :
    ∃ before, phase = .waitAck inPkt before ∧ woken = (before || wakes = some .own) := by
  cases phase with
  | idle => exact absurd h (by simp [AcceptPhase.wake])
  | waitSyn before => exact absurd h (by simp [AcceptPhase.wake])
  | waitAck pkt before =>
      simp only [AcceptPhase.wake, AcceptPhase.waitAck.injEq] at h
      obtain ⟨rfl, hwoken⟩ := h
      exact ⟨before, rfl, hwoken.symm⟩

/-- A segment keeps the invariant. -/
theorem AcceptInv.segment {s : AcceptState} (hinv : AcceptInv s) {seg : Packet}
    (horderly : Orderly s (.segment seg)) {reply : TcpReply}
    (heffect : SegmentEffect s.sock.flags seg.tcpFlags reply) :
    AcceptInv
      ⟨reply.sock, s.phase.wake reply.wakes, s.log ++ [.arrived seg.peer seg.tcpFlags]⟩ where
  handshaken := hinv.handshaken.concat (by simp)
  sent := by
    intro inPkt woken hphase
    obtain ⟨before, hbefore, -⟩ := AcceptPhase.wake_eq_waitAck hphase
    obtain ⟨mid, hlast⟩ := hinv.sent inPkt before hbefore
    exact ⟨_, hlast.concat (by simp)⟩
  answered := by
    intro inPkt hphase hconnected
    obtain ⟨before, hbefore, hwoken⟩ := AcceptPhase.wake_eq_waitAck hphase
    have hafter := heffect.connected_iff.mp hconnected
    rcases horderly inPkt before hbefore with hdone | ⟨hpeer, hack⟩ | hquiet
    · exact hdone.concat (by simp)
    · obtain ⟨mid, hlast⟩ := hinv.sent inPkt before hbefore
      rw [hpeer]
      exact hlast.answered hack
    · -- the segment did not wake the call up, so it did not set the flag either
      have hasleep : ¬ WakesAccept s.sock.flags seg.tcpFlags := fun h => hquiet ⟨h, hafter⟩
      have hbefore' : before = true := by
        have hnot : ¬ reply.wakes = some .own := fun h => hasleep (heffect.wakes_iff.mp h)
        simpa [hnot] using hwoken.symm
      have hset : s.sock.flags.connected = true := by
        rcases hafter with h | ⟨hsent, hack⟩
        · exact h
        · exact absurd (Or.inr ⟨hsent, Or.inr hack⟩) hasleep
      subst hbefore'
      exact (hinv.answered inPkt hbefore hset).concat (by simp)

/-- Every step of an orderly run keeps the invariant. -/
theorem AcceptInv.step {s t : AcceptState} {op : AcceptOp} (hinv : AcceptInv s)
    (hstep : AcceptStep s op t) (horderly : Orderly s op) : AcceptInv t := by
  cases hstep with
  | @segment seg ptr reply hfree hcall =>
      have hpkt : (s.sock.receive ptr seg).heap ptr = some seg := PktHeap.alloc_self _ _ _
      have heffect := tcpWriteSkb_effect hpkt hcall
      exact hinv.segment horderly heffect
  | refused hidle hrefused => exact hinv
  | accept hidle haccept =>
      refine ⟨hinv.handshaken, ?_, ?_⟩
      · intro inPkt woken hphase
        exact absurd hphase (by simp)
      · intro inPkt hphase
        exact absurd hphase (by simp)
  | @synAck sock' inPkt tcp hphase hcall =>
      obtain ⟨got, -, hrest⟩ := Halt.bind_eq_ok.mp hcall
      obtain ⟨pkt, -, hret⟩ := Halt.bind_eq_ok.mp hrest
      obtain ⟨rfl, hpair⟩ := Prod.mk.inj (Except.ok.inj hret)
      obtain ⟨rfl, rfl⟩ := Prod.mk.inj hpair
      have hlast := synAck_lastSynAck s.log s.sock pkt
      refine ⟨hinv.handshaken.concat (by simp), ?_, ?_⟩
      · intro inPkt woken hphase'
        simp only [AcceptPhase.waitAck.injEq] at hphase'
        obtain ⟨rfl, -⟩ := hphase'
        exact ⟨_, hlast⟩
      · intro inPkt hphase'
        exact absurd hphase' (by simp)
  | failed hphase hfailed =>
      refine ⟨hinv.handshaken, ?_, ?_⟩
      · intro inPkt woken hphase'
        exact absurd hphase' (by simp)
      · intro inPkt hphase'
        exact absurd hphase' (by simp)
  | @created inPkt sock' hphase hcreated =>
      obtain ⟨hconnected, hclient⟩ := acceptClient_eq_some hcreated
      have hanswered := hinv.answered inPkt hphase hconnected
      refine ⟨hinv.handshaken.concat ?_, ?_, ?_⟩
      · intro client hevent
        obtain rfl := TcpEvent.created.inj hevent
        rw [hclient, acceptedClient_peer]
        exact hanswered
      · intro inPkt woken hphase'
        exact absurd hphase' (by simp)
      · intro inPkt hphase'
        exact absurd hphase' (by simp)

/-- A SYN+ACK in a history that begins with its last SYN+ACK is that one. -/
theorem synAck_eq_head {a a' : Nat} {tcp tcp' : TcpHeader} {before rest rest' : List TcpEvent}
    (hlast : ∀ dstAddr t, .synAck dstAddr t ∉ rest)
    (h : .synAck a tcp :: rest = before ++ .synAck a' tcp' :: rest') :
    a = a' ∧ tcp = tcp' ∧ rest = rest' := by
  cases before with
  | nil =>
      obtain ⟨hevent, rfl⟩ := List.cons.inj h
      obtain ⟨rfl, rfl⟩ := TcpEvent.synAck.inj hevent
      exact ⟨rfl, rfl, rfl⟩
  | cons event before =>
      obtain ⟨-, rfl⟩ := List.cons.inj h
      exact absurd (List.mem_append_right _ List.mem_cons_self) (hlast a' tcp')

/-- The last SYN+ACK of a history is one. -/
theorem LastSynAck.unique {peer' : Peer} {mid' : List TcpEvent} (h : LastSynAck log peer mid)
    (h' : LastSynAck log peer' mid') : peer = peer' ∧ mid = mid' := by
  obtain ⟨pre, a, tcp, rfl, rfl⟩ := h.sent
  obtain ⟨pre', a', tcp', heq, rfl⟩ := h'.sent
  rcases List.append_eq_append_iff.mp heq with ⟨before, -, hrest⟩ | ⟨before, -, hrest⟩
  · obtain ⟨rfl, rfl, rfl⟩ := synAck_eq_head h.last hrest
    exact ⟨rfl, rfl⟩
  · obtain ⟨rfl, rfl, rfl⟩ := synAck_eq_head h'.last hrest
    exact ⟨rfl, rfl⟩

/-- A segment that does not acknowledge the SYN+ACK does not answer it. -/
theorem Answered.of_concat {seg : Packet} (hlast : LastSynAck log peer mid)
    (h : Answered (log ++ [.arrived seg.peer seg.tcpFlags]) peer)
    (hother : ¬ (seg.peer = peer ∧ HasAck seg.tcpFlags)) : Answered log peer := by
  obtain ⟨mid', flags, hlast', hmem, hack⟩ := h
  obtain ⟨-, rfl⟩ := hlast'.unique (hlast.concat (by simp))
  rcases List.mem_append.mp hmem with hold | hnew
  · exact ⟨mid, flags, hlast, hold, hack⟩
  · obtain ⟨hpeer, hflags⟩ := TcpEvent.arrived.inj (List.mem_singleton.mp hnew)
    exact absurd ⟨hpeer.symm, hflags ▸ hack⟩ hother

end Net
end Micael
