import Micael.Lib.HashmapInsert
import Micael.Net.Receive

/-!
# Packets that await an acknowledgement

`__send_pkt` enters a packet into the table `rt_queue` under the number that acknowledges it,
starts a timer, and hands the packet to IPv4.  `eth_send_pkt` deallocates it there unless its
flag `NF_REUSE` is set, and a packet that has to be fragmented is deallocated in any case.  When
the timer expires, what the table holds is sent again, and after five times it is
deallocated and removed; an acknowledgement removes it from the table and forgets it.

A run is any sequence of packets that are sent, timers that expire and pure acknowledgements
that arrive.  A log records the deallocations, with whether the packet was in the table, and the
retransmissions, with whether the packet had been deallocated.  A packet is named by
its allocation: memory that is handed out again has a new name.

Main results:

- Theorem {lit}`RtInv.step`: as long as packets are kept, all that were entered are in the table.
- Theorem {lit}`rt_packets_alive_iff`: the packets of a run are treated as they should be exactly when
  they have `NF_REUSE` set and fit into a frame, none is acknowledged, and no timer expires for
  the last time.
-/

namespace Micael
namespace Net

open Foundation Lib

/-! ## Sending -/

/-- `TCP_SYN_RETRIES`. -/
def tcpSynRetries : Int := 5

/-- What the senders read of a packet: `net.proto`, `net.size`, `transport.size`, the sequence number
in the TCP header, in network order, and the flags `NF_REUSE` and `NF_NO_RTO`. -/
structure RtPacket where
  proto : Nat
  netSize : Nat
  transportSize : Nat
  seq : Nat
  reuse : Bool
  noRto : Bool
deriving DecidableEq, Repr

/-- The number under which a packet is entered. -/
def RtPacket.rtSeq (pkt : RtPacket) : UInt32 :=
  UInt32.ofNat (n2h32 pkt.seq + pkt.transportSize + 2 ^ 64 - 20)

/-- `ipv4_send_pkt` does not fragment the packet. -/
def RtPacket.Whole (pkt : RtPacket) : Prop :=
  pkt.netSize < u16 (netdevMtu - ipv4HdrSize) - ipv4HdrSize

instance (pkt : RtPacket) : Decidable pkt.Whole := inferInstanceAs (Decidable (_ < _))

/-- `tcp_rt_ctx_t`, without the pointers to the socket and the timer. -/
structure RtCtx where
  seq : UInt32
  retries : Int
deriving DecidableEq, Repr

/-- A call of `netdev_dealloc_pkt`, with whether the packet was in the table, and a retransmission,
with whether the packet had not been deallocated. -/
inductive RtLog where
  | dealloc (ptr : Nat) (queued : Bool)
  | resend (ptr : Nat) (live : Bool)
deriving DecidableEq, Repr

/-- The table of a socket, the packets by their names, the names that were used and those that were
entered, the timers that are installed, and the log. -/
structure RtState where
  rtQueue : Hashmap
  pkts : Nat → RtPacket
  sent : List Nat
  entered : List Nat
  timers : List RtCtx
  log : List RtLog

/-- The packet is in the table. -/
def RtState.queued (s : RtState) (ptr : Nat) : Bool :=
  (List.range s.rtQueue.cap).any fun index =>
    match s.rtQueue.elem index with
    | some item => item.occupied && item.data == ptr
    | none => false

/-- The log entry deallocates the packet. -/
def RtLog.deallocates (ptr : Nat) : RtLog → Bool
  | .dealloc p _ => p == ptr
  | .resend _ _ => false

/-- The number of times a packet was deallocated. -/
def RtState.deallocs (s : RtState) (ptr : Nat) : Nat := s.log.countP (RtLog.deallocates ptr)

/-- `netdev_dealloc_pkt`. -/
def RtState.deallocPkt (s : RtState) (ptr : Nat) : RtState :=
  { s with log := s.log ++ [.dealloc ptr (s.queued ptr)] }

/-- `eth_send_pkt`. -/
def RtState.ethSendPkt (s : RtState) (ptr : Nat) : RtState :=
  if (s.pkts ptr).reuse then s else s.deallocPkt ptr

/-- `ipv4_send_pkt`; the fragments are sent in a packet of their own. -/
def RtState.ipv4SendPkt (s : RtState) (ptr : Nat) : Except Halt RtState :=
  if ¬ (s.pkts ptr).netSize ≤ ipv4PayloadMax then .error .kassert
  else if (s.pkts ptr).Whole then .ok (s.ethSendPkt ptr)
  else .ok (s.deallocPkt ptr)

/-- `tcp_send_pkt`. -/
def RtState.tcpSendPkt (s : RtState) (ptr : Nat) : Except Halt RtState :=
  if (s.pkts ptr).proto = protoIpv4 then s.ipv4SendPkt ptr
  else .error (.kpanic "ipv6 new todo")

/-- The part of `__send_pkt` that enters the packet and installs its timer.  Whether the table took
it is not looked at. -/
def RtState.enter (s : RtState) (ptr : Nat) (pkt : RtPacket) : RtState :=
  { s with
    rtQueue := (hmInsert hmHashNum s.rtQueue pkt.rtSeq ptr).2
    entered :=
      if (hmInsert hmHashNum s.rtQueue pkt.rtSeq ptr).1 = none then ptr :: s.entered else s.entered
    timers := ⟨pkt.rtSeq, tcpSynRetries⟩ :: s.timers }

/-- A packet that was just allocated is filled in. -/
def RtState.name (s : RtState) (ptr : Nat) (pkt : RtPacket) : RtState :=
  { s with
    pkts := Function.update s.pkts ptr pkt
    sent := ptr :: s.sent }

/-- `__send_pkt`. -/
def RtState.sendPkt (s : RtState) (ptr : Nat) (pkt : RtPacket) : Except Halt RtState :=
  if pkt.noRto then (s.name ptr pkt).tcpSendPkt ptr
  else ((s.name ptr pkt).enter ptr pkt).tcpSendPkt ptr

/-- Log a retransmission. -/
def RtState.logResend (s : RtState) (ptr : Nat) : RtState :=
  { s with log := s.log ++ [.resend ptr (s.deallocs ptr == 0)] }

/-- `__retransmit_pkt`, for a context whose timer has been taken off the list. -/
def RtState.retransmitPkt (s : RtState) (rt : RtCtx) : Except Halt RtState :=
  if hmGet hmHashNum s.rtQueue rt.seq ≠ 0 then do
    let s' ← (s.logResend (hmGet hmHashNum s.rtQueue rt.seq)).tcpSendPkt
      (hmGet hmHashNum s.rtQueue rt.seq)
    if rt.retries - 1 ≠ 0 then
      pure { s' with timers := ⟨rt.seq, rt.retries - 1⟩ :: s'.timers }
    else do
      let s' := s'.deallocPkt (hmGet hmHashNum s.rtQueue rt.seq)
      let removed ← hmRemove hmHashNum s'.rtQueue rt.seq
      pure { s' with rtQueue := removed.2 }
  else
    .ok s

/-! ## Runs -/

/-- What can happen. -/
inductive RtEvent where
  | send (ptr : Nat) (pkt : RtPacket)
  | expire (rt : RtCtx)
  | ack (aseq : UInt32)

/-- One step. -/
inductive RtStep : RtState → RtEvent → RtState → Prop
  | send {s s' : RtState} {ptr : Nat} {pkt : RtPacket} : ptr ≠ 0 → ptr ∉ s.sent →
      s.sendPkt ptr pkt = .ok s' → RtStep s (.send ptr pkt) s'
  | expire {s s' : RtState} {rt : RtCtx} {before behind : List RtCtx} :
      s.timers = before ++ rt :: behind →
      RtState.retransmitPkt { s with timers := before ++ behind } rt = .ok s' →
      RtStep s (.expire rt) s'
  | ack {s : RtState} {aseq : UInt32} {ret : Option Errno} {rtQueue : Hashmap} :
      hmRemove hmHashNum s.rtQueue aseq = .ok (ret, rtQueue) →
      RtStep s (.ack aseq) { s with rtQueue := rtQueue }

/-- A socket that has sent nothing. -/
def rtStart (pkts : Nat → RtPacket) : RtState := ⟨hmAllocHashmap 16, pkts, [], [], [], []⟩

/-- The packets that were entered are treated as they should be: none is deallocated while it is in
the table, what is sent again has not been deallocated, and a packet that has left the table was
deallocated once. -/
structure StaysAlive (s : RtState) : Prop where
  dealloc : ∀ ptr queued, .dealloc ptr queued ∈ s.log → ptr ∈ s.entered → queued = false
  resend : ∀ ptr live, .resend ptr live ∈ s.log → live = true
  once : ∀ ptr ∈ s.entered, s.queued ptr = false → s.deallocs ptr = 1

/-- This holds in every state of a run. -/
def AllStayAlive (start : RtState) (events : List RtEvent) : Prop :=
  ∀ pre s, pre <+: events → Run RtStep start pre s → StaysAlive s

/-- A packet that the table takes has `NF_REUSE` set and fits into a frame, a timer of a packet that is
in the table does not expire for the last time, and no packet in the table is acknowledged. -/
def KeptBy (s : RtState) : RtEvent → Prop
  | .send ptr pkt => pkt.noRto = false → (hmInsert hmHashNum s.rtQueue pkt.rtSeq ptr).1 = none →
      pkt.reuse = true ∧ pkt.Whole
  | .expire rt => hmGet hmHashNum s.rtQueue rt.seq ≠ 0 → rt.retries ≠ 1
  | .ack aseq => hmGet hmHashNum s.rtQueue aseq = 0

/-- This holds of every step of a run. -/
def AllKept (start : RtState) (events : List RtEvent) : Prop :=
  ∀ pre event s s', pre ++ [event] <+: events → Run RtStep start pre s → RtStep s event s' →
    KeptBy s event

/-! ## The invariant -/

/-- Every packet that was entered is in the table, in one slot, will not be deallocated by the layers
below, and has not been deallocated. -/
structure RtInv (s : RtState) : Prop where
  grown : s.rtQueue.Grown
  cap : s.rtQueue.cap ≠ 0
  held : ∀ index key ptr, s.rtQueue.Holds index key ptr → ptr ∈ s.entered
  unique : ∀ index index' key key' ptr, s.rtQueue.Holds index key ptr →
    s.rtQueue.Holds index' key' ptr → index = index'
  queued : ∀ ptr ∈ s.entered, ∃ index key, s.rtQueue.Holds index key ptr
  kept : ∀ ptr ∈ s.entered, (s.pkts ptr).reuse = true ∧ (s.pkts ptr).Whole
  alive : ∀ ptr ∈ s.entered, s.deallocs ptr = 0
  resent : ∀ ptr live, .resend ptr live ∈ s.log → live = true
  sent : ∀ ptr ∈ s.entered, ptr ∈ s.sent
  logged : ∀ ptr, s.deallocs ptr ≠ 0 → ptr ∈ s.sent

variable {s s' : RtState} {ptr : Nat} {pkt : RtPacket} {event : RtEvent}

/-- A packet that is in the table is in one of its slots. -/
theorem exists_holds_of_queued (hqueued : s.queued ptr = true) :
    ∃ index key, s.rtQueue.Holds index key ptr := by
  unfold RtState.queued at hqueued
  obtain ⟨index, -, hitem⟩ := List.any_eq_true.mp hqueued
  cases helem : s.rtQueue.elem index with
  | none => simp [helem] at hitem
  | some item =>
      obtain ⟨data, key, occupied⟩ := item
      simp only [helem, Bool.and_eq_true, beq_iff_eq] at hitem
      obtain ⟨rfl, rfl⟩ := hitem
      exact ⟨index, key, helem⟩

/-- A packet is in the table when a slot holds it. -/
theorem queued_iff (hgrown : s.rtQueue.Grown) (hcap : s.rtQueue.cap ≠ 0) :
    s.queued ptr = true ↔ ∃ index key, s.rtQueue.Holds index key ptr := by
  constructor
  · exact exists_holds_of_queued
  · unfold RtState.queued
    rw [List.any_eq_true]
    rintro ⟨index, key, hholds⟩
    obtain ⟨i, -, hslot, -⟩ := hgrown.path index key ptr hholds
    have hlt : index < s.rtQueue.cap := by
      rw [hslot]
      exact Nat.mod_lt _ (Nat.pos_of_ne_zero hcap)
    refine ⟨index, List.mem_range.mpr hlt, ?_⟩
    rw [show s.rtQueue.elem index = _ from hholds]
    simp

theorem RtInv.queued_eq_true (hinv : RtInv s) (hptr : ptr ∈ s.entered) : s.queued ptr = true :=
  (queued_iff hinv.grown hinv.cap).mpr (hinv.queued ptr hptr)

/-- The invariant says that packets are treated as they should be. -/
theorem RtInv.staysAlive (hinv : RtInv s) : StaysAlive s where
  dealloc ptr queued hlog hptr := by
    have hcount : s.deallocs ptr ≠ 0 := by
      intro hzero
      have hnone := List.countP_eq_zero.mp hzero _ hlog
      simp [RtLog.deallocates] at hnone
    exact absurd (hinv.alive ptr hptr) hcount
  resend := hinv.resent
  once ptr hptr hout := by
    rw [hinv.queued_eq_true hptr] at hout
    cases hout

theorem deallocs_deallocPkt (s : RtState) (ptr other : Nat) :
    (s.deallocPkt ptr).deallocs other = s.deallocs other + if ptr = other then 1 else 0 := by
  simp [RtState.deallocs, RtState.deallocPkt, RtLog.deallocates]

theorem deallocs_logResend (s : RtState) (ptr other : Nat) :
    (s.logResend ptr).deallocs other = s.deallocs other := by
  simp [RtState.deallocs, RtState.logResend, RtLog.deallocates]

/-- What the lower layers do with a packet they send. -/
theorem tcpSendPkt_eq (hsend : s.tcpSendPkt ptr = .ok s') :
    s' = if (s.pkts ptr).reuse = true ∧ (s.pkts ptr).Whole then s else s.deallocPkt ptr := by
  unfold RtState.tcpSendPkt at hsend
  by_cases hproto : (s.pkts ptr).proto = protoIpv4
  · rw [if_pos hproto, RtState.ipv4SendPkt] at hsend
    obtain ⟨-, hsend⟩ := guard_eq_ok.mp hsend
    by_cases hwhole : (s.pkts ptr).Whole
    · rw [if_pos hwhole] at hsend
      obtain rfl := Except.ok.inj hsend
      simp only [RtState.ethSendPkt, hwhole, and_true]
    · rw [if_neg hwhole] at hsend
      obtain rfl := Except.ok.inj hsend
      rw [if_neg fun h => hwhole h.2]
  · rw [if_neg hproto] at hsend
    cases hsend

/-! ### Parts of a step -/

/-- The timers are not part of the invariant. -/
theorem RtInv.timers (hinv : RtInv s) (timers : List RtCtx) : RtInv { s with timers := timers } :=
  ⟨hinv.grown, hinv.cap, hinv.held, hinv.unique, hinv.queued, hinv.kept, hinv.alive, hinv.resent,
    hinv.sent, hinv.logged⟩

/-- A new packet changes nothing about those that were entered. -/
theorem RtInv.name (hinv : RtInv s) (hfresh : ptr ∉ s.sent) : RtInv (s.name ptr pkt) where
  grown := hinv.grown
  cap := hinv.cap
  held := hinv.held
  unique := hinv.unique
  queued := hinv.queued
  kept other hother := by
    have hne : other ≠ ptr := fun h => hfresh (h ▸ hinv.sent other hother)
    simp only [RtState.name, Function.update_of_ne hne]
    exact hinv.kept other hother
  alive := hinv.alive
  resent := hinv.resent
  sent other hother := List.mem_cons_of_mem _ (hinv.sent other hother)
  logged other hother := List.mem_cons_of_mem _ (hinv.logged other hother)

/-- A packet that was not entered may be deallocated. -/
theorem RtInv.deallocPkt (hinv : RtInv s) (hout : ptr ∉ s.entered) (hsent : ptr ∈ s.sent) :
    RtInv (s.deallocPkt ptr) where
  grown := hinv.grown
  cap := hinv.cap
  held := hinv.held
  unique := hinv.unique
  queued := hinv.queued
  kept := hinv.kept
  alive other hother := by
    have hne : ptr ≠ other := fun h => hout (h ▸ hother)
    rw [deallocs_deallocPkt, if_neg hne]
    exact hinv.alive other hother
  resent other live hlog := by
    have hmem : RtLog.resend other live ∈ s.log ++ [.dealloc ptr (s.queued ptr)] := hlog
    simp only [List.mem_append, List.mem_singleton, reduceCtorEq, or_false] at hmem
    exact hinv.resent other live hmem
  sent := hinv.sent
  logged other hother := by
    rw [deallocs_deallocPkt] at hother
    by_cases hne : ptr = other
    · exact hne ▸ hsent
    · rw [if_neg hne] at hother
      exact hinv.logged other hother

/-- A packet that was not deallocated is sent again. -/
theorem RtInv.logResend (hinv : RtInv s) (halive : s.deallocs ptr = 0) : RtInv (s.logResend ptr) where
  grown := hinv.grown
  cap := hinv.cap
  held := hinv.held
  unique := hinv.unique
  queued := hinv.queued
  kept := hinv.kept
  alive other hother := (deallocs_logResend s ptr other).trans (hinv.alive other hother)
  resent other live hlog := by
    have hmem : RtLog.resend other live ∈ s.log ++ [.resend ptr (s.deallocs ptr == 0)] := hlog
    rcases List.mem_append.mp hmem with hold | hnew
    · exact hinv.resent other live hold
    · obtain ⟨-, rfl⟩ := RtLog.resend.inj (List.mem_singleton.mp hnew)
      simp [halive]
  sent := hinv.sent
  logged other hother := hinv.logged other (deallocs_logResend s ptr other ▸ hother)

/-- A packet that the lower layers keep was put into a vacant slot. -/
theorem RtInv.put (hinv : RtInv s) {index : Nat} {key : UInt32}
    (hgrown : (s.rtQueue.put index key ptr).Grown) (hvacant : ¬ s.rtQueue.Occupied index)
    (hout : ptr ∉ s.entered) (hsent : ptr ∈ s.sent) (halive : s.deallocs ptr = 0)
    (hkept : (s.pkts ptr).reuse = true ∧ (s.pkts ptr).Whole) :
    RtInv
      { s with
        rtQueue := s.rtQueue.put index key ptr
        entered := ptr :: s.entered } := by
  -- The new slot is the only one that holds the packet.
  have hwhere : ∀ index' key' other, (s.rtQueue.put index key ptr).Holds index' key' other →
      (index' = index ∧ other = ptr) ∨ (s.rtQueue.Holds index' key' other ∧ other ≠ ptr) := by
    intro index' key' other hholds
    rw [Hashmap.put_holds_iff] at hholds
    by_cases hindex : index' = index
    · rw [if_pos hindex] at hholds
      exact .inl ⟨hindex, hholds.2⟩
    · rw [if_neg hindex] at hholds
      refine .inr ⟨hholds, ?_⟩
      rintro rfl
      exact hout (hinv.held index' key' other hholds)
  constructor
  case grown => exact hgrown
  case cap => exact hinv.cap
  case held =>
    intro index' key' other hholds
    rcases hwhere index' key' other hholds with ⟨-, rfl⟩ | ⟨hold, -⟩
    · exact .head _
    · exact .tail _ (hinv.held index' key' other hold)
  case unique =>
    intro index₁ index₂ key₁ key₂ other h₁ h₂
    rcases hwhere index₁ key₁ other h₁ with ⟨rfl, rfl⟩ | ⟨hold₁, hne⟩
    · rcases hwhere index₂ key₂ other h₂ with ⟨rfl, -⟩ | ⟨-, hne⟩
      · rfl
      · exact absurd rfl hne
    · rcases hwhere index₂ key₂ other h₂ with ⟨-, heq⟩ | ⟨hold₂, -⟩
      · exact absurd heq hne
      · exact hinv.unique index₁ index₂ key₁ key₂ other hold₁ hold₂
  case queued =>
    intro other hother
    rcases List.mem_cons.mp hother with rfl | hold
    · exact ⟨index, key, Hashmap.put_holds_self _ _ _ _⟩
    · obtain ⟨index', key', hholds⟩ := hinv.queued other hold
      exact ⟨index', key', hholds.put hvacant⟩
  case kept =>
    intro other hother
    rcases List.mem_cons.mp hother with rfl | hold
    · exact hkept
    · exact hinv.kept other hold
  case alive =>
    intro other hother
    rcases List.mem_cons.mp hother with rfl | hold
    · exact halive
    · exact hinv.alive other hold
  case resent => exact hinv.resent
  case sent =>
    intro other hother
    rcases List.mem_cons.mp hother with rfl | hold
    · exact hsent
    · exact hinv.sent other hold
  case logged => exact hinv.logged

/-- The table is full, or the packet is in it: what `__send_pkt` leaves before it sends. -/
theorem RtInv.enter_cases (hinv : RtInv s) (pkt : RtPacket) (hout : ptr ∉ s.entered)
    (hsent : ptr ∈ s.sent) (halive : s.deallocs ptr = 0) :
    ((hmInsert hmHashNum s.rtQueue pkt.rtSeq ptr).1 ≠ none ∧ RtInv (s.enter ptr pkt) ∧
        ptr ∉ (s.enter ptr pkt).entered) ∨
      ((hmInsert hmHashNum s.rtQueue pkt.rtSeq ptr).1 = none ∧
        ptr ∈ (s.enter ptr pkt).entered ∧ (s.enter ptr pkt).queued ptr = true ∧
        ((s.pkts ptr).reuse = true ∧ (s.pkts ptr).Whole → RtInv (s.enter ptr pkt))) := by
  cases hins : hmInsert hmHashNum s.rtQueue pkt.rtSeq ptr with
  | mk e queue =>
      cases e with
      | some e =>
          obtain rfl := hmInsert_error hins
          have henter : s.enter ptr pkt =
              { s with timers := ⟨pkt.rtSeq, tcpSynRetries⟩ :: s.timers } := by
            simp [RtState.enter, hins]
          rw [henter]
          exact .inl ⟨by simp, hinv.timers _, hout⟩
      | none =>
          have hgrown := hinv.grown.insert hins
          obtain ⟨-, i, hi, hvacant, -, rfl⟩ := hmInsert_eq_put hins
          have henter : s.enter ptr pkt =
              { s with
                rtQueue := s.rtQueue.put (s.rtQueue.slot (hmHashNum pkt.rtSeq) i)
                  (hmHashNum pkt.rtSeq) ptr
                entered := ptr :: s.entered
                timers := ⟨pkt.rtSeq, tcpSynRetries⟩ :: s.timers } := by
            simp [RtState.enter, hins]
          rw [henter]
          refine .inr ⟨rfl, .head _, ?_, fun hkept => ?_⟩
          · refine (queued_iff ?_ ?_).mpr ⟨_, _, Hashmap.put_holds_self _ _ _ _⟩
            · exact hgrown
            · exact hinv.cap
          · exact (hinv.put hgrown hvacant hout hsent halive hkept).timers _

/-! ### Steps -/

/-- A deallocation of a packet in the table is not what should happen. -/
theorem not_staysAlive_of_dealloc {rtQueue : Hashmap} (hentered : ptr ∈ s.entered)
    (hqueued : s.queued ptr = true) :
    ¬ StaysAlive { s.deallocPkt ptr with rtQueue := rtQueue } := by
  intro halive
  have hlog : RtLog.dealloc ptr (s.queued ptr) ∈ s.log ++ [.dealloc ptr (s.queued ptr)] := by simp
  have hfalse := halive.dealloc ptr (s.queued ptr) hlog hentered
  rw [hqueued] at hfalse
  cases hfalse

/-- A packet is sent. -/
theorem RtInv.send (hinv : RtInv s) (hfresh : ptr ∉ s.sent)
    (hsend : s.sendPkt ptr pkt = .ok s') :
    (KeptBy s (.send ptr pkt) → RtInv s') ∧ (¬ KeptBy s (.send ptr pkt) → ¬ StaysAlive s') := by
  have hnamed : RtInv (s.name ptr pkt) := hinv.name hfresh
  have hpkt : (s.name ptr pkt).pkts ptr = pkt := Function.update_self ..
  have hout : ptr ∉ (s.name ptr pkt).entered := fun hmem => hfresh (hinv.sent ptr hmem)
  have hsent : ptr ∈ (s.name ptr pkt).sent := .head _
  have halive : (s.name ptr pkt).deallocs ptr = 0 := by
    by_contra hdealloc
    exact hfresh (hinv.logged ptr hdealloc)
  unfold RtState.sendPkt at hsend
  by_cases hrto : pkt.noRto = true
  · have hkept : KeptBy s (.send ptr pkt) := by
      intro hfalse
      rw [hrto] at hfalse
      cases hfalse
    rw [if_pos hrto] at hsend
    refine ⟨fun _ => ?_, fun hnot => absurd hkept hnot⟩
    rw [tcpSendPkt_eq hsend]
    split
    · exact hnamed
    · exact hnamed.deallocPkt hout hsent
  · rw [if_neg hrto] at hsend
    have hsent' := tcpSendPkt_eq hsend
    rw [show ((s.name ptr pkt).enter ptr pkt).pkts ptr = pkt from hpkt] at hsent'
    rcases hnamed.enter_cases pkt hout hsent halive with
      ⟨hfull, hentered, hstill⟩ | ⟨htaken, hmem, hqueued, hentered⟩
    · have hkept : KeptBy s (.send ptr pkt) := fun _ htaken => absurd htaken hfull
      refine ⟨fun _ => ?_, fun hnot => absurd hkept hnot⟩
      rw [hsent']
      split
      · exact hentered
      · exact hentered.deallocPkt hstill hsent
    · rw [hpkt] at hentered
      by_cases hstays : pkt.reuse = true ∧ pkt.Whole
      · rw [if_pos hstays] at hsent'
        refine ⟨fun _ => hsent' ▸ hentered hstays, fun hnot => ?_⟩
        exact absurd (fun _ _ => hstays) hnot
      · rw [if_neg hstays] at hsent'
        refine ⟨fun hkept => absurd (hkept (by simpa using hrto) htaken) hstays, fun _ => ?_⟩
        rw [hsent']
        exact not_staysAlive_of_dealloc hmem hqueued

/-- A timer expires. -/
theorem RtInv.expire (hinv : RtInv s) {rt : RtCtx} (hexpire : s.retransmitPkt rt = .ok s') :
    (KeptBy s (.expire rt) → RtInv s') ∧ (¬ KeptBy s (.expire rt) → ¬ StaysAlive s') := by
  unfold RtState.retransmitPkt at hexpire
  by_cases hget : hmGet hmHashNum s.rtQueue rt.seq ≠ 0
  · rw [if_pos hget] at hexpire
    obtain ⟨-, i, hfound⟩ := foundAt_of_hmGet hget
    have hentered := hinv.held _ _ _ hfound.holds
    have hresent := hinv.logResend (hinv.alive _ hentered)
    obtain ⟨s₁, hsend, hrest⟩ := Halt.bind_eq_ok.mp hexpire
    have hsame := tcpSendPkt_eq hsend
    rw [if_pos (hresent.kept _ hentered)] at hsame
    subst hsame
    by_cases hlast : rt.retries = 1
    · have hdone : ¬ rt.retries - 1 ≠ 0 := by omega
      rw [if_neg hdone] at hrest
      obtain ⟨removed, -, hend⟩ := Halt.bind_eq_ok.mp hrest
      obtain rfl := Except.ok.inj hend
      refine ⟨fun hkept => absurd hlast (hkept hget), fun _ => ?_⟩
      exact not_staysAlive_of_dealloc hentered (hresent.queued_eq_true hentered)
    · have hagain : rt.retries - 1 ≠ 0 := by omega
      rw [if_pos hagain] at hrest
      obtain rfl := Except.ok.inj hrest
      refine ⟨fun _ => hresent.timers _, fun hnot => ?_⟩
      exact absurd (fun _ => hlast) hnot
  · rw [if_neg hget] at hexpire
    obtain rfl := Except.ok.inj hexpire
    exact ⟨fun _ => hinv, fun hnot => absurd (fun h => absurd h hget) hnot⟩

/-- An acknowledgement arrives. -/
theorem RtInv.ack (hinv : RtInv s) {aseq : UInt32} {ret : Option Errno} {rtQueue : Hashmap}
    (hremove : hmRemove hmHashNum s.rtQueue aseq = .ok (ret, rtQueue)) :
    (KeptBy s (.ack aseq) → RtInv { s with rtQueue := rtQueue }) ∧
      (¬ KeptBy s (.ack aseq) → ¬ StaysAlive { s with rtQueue := rtQueue }) := by
  constructor
  · intro habsent
    obtain rfl := hinv.grown.hmRemove_absent habsent hremove
    exact hinv
  · intro hget halive
    obtain ⟨index, hholds, hvacate⟩ := hmRemove_of_get hget
    have hqueue : rtQueue = s.rtQueue.vacate index :=
      congrArg Prod.snd (Except.ok.inj (hremove.symm.trans hvacate))
    subst hqueue
    have hentered := hinv.held _ _ _ hholds
    -- The packet was in this slot only, and nobody deallocates it.
    have hgone : RtState.queued { s with rtQueue := s.rtQueue.vacate index }
        (hmGet hmHashNum s.rtQueue aseq) = false := by
      by_contra hqueued
      obtain ⟨index', key, hstill⟩ := exists_holds_of_queued (by simpa using hqueued)
      obtain ⟨hne, hold⟩ := Hashmap.vacate_holds_iff.mp hstill
      exact hne (hinv.unique index' index _ _ _ hold hholds)
    have honce := halive.once _ hentered hgone
    have hzero := hinv.alive _ hentered
    exact absurd (honce.symm.trans hzero) (by decide)

/-- A step keeps the invariant exactly when it keeps the packets. -/
theorem RtInv.step (hinv : RtInv s) (hstep : RtStep s event s') :
    (KeptBy s event → RtInv s') ∧ (¬ KeptBy s event → ¬ StaysAlive s') := by
  cases hstep with
  | send _ hfresh hsend => exact hinv.send hfresh hsend
  | @expire _ rt before behind _ hexpire => exact (hinv.timers (before ++ behind)).expire hexpire
  | ack hremove => exact hinv.ack hremove

/-- At first nothing was entered. -/
theorem rtStart_inv (pkts : Nat → RtPacket) : RtInv (rtStart pkts) where
  grown := grown_alloc 16
  cap := show 16 ≠ 0 by decide
  held _ _ _ h := by cases h
  unique _ _ _ _ _ h := by cases h
  queued _ h := by cases h
  kept _ h := by cases h
  alive _ h := by cases h
  resent _ _ h := by cases h
  sent _ h := by cases h
  logged _ h := absurd rfl h

/-- In a run of sends, expirations and acknowledgements, in any order, the packets that were entered
stay alive as they should exactly when every one of them has `NF_REUSE` set and fits into a frame,
none is acknowledged, and no timer of a packet in the table expires for the fifth time. -/
theorem rt_packets_alive_iff (pkts : Nat → RtPacket) (events : List RtEvent) :
    AllStayAlive (rtStart pkts) events ↔ AllKept (rtStart pkts) events := by
  have hkeep : ∀ s event s', RtInv s → RtStep s event s' → KeptBy s event → RtInv s' :=
    fun s event s' hinv hstep => (hinv.step hstep).1
  have hbreak : ∀ s event s', RtInv s → RtStep s event s' → StaysAlive s' → KeptBy s event := by
    intro s event s' hinv hstep halive
    by_contra hnot
    exact (hinv.step hstep).2 hnot halive
  exact Run.safe_iff (fun s hinv => hinv.staysAlive) hkeep hbreak (rtStart_inv pkts) events

/-! ## A segment that is written -/

/-- A segment with data as `__tcp_write` passes it on: `netdev_alloc_pkt_L5` has cleared the flags. -/
def writtenPacket (seq size : Nat) : RtPacket :=
  ⟨protoIpv4, 40 + size, 20 + size, n2h32 seq, false, false⟩

/-- The first segment of a connection is deallocated as soon as it was sent, and its timer sends it
again. -/
theorem written_segment_deallocated :
    ¬ AllStayAlive (rtStart fun _ => writtenPacket 1 1) [.send 1 (writtenPacket 1 1)] := by
  intro halive
  have hsend : RtState.sendPkt (rtStart fun _ => writtenPacket 1 1) 1 (writtenPacket 1 1) = .ok _ := rfl
  have hstep : RtStep (rtStart fun _ => writtenPacket 1 1) (.send 1 (writtenPacket 1 1)) _ :=
    .send (by decide) (by decide) hsend
  have hend := halive _ _ List.prefix_rfl (.snoc .nil hstep)
  have hfalse := hend.dealloc 1 true (by decide) (by decide)
  cases hfalse

end Net
end Micael
