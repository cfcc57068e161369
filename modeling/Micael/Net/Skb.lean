import Micael.Foundation.Ring
import Micael.Foundation.Run
import Micael.Kernel.Util
import Micael.Net.Packet

/-!
# Socket buffers

A socket buffer is a ring of ten packet pointers with a read pointer, a write pointer and a
count.  UDP and TCP sockets have the same ring; a UDP read copies a datagram out and frees the
packet, a TCP read hands the packet to its caller.

The intended behaviour is a queue of at most ten packets whose writes drop the oldest packet when
it is full.  In a run each write is given a packet that the driver has just allocated.

Main results:

- Theorem {lit}`skb_dropsOldest_iff`: a run of writes and reads is one of the bounded queue exactly
  when no write finds ten unread packets.
- Theorem {lit}`eleven_writes_not_dropsOldest`: the eleventh write makes the count eleven.
-/

namespace Micael
namespace Net

open Foundation Kernel

/-- `SKB_MAX_SIZE`. -/
def skbMaxSize : Nat := 10

instance : NeZero skbMaxSize := ⟨by decide⟩

/-- `udp_skb_t` and `tcp_skb_t`: the pointers are always reduced modulo `SKB_MAX_SIZE`.  Only TCP
has the stream pointer `sptr`. -/
structure Skb where
  rptr : Fin skbMaxSize
  wptr : Fin skbMaxSize
  sptr : Nat
  npkts : Nat
  packets : Fin skbMaxSize → Option Nat

/-- The buffer that `kzalloc` returns for a new socket. -/
def Skb.empty : Skb where
  rptr := 0
  wptr := 0
  sptr := 0
  npkts := 0
  packets := fun _ => none

/-- A socket buffer and the packets that are allocated. -/
structure SkbState where
  heap : PktHeap
  skb : Skb

/-- The body that `udp_write_skb` and `__skb_put` share. -/
def SkbState.put (s : SkbState) (pkt : Nat) : Except Halt SkbState := do
  let heap ← match s.skb.packets s.skb.wptr with
    | some old => netdevDeallocPkt s.heap (some old)
    | none => .ok s.heap
  pure { heap := heap
         skb := { s.skb with
           packets := Function.update s.skb.packets s.skb.wptr (some pkt)
           wptr := s.skb.wptr + 1
           npkts := u64 (s.skb.npkts + 1) } }

/-- The buffer after `udp_read_skb` or `__skb_get` took the packet at the read pointer. -/
def Skb.advance (skb : Skb) : Skb :=
  { skb with
    packets := Function.update skb.packets skb.rptr none
    rptr := skb.rptr + 1
    npkts := u64 (skb.npkts + 2 ^ 64 - 1) }

/-- `udp_write_skb`, for a socket that has its buffer. -/
def udpWriteSkb (s : SkbState) (pkt : Option Nat) : Except Halt (SkbState × Int) :=
  match pkt with
  | none => .ok (s, -Errno.einval.toInt)
  | some pkt => do
      let s ← s.put pkt
      pure (s, 0)

/-- `__skb_put`. -/
def skbPut (s : SkbState) (pkt : Option Nat) : Except Halt (SkbState × Int) :=
  match pkt with
  | none => .error .kassert
  | some pkt => do
      let s ← s.put pkt
      pure (s, 0)

/-- `udp_read_skb`: the caller's buffer is returned with the bytes that were copied. -/
def udpReadSkb (s : SkbState) (buf : Option Memory) (size : Nat) :
    Except Halt (SkbState × Option Memory × Int) :=
  match buf with
  | none => .ok (s, none, -Errno.einval.toInt)
  | some buf =>
      if size = 0 then
        .ok (s, some buf, -Errno.einval.toInt)
      else if s.skb.npkts = 0 then
        .ok (s, some buf, 0)
      else do
        let ptr := s.skb.packets s.skb.rptr
        let pkt ← s.heap.deref ptr
        let cpySize := min size pkt.app.size
        let buf := kmemcpy buf 0 pkt.link pkt.app.packet cpySize
        let heap ← netdevDeallocPkt s.heap ptr
        pure ({ heap := heap, skb := s.skb.advance }, some buf, cpySize)

/-- `__skb_get`. -/
def skbGet (s : SkbState) : Except Halt (SkbState × Option Nat) :=
  if s.skb.npkts = 0 then
    .error .kassert
  else
    .ok ({ s with skb := s.skb.advance }, s.skb.packets s.skb.rptr)

/-! ## Runs and the intended queue -/

/-- Whose buffer it is. -/
inductive SkbKind where
  | udp | tcp
deriving DecidableEq, Repr

/-- What a read gives its caller: the buffer it filled and the return value, or a packet. -/
inductive SkbReply where
  | datagram (buf : Option Memory) (ret : Int)
  | packet (ptr : Option Nat)

/-- The write of a socket of this kind. -/
def SkbState.write (kind : SkbKind) (s : SkbState) (ptr : Nat) : Except Halt (SkbState × Int) :=
  match kind with
  | .udp => udpWriteSkb s (some ptr)
  | .tcp => skbPut s (some ptr)

/-- The read of a socket of this kind; only UDP uses the caller's buffer. -/
def SkbState.read (kind : SkbKind) (s : SkbState) (size : Nat) (buf : Memory) :
    Except Halt (SkbState × SkbReply) :=
  match kind with
  | .udp => (udpReadSkb s (some buf) size).map fun r => (r.1, .datagram r.2.1 r.2.2)
  | .tcp => (skbGet s).map fun r => (r.1, .packet r.2)

/-- The calls of a run. -/
inductive SkbCall where
  /-- A packet arrives and is written. -/
  | put (ptr : Nat) (pkt : Packet)
  /-- A read with a buffer of `size` bytes. -/
  | get (size : Nat) (buf : Memory)
  /-- Other code allocates and frees packets of its own. -/
  | other (heap : PktHeap)

/-- One call.  The packet that is written was allocated where no packet was; TCP reads only when
there are packets. -/
inductive SkbStep (kind : SkbKind) : SkbState → SkbCall → SkbState → Prop
  | put {s s' : SkbState} {ptr : Nat} {pkt : Packet} {ret : Int} : s.heap ptr = none →
      SkbState.write kind { s with heap := s.heap.alloc ptr pkt } ptr = .ok (s', ret) →
      SkbStep kind s (.put ptr pkt) s'
  | get {s s' : SkbState} {size : Nat} {buf : Memory} {reply : SkbReply} : 0 < size →
      (kind = .tcp → 0 < s.skb.npkts) → s.read kind size buf = .ok (s', reply) →
      SkbStep kind s (.get size buf) s'
  | other {s : SkbState} {heap : PktHeap} :
      (∀ i ptr, s.skb.packets i = some ptr → heap ptr = s.heap ptr) →
      SkbStep kind s (.other heap) { s with heap := heap }

/-- The packets written and neither read nor overwritten, oldest first. -/
abbrev SkbQueue := List (Nat × Packet)

/-- What a call does to the intended queue. -/
def queueStep (queue : SkbQueue) : SkbCall → SkbQueue
  | .put ptr pkt => (if queue.length < skbMaxSize then queue else queue.tail) ++ [(ptr, pkt)]
  | .get _ _ => queue.tail
  | .other _ => queue

/-- The intended queue after the calls of a run. -/
def queueOf (calls : List SkbCall) : SkbQueue := calls.foldl queueStep []

theorem queueOf_concat (calls : List SkbCall) (call : SkbCall) :
    queueOf (calls ++ [call]) = queueStep (queueOf calls) call := by
  simp [queueOf]

/-- The reply of a read that returns this packet. -/
def replyOf (kind : SkbKind) (oldest : Nat × Packet) (size : Nat) (buf : Memory) : SkbReply :=
  match kind with
  | .udp =>
      let n := min size oldest.2.app.size
      .datagram (some (kmemcpy buf 0 oldest.2.link oldest.2.app.packet n)) n
  | .tcp => .packet (some oldest.1)

/-- What a bounded queue that drops its oldest packet promises about a state. -/
structure DropsOldestAt (kind : SkbKind) (queue : SkbQueue) (s : SkbState) : Prop where
  /-- The count is bounded. -/
  bounded : s.skb.npkts ≤ skbMaxSize
  /-- The count is the number of entries that are not null. -/
  counted : s.skb.npkts = (Finset.univ.filter fun i => (s.skb.packets i).isSome).card
  /-- A read touches no null or freed packet and returns the oldest one. -/
  reads : ∀ size buf, 0 < size → 0 < s.skb.npkts → ∃ oldest rest s', queue = oldest :: rest ∧
    s.read kind size buf = .ok (s', replyOf kind oldest size buf)
  /-- A write into a full buffer frees exactly the oldest packet. -/
  drops : ∀ ptr pkt oldest rest, queue = oldest :: rest → queue.length = skbMaxSize →
    s.heap ptr = none →
    ∃ s' ret, SkbState.write kind { s with heap := s.heap.alloc ptr pkt } ptr = .ok (s', ret) ∧
      s'.heap = (s.heap.alloc ptr pkt).free oldest.1

/-- Every state of the run keeps the promise. -/
def DropsOldest (kind : SkbKind) (start : SkbState) (calls : List SkbCall) : Prop :=
  ∀ pre s, pre <+: calls → Run (SkbStep kind) start pre s → DropsOldestAt kind (queueOf pre) s

/-- No write of the run finds ten unread packets. -/
def NoOverflow (calls : List SkbCall) : Prop :=
  ∀ pre ptr pkt, pre ++ [.put ptr pkt] <+: calls → (queueOf pre).length < skbMaxSize

/-! ## The buffer holds the queue -/

/-- The ring holds the intended queue, and its packets are allocated. -/
structure SkbSync (queue : SkbQueue) (s : SkbState) : Prop where
  length_le : queue.length ≤ skbMaxSize
  npkts : s.skb.npkts = queue.length
  wptr : s.skb.wptr = s.skb.rptr + Fin.ofNat skbMaxSize queue.length
  holds : Ring.Holds s.skb.packets s.skb.rptr (queue.map Prod.fst)
  live : ∀ p ∈ queue, s.heap p.1 = some p.2
  nodup : (queue.map Prod.fst).Nodup

variable {kind : SkbKind} {queue : SkbQueue} {s s' : SkbState}

theorem SkbSync.empty (heap : PktHeap) : SkbSync [] ⟨heap, Skb.empty⟩ where
  length_le := Nat.zero_le _
  npkts := rfl
  wptr := rfl
  holds := fun _ => rfl
  live := fun _ hp => absurd hp List.not_mem_nil
  nodup := List.nodup_nil

/-- The count of a buffer that holds its queue. -/
theorem SkbSync.counted (h : SkbSync queue s) :
    s.skb.npkts = (Finset.univ.filter fun i => (s.skb.packets i).isSome).card := by
  have hlen := h.length_le
  rw [h.holds.card (by simpa using hlen), List.length_map, h.npkts]

/-- The packet at the read pointer is the oldest one. -/
theorem SkbSync.oldest (h : SkbSync queue s) : s.skb.packets s.skb.rptr = (queue.map Prod.fst).head? :=
  h.holds.first

/-- An address that holds no packet is not in the buffer. -/
theorem SkbSync.fresh (h : SkbSync queue s) {ptr : Nat} (hfree : s.heap ptr = none) :
    ptr ∉ queue.map Prod.fst := by
  intro hmem
  obtain ⟨p, hp, rfl⟩ := List.mem_map.mp hmem
  rw [h.live p hp] at hfree
  cases hfree

/-- Both writes store the packet. -/
theorem write_eq_put (kind : SkbKind) (s : SkbState) (ptr : Nat) :
    s.write kind ptr = (do let s ← s.put ptr; pure (s, 0)) := by
  cases kind <;> rfl

/-- A write into a buffer with room. -/
theorem put_of_room (hroom : s.skb.packets s.skb.wptr = none) (ptr : Nat) :
    s.put ptr = .ok { s with skb := { s.skb with
      packets := Function.update s.skb.packets s.skb.wptr (some ptr)
      wptr := s.skb.wptr + 1
      npkts := u64 (s.skb.npkts + 1) } } := by
  unfold SkbState.put
  rw [hroom]
  rfl

/-- A write over a packet that is allocated. -/
theorem put_of_taken {old : Nat} (htaken : s.skb.packets s.skb.wptr = some old) (ptr : Nat) :
    s.put ptr = .ok { heap := s.heap.free old
                      skb := { s.skb with
                        packets := Function.update s.skb.packets s.skb.wptr (some ptr)
                        wptr := s.skb.wptr + 1
                        npkts := u64 (s.skb.npkts + 1) } } := by
  unfold SkbState.put
  simp only [htaken, netdevDeallocPkt_some]
  rfl

/-- A read of a buffer that is not empty returns the oldest packet and moves on; at most that
packet is freed. -/
theorem SkbSync.read_oldest {oldest : Nat × Packet} {rest : SkbQueue}
    (h : SkbSync (oldest :: rest) s) {size : Nat} (hsize : 0 < size) (buf : Memory) :
    ∃ heap, (∀ ptr ≠ oldest.1, heap ptr = s.heap ptr) ∧
      s.read kind size buf = .ok (⟨heap, s.skb.advance⟩, replyOf kind oldest size buf) := by
  have hnpkts : s.skb.npkts ≠ 0 := by
    rw [h.npkts]
    simp
  have hslot : s.skb.packets s.skb.rptr = some oldest.1 := h.oldest
  have hlive : s.heap oldest.1 = some oldest.2 := h.live _ List.mem_cons_self
  cases kind with
  | udp =>
      refine ⟨s.heap.free oldest.1, fun ptr hne => PktHeap.free_of_ne hne, ?_⟩
      simp [SkbState.read, udpReadSkb, hnpkts, Nat.pos_iff_ne_zero.mp hsize, hslot,
        PktHeap.deref_some hlive, netdevDeallocPkt_some, Except.map, replyOf]
  | tcp =>
      refine ⟨s.heap, fun _ _ => rfl, ?_⟩
      simp [SkbState.read, skbGet, hnpkts, hslot, Except.map, replyOf]

/-- A UDP read of an empty buffer changes nothing. -/
theorem SkbSync.read_empty (h : SkbSync [] s) {size : Nat} (hsize : 0 < size) (buf : Memory) :
    s.read .udp size buf = .ok (s, .datagram (some buf) 0) := by
  have hnpkts : s.skb.npkts = 0 := h.npkts
  simp [SkbState.read, udpReadSkb, hnpkts, Nat.pos_iff_ne_zero.mp hsize, Except.map]

/-! ## Steps -/

/-- A write that finds room. -/
theorem SkbSync.write_room (h : SkbSync queue s) (hroom : queue.length < skbMaxSize) (ptr : Nat)
    (heap : PktHeap) :
    SkbState.write kind { s with heap := heap } ptr =
      .ok ({ heap := heap
             skb := { s.skb with
               packets := Function.update s.skb.packets s.skb.wptr (some ptr)
               wptr := s.skb.wptr + 1
               npkts := u64 (s.skb.npkts + 1) } }, 0) := by
  have hslot : s.skb.packets s.skb.wptr = none := by
    have hnone := h.holds.free (by simpa using hroom)
    rwa [List.length_map, ← h.wptr] at hnone
  rw [write_eq_put, put_of_room (s := ⟨heap, s.skb⟩) hslot]
  rfl

/-- A write that finds room appends its packet. -/
theorem SkbSync.put (h : SkbSync queue s) (hroom : queue.length < skbMaxSize) {ptr : Nat}
    {pkt : Packet} (hstep : SkbStep kind s (.put ptr pkt) s') :
    SkbSync (queue ++ [(ptr, pkt)]) s' := by
  cases hstep with
  | put hfree hwrite =>
      rw [h.write_room hroom] at hwrite
      obtain ⟨rfl, -⟩ := Prod.mk.inj (Except.ok.inj hwrite)
      have hfresh := h.fresh hfree
      constructor
      case length_le =>
        rw [List.length_append, List.length_singleton]
        omega
      case npkts =>
        have hbound : skbMaxSize = 10 := rfl
        simp only [h.npkts, List.length_append, List.length_singleton]
        exact u64_eq_of_lt (by omega)
      case wptr =>
        dsimp only
        rw [h.wptr, List.length_append, List.length_singleton, Ring.next_succ]
      case holds =>
        have happend := h.holds.append (x := ptr) (by simpa using hroom)
        rw [List.length_map, ← h.wptr] at happend
        simpa using happend
      case live =>
        intro p hp
        rcases List.mem_append.mp hp with hold | hnew
        · have hne : p.1 ≠ ptr := fun heq => hfresh (heq ▸ List.mem_map_of_mem hold)
          exact (PktHeap.alloc_of_ne hne).trans (h.live p hold)
        · obtain rfl := List.mem_singleton.mp hnew
          exact PktHeap.alloc_self _ _ _
      case nodup =>
        rw [List.map_append, List.map_singleton, ← List.concat_eq_append]
        exact h.nodup.concat hfresh

/-- The buffer after the oldest packet was taken, when only that packet may have been freed. -/
theorem SkbSync.advance {oldest : Nat × Packet} {rest : SkbQueue} (h : SkbSync (oldest :: rest) s)
    {heap : PktHeap} (hheap : ∀ ptr ≠ oldest.1, heap ptr = s.heap ptr) :
    SkbSync rest ⟨heap, s.skb.advance⟩ := by
  have hlen := h.length_le
  have hnodup := List.nodup_cons.mp (List.map_cons ▸ h.nodup)
  rw [List.length_cons] at hlen
  constructor
  case length_le => omega
  case nodup => exact hnodup.2
  case npkts =>
    have hbound : skbMaxSize = 10 := rfl
    simp only [Skb.advance, h.npkts, List.length_cons]
    unfold u64
    omega
  case wptr =>
    simp only [Skb.advance, h.wptr, List.length_cons]
    rw [Ring.succ_next]
  case holds => exact h.holds.tail (by simpa using hlen)
  case live =>
    intro p hp
    have hne : p.1 ≠ oldest.1 := fun heq => hnodup.1 (heq ▸ List.mem_map_of_mem hp)
    exact (hheap p.1 hne).trans (h.live p (List.mem_cons_of_mem _ hp))

/-- A read removes the oldest packet. -/
theorem SkbSync.get (h : SkbSync queue s) {size : Nat} {buf : Memory}
    (hstep : SkbStep kind s (.get size buf) s') : SkbSync queue.tail s' := by
  cases hstep with
  | get hsize htcp hread =>
      cases queue with
      | nil =>
          cases kind with
          | udp =>
              rw [h.read_empty hsize] at hread
              obtain ⟨rfl, -⟩ := Prod.mk.inj (Except.ok.inj hread)
              exact h
          | tcp =>
              have hpos := htcp rfl
              rw [h.npkts] at hpos
              exact absurd hpos (lt_irrefl 0)
      | cons oldest rest =>
          obtain ⟨heap, hheap, heq⟩ := h.read_oldest hsize buf
          rw [heq] at hread
          obtain ⟨rfl, -⟩ := Prod.mk.inj (Except.ok.inj hread)
          exact h.advance hheap

/-- Every packet of the queue stands in its slot. -/
theorem SkbSync.slot (h : SkbSync queue s) {i : Nat} (hi : i < queue.length) :
    s.skb.packets (s.skb.rptr + Fin.ofNat skbMaxSize i) = some queue[i].1 := by
  have hlt : i < skbMaxSize := lt_of_lt_of_le hi h.length_le
  rw [h.holds, Fin.val_ofNat, Nat.mod_eq_of_lt hlt, List.getElem?_map,
    List.getElem?_eq_getElem hi]
  rfl

/-- Other code leaves the packets of the buffer alone. -/
theorem SkbSync.other (h : SkbSync queue s) {heap : PktHeap}
    (hkeep : ∀ i ptr, s.skb.packets i = some ptr → heap ptr = s.heap ptr) :
    SkbSync queue ⟨heap, s.skb⟩ := by
  refine ⟨h.length_le, h.npkts, h.wptr, h.holds, fun p hp => ?_, h.nodup⟩
  obtain ⟨i, hi, hget⟩ := List.getElem_of_mem hp
  have hslot := h.slot hi
  rw [hget] at hslot
  exact (hkeep _ p.1 hslot).trans (h.live p hp)

/-- One call of a run without overflow. -/
theorem SkbSync.step (h : SkbSync queue s) {call : SkbCall} (hstep : SkbStep kind s call s')
    (hroom : ∀ ptr pkt, call = .put ptr pkt → queue.length < skbMaxSize) :
    SkbSync (queueStep queue call) s' := by
  cases call with
  | put ptr pkt =>
      have hlen := hroom ptr pkt rfl
      rw [queueStep, if_pos hlen]
      exact h.put hlen hstep
  | get size buf => exact h.get hstep
  | other heap =>
      cases hstep with
      | other hkeep => exact h.other hkeep

/-- A write into a full buffer frees the oldest packet but counts one packet more. -/
theorem SkbSync.put_full {oldest : Nat × Packet} {rest : SkbQueue}
    (h : SkbSync (oldest :: rest) s) (hfull : (oldest :: rest).length = skbMaxSize) (ptr : Nat)
    (pkt : Packet) :
    SkbState.write kind { s with heap := s.heap.alloc ptr pkt } ptr =
      .ok ({ heap := (s.heap.alloc ptr pkt).free oldest.1
             skb := { s.skb with
               packets := Function.update s.skb.packets s.skb.wptr (some ptr)
               wptr := s.skb.wptr + 1
               npkts := skbMaxSize + 1 } }, 0) := by
  have hslot : s.skb.packets s.skb.wptr = some oldest.1 := by
    rw [h.wptr, Ring.next_of_full hfull, h.oldest]
    rfl
  have hcount : u64 (s.skb.npkts + 1) = skbMaxSize + 1 := by
    rw [h.npkts, hfull]
    rfl
  rw [write_eq_put, put_of_taken (s := ⟨s.heap.alloc ptr pkt, s.skb⟩) hslot, hcount]
  rfl

/-! ## Runs without overflow -/

/-- A buffer that holds the intended queue keeps the promise. -/
theorem SkbSync.dropsOldestAt (h : SkbSync queue s) : DropsOldestAt kind queue s where
  bounded := h.npkts ▸ h.length_le
  counted := h.counted
  reads := by
    intro size buf hsize hpos
    cases queue with
    | nil =>
        rw [h.npkts] at hpos
        exact absurd hpos (lt_irrefl 0)
    | cons oldest rest =>
        obtain ⟨heap, -, hread⟩ := h.read_oldest hsize buf
        exact ⟨oldest, rest, _, rfl, hread⟩
  drops := by
    intro ptr pkt oldest rest hqueue hfull hfree
    subst hqueue
    exact ⟨_, _, h.put_full hfull ptr pkt, rfl⟩

theorem NoOverflow.of_prefix {calls pre : List SkbCall} (h : NoOverflow calls)
    (hpre : pre <+: calls) : NoOverflow pre :=
  fun short ptr pkt hshort => h short ptr pkt (hshort.trans hpre)

/-- In a run without overflow the buffer holds the intended queue. -/
theorem SkbSync.run {heap : PktHeap} {calls : List SkbCall}
    (hrun : Run (SkbStep kind) ⟨heap, Skb.empty⟩ calls s) (hroom : NoOverflow calls) :
    SkbSync (queueOf calls) s := by
  induction hrun with
  | nil => exact SkbSync.empty heap
  | snoc hfirst hlast ih =>
      rw [queueOf_concat]
      refine (ih (hroom.of_prefix (List.prefix_append _ _))).step hlast ?_
      rintro ptr pkt rfl
      exact hroom _ ptr pkt List.prefix_rfl

/-- The first write that finds ten packets breaks the bound on the count. -/
theorem noOverflow_of_dropsOldest {heap : PktHeap} {calls : List SkbCall}
    (hrun : Run (SkbStep kind) ⟨heap, Skb.empty⟩ calls s)
    (hdrops : DropsOldest kind ⟨heap, Skb.empty⟩ calls) : NoOverflow calls := by
  induction hrun with
  | nil =>
      intro pre ptr pkt hpre
      exact absurd (List.prefix_nil.mp hpre) (by simp)
  | @snoc calls before after call hfirst hlast ih =>
      have hroom := ih fun pre s hpre => hdrops pre s (hpre.trans (List.prefix_append _ _))
      have hsync := SkbSync.run hfirst hroom
      intro pre ptr pkt hpre
      rcases concat_prefix_concat hpre with ⟨rfl, rfl⟩ | hshort
      · by_contra hfull
        have hbound := (hdrops _ after List.prefix_rfl (hfirst.snoc hlast)).bounded
        have hlen := hsync.length_le
        generalize queueOf pre = queue at hsync hfull hlen
        cases queue with
        | nil => exact hfull (by decide)
        | cons oldest rest =>
            cases hlast with
            | put hfree hwrite =>
                rw [hsync.put_full (by omega)] at hwrite
                obtain ⟨rfl, -⟩ := Prod.mk.inj (Except.ok.inj hwrite)
                exact absurd hbound (by simp)
      · exact hroom pre ptr pkt hshort

/-- A run of writes and reads on a new buffer is one of the bounded queue that drops its oldest
packet exactly when no write finds ten unread packets. -/
theorem skb_dropsOldest_iff {heap : PktHeap} {calls : List SkbCall}
    (hrun : Run (SkbStep kind) ⟨heap, Skb.empty⟩ calls s) :
    DropsOldest kind ⟨heap, Skb.empty⟩ calls ↔ NoOverflow calls := by
  constructor
  · exact noOverflow_of_dropsOldest hrun
  · intro hroom pre mid hpre hmid
    exact (SkbSync.run hmid (hroom.of_prefix hpre)).dropsOldestAt

/-! ## Eleven writes -/

/-- A packet without data. -/
def emptyPacket : Packet where
  size := 0
  link := fun _ => 0
  net := ⟨0, 0, 0⟩
  transport := ⟨0, 0, 0⟩
  app := ⟨0, 0, 0⟩

/-- Writes of `k` new packets. -/
def writes (k : Nat) : List SkbCall := (List.range k).map fun i => .put i emptyPacket

theorem writes_succ (k : Nat) : writes (k + 1) = writes k ++ [.put k emptyPacket] := by
  simp [writes, List.range_succ]

/-- A new buffer, with no packet allocated anywhere. -/
def newBuffer : SkbState := ⟨.empty, Skb.empty⟩

theorem length_queueOf_writes {k : Nat} (hk : k ≤ skbMaxSize) : (queueOf (writes k)).length = k := by
  induction k with
  | zero => rfl
  | succ k ih =>
      have hlen := ih (by omega)
      rw [writes_succ, queueOf_concat, queueStep, if_pos (by omega), List.length_append, hlen,
        List.length_singleton]

/-- Up to ten writes complete without overflow, and use the addresses below `k`. -/
theorem writes_run {k : Nat} (hk : k ≤ skbMaxSize) :
    NoOverflow (writes k) ∧ ∃ s, Run (SkbStep .udp) newBuffer (writes k) s ∧
      ∀ ptr, k ≤ ptr → s.heap ptr = none := by
  induction k with
  | zero =>
      refine ⟨fun pre ptr pkt hpre => ?_, newBuffer, .nil, fun _ _ => rfl⟩
      exact absurd (List.prefix_nil.mp hpre) (by simp)
  | succ k ih =>
      obtain ⟨hroom, s, hrun, hfree⟩ := ih (by omega)
      have hlen := length_queueOf_writes (show k ≤ skbMaxSize by omega)
      rw [writes_succ]
      constructor
      · intro pre ptr pkt hpre
        rcases concat_prefix_concat hpre with ⟨rfl, -⟩ | hshort
        · omega
        · exact hroom pre ptr pkt hshort
      · have hsync := SkbSync.run hrun hroom
        refine ⟨_, hrun.snoc (.put (hfree k (Nat.le_refl k))
          (hsync.write_room (by omega) k (s.heap.alloc k emptyPacket))), fun ptr hptr => ?_⟩
        exact (PktHeap.alloc_of_ne (by omega)).trans (hfree ptr (by omega))

theorem ten_writes_dropsOldest : DropsOldest .udp newBuffer (writes 10) := by
  obtain ⟨hroom, s, hrun, -⟩ := writes_run (Nat.le_refl skbMaxSize)
  exact (skb_dropsOldest_iff hrun).mpr hroom

/-- The eleventh write completes, and the count is eleven. -/
theorem eleven_writes_not_dropsOldest :
    (∃ s, Run (SkbStep .udp) newBuffer (writes 11) s) ∧
      ¬ DropsOldest .udp newBuffer (writes 11) := by
  obtain ⟨hroom, s, hrun, hfree⟩ := writes_run (Nat.le_refl skbMaxSize)
  have hlen := length_queueOf_writes (Nat.le_refl skbMaxSize)
  have hsync := SkbSync.run hrun hroom
  have hlast : ∃ s', SkbStep .udp s (.put skbMaxSize emptyPacket) s' := by
    generalize queueOf (writes skbMaxSize) = queue at hsync hlen
    cases queue with
    | nil => exact absurd hlen (by decide)
    | cons oldest rest =>
        have hptr := hfree skbMaxSize (Nat.le_refl _)
        exact ⟨_, .put hptr (hsync.put_full hlen skbMaxSize emptyPacket)⟩
  obtain ⟨s', hstep⟩ := hlast
  have hrun' : Run (SkbStep .udp) newBuffer (writes 11) s' := writes_succ skbMaxSize ▸ hrun.snoc hstep
  refine ⟨⟨s', hrun'⟩, fun hdrops => ?_⟩
  have hover := noOverflow_of_dropsOldest hrun' hdrops (writes 10) 10 emptyPacket
    (writes_succ 10 ▸ List.prefix_rfl)
  exact absurd hlen (Nat.ne_of_lt hover)

end Net
end Micael
