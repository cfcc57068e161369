import Micael.Net.Skb

/-!
# Reading a TCP stream

`__tcp_read` takes the payloads of the queued segments one after the other: a segment that is used
up is freed, one that is not leaves its position in `sptr`.  Every copy goes to the start of the
caller's buffer.

The payload of a segment is what follows its 20-byte header, up to `transport.size`.  A read that
found the buffer empty has slept, and the model starts where it wakes up.

Main results:

- Theorem {lit}`tcpReadLoop_spec`: how many bytes a read returns, what it leaves, and what is in the
  caller's buffer when the bytes come from one segment.
- Theorem {lit}`tcp_stream_of_reads_fit`: in a run whose reads each take bytes from one segment at most, the
  reads return the payloads in order.
- Theorem {lit}`two_segments_overwritten`: a read over two segments returns the second one first.
-/

namespace Micael
namespace Net

open Foundation Kernel

/-- `sizeof(tcp_pkt_t)`. -/
def tcpHdrSize : Nat := 20

/-- The `while` loop of `__tcp_read`, with `fuel` turns left.  `kmemcpy` takes its length as a
`size_t`, so a negative one runs out of every mapping. -/
def tcpReadLoop : Nat → SkbState → Memory → Int → Int → Except Halt (SkbState × Memory × Int)
  | 0, _, _, _, _ => .error .hang
  | fuel + 1, s, buf, left, ptr =>
      if 0 < left ∧ s.skb.npkts ≠ 0 then do
        let cur ← s.heap.deref (s.skb.packets s.skb.rptr)
        let psize := ssizeOfInt ((cur.transport.size : Int) - tcpHdrSize - s.skb.sptr)
        if psize ≤ left then do
          let got ← skbGet s
          let s := got.1
          let cur ← s.heap.deref got.2
          if psize < 0 then .error .fault
          else do
            let mem := cur.transport.packet + tcpHdrSize + s.skb.sptr
            let buf := kmemcpy buf 0 cur.link mem psize.toNat
            let heap ← netdevDeallocPkt s.heap got.2
            tcpReadLoop fuel ⟨heap, { s.skb with sptr := 0 }⟩ buf (left - psize) (ptr + psize)
        else
          let mem := cur.transport.packet + tcpHdrSize + s.skb.sptr
          let buf := kmemcpy buf 0 cur.link mem left.toNat
          let skb := { s.skb with sptr := u64 (s.skb.sptr + left.toNat) }
          tcpReadLoop fuel { s with skb := skb } buf (left - left) (ptr + left)
      else
        .ok (s, buf, ptr)

/-- `__tcp_read` from where it has packets or was woken up: every turn but the last two takes a
packet. -/
def tcpRead (s : SkbState) (size : Nat) (buf : Memory) : Except Halt (SkbState × Memory × Int) :=
  tcpReadLoop (s.skb.npkts + 2) s buf (ssizeOfInt size) 0

/-! ## Unread payloads -/

/-- The payload of a segment. -/
def payload (pkt : Packet) : List UInt8 :=
  pkt.view pkt.transport tcpHdrSize (pkt.transport.size - tcpHdrSize)

/-- The unread payloads of a sequence of segments when `sptr` bytes of the first are used. -/
def unreadOf (sptr : Nat) : List Packet → List (List UInt8)
  | [] => []
  | first :: rest => (payload first).drop sptr :: rest.map payload

/-- The segments in the buffer, oldest first. -/
def SkbState.segments (s : SkbState) : List Packet :=
  (List.range s.skb.npkts).filterMap fun i =>
    (s.skb.packets (s.skb.rptr + Fin.ofNat skbMaxSize i)).bind s.heap

/-- The unread payloads in the buffer. -/
def SkbState.unread (s : SkbState) : List (List UInt8) := unreadOf s.skb.sptr s.segments

/-- A read of `size` bytes takes bytes from at most one of the segments: from the first that is not
empty. -/
def ReadFits (size : Nat) : List (List UInt8) → Prop
  | [] => True
  | segment :: rest =>
      if segment = [] then ReadFits size rest
      else size ≤ segment.length ∨ ∀ other ∈ rest, other = []

variable {queue : SkbQueue} {s s' : SkbState}

/-- Reading a list index by index. -/
theorem filterMap_range_getElem {α : Type} (l : List α) :
    (List.range l.length).filterMap (fun i => l[i]?) = l := by
  induction l with
  | nil => rfl
  | cons a l ih =>
      rw [List.length_cons, List.range_succ_eq_map]
      simpa [Function.comp_def] using ih

/-- The segments of a buffer that holds its queue. -/
theorem SkbSync.segments (h : SkbSync queue s) : s.segments = queue.map Prod.snd := by
  have hslots : ∀ i ∈ List.range queue.length,
      (s.skb.packets (s.skb.rptr + Fin.ofNat skbMaxSize i)).bind s.heap =
        (queue.map Prod.snd)[i]? := by
    intro i hi
    have hlt := List.mem_range.mp hi
    rw [h.slot hlt, Option.bind_some, h.live _ (List.getElem_mem hlt), List.getElem?_map,
      List.getElem?_eq_getElem hlt]
    rfl
  rw [SkbState.segments, h.npkts, List.filterMap_congr hslots]
  simpa using filterMap_range_getElem (queue.map Prod.snd)

/-- The buffer holds well-formed segments, and the stream pointer lies in the first one. -/
structure SegSync (queue : SkbQueue) (s : SkbState) : Prop extends SkbSync queue s where
  header : ∀ p ∈ queue, tcpHdrSize ≤ p.2.transport.size ∧ p.2.transport.size < 2 ^ 16
  sptr : s.skb.sptr ≤ (queue.head?.elim 0 fun p => p.2.transport.size - tcpHdrSize)

theorem SegSync.empty (heap : PktHeap) : SegSync [] ⟨heap, Skb.empty⟩ where
  toSkbSync := SkbSync.empty heap
  header := fun _ hp => absurd hp List.not_mem_nil
  sptr := Nat.le_refl 0

theorem length_payload (pkt : Packet) : (payload pkt).length = pkt.transport.size - tcpHdrSize := by
  simp [payload, Packet.view]

theorem SegSync.unread (h : SegSync queue s) :
    s.unread = unreadOf s.skb.sptr (queue.map Prod.snd) := by
  rw [SkbState.unread, h.toSkbSync.segments]

/-- The bytes of a segment from the stream pointer on. -/
theorem drop_payload (pkt : Packet) (k : Nat) :
    (payload pkt).drop k =
      pkt.link.bytes (pkt.transport.packet + tcpHdrSize + k) (pkt.transport.size - tcpHdrSize - k) := by
  rw [payload, Packet.view, Memory.drop_bytes]

/-! ## One turn of the loop -/

/-- The loop ends when nothing is left to read, or no packet is there. -/
theorem tcpReadLoop_stop {left : Int} (h : ¬ (0 < left ∧ s.skb.npkts ≠ 0)) (fuel : Nat)
    (buf : Memory) (ptr : Int) :
    tcpReadLoop (fuel + 1) s buf left ptr = .ok (s, buf, ptr) := by
  rw [tcpReadLoop, if_neg h]

variable {first : Nat × Packet} {rest : SkbQueue}

/-- The size the loop computes for the first segment. -/
theorem SegSync.psize (h : SegSync (first :: rest) s) :
    ssizeOfInt ((first.2.transport.size : Int) - tcpHdrSize - s.skb.sptr) =
      ((first.2.transport.size - tcpHdrSize - s.skb.sptr : Nat) : Int) := by
  have hheader := h.header first List.mem_cons_self
  have hsptr : s.skb.sptr ≤ first.2.transport.size - tcpHdrSize := h.sptr
  have hcast : (first.2.transport.size : Int) - tcpHdrSize - s.skb.sptr =
      ((first.2.transport.size - tcpHdrSize - s.skb.sptr : Nat) : Int) := by omega
  rw [hcast, ssizeOfInt, Int.bmod_eq_of_le (by omega) (by omega)]

/-- A turn that uses up the first segment. -/
theorem SegSync.tcpReadLoop_take (h : SegSync (first :: rest) s) {left : Nat} (hpos : 0 < left)
    (hle : first.2.transport.size - tcpHdrSize - s.skb.sptr ≤ left) (fuel : Nat) (buf : Memory)
    (ptr : Int) :
    let psize := first.2.transport.size - tcpHdrSize - s.skb.sptr
    tcpReadLoop (fuel + 1) s buf left ptr =
      tcpReadLoop fuel ⟨s.heap.free first.1, { s.skb.advance with sptr := 0 }⟩
        (kmemcpy buf 0 first.2.link (first.2.transport.packet + tcpHdrSize + s.skb.sptr) psize)
        ((left - psize : Nat) : Int) (ptr + psize) := by
  have hnpkts : s.skb.npkts ≠ 0 := by
    rw [h.npkts]
    simp
  have hslot : s.skb.packets s.skb.rptr = some first.1 := h.toSkbSync.oldest
  have hlive : s.heap first.1 = some first.2 := h.live _ List.mem_cons_self
  have hget : skbGet s = .ok (⟨s.heap, s.skb.advance⟩, some first.1) := by
    rw [skbGet, if_neg hnpkts, hslot]
  dsimp only
  rw [tcpReadLoop, if_pos ⟨by omega, hnpkts⟩, hslot, PktHeap.deref_some hlive, Halt.ok_bind,
    h.psize]
  dsimp only
  rw [if_pos (by omega), hget, Halt.ok_bind]
  dsimp only
  rw [PktHeap.deref_some hlive, Halt.ok_bind, if_neg (by omega), netdevDeallocPkt_some,
    Halt.ok_bind, Int.toNat_natCast, Nat.cast_sub hle]
  rfl

/-- A turn that ends inside the first segment. -/
theorem SegSync.tcpReadLoop_part (h : SegSync (first :: rest) s) {left : Nat} (hpos : 0 < left)
    (hlt : left < first.2.transport.size - tcpHdrSize - s.skb.sptr) (fuel : Nat) (buf : Memory)
    (ptr : Int) :
    tcpReadLoop (fuel + 1) s buf left ptr =
      tcpReadLoop fuel ⟨s.heap, { s.skb with sptr := s.skb.sptr + left }⟩
        (kmemcpy buf 0 first.2.link (first.2.transport.packet + tcpHdrSize + s.skb.sptr) left)
        0 (ptr + left) := by
  have hnpkts : s.skb.npkts ≠ 0 := by
    rw [h.npkts]
    simp
  have hslot : s.skb.packets s.skb.rptr = some first.1 := h.toSkbSync.oldest
  have hlive : s.heap first.1 = some first.2 := h.live _ List.mem_cons_self
  have hheader := h.header first List.mem_cons_self
  have hsptr : u64 (s.skb.sptr + left) = s.skb.sptr + left := u64_eq_of_lt (by omega)
  rw [tcpReadLoop, if_pos ⟨by omega, hnpkts⟩, hslot, PktHeap.deref_some hlive, Halt.ok_bind,
    h.psize]
  dsimp only
  rw [if_neg (by omega), Int.toNat_natCast, hsptr, sub_self]

/-- The buffer after the first segment was used up. -/
theorem SegSync.take (h : SegSync (first :: rest) s) :
    SegSync rest ⟨s.heap.free first.1, { s.skb.advance with sptr := 0 }⟩ := by
  have hsync : SkbSync rest ⟨s.heap.free first.1, s.skb.advance⟩ :=
    h.toSkbSync.advance fun ptr hne => PktHeap.free_of_ne hne
  exact { length_le := hsync.length_le
          npkts := hsync.npkts
          wptr := hsync.wptr
          holds := hsync.holds
          live := hsync.live
          nodup := hsync.nodup
          header := fun p hp => h.header p (List.mem_cons_of_mem _ hp)
          sptr := Nat.zero_le _ }

/-- The buffer after a part of the first segment was used. -/
theorem SegSync.part (h : SegSync (first :: rest) s) {left : Nat}
    (hlt : left < first.2.transport.size - tcpHdrSize - s.skb.sptr) :
    SegSync (first :: rest) ⟨s.heap, { s.skb with sptr := s.skb.sptr + left }⟩ :=
  { length_le := h.length_le
    npkts := h.npkts
    wptr := h.wptr
    holds := h.holds
    live := h.live
    nodup := h.nodup
    header := h.header
    sptr := show s.skb.sptr + left ≤ first.2.transport.size - tcpHdrSize by omega }

/-! ## The loop -/

theorem unreadOf_zero (segments : List Packet) : unreadOf 0 segments = segments.map payload := by
  cases segments <;> rfl

/-- What a read of `left` bytes leaves in the socket buffer and in the caller's buffer. -/
structure ReadSpec (s : SkbState) (left : Nat) (buf : Memory) (s' : SkbState) (buf' : Memory) :
    Prop where
  /-- The bytes counted are no longer unread. -/
  rest : s'.unread.flatten = s.unread.flatten.drop left
  /-- Empty segments leave the caller's buffer alone, and so does a read of nothing. -/
  untouched : left = 0 ∨ (∀ segment ∈ s.unread, segment = []) → buf' = buf
  /-- Bytes from one segment stand at the start of the caller's buffer. -/
  bytes : ReadFits left s.unread →
    buf'.bytes 0 (min left s.unread.flatten.length) = s.unread.flatten.take left

/-- Nothing is read when nothing is asked for, or nothing is there. -/
theorem ReadSpec.stop {left : Nat} (h : left = 0 ∨ s.unread = []) (buf : Memory) :
    ReadSpec s left buf s buf := by
  rcases h with rfl | hnil
  · exact ⟨rfl, fun _ => rfl, fun _ => by simp⟩
  · exact ⟨by simp [hnil], fun _ => rfl, fun _ => by simp [hnil]⟩

/-- A read that ends inside the first segment. -/
theorem ReadSpec.part {left : Nat} {segment : List UInt8} {others : List (List UInt8)}
    (hs : s.unread = segment :: others) (hs' : s'.unread = segment.drop left :: others)
    (hpos : 0 < left) (hlt : left < segment.length) {buf buf' : Memory}
    (hbytes : buf'.bytes 0 left = segment.take left) : ReadSpec s left buf s' buf' := by
  refine ⟨?_, ?_, ?_⟩
  · rw [hs, hs', List.flatten_cons, List.flatten_cons, List.drop_append_of_le_length hlt.le]
  · rintro (hzero | hempty)
    · omega
    · rw [hs] at hempty
      rw [hempty segment List.mem_cons_self] at hlt
      exact absurd hlt (Nat.not_lt_zero _)
  · intro _
    have hmin : min left s.unread.flatten.length = left := by
      rw [hs, List.flatten_cons, List.length_append]
      omega
    rw [hmin, hbytes, hs, List.flatten_cons, List.take_append_of_le_length hlt.le]

/-- A read that uses up the first segment, copied to `mid`, and goes on with the others. -/
theorem ReadSpec.take {left : Nat} {segment : List UInt8} {others : List (List UInt8)}
    {mid : SkbState} {buf copied buf' : Memory} (hs : s.unread = segment :: others)
    (hmid : mid.unread = others) (hle : segment.length ≤ left)
    (hempty : segment = [] → copied = buf) (hcopied : copied.bytes 0 segment.length = segment)
    (hrest : ReadSpec mid (left - segment.length) copied s' buf') : ReadSpec s left buf s' buf' := by
  have hflat : s.unread.flatten = segment ++ mid.unread.flatten := by
    rw [hs, List.flatten_cons, hmid]
  refine ⟨?_, ?_, ?_⟩
  · rw [hrest.rest, hflat, List.drop_append, List.drop_of_length_le hle, List.nil_append]
  · rintro (hzero | hall)
    · rw [hrest.untouched (Or.inl (by omega))]
      exact hempty (List.eq_nil_of_length_eq_zero (by omega))
    · rw [hs] at hall
      have hothers : ∀ other ∈ mid.unread, other = [] := by
        intro other hother
        exact hall other (List.mem_cons_of_mem _ (hmid ▸ hother))
      rw [hrest.untouched (Or.inr hothers)]
      exact hempty (hall segment List.mem_cons_self)
  · intro hfits
    rw [hs, ReadFits] at hfits
    by_cases hnil : segment = []
    · -- an empty segment: the bytes come from the others
      rw [if_pos hnil] at hfits
      subst hnil
      have hbytes := hrest.bytes (hmid ▸ hfits)
      simpa [hflat] using hbytes
    · -- the last segment with bytes: what follows leaves the buffer alone
      rw [if_neg hnil] at hfits
      have hothers : left - segment.length = 0 ∨ ∀ other ∈ mid.unread, other = [] := by
        rcases hfits with hsmall | hall
        · exact Or.inl (by omega)
        · exact Or.inr (hmid ▸ hall)
      have htake : mid.unread.flatten.take (left - segment.length) = [] := by
        rcases hothers with hzero | hall
        · rw [hzero, List.take_zero]
        · rw [List.flatten_eq_nil_iff.mpr hall, List.take_nil]
      have hmin : min left s.unread.flatten.length = segment.length := by
        have hlen := congrArg List.length htake
        rw [List.length_take, List.length_nil] at hlen
        rw [hflat, List.length_append]
        omega
      rw [hmin, hrest.untouched hothers, hcopied, hflat, List.take_append,
        List.take_of_length_le hle, htake, List.append_nil]

/-- The loop returns: it counts the unread bytes up to what was asked for, and it keeps what the
buffer promises. -/
theorem tcpReadLoop_spec (h : SegSync queue s) {fuel : Nat} (hfuel : queue.length < fuel)
    (buf : Memory) (left : Nat) (ptr : Int) :
    ∃ s' queue' buf', tcpReadLoop fuel s buf left ptr =
        .ok (s', buf', ptr + (min left s.unread.flatten.length : Nat)) ∧
      SegSync queue' s' ∧ ReadSpec s left buf s' buf' := by
  induction queue generalizing s fuel buf left ptr with
  | nil =>
      obtain ⟨fuel, rfl⟩ := Nat.exists_eq_succ_of_ne_zero (Nat.ne_of_gt hfuel)
      have hunread : s.unread = [] := h.unread
      refine ⟨s, [], buf, ?_, h, ReadSpec.stop (Or.inr hunread) buf⟩
      rw [tcpReadLoop_stop (by simp [h.npkts]), hunread]
      simp
  | cons first rest ih =>
      obtain ⟨fuel, rfl⟩ := Nat.exists_eq_succ_of_ne_zero (Nat.ne_of_gt (Nat.zero_lt_of_lt hfuel))
      rw [List.length_cons, Nat.succ_eq_add_one] at hfuel
      have hunread : s.unread = (payload first.2).drop s.skb.sptr :: rest.map (payload ∘ Prod.snd) := by
        rw [h.unread, List.map_cons, unreadOf, List.map_map]
      have hlen : ((payload first.2).drop s.skb.sptr).length =
          first.2.transport.size - tcpHdrSize - s.skb.sptr := by
        rw [List.length_drop, length_payload]
      rcases Nat.eq_zero_or_pos left with rfl | hpos
      · refine ⟨s, first :: rest, buf, ?_, h, ReadSpec.stop (Or.inl rfl) buf⟩
        rw [tcpReadLoop_stop (by simp), Nat.zero_min, Nat.cast_zero, add_zero]
      rcases Nat.lt_or_ge left (first.2.transport.size - tcpHdrSize - s.skb.sptr) with hlt | hge
      · -- the read ends inside the first segment
        obtain ⟨fuel, rfl⟩ := Nat.exists_eq_succ_of_ne_zero (by omega : fuel ≠ 0)
        refine ⟨_, first :: rest, kmemcpy buf 0 first.2.link
          (first.2.transport.packet + tcpHdrSize + s.skb.sptr) left, ?_, h.part hlt, ?_⟩
        · rw [h.tcpReadLoop_part hpos hlt, tcpReadLoop_stop (by simp), hunread, List.flatten_cons,
            List.length_append, hlen, Nat.min_eq_left (by omega)]
        · refine ReadSpec.part hunread ?_ hpos (by omega) ?_
          · rw [(h.part hlt).unread, List.map_cons, unreadOf, List.map_map, List.drop_drop]
          · rw [bytes_kmemcpy, drop_payload, Memory.take_bytes hlt.le]
      · -- the first segment is used up
        obtain ⟨s', queue', buf', hloop, hsync, hspec⟩ := ih h.take (by omega : rest.length < fuel)
          (kmemcpy buf 0 first.2.link (first.2.transport.packet + tcpHdrSize + s.skb.sptr)
            (first.2.transport.size - tcpHdrSize - s.skb.sptr))
          (left - (first.2.transport.size - tcpHdrSize - s.skb.sptr))
          (ptr + (first.2.transport.size - tcpHdrSize - s.skb.sptr : Nat))
        have hmid := h.take.unread
        rw [unreadOf_zero, List.map_map] at hmid
        have hcount : ∀ psize n : Nat, psize ≤ left →
            ptr + psize + (min (left - psize) n : Nat) = ptr + (min left (psize + n) : Nat) := by
          intro psize n hle
          omega
        refine ⟨s', queue', buf', ?_, hsync, ?_⟩
        · rw [h.tcpReadLoop_take hpos hge, hloop, hmid, hunread, List.flatten_cons,
            List.length_append, hlen, hcount _ _ hge]
        · rw [← hlen] at hspec hge
          refine ReadSpec.take hunread hmid hge ?_ ?_ hspec
          · intro hnil
            rw [hnil]
            rfl
          · rw [bytes_kmemcpy, hlen, drop_payload]

theorem ssizeOfInt_of_lt {size : Nat} (h : size < 2 ^ 63) : ssizeOfInt size = size := by
  rw [ssizeOfInt, Int.bmod_eq_of_le (by omega) (by omega)]

theorem ssizeOfInt_of_ge {size : Nat} (hge : 2 ^ 63 ≤ size) (hlt : size < 2 ^ 64) :
    ssizeOfInt size < 0 := by
  rw [ssizeOfInt, Int.bmod_def]
  split <;> omega

/-- A read returns, with `n` bytes of the stream. -/
theorem SegSync.tcpRead (h : SegSync queue s) {size : Nat} (hsize : size < 2 ^ 64) (buf : Memory) :
    ∃ s' queue' buf' n, tcpRead s size buf = .ok (s', buf', ((n : Nat) : Int)) ∧
      SegSync queue' s' ∧ s'.unread.flatten = s.unread.flatten.drop n ∧
      (ReadFits size s.unread → buf'.bytes 0 n = s.unread.flatten.take n) ∧
      (size < 2 ^ 63 → n = min size s.unread.flatten.length) := by
  rcases Nat.lt_or_ge size (2 ^ 63) with hlt | hge
  · obtain ⟨s', queue', buf', hloop, hsync, hspec⟩ :=
      tcpReadLoop_spec h (by rw [h.npkts]; omega : queue.length < s.skb.npkts + 2) buf size 0
    have hdrop : s.unread.flatten.drop size =
        s.unread.flatten.drop (min size s.unread.flatten.length) := List.drop_eq_drop_min
    have htake : s.unread.flatten.take size =
        s.unread.flatten.take (min size s.unread.flatten.length) := List.take_eq_take_min
    refine ⟨s', queue', buf', _, ?_, hsync, hspec.rest.trans hdrop,
      fun hfits => (hspec.bytes hfits).trans htake, fun _ => rfl⟩
    rw [Net.tcpRead, ssizeOfInt_of_lt hlt, hloop, zero_add]
  · -- as an `ssize_t` the size is negative and nothing is read
    have hneg := ssizeOfInt_of_ge hge hsize
    refine ⟨s, queue, buf, 0, ?_, h, rfl, fun _ => rfl, by omega⟩
    rw [Net.tcpRead, tcpReadLoop_stop (by omega)]
    rfl

/-! ## Runs -/

/-- The calls of a run, reads with the buffer and the length they returned. -/
inductive TcpCall where
  | arrive (ptr : Nat) (pkt : Packet)
  | read (size : Nat) (buf : Memory) (n : Int)
  | other (heap : PktHeap)

/-- One call.  Segments have their header and arrive while there is room; a size is a
`size_t`. -/
inductive TcpStep : SkbState → TcpCall → SkbState → Prop
  | arrive {s s' : SkbState} {ptr : Nat} {pkt : Packet} :
      tcpHdrSize ≤ pkt.transport.size → pkt.transport.size < 2 ^ 16 →
      s.skb.npkts < skbMaxSize → SkbStep .tcp s (.put ptr pkt) s' → TcpStep s (.arrive ptr pkt) s'
  | read {s s' : SkbState} {size : Nat} {buf buf' : Memory} {n : Int} : size < 2 ^ 64 →
      tcpRead s size buf = .ok (s', buf', n) → TcpStep s (.read size buf' n) s'
  | other {s s' : SkbState} {heap : PktHeap} : SkbStep .tcp s (.other heap) s' →
      TcpStep s (.other heap) s'

/-- The payload that a call adds to the stream. -/
def TcpCall.arrived : TcpCall → List UInt8
  | .arrive _ pkt => payload pkt
  | _ => []

/-- The bytes that a call returns to the reader. -/
def TcpCall.delivered : TcpCall → List UInt8
  | .read _ buf n => buf.bytes 0 n.toNat
  | _ => []

/-- The payloads of a run, in the order of their arrival. -/
def arrived (calls : List TcpCall) : List UInt8 := calls.flatMap TcpCall.arrived

/-- The bytes that the reads of a run returned. -/
def delivered (calls : List TcpCall) : List UInt8 := calls.flatMap TcpCall.delivered

/-- What a stream promises after the calls of a run. -/
structure IsTcpStream (calls : List TcpCall) (s : SkbState) : Prop where
  /-- The bytes read are a prefix of the stream. -/
  inOrder : delivered calls <+: arrived calls
  /-- Nothing is lost or repeated: the rest of the stream is unread. -/
  complete : delivered calls ++ s.unread.flatten = arrived calls
  /-- Every read returns. -/
  returns : ∀ size buf, size < 2 ^ 64 → ∃ r, tcpRead s size buf = .ok r

/-- Every read of the run takes bytes from one segment at most. -/
def ReadsFit (start : SkbState) (calls : List TcpCall) : Prop :=
  ∀ pre size buf n s, pre ++ [.read size buf n] <+: calls → Run TcpStep start pre s →
    ReadFits size s.unread

/-- A read that returned, from some buffer of its caller. -/
theorem read_returned {size : Nat} {buf' : Memory} {n : Int}
    (hstep : TcpStep s (.read size buf' n) s') :
    ∃ buf, size < 2 ^ 64 ∧ tcpRead s size buf = .ok (s', buf', n) := by
  cases hstep with
  | read hsize hread => exact ⟨_, hsize, hread⟩

/-- A segment that arrives is appended to the stream. -/
theorem SegSync.arrive (h : SegSync queue s) {ptr : Nat} {pkt : Packet}
    (hstep : TcpStep s (.arrive ptr pkt) s') :
    SegSync (queue ++ [(ptr, pkt)]) s' ∧ s'.unread.flatten = s.unread.flatten ++ payload pkt := by
  cases hstep with
  | arrive hheader hlt hroom hput =>
      rw [h.npkts] at hroom
      have hsync := h.toSkbSync.put hroom hput
      have hsptr : s'.skb.sptr = s.skb.sptr := by
        cases hput with
        | put hfree hwrite =>
            rw [h.toSkbSync.write_room hroom] at hwrite
            obtain ⟨rfl, -⟩ := Prod.mk.inj (Except.ok.inj hwrite)
            rfl
      have hold := h.sptr
      have hseg : SegSync (queue ++ [(ptr, pkt)]) s' := by
        refine { toSkbSync := hsync, header := ?_, sptr := ?_ }
        · intro p hp
          rcases List.mem_append.mp hp with hmem | hmem
          · exact h.header p hmem
          · obtain rfl := List.mem_singleton.mp hmem
            exact ⟨hheader, hlt⟩
        · rw [hsptr]
          cases queue with
          | nil => exact le_trans hold (Nat.zero_le _)
          | cons first rest => exact hold
      refine ⟨hseg, ?_⟩
      rw [hseg.unread, h.unread, hsptr]
      cases queue with
      | nil =>
          obtain hzero : s.skb.sptr = 0 := Nat.le_zero.mp hold
          simp [unreadOf, hzero]
      | cons first rest => simp [unreadOf]

/-- The bytes returned and the bytes unread make up the stream. -/
theorem segSync_run {heap : PktHeap} {calls : List TcpCall}
    (hrun : Run TcpStep ⟨heap, Skb.empty⟩ calls s) (hfits : ReadsFit ⟨heap, Skb.empty⟩ calls) :
    (∃ queue, SegSync queue s) ∧ delivered calls ++ s.unread.flatten = arrived calls := by
  induction hrun with
  | nil => exact ⟨⟨[], SegSync.empty heap⟩, rfl⟩
  | @snoc calls before after call hfirst hlast ih =>
      obtain ⟨⟨queue, hsync⟩, hstream⟩ := ih fun pre size buf n s hpre =>
        hfits pre size buf n s (hpre.trans (List.prefix_append _ _))
      rw [delivered, List.flatMap_append, List.flatMap_singleton, ← delivered, arrived,
        List.flatMap_append, List.flatMap_singleton, ← arrived, ← hstream]
      cases call with
      | arrive ptr pkt =>
          obtain ⟨hsync', hunread⟩ := hsync.arrive hlast
          refine ⟨⟨_, hsync'⟩, ?_⟩
          rw [hunread]
          simp [TcpCall.delivered, TcpCall.arrived]
      | other heap' =>
          cases hlast with
          | other hother =>
              cases hother with
              | other hkeep =>
                  have hsync' : SegSync queue ⟨heap', before.skb⟩ :=
                    { toSkbSync := hsync.toSkbSync.other hkeep
                      header := hsync.header
                      sptr := hsync.sptr }
                  refine ⟨⟨queue, hsync'⟩, ?_⟩
                  rw [hsync'.unread, hsync.unread]
                  simp [TcpCall.delivered, TcpCall.arrived]
      | read size buf n =>
          have hfit := hfits _ size buf n _ List.prefix_rfl hfirst
          obtain ⟨buf₀, hsize, hread⟩ := read_returned hlast
          obtain ⟨s', queue', buf', k, heq, hsync', hrest, hbytes, -⟩ := hsync.tcpRead hsize buf₀
          rw [heq] at hread
          obtain ⟨rfl, hpair⟩ := Prod.mk.inj (Except.ok.inj hread)
          obtain ⟨rfl, rfl⟩ := Prod.mk.inj hpair
          have hdelivered : TcpCall.delivered (.read size buf' (k : Int)) = buf'.bytes 0 k := rfl
          have harrived : TcpCall.arrived (.read size buf' (k : Int)) = [] := rfl
          refine ⟨⟨queue', hsync'⟩, ?_⟩
          rw [hrest, hdelivered, harrived, hbytes hfit]
          simp

/-- In a run whose reads each take bytes from one segment at most, the reads return the payloads of
the segments in the order of their arrival. -/
theorem tcp_stream_of_reads_fit {heap : PktHeap} {calls : List TcpCall}
    (hrun : Run TcpStep ⟨heap, Skb.empty⟩ calls s) (hfits : ReadsFit ⟨heap, Skb.empty⟩ calls) :
    IsTcpStream calls s := by
  obtain ⟨⟨queue, hsync⟩, hstream⟩ := segSync_run hrun hfits
  refine ⟨⟨_, hstream⟩, hstream, fun size buf hsize => ?_⟩
  obtain ⟨s', queue', buf', n, hread, -⟩ := hsync.tcpRead hsize buf
  exact ⟨_, hread⟩

/-! ## Two segments of one byte -/

/-- A segment whose payload is one byte. -/
def byteSegment (byte : UInt8) : Packet where
  size := 55
  link := fun x => if x = 54 then byte else 0
  net := ⟨0x0800, 41, 14⟩
  transport := ⟨6, 21, 34⟩
  app := ⟨0, 0, 0⟩

/-- A segment can arrive while there is room. -/
theorem SegSync.exists_arrive (h : SegSync queue s) (hroom : queue.length < skbMaxSize) {ptr : Nat}
    (hfree : s.heap ptr = none) (byte : UInt8) :
    ∃ s', TcpStep s (.arrive ptr (byteSegment byte)) s' ∧ s'.skb.sptr = s.skb.sptr ∧
      s'.heap = s.heap.alloc ptr (byteSegment byte) :=
  ⟨_, .arrive (show 20 ≤ 21 by decide) (show 21 < 2 ^ 16 by decide) (h.npkts ▸ hroom)
    (.put hfree (h.toSkbSync.write_room hroom ptr (s.heap.alloc ptr (byteSegment byte)))), rfl, rfl⟩

/-- Two segments in an empty buffer. -/
theorem two_segments_arrive : ∃ s,
    Run TcpStep newBuffer [.arrive 0 (byteSegment 1), .arrive 1 (byteSegment 2)] s ∧
      SegSync [(0, byteSegment 1), (1, byteSegment 2)] s ∧ s.skb.sptr = 0 ∧ s.unread.flatten.length = 2 := by
  obtain ⟨s₁, hstep₁, hsptr₁, hheap₁⟩ :=
    (SegSync.empty _).exists_arrive (by decide) (show newBuffer.heap 0 = none from rfl) 1
  obtain ⟨hsync₁, hunread₁⟩ := (SegSync.empty _).arrive hstep₁
  have hfree : s₁.heap 1 = none := by
    rw [hheap₁]
    exact PktHeap.alloc_of_ne (by decide)
  obtain ⟨s₂, hstep₂, hsptr₂, -⟩ := hsync₁.exists_arrive (show 1 < skbMaxSize by decide) hfree 2
  obtain ⟨hsync₂, hunread₂⟩ := hsync₁.arrive hstep₂
  refine ⟨s₂, .snoc (.snoc .nil hstep₁) hstep₂, hsync₂, hsptr₂.trans hsptr₁, ?_⟩
  rw [hunread₂, hunread₁, List.length_append, List.length_append, length_payload, length_payload]
  rfl

/-- A read of one byte takes it from one segment. -/
theorem readFits_byte (unread : List (List UInt8)) : ReadFits 1 unread := by
  induction unread with
  | nil => trivial
  | cons segment rest ih =>
      rw [ReadFits]
      split
      · exact ih
      · next hne => exact .inl (List.length_pos_of_ne_nil hne)

/-- Reads of single bytes fit. -/
theorem readsFit_bytes {start : SkbState} {calls : List TcpCall}
    (hreads : ∀ size buf n, .read size buf n ∈ calls → size = 1) : ReadsFit start calls := by
  intro pre size buf n s hpre _
  have hmem : .read size buf n ∈ calls := hpre.subset (by simp)
  rw [hreads size buf n hmem]
  exact readFits_byte _

/-- Two segments read byte by byte. -/
theorem two_segments_stream : ∃ s buf buf',
    Run TcpStep newBuffer
        [.arrive 0 (byteSegment 1), .arrive 1 (byteSegment 2), .read 1 buf 1, .read 1 buf' 1] s ∧
      IsTcpStream [.arrive 0 (byteSegment 1), .arrive 1 (byteSegment 2), .read 1 buf 1, .read 1 buf' 1] s := by
  obtain ⟨s₂, hrun, hsync₂, -, hlength₂⟩ := two_segments_arrive
  obtain ⟨s₃, queue₃, buf, n, hread, hsync₃, hrest, -, hn⟩ :=
    hsync₂.tcpRead (show 1 < 2 ^ 64 by norm_num) (fun _ => 0)
  have hlength₃ : n = 1 ∧ s₃.unread.flatten.length = 1 := by
    rw [hrest, List.length_drop, hlength₂]
    have hone := hn (by norm_num)
    omega
  obtain ⟨rfl, hlength₃⟩ := hlength₃
  obtain ⟨s₄, queue₄, buf', k, hread', -, -, -, hk⟩ :=
    hsync₃.tcpRead (show 1 < 2 ^ 64 by norm_num) (fun _ => 0)
  obtain rfl : k = 1 := by
    have hone := hk (by norm_num)
    omega
  have hrun₄ := (hrun.snoc (.read (by norm_num) hread)).snoc (.read (by norm_num) hread')
  exact ⟨s₄, buf, buf', hrun₄, tcp_stream_of_reads_fit hrun₄ (readsFit_bytes (by grind))⟩

/-- A read of two bytes over two segments of one byte each: both are copied to the start of the
buffer. -/
theorem tcpRead_two (h : SegSync [(0, byteSegment 1), (1, byteSegment 2)] s)
    (hsptr : s.skb.sptr = 0) (buf : Memory) :
    ∃ s', tcpRead s 2 buf =
      .ok (s', kmemcpy (kmemcpy buf 0 (byteSegment 1).link 54 1) 0 (byteSegment 2).link 54 1, 2) := by
  have hnpkts : s.skb.npkts = 2 := h.npkts
  have hfirst := h.tcpReadLoop_take (show 0 < 2 by decide)
    (by rw [hsptr]; decide) 3 buf 0
  have hsecond := h.take.tcpReadLoop_take (show 0 < 1 by decide) (Nat.le_refl 1) 2
    (kmemcpy buf 0 (byteSegment 1).link 54 1) 1
  have hlast := tcpReadLoop_stop
    (s := ⟨(s.heap.free 0).free 1, { s.skb.advance.advance with sptr := 0 }⟩)
    (show ¬ ((0 : Int) < 0 ∧ _) by simp) 1
    (kmemcpy (kmemcpy buf 0 (byteSegment 1).link 54 1) 0 (byteSegment 2).link 54 1) 2
  rw [hsptr] at hfirst
  have hread : tcpRead s 2 buf = tcpReadLoop (3 + 1) s buf ((2 : Nat) : Int) 0 := by
    rw [tcpRead, hnpkts, ssizeOfInt_of_lt (show 2 < 2 ^ 63 by norm_num)]
  exact ⟨_, hread.trans (hfirst.trans (hsecond.trans hlast))⟩

/-- A read of two bytes over two segments of one byte: the second byte is copied over the first. -/
theorem two_segments_overwritten : ∃ s buf,
    Run TcpStep newBuffer
        [.arrive 0 (byteSegment 1), .arrive 1 (byteSegment 2), .read 2 buf 2] s ∧
      ¬ IsTcpStream [.arrive 0 (byteSegment 1), .arrive 1 (byteSegment 2), .read 2 buf 2] s := by
  obtain ⟨s₂, hrun, hsync, hsptr, -⟩ := two_segments_arrive
  obtain ⟨s', hread⟩ := tcpRead_two hsync hsptr (fun _ => 0)
  refine ⟨s', _, hrun.snoc (.read (by norm_num) hread), ?_⟩
  intro hstream
  exact absurd hstream.inOrder (by decide)

end Net
end Micael
