import Micael.Net.Tcp
import Micael.Net.TcpRetransmit

/-!
# Acknowledgements that cover several segments

A pure acknowledgement on a connected socket is handled by one `hm_remove`, with the acknowledgement
number as the key.  A segment is entered under its end, the sequence number behind its last byte, so
that the removal takes a segment that ends exactly at that number, and no other one that it covers.
The search for it reads the key of an empty slot through a null pointer.

The outstanding segments are the occupied slots of the table.  Ends are compared as 32-bit sequence
numbers.

Main results:

- Theorem {lit}`removeLoop_cases`: how the search of `hm_remove` ends.
- Theorem {lit}`ack_right_iff`: an acknowledgement leaves exactly the segments that end after it, just when
  the search meets no empty slot and finds the only segment that is covered, if there is one.
-/

namespace Micael
namespace Net

open Foundation Lib

/-! ## The search of `hm_remove` -/

section Search

variable {hm : Hashmap} {key : UInt32} {i i' : Nat}

/-- The slot holds an item, occupied or not, with another key. -/
def PassedBy (hm : Hashmap) (key : UInt32) (index : Nat) : Prop :=
  ∃ item, hm.elem index = some item ∧ item.key ≠ key

/-- The first item with the key, occupied or not, is found in turn `i`, and no empty slot before it. -/
structure FirstItem (hm : Hashmap) (key : UInt32) (i : Nat) : Prop where
  lt : i < bucketMaxLen
  item : ∃ item, hm.elem (hm.slot key i) = some item ∧ item.key = key
  passed : ∀ j < i, PassedBy hm key (hm.slot key j)

theorem not_passedBy_of_item (h : ∃ item, hm.elem (hm.slot key i) = some item ∧ item.key = key) :
    ¬ PassedBy hm key (hm.slot key i) := by
  rintro ⟨item', helem', hne⟩
  obtain ⟨item, helem, hkey⟩ := h
  obtain rfl := Option.some.inj (helem.symm.trans helem')
  exact hne hkey

theorem not_passedBy_of_empty (h : hm.elem (hm.slot key i) = none) :
    ¬ PassedBy hm key (hm.slot key i) := by
  rintro ⟨item, helem, -⟩
  rw [h] at helem
  cases helem

/-- There is one first item. -/
theorem FirstItem.unique (h : FirstItem hm key i) (h' : FirstItem hm key i') : i = i' := by
  rcases Nat.lt_trichotomy i i' with hlt | heq | hgt
  · exact absurd (h'.passed i hlt) (not_passedBy_of_item h.item)
  · exact heq
  · exact absurd (h.passed i' hgt) (not_passedBy_of_item h'.item)

/-- A turn of the search that passes by an item. -/
theorem removeLoop_passed {n : Nat} (h : PassedBy hm key (hm.slot key i)) :
    removeLoop hm key (n + 1) (hm.slot key i) = removeLoop hm key n (hm.slot key (i + 1)) := by
  obtain ⟨item, helem, hne⟩ := h
  rw [removeLoop, helem]
  simp only [if_neg hne, Hashmap.next_slot]

/-- The search ends at the first item with the key, at an empty slot, or after the last turn. -/
theorem removeLoop_cases (hm : Hashmap) (key : UInt32) (n i : Nat) :
    (∃ j < n, (∃ item, hm.elem (hm.slot key (i + j)) = some item ∧ item.key = key) ∧
        (∀ l < j, PassedBy hm key (hm.slot key (i + l))) ∧
        removeLoop hm key n (hm.slot key i) = .ok (some (hm.slot key (i + j)))) ∨
      (∃ j < n, hm.elem (hm.slot key (i + j)) = none ∧
        (∀ l < j, PassedBy hm key (hm.slot key (i + l))) ∧
        removeLoop hm key n (hm.slot key i) = .error .fault) ∨
      (∀ l < n, PassedBy hm key (hm.slot key (i + l))) ∧
        removeLoop hm key n (hm.slot key i) = .ok none := by
  induction n generalizing i with
  | zero => exact .inr (.inr ⟨fun l hl => absurd hl (Nat.not_lt_zero l), rfl⟩)
  | succ n ih =>
      cases helem : hm.elem (hm.slot key i) with
      | none =>
          refine .inr (.inl ⟨0, n.succ_pos, helem, fun l hl => absurd hl (Nat.not_lt_zero l), ?_⟩)
          rw [removeLoop, helem]
      | some item =>
          by_cases hkey : item.key = key
          · refine .inl ⟨0, n.succ_pos, ⟨item, helem, hkey⟩, fun l hl => absurd hl (Nat.not_lt_zero l), ?_⟩
            rw [removeLoop, helem]
            simp [hkey]
          · have hpassed : PassedBy hm key (hm.slot key i) := ⟨item, helem, hkey⟩
            -- What holds from the next turn on holds from this one on.
            have hshift : ∀ {k : Nat}, (∀ l < k, PassedBy hm key (hm.slot key (i + 1 + l))) →
                ∀ l < k + 1, PassedBy hm key (hm.slot key (i + l)) := by
              intro k hrest l hl
              cases l with
              | zero => exact hpassed
              | succ l =>
                  rw [← Nat.add_assoc, Nat.add_right_comm]
                  exact hrest l (by omega)
            rw [removeLoop_passed hpassed]
            rcases ih (i + 1) with ⟨j, hj, hitem, hbefore, hret⟩ | ⟨j, hj, hempty, hbefore, hret⟩ |
              ⟨hall, hret⟩
            · rw [Nat.add_assoc, Nat.add_comm 1 j] at hitem hret
              exact .inl ⟨j + 1, by omega, hitem, hshift hbefore, hret⟩
            · rw [Nat.add_assoc, Nat.add_comm 1 j] at hempty
              exact .inr (.inl ⟨j + 1, by omega, hempty, hshift hbefore, hret⟩)
            · exact .inr (.inr ⟨hshift hall, hret⟩)

end Search

/-! ## Acknowledgements -/

/-- A sequence number lies after another one. -/
def SeqAfter (e a : UInt32) : Prop := 0 < (e - a).toNat ∧ (e - a).toNat < 2 ^ 31

instance (e a : UInt32) : Decidable (SeqAfter e a) := inferInstanceAs (Decidable (_ ∧ _))

theorem not_seqAfter_self (a : UInt32) : ¬ SeqAfter a a := by
  rintro ⟨hpos, -⟩
  rw [UInt32.sub_self] at hpos
  exact absurd hpos (by decide)

/-- The slot holds an outstanding segment that ends at `e`. -/
def Outstanding (hm : Hashmap) (index : Nat) (e : UInt32) (pkt : Nat) : Prop :=
  hm.Holds index (hmHashNum e) pkt

/-- The packet at `ptr` is a pure acknowledgement of `a`. -/
structure PureAck (sock : TcpSocket) (ptr : Nat) (a : UInt32) : Prop where
  packet : ∃ pkt, sock.state.heap ptr = some pkt ∧ pkt.tcp.off &&& tcpFlagMask = tcpFlagAck ∧
    UInt32.ofNat pkt.tcp.aseq = a

/-- `__handle_connected` returns, the outstanding segments are those that end after `a`, and what a timer
finds from then on is one of them. -/
def AckRight (sock : TcpSocket) (ptr : Nat) (a : UInt32) : Prop :=
  ∃ r, handleConnected sock ptr = .ok r ∧
    (∀ index e pkt, Outstanding r.1.ctx.rtQueue index e pkt ↔
      Outstanding sock.ctx.rtQueue index e pkt ∧ SeqAfter e a) ∧
    ∀ seq, hmGet hmHashNum r.1.ctx.rtQueue seq ≠ 0 →
      SeqAfter seq a ∧
        ∃ index, Outstanding sock.ctx.rtQueue index seq (hmGet hmHashNum r.1.ctx.rtQueue seq)

/-- The probe for `a` meets an item with its key or twelve other items before an empty slot, and a segment
that is covered is the first item with the key of `a` there. -/
structure AckFits (hm : Hashmap) (a : UInt32) : Prop where
  probe : hmHashNum a = uint32Max ∨ (∃ i, FirstItem hm (hmHashNum a) i) ∨
    ∀ j < bucketMaxLen, PassedBy hm (hmHashNum a) (hm.slot (hmHashNum a) j)
  only : ∀ index e pkt, Outstanding hm index e pkt → ¬ SeqAfter e a →
    hmHashNum a ≠ uint32Max ∧
      ∃ i, FirstItem hm (hmHashNum a) i ∧ index = hm.slot (hmHashNum a) i

variable {sock : TcpSocket} {ptr : Nat} {a : UInt32}

/-- `__handle_connected` for an acknowledgement is one removal. -/
theorem PureAck.handleConnected (h : PureAck sock ptr a) :
    Net.handleConnected sock ptr =
      (hmRemove hmHashNum sock.ctx.rtQueue a).map fun removed =>
        ({ sock with ctx := { sock.ctx with rtQueue := removed.2 } }, none) := by
  obtain ⟨pkt, hpkt, hflags, haseq⟩ := h.packet
  have hpush : tcpFlagAck ≠ tcpFlagPsh ||| tcpFlagAck := by decide
  rw [Net.handleConnected, PktHeap.deref_some hpkt, Halt.ok_bind]
  dsimp only
  rw [hflags, if_neg hpush, if_pos rfl, haseq]
  cases hmRemove hmHashNum sock.ctx.rtQueue a <;> rfl

/-- When the removal returns, the acknowledgement is right just when the table holds the segments that end
after `a`. -/
theorem PureAck.right_of_remove (h : PureAck sock ptr a) {e : Option Errno} {hm : Hashmap}
    (hremove : hmRemove hmHashNum sock.ctx.rtQueue a = .ok (e, hm)) :
    AckRight sock ptr a ↔
      ∀ index e pkt, Outstanding hm index e pkt ↔
        Outstanding sock.ctx.rtQueue index e pkt ∧ SeqAfter e a := by
  have hcall := h.handleConnected
  rw [hremove] at hcall
  constructor
  · rintro ⟨r, hret, hqueue, -⟩
    obtain rfl := Except.ok.inj (hcall.symm.trans hret)
    exact hqueue
  · intro hqueue
    refine ⟨_, hcall, hqueue, fun seq hget => ?_⟩
    obtain ⟨-, i, hfound⟩ := foundAt_of_hmGet hget
    obtain ⟨hold, hafter⟩ := (hqueue _ seq _).mp hfound.holds
    exact ⟨hafter, _, hold⟩

/-- When the removal leaves the table alone, no segment may be covered. -/
theorem PureAck.right_of_kept (h : PureAck sock ptr a) {e : Option Errno}
    (hremove : hmRemove hmHashNum sock.ctx.rtQueue a = .ok (e, sock.ctx.rtQueue)) :
    AckRight sock ptr a ↔
      ∀ index e pkt, Outstanding sock.ctx.rtQueue index e pkt → SeqAfter e a := by
  rw [h.right_of_remove hremove]
  constructor
  · intro hqueue index e pkt hout
    exact ((hqueue index e pkt).mp hout).2
  · intro hall index e pkt
    exact ⟨fun hout => ⟨hout, hall index e pkt hout⟩, And.left⟩

/-- `hm_remove` with its search named, for a number whose hash is not the reserved one. -/
theorem hmRemove_eq_search (hm : Hashmap) (hvalid : hmHashNum a ≠ uint32Max) :
    hmRemove hmHashNum hm a =
      (removeLoop hm (hmHashNum a) bucketMaxLen (hm.slot (hmHashNum a) 0)) >>= fun
        | none => .ok (some .enoent, hm)
        | some index => .ok (none, hm.vacate index) := by
  rw [hmRemove, if_neg hvalid, Hashmap.slot_zero]
  rfl

/-- When the search finds an item, no other segment may be covered. -/
theorem PureAck.right_of_found (h : PureAck sock ptr a) (hvalid : hmHashNum a ≠ uint32Max) {i : Nat}
    (hfirst : FirstItem sock.ctx.rtQueue (hmHashNum a) i) {e : Option Errno}
    (hremove : hmRemove hmHashNum sock.ctx.rtQueue a =
      .ok (e, sock.ctx.rtQueue.vacate (sock.ctx.rtQueue.slot (hmHashNum a) i))) :
    AckRight sock ptr a ↔ AckFits sock.ctx.rtQueue a := by
  rw [h.right_of_remove hremove]
  constructor
  · intro hqueue
    refine ⟨.inr (.inl ⟨i, hfirst⟩), fun index e pkt hout hcovered => ⟨hvalid, i, hfirst, ?_⟩⟩
    by_contra hne
    exact hcovered ((hqueue index e pkt).mp (Hashmap.vacate_holds_iff.mpr ⟨hne, hout⟩)).2
  · intro hfits index e pkt
    constructor
    · intro hstill
      obtain ⟨hne, hout⟩ := Hashmap.vacate_holds_iff.mp hstill
      refine ⟨hout, ?_⟩
      by_contra hcovered
      obtain ⟨-, i', hfirst', hindex⟩ := hfits.only index e pkt hout hcovered
      rw [hfirst'.unique hfirst] at hindex
      exact hne hindex
    · rintro ⟨hout, hafter⟩
      refine Hashmap.vacate_holds_iff.mpr ⟨?_, hout⟩
      -- The item that was found ends at the acknowledged number.
      rintro rfl
      obtain ⟨item, helem, hkey⟩ := hfirst.item
      have hsame : item = ⟨pkt, hmHashNum e, true⟩ := Option.some.inj (helem.symm.trans hout)
      rw [hsame] at hkey
      rw [hmHashNum_injective hkey] at hafter
      exact not_seqAfter_self a hafter

/-- When the table stays as it is, a segment that is covered does not fit. -/
theorem PureAck.right_iff_of_kept (h : PureAck sock ptr a) {e : Option Errno}
    (hremove : hmRemove hmHashNum sock.ctx.rtQueue a = .ok (e, sock.ctx.rtQueue))
    (hprobe : hmHashNum a = uint32Max ∨
      ∀ j < bucketMaxLen, PassedBy sock.ctx.rtQueue (hmHashNum a) (sock.ctx.rtQueue.slot (hmHashNum a) j)) :
    AckRight sock ptr a ↔ AckFits sock.ctx.rtQueue a := by
  rw [h.right_of_kept hremove]
  constructor
  · intro hall
    refine ⟨hprobe.imp_right .inr, fun index e pkt hout hcovered => ?_⟩
    exact absurd (hall index e pkt hout) hcovered
  · intro hfits index e pkt hout
    by_contra hcovered
    obtain ⟨hvalid, i, hfirst, -⟩ := hfits.only index e pkt hout hcovered
    rcases hprobe with hmax | hpassed
    · exact hvalid hmax
    · exact not_passedBy_of_item hfirst.item (hpassed i hfirst.lt)

/-- The probe for `a` meets an item with its key or twelve other items before an empty slot. -/
def ProbeEnds (hm : Hashmap) (a : UInt32) : Prop :=
  hmHashNum a = uint32Max ∨ (∃ i, FirstItem hm (hmHashNum a) i) ∨
    ∀ j < bucketMaxLen, PassedBy hm (hmHashNum a) (hm.slot (hmHashNum a) j)

/-- A search that reads an empty slot does not end. -/
theorem not_probeEnds_of_empty {hm : Hashmap} (hvalid : hmHashNum a ≠ uint32Max) {i : Nat}
    (hi : i < bucketMaxLen) (hempty : hm.elem (hm.slot (hmHashNum a) i) = none)
    (hpassed : ∀ j < i, PassedBy hm (hmHashNum a) (hm.slot (hmHashNum a) j)) : ¬ ProbeEnds hm a := by
  intro hends
  rcases hends with hmax | ⟨i', hfirst⟩ | hall
  · exact hvalid hmax
  · rcases Nat.lt_trichotomy i i' with hlt | rfl | hgt
    · exact not_passedBy_of_empty hempty (hfirst.passed i hlt)
    · obtain ⟨item, helem, -⟩ := hfirst.item
      rw [hempty] at helem
      cases helem
    · exact not_passedBy_of_item hfirst.item (hpassed i' hgt)
  · exact not_passedBy_of_empty hempty (hall i hi)

/-- The removal of `a` returns just when its probe ends. -/
theorem hmRemove_returns_iff {hm : Hashmap} :
    (∃ r, hmRemove hmHashNum hm a = .ok r) ↔ ProbeEnds hm a := by
  by_cases hvalid : hmHashNum a = uint32Max
  · exact iff_of_true ⟨(some .einval, hm), by rw [hmRemove, if_pos hvalid]⟩ (.inl hvalid)
  rw [hmRemove_eq_search hm hvalid]
  rcases removeLoop_cases hm (hmHashNum a) bucketMaxLen 0 with
    ⟨i, hi, hitem, hpassed, hret⟩ | ⟨i, hi, hempty, hpassed, hret⟩ | ⟨hpassed, hret⟩
  · simp only [Nat.zero_add] at hitem hpassed hret
    rw [hret]
    exact iff_of_true ⟨_, rfl⟩ (.inr (.inl ⟨i, hi, hitem, hpassed⟩))
  · simp only [Nat.zero_add] at hempty hpassed hret
    rw [hret]
    refine iff_of_false ?_ (not_probeEnds_of_empty hvalid hi hempty hpassed)
    rintro ⟨r, hr⟩
    cases hr
  · simp only [Nat.zero_add] at hpassed hret
    rw [hret]
    exact iff_of_true ⟨_, rfl⟩ (.inr (.inr hpassed))

/-- After a pure acknowledgement of `a`, the table holds exactly the outstanding segments that end after
`a`, just when the search meets no empty slot and a segment that is covered is the one it finds. -/
theorem ack_right_iff (h : PureAck sock ptr a) :
    AckRight sock ptr a ↔ AckFits sock.ctx.rtQueue a := by
  by_cases hvalid : hmHashNum a = uint32Max
  · have hremove : hmRemove hmHashNum sock.ctx.rtQueue a = .ok (some .einval, sock.ctx.rtQueue) := by
      rw [hmRemove, if_pos hvalid]
    exact h.right_iff_of_kept hremove (.inl hvalid)
  have hsearch := hmRemove_eq_search sock.ctx.rtQueue hvalid
  rcases removeLoop_cases sock.ctx.rtQueue (hmHashNum a) bucketMaxLen 0 with
    ⟨i, hi, hitem, hpassed, hret⟩ | ⟨i, hi, hempty, hpassed, hret⟩ | ⟨hpassed, hret⟩
  · -- the search finds an item
    simp only [Nat.zero_add] at hitem hpassed hret
    rw [hret] at hsearch
    exact h.right_of_found hvalid ⟨hi, hitem, hpassed⟩ hsearch
  · -- the search reads an empty slot
    simp only [Nat.zero_add] at hempty hpassed hret
    rw [hret] at hsearch
    refine iff_of_false ?_ fun hfits => not_probeEnds_of_empty hvalid hi hempty hpassed hfits.probe
    rintro ⟨r, hcall, -⟩
    rw [h.handleConnected, hsearch] at hcall
    cases hcall
  · -- the search finds nothing in twelve turns
    simp only [Nat.zero_add] at hpassed hret
    rw [hret] at hsearch
    exact h.right_iff_of_kept hsearch (.inr hpassed)

/-! ## Two segments -/

/-- A segment with the flag ACK alone that acknowledges a number below 256. -/
def pureAckPacket (aseq : UInt8) : Packet where
  size := 60
  link := fun x => if x = 42 then aseq else if x = 47 then 0x10 else 0
  net := ⟨0, 40, 14⟩
  transport := ⟨protoTcp, 20, 34⟩
  app := ⟨0, 0, 54⟩

/-- A connected socket with a table of outstanding segments, and an acknowledgement at address one. -/
def ackSocket (rtQueue : Hashmap) (aseq : UInt8) : TcpSocket :=
  { oneByteSocket with
    ctx := ⟨1, 0, rtQueue⟩
    state := ⟨PktHeap.empty.alloc 1 (pureAckPacket aseq), Skb.empty⟩ }

theorem ackSocket_pureAck (rtQueue : Hashmap) : PureAck (ackSocket rtQueue 200) 1 200 :=
  ⟨pureAckPacket 200, rfl, by decide, by decide⟩

/-- The table with one segment that ends at 200. -/
def oneSent : Hashmap := (hmInsert hmHashNum (hmAllocHashmap 16) 200 4096).2

/-- The table with a segment that ends at 100 and one that ends at 200. -/
def twoSent : Hashmap :=
  (hmInsert hmHashNum (hmInsert hmHashNum (hmAllocHashmap 16) 100 8192).2 200 4096).2

/-- The acknowledgement of the only segment, at its end. -/
theorem oneSent_acknowledged : AckRight (ackSocket oneSent 200) 1 200 := by
  refine (ack_right_iff (ackSocket_pureAck oneSent)).mpr ?_
  have hput : oneSent =
      (hmAllocHashmap 16).put (oneSent.slot (hmHashNum 200) 0) (hmHashNum 200) 4096 := rfl
  have hfirst : FirstItem oneSent (hmHashNum 200) 0 := by
    exact ⟨by decide, ⟨⟨4096, hmHashNum 200, true⟩, by decide, rfl⟩,
      fun j hj => absurd hj (Nat.not_lt_zero j)⟩
  refine ⟨.inr (.inl ⟨0, hfirst⟩), fun index e pkt hout _ => ⟨by decide, 0, hfirst, ?_⟩⟩
  change oneSent.Holds index (hmHashNum e) pkt at hout
  change index = oneSent.slot (hmHashNum 200) 0
  rw [hput, Hashmap.put_holds_iff] at hout
  by_contra hne
  rw [if_neg hne] at hout
  cases hout

/-- An acknowledgement that covers two segments leaves the first one in the table. -/
theorem twoSent_keeps_covered :
    PureAck (ackSocket twoSent 200) 1 200 ∧ ¬ SeqAfter 100 200 ∧
      ¬ AckRight (ackSocket twoSent 200) 1 200 := by
  refine ⟨ackSocket_pureAck twoSent, by decide, ?_⟩
  rintro ⟨r, hret, hqueue, -⟩
  have hremove : hmRemove hmHashNum twoSent 200 =
      .ok (none, twoSent.vacate (twoSent.slot (hmHashNum 200) 0)) := rfl
  have hcall := (ackSocket_pureAck twoSent).handleConnected
  rw [show (ackSocket twoSent 200).ctx.rtQueue = twoSent from rfl, hremove] at hcall
  obtain rfl := Except.ok.inj (hcall.symm.trans hret)
  -- The slot of the other segment is not the one that was vacated.
  have hstill : Outstanding (twoSent.vacate (twoSent.slot (hmHashNum 200) 0))
      (twoSent.slot (hmHashNum 100) 0) 100 8192 := by
    unfold Outstanding Hashmap.Holds
    decide
  exact absurd ((hqueue _ _ _).mp hstill).2 (by decide)

end Net
end Micael
