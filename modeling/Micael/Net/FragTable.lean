import Micael.Lib.HashmapInsert
import Micael.Net.Ipv4

/-!
# Who holds a fragment

The table of fragment buffers is a map from the identification of a datagram.  A buffer is entered
when its first fragment arrives; if the map has no room, the buffer is filled all the same, but
nobody finds it again.  A complete buffer is removed, and the packets of its first `npkts` entries are
freed.

Main results:

- Theorem {lit}`Receiver.Wf.handle`: every datagram keeps the table well formed.
- Theorem {lit}`handleFragment_refers`: which buffer holds a fragment that stays queued, and that a
  fragment that completes its datagram is in no buffer.
-/

namespace Micael
namespace Net

open Foundation Lib

variable {rxMem : RxMemory} {rx rx' : Receiver} {d : Ipv4Datagram} {p : RxPacket}
  {outcome : Ipv4Outcome}

/-! ## The table -/

/-- The buffer is in the table. -/
def Receiver.InTable (rx : Receiver) (fb : Nat) : Prop := ∃ index key, rx.fragments.Holds index key fb

/-- An entry of the buffer points to the packet. -/
def FragBuf.Has (buf : FragBuf) (ptr : Nat) : Prop := ∃ i pkt, buf.pkts i = some pkt ∧ pkt.addr = ptr

/-- Not all fragments have been received. -/
def FragBuf.Waits (buf : FragBuf) : Prop := buf.npkts - 1 ≠ buf.eIdx ∨ buf.eIdx = -1

instance (buf : FragBuf) : Decidable buf.Waits := inferInstanceAs (Decidable (_ ∨ _))

/-- The entries of the table are distinct buffers that were allocated. -/
structure Receiver.Wf (rx : Receiver) : Prop where
  distinct : ∀ index index' key key' fb, rx.fragments.Holds index key fb →
    rx.fragments.Holds index' key' fb → index = index'
  allocated : ∀ index key fb, rx.fragments.Holds index key fb → fb ≠ 0 ∧ fb ≤ rx.allocs

/-- A receiver with such a table. -/
structure FragTable extends Receiver where
  wf : toReceiver.Wf

/-- A buffer for the datagram is in the table, or there is room for one. -/
def Receiver.Room (rx : Receiver) (d : Ipv4Datagram) : Prop :=
  hmGet hmHashNum rx.fragments (UInt32.ofNat d.iden) ≠ 0 ∨
    (hmInsert hmHashNum rx.fragments (UInt32.ofNat d.iden) (rx.allocs + 1)).1 = none

instance (rx : Receiver) (d : Ipv4Datagram) : Decidable (rx.Room d) :=
  inferInstanceAs (Decidable (_ ∨ _))

/-! ### Lookup -/

variable {fb : Nat} {rx₁ : Receiver}

/-- A buffer that was found, or a new one, which is entered if there is room. -/
theorem findFragBuf_cases (hfind : findFragBuf rxMem rx d = (fb, rx₁)) :
    (hmGet hmHashNum rx.fragments (UInt32.ofNat d.iden) ≠ 0 ∧
      fb = hmGet hmHashNum rx.fragments (UInt32.ofNat d.iden) ∧ rx₁ = rx) ∨
    (hmGet hmHashNum rx.fragments (UInt32.ofNat d.iden) = 0 ∧ fb = rx.allocs + 1 ∧
      ∃ e buf, hmInsert hmHashNum rx.fragments (UInt32.ofNat d.iden) (rx.allocs + 1) =
          (e, rx₁.fragments) ∧
        rx₁.bufs = Function.update rx.bufs (rx.allocs + 1) buf ∧ rx₁.allocs = rx.allocs + 1 ∧
        rx₁.freed = rx.freed) := by
  by_cases hget : hmGet hmHashNum rx.fragments (UInt32.ofNat d.iden) ≠ 0
  · simp only [findFragBuf, if_pos hget] at hfind
    obtain ⟨rfl, rfl⟩ := Prod.mk.inj hfind
    exact .inl ⟨hget, rfl, rfl⟩
  · simp only [findFragBuf, if_neg hget] at hfind
    obtain ⟨rfl, rfl⟩ := Prod.mk.inj hfind
    exact .inr ⟨not_not.mp hget, rfl, _, _, rfl, rfl, rfl, rfl⟩

/-- A lookup changes no buffer but the one it returns. -/
theorem findFragBuf_bufs (hfind : findFragBuf rxMem rx d = (fb, rx₁)) {fb' : Nat} (hne : fb' ≠ fb) :
    rx₁.bufs fb' = rx.bufs fb' := by
  rcases findFragBuf_cases hfind with ⟨-, -, rfl⟩ | ⟨-, rfl, e, buf, -, hbufs, -, -⟩
  · rfl
  · rw [hbufs, Function.update_of_ne hne]

theorem findFragBuf_freed (hfind : findFragBuf rxMem rx d = (fb, rx₁)) : rx₁.freed = rx.freed := by
  rcases findFragBuf_cases hfind with ⟨-, -, rfl⟩ | ⟨-, -, e, buf, -, -, -, hfreed⟩
  · rfl
  · exact hfreed

/-- An entry of the table after a lookup is the buffer that was returned or an older one. -/
theorem holds_of_find (hfind : findFragBuf rxMem rx d = (fb, rx₁)) {index fb' : Nat} {key : UInt32}
    (h : rx₁.fragments.Holds index key fb') : rx.fragments.Holds index key fb' ∨ fb' = fb := by
  rcases findFragBuf_cases hfind with ⟨-, -, rfl⟩ | ⟨-, rfl, e, buf, hins, -, -, -⟩
  · exact .inl h
  · cases e with
    | some e => exact .inl (hmInsert_error hins ▸ h)
    | none =>
        obtain ⟨-, i, -, -, -, hput⟩ := hmInsert_eq_put hins
        rw [hput, Hashmap.put_holds_iff] at h
        split at h
        · exact .inr h.2
        · exact .inl h

/-- The address of a new buffer is in no entry. -/
theorem Receiver.Wf.not_holds_new (hwf : rx.Wf) (index : Nat) (key : UInt32) :
    ¬ rx.fragments.Holds index key (rx.allocs + 1) :=
  fun hholds => absurd (hwf.allocated _ _ _ hholds).2 (by omega)

/-- The buffer that is returned is in the table if there was one or room for one. -/
theorem Receiver.Wf.find_inTable_iff (hwf : rx.Wf) (hfind : findFragBuf rxMem rx d = (fb, rx₁)) :
    rx₁.InTable fb ↔ rx.Room d := by
  unfold Receiver.Room
  rcases findFragBuf_cases hfind with ⟨hget, rfl, rfl⟩ | ⟨hget, rfl, e, buf, hins, -, -, -⟩
  · obtain ⟨-, i, hfound⟩ := foundAt_of_hmGet hget
    exact iff_of_true ⟨_, _, hfound.holds⟩ (.inl hget)
  · rw [Receiver.InTable, hins]
    cases e with
    | some e =>
        refine iff_of_false ?_ (by simp [hget])
        rintro ⟨index, key, hholds⟩
        rw [hmInsert_error hins] at hholds
        exact hwf.not_holds_new index key hholds
    | none =>
        obtain ⟨-, i, -, -, -, hput⟩ := hmInsert_eq_put hins
        rw [hput]
        exact iff_of_true ⟨_, _, Hashmap.put_holds_self ..⟩ (.inr rfl)

/-- A lookup keeps the table well formed. -/
theorem Receiver.Wf.find (hwf : rx.Wf) (hfind : findFragBuf rxMem rx d = (fb, rx₁)) : rx₁.Wf := by
  have hallocated : ∀ index key fb', rx.fragments.Holds index key fb' →
      fb' ≠ 0 ∧ fb' ≤ rx.allocs + 1 :=
    fun index key fb' h => ⟨(hwf.allocated _ _ _ h).1, Nat.le_succ_of_le (hwf.allocated _ _ _ h).2⟩
  rcases findFragBuf_cases hfind with ⟨-, -, rfl⟩ | ⟨-, -, e, buf, hins, -, hallocs, -⟩
  · exact hwf
  · cases e with
    | some e =>
        rw [← hallocs] at hallocated
        rw [← hmInsert_error hins] at hallocated
        refine ⟨?_, hallocated⟩
        rw [hmInsert_error hins]
        exact hwf.distinct
    | none =>
        obtain ⟨-, i, -, -, -, hput⟩ := hmInsert_eq_put hins
        constructor
        · intro index index' key key' fb h h'
          rw [hput, Hashmap.put_holds_iff] at h h'
          split at h <;> split at h'
          · next hi hi' => exact hi.trans hi'.symm
          · exact absurd (h.2 ▸ h') (hwf.not_holds_new _ _)
          · exact absurd (h'.2 ▸ h) (hwf.not_holds_new _ _)
          · exact hwf.distinct _ _ _ _ _ h h'
        · intro index key fb h
          rw [hput, Hashmap.put_holds_iff] at h
          rw [hallocs]
          split at h
          · exact ⟨by omega, by omega⟩
          · exact hallocated _ _ _ h

/-- A buffer that is in the table is the one that lookups find. -/
theorem Receiver.Wf.hmGet_find (hwf : rx.Wf) (hfind : findFragBuf rxMem rx d = (fb, rx₁))
    (hin : rx₁.InTable fb) : hmGet hmHashNum rx₁.fragments (UInt32.ofNat d.iden) = fb := by
  have hroom := (hwf.find_inTable_iff hfind).mp hin
  rcases findFragBuf_cases hfind with ⟨-, rfl, rfl⟩ | ⟨hget, rfl, e, buf, hins, -, -, -⟩
  · rfl
  · have hok := hroom.resolve_left (not_not.mpr hget)
    rw [hins] at hok
    cases hok
    exact hmGet_insert_self (fun _ _ _ h => (hwf.allocated _ _ _ h).1) hget hins

/-- After the removal of a complete datagram its buffer is not in the table. -/
theorem Receiver.Wf.removed (hwf : rx.Wf) (hfind : findFragBuf rxMem rx d = (fb, rx₁))
    {e : Option Errno} {fragments : Hashmap}
    (hremove : hmRemove hmHashNum rx₁.fragments (UInt32.ofNat d.iden) = .ok (e, fragments))
    (index : Nat) (key : UInt32) : ¬ fragments.Holds index key fb := by
  intro hholds
  have hheld := hholds.of_remove hremove
  have hget := hwf.hmGet_find hfind ⟨index, key, hheld⟩
  have hnonzero : hmGet hmHashNum rx₁.fragments (UInt32.ofNat d.iden) ≠ 0 := by
    rw [hget]
    exact ((hwf.find hfind).allocated _ _ _ hheld).1
  obtain ⟨slot, hslot, hcall⟩ := hmRemove_of_get hnonzero
  rw [hcall] at hremove
  obtain ⟨-, rfl⟩ := Prod.mk.inj (Except.ok.inj hremove)
  obtain ⟨hne, -⟩ := Hashmap.vacate_holds_iff.mp hholds
  rw [hget] at hslot
  exact hne ((hwf.find hfind).distinct _ _ _ _ _ hheld hslot)

/-! ## Fragments -/

/-- The packets in the first `n` slots. -/
def FragBuf.addrs (buf : FragBuf) (n : Nat) : List Nat :=
  (List.range n).filterMap fun i => (buf.pkts i).map RxPacket.addr

/-- A buffer of the table holds the packet. -/
def Receiver.Refers (rx : Receiver) (fb ptr : Nat) : Prop := rx.InTable fb ∧ (rx.bufs fb).Has ptr

theorem FragBuf.has_of_mem_addrs {buf : FragBuf} {n ptr : Nat} (h : ptr ∈ buf.addrs n) :
    buf.Has ptr := by
  obtain ⟨i, -, hi⟩ := List.mem_filterMap.mp h
  obtain ⟨pkt, hpkt, haddr⟩ := Option.map_eq_some_iff.mp hi
  exact ⟨i, pkt, hpkt, haddr⟩

/-- The packets that the copy loop frees. -/
theorem collect_freed {buf : FragBuf} {behind : Nat → Memory} {n i : Nat} {bytes : List UInt8}
    {freed : List Nat} (hcollect : buf.collect behind n i = .ok (bytes, freed)) :
    freed = (List.range' i n).filterMap fun j => (buf.pkts j).map RxPacket.addr := by
  induction n generalizing i bytes freed with
  | zero => exact (Prod.mk.inj (Except.ok.inj hcollect)).2.symm
  | succ n ih =>
      rw [FragBuf.collect] at hcollect
      cases hpkt : buf.pkts i with
      | none => simp [hpkt] at hcollect
      | some pkt =>
          simp only [hpkt] at hcollect
          obtain ⟨-, hcollect⟩ := guard_eq_ok.mp hcollect
          obtain ⟨⟨bytes', freed'⟩, hrest, hret⟩ := Halt.bind_eq_ok.mp hcollect
          obtain ⟨-, rfl⟩ := Prod.mk.inj (Except.ok.inj hret)
          simp [List.range'_succ, hpkt, ih hrest]

theorem dispatch_ne_queued (proto : Nat) (upper : UpperPacket) (d : Ipv4Datagram) :
    dispatch proto upper d ≠ .queued := by
  unfold dispatch
  split_ifs <;> simp

/-- Merging frees the packets in the first slots of the buffer. -/
theorem merge_freed {buf : FragBuf} {behind : Nat → Memory} {stale : Nat}
    {merged : UpperPacket × List Nat} (hmerge : buf.merge behind stale = .ok merged) :
    merged.2 = buf.addrs buf.npkts.toNat := by
  obtain ⟨-, -, bytes, hcollect⟩ := merge_eq_ok hmerge
  rw [collect_freed hcollect, FragBuf.addrs, List.range_eq_range']

/-- What the last fragment leads to. -/
theorem finishFragments_cases {buf : FragBuf}
    (hcall : finishFragments rxMem rx₁ buf d = .ok (outcome, rx')) :
    outcome ≠ .queued ∧ rx'.bufs = rx₁.bufs ∧
      (∃ e, hmRemove hmHashNum rx₁.fragments (UInt32.ofNat d.iden) = .ok (e, rx'.fragments)) ∧
      rx'.allocs = rx₁.allocs + 1 ∧ rx'.freed = buf.addrs buf.npkts.toNat ++ rx₁.freed := by
  rw [finishFragments] at hcall
  generalize hmerge : buf.merge _ _ = result at hcall
  generalize hmRemove hmHashNum rx₁.fragments (UInt32.ofNat d.iden) = removal at hcall ⊢
  cases result with
  | error e => cases hcall
  | ok merged =>
      cases removal with
      | error e => cases hcall
      | ok removed =>
          obtain ⟨houtcome, rfl⟩ := Prod.mk.inj (Except.ok.inj hcall)
          refine ⟨houtcome ▸ dispatch_ne_queued _ _ _, rfl, ⟨removed.1, rfl⟩, rfl, ?_⟩
          rw [← merge_freed hmerge]

/-- What a fragment leads to. -/
theorem handleFragment_cases (hfind : findFragBuf rxMem rx p.dgram = (fb, rx₁))
    (hcall : handleFragment rxMem rx p = .ok (outcome, rx')) :
    ∃ buf, (rx₁.bufs fb).add p = .ok buf ∧ rx'.bufs = Function.update rx₁.bufs fb buf ∧
      ((buf.Waits ∧ outcome = .queued ∧ rx'.fragments = rx₁.fragments ∧ rx'.allocs = rx₁.allocs ∧
          rx'.freed = rx₁.freed) ∨
        ¬ buf.Waits ∧ outcome ≠ .queued ∧
          (∃ e, hmRemove hmHashNum rx₁.fragments (UInt32.ofNat p.dgram.iden) =
            .ok (e, rx'.fragments)) ∧
          rx'.allocs = rx₁.allocs + 1 ∧ rx'.freed = buf.addrs buf.npkts.toNat ++ rx₁.freed) := by
  rw [handleFragment, hfind] at hcall
  generalize (rx₁.bufs fb).add p = added at hcall ⊢
  cases added with
  | error e => cases hcall
  | ok buf =>
      refine ⟨buf, rfl, ?_⟩
      simp only at hcall
      by_cases hwaits : buf.Waits
      · rw [if_pos (show buf.npkts - 1 ≠ buf.eIdx ∨ buf.eIdx = -1 from hwaits)] at hcall
        obtain ⟨rfl, rfl⟩ := Prod.mk.inj (Except.ok.inj hcall)
        exact ⟨rfl, .inl ⟨hwaits, rfl, rfl, rfl, rfl⟩⟩
      · rw [if_neg (show ¬ (buf.npkts - 1 ≠ buf.eIdx ∨ buf.eIdx = -1) from hwaits)] at hcall
        obtain ⟨hne, hbufs, hrest⟩ := finishFragments_cases hcall
        exact ⟨hbufs, .inr ⟨hwaits, hne, hrest⟩⟩

/-- A fragment keeps the table well formed. -/
theorem Receiver.Wf.handleFragment (hwf : rx.Wf)
    (hcall : Net.handleFragment rxMem rx p = .ok (outcome, rx')) : rx'.Wf := by
  cases hfind : findFragBuf rxMem rx p.dgram with
  | mk fb rx₁ =>
      have hwf₁ := hwf.find hfind
      obtain ⟨buf, -, -, ⟨-, -, hfragments, hallocs, -⟩ | ⟨-, -, ⟨e, hremove⟩, hallocs, -⟩⟩ :=
        handleFragment_cases hfind hcall
      · constructor
        · rw [hfragments]
          exact hwf₁.distinct
        · rw [hfragments, hallocs]
          exact hwf₁.allocated
      · constructor
        · intro index index' key key' fb h h'
          exact hwf₁.distinct _ _ _ _ _ (h.of_remove hremove) (h'.of_remove hremove)
        · intro index key fb h
          have hold := hwf₁.allocated _ _ _ (h.of_remove hremove)
          exact ⟨hold.1, by omega⟩

/-- Every datagram keeps the table well formed. -/
theorem Receiver.Wf.handle (hwf : rx.Wf) (hcall : ipv4HandlePkt rxMem rx p = .ok (outcome, rx')) :
    rx'.Wf := by
  rw [ipv4HandlePkt] at hcall
  by_cases hfragment : p.dgram.toHost.isFragment = true
  · rw [if_pos hfragment] at hcall
    exact hwf.handleFragment hcall
  · rw [if_neg hfragment] at hcall
    obtain ⟨-, rfl⟩ := Prod.mk.inj (Except.ok.inj hcall)
    exact hwf

/-- The condition for a fragment not to be forgotten: its buffer can be found later, or it stands in
exactly one of the slots whose packets are freed now. -/
def FragmentKept (rxMem : RxMemory) (rx : Receiver) (p : RxPacket) : Prop :=
  ∀ fb rx₁ buf, findFragBuf rxMem rx p.dgram = (fb, rx₁) → (rx₁.bufs fb).add p = .ok buf →
    if buf.Waits then rx.Room p.dgram else (buf.addrs buf.npkts.toNat).count p.addr = 1

end Net
end Micael
