import Micael.Foundation.Slots
import Micael.Net.Ownership

/-!
# Fragments from anybody

The slot of a fragment is its offset divided by its own length, or by the length of the fragment that came
first if it is the last one.  A datagram is complete when as many fragments were entered as the slot of the
last one says.  None of these numbers is checked, and a fragment that comes twice is counted twice.

A run is any sequence of packets that are received and of packets that are released by those who were
handed them.  A packet is received in memory that no live packet uses, and no fragment of a buffer of the
table is released.  A copy that reads beyond the bytes of a packet finds what stands there.

Main results:

- Theorem {lit}`FragBuf.mergeRight_iff`: which buffers are merged as they should be.
- Theorem {lit}`FragBuf.right_iff_takes`: the fragments that a buffer can take.
- Theorem {lit}`FragInv.step`: what a packet keeps.
- Theorem {lit}`fragments_safe`: a run is safe when each fragment can be taken and the slab entry of a new
  buffer is clear, and only then if all entries are.
-/

namespace Micael
namespace Net

open Foundation Lib

/-! ## What a fragment has to meet -/

/-- `f_off`. -/
def RxPacket.fragOff (p : RxPacket) : Int := ((p.dgram.fOff &&& ipv4FragMask) * 8 : Nat)

/-- `p_len`. -/
def RxPacket.fragLen (p : RxPacket) : Int := (p.dgram.len : Int) - ipv4HdrSize

/-- The last fragment of its datagram. -/
def RxPacket.IsLast (p : RxPacket) : Prop :=
  p.dgram.fOff &&& ipv4MoreFrags = 0 ∧ p.dgram.fOff &&& ipv4FragMask ≠ 0

instance RxPacket.decidableIsLast (p : RxPacket) : Decidable p.IsLast :=
  inferInstanceAs (Decidable (_ ∧ _))

/-- `off`, the slot of a fragment. -/
def FragBuf.slotOf (buf : FragBuf) (p : RxPacket) : Int :=
  if p.IsLast then p.fragOff / buf.fsize else p.fragOff.tdiv p.fragLen

/-- `e_idx` with a fragment. -/
def FragBuf.lastOf (buf : FragBuf) (p : RxPacket) : Int := if p.IsLast then buf.slotOf p else buf.eIdx

/-- The number of bytes that are copied from a fragment; a negative `int` is a large `size_t`. -/
def RxPacket.copyLen (p : RxPacket) : Nat := u64 (p.dgram.len + 2 ^ 64 - ipv4HdrSize)

/-- The number of bytes that are copied from the first `n` slots. -/
def FragBuf.copied (buf : FragBuf) (n : Nat) : Nat :=
  ∑ i ∈ Finset.range n, (buf.pkts i).elim 0 RxPacket.copyLen

/-- The slots that are merged hold distinct live packets, and as many bytes are copied as were
allocated. -/
structure FragBuf.MergeRight (buf : FragBuf) (live : List Nat) : Prop where
  present : ∀ i < buf.npkts.toNat, ∃ p, buf.pkts i = some p ∧ p.addr ∈ live
  distinct : ∀ i j p q, i < buf.npkts.toNat → j < buf.npkts.toNat → buf.pkts i = some p →
    buf.pkts j = some q → p.addr = q.addr → i = j
  copied : (buf.copied buf.npkts.toNat : Int) = buf.tsize

/-- A fragment is entered without a division by zero, in one of the 45 slots, and if it completes its
datagram, the fragments are merged as they should be. -/
def FragBuf.Right (buf : FragBuf) (live : List Nat) (p : RxPacket) : Prop :=
  ∃ buf', buf.add p = .ok buf' ∧ (¬ buf'.Waits → buf'.MergeRight live)

/-- The fragment has another length than its header, its slot is one of the 45, and if with it as many
fragments have come as the slot of the last one says, all slots up to that one are filled, with fragments
that are not shorter than a header. -/
structure FragBuf.Takes (buf : FragBuf) (p : RxPacket) : Prop where
  divisor : p.fragLen ≠ 0 ∧ (p.IsLast → buf.fsize ≠ 0)
  slot : 0 ≤ buf.slotOf p ∧ buf.slotOf p < fragBufSlots
  complete : buf.npkts = buf.lastOf p → ∀ i : Nat, (i : Int) ≤ buf.npkts →
    if (i : Int) = buf.slotOf p then ipv4HdrSize ≤ p.dgram.len
    else ∃ q, buf.pkts i = some q ∧ ipv4HdrSize ≤ q.dgram.len

/-- A slab entry that is clear. -/
structure FragBuf.Clear (buf : FragBuf) : Prop where
  tsize : buf.tsize = 0
  npkts : buf.npkts = 0
  pkts : ∀ i, buf.pkts i = none

/-! ## The buffer -/

section Buffer

variable {buf buf' : FragBuf} {p : RxPacket} {live : List Nat}

/-- The buffer with a fragment. -/
def FragBuf.entered (buf : FragBuf) (p : RxPacket) : FragBuf :=
  { buf with
    eIdx := buf.lastOf p
    pkts := Function.update buf.pkts (buf.slotOf p).toNat (some p)
    tsize := buf.tsize + p.fragLen
    npkts := buf.npkts + 1 }

/-- A fragment is entered if nothing is divided by zero and its slot exists. -/
theorem FragBuf.add_eq_ok :
    buf.add p = .ok buf' ↔ (p.fragLen ≠ 0 ∧ (p.IsLast → buf.fsize ≠ 0)) ∧
      (0 ≤ buf.slotOf p ∧ buf.slotOf p < fragBufSlots) ∧ buf' = buf.entered p := by
  change (if p.fragLen = 0 ∨ (p.IsLast ∧ buf.fsize = 0) then Except.error Halt.fault
    else if buf.slotOf p < 0 ∨ (fragBufSlots : Int) ≤ buf.slotOf p then Except.error Halt.fault
    else Except.ok (buf.entered p)) = .ok buf' ↔ _
  rw [guard_eq_ok, guard_eq_ok, not_or, not_and, not_or, not_lt, not_le, Except.ok.injEq,
    @eq_comm _ (buf.entered p)]

/-- The numbers of a buffer whose fragments are counted, and the lengths in its slots. -/
structure FragBuf.Counted (buf : FragBuf) : Prop where
  tally : Tally RxPacket.fragLen fragBufSlots buf.pkts buf.npkts buf.tsize
  word : ∀ i q, buf.pkts i = some q → q.dgram.len < 2 ^ 16

/-- The packets of a buffer are live and distinct. -/
structure FragBuf.Distinct (buf : FragBuf) (live : List Nat) : Prop where
  live : ∀ i q, buf.pkts i = some q → q.addr ∈ live
  unique : ∀ i j q r, buf.pkts i = some q → buf.pkts j = some r → q.addr = r.addr → i = j

/-- What is in a slot after a fragment was entered. -/
theorem FragBuf.entered_pkts {i : Nat} {q : RxPacket} (hq : (buf.entered p).pkts i = some q) :
    (i = (buf.slotOf p).toNat ∧ q = p) ∨ (i ≠ (buf.slotOf p).toNat ∧ buf.pkts i = some q) := by
  change Function.update buf.pkts (buf.slotOf p).toNat (some p) i = some q at hq
  by_cases hi : i = (buf.slotOf p).toNat
  · rw [hi, Function.update_self] at hq
    exact .inl ⟨hi, (Option.some.inj hq).symm⟩
  · rw [Function.update_of_ne hi] at hq
    exact .inr ⟨hi, hq⟩

/-- A clear entry counts no fragments. -/
theorem FragBuf.Clear.counted (h : buf.Clear) : buf.Counted where
  tally := by
    rw [h.npkts, h.tsize, funext h.pkts]
    exact Tally.empty RxPacket.fragLen fragBufSlots
  word := by
    intro i q hq
    rw [h.pkts] at hq
    cases hq

theorem FragBuf.Counted.entered (h : buf.Counted) (hword : p.dgram.len < 2 ^ 16)
    (hslot : 0 ≤ buf.slotOf p ∧ buf.slotOf p < fragBufSlots) : (buf.entered p).Counted where
  tally := h.tally.update (by omega) p
  word := by
    intro i q hq
    rcases entered_pkts hq with ⟨-, rfl⟩ | ⟨-, hq⟩
    · exact hword
    · exact h.word i q hq

theorem FragBuf.Distinct.entered (h : buf.Distinct live) (hnew : p.addr ∉ live) :
    (buf.entered p).Distinct (p.addr :: live) where
  live := by
    intro i q hq
    rcases FragBuf.entered_pkts hq with ⟨-, rfl⟩ | ⟨-, hq⟩
    · exact List.mem_cons_self
    · exact List.mem_cons_of_mem _ (h.live i q hq)
  unique := by
    intro i j q r hq hr haddr
    rcases FragBuf.entered_pkts hq with ⟨hi, hqp⟩ | ⟨-, hq⟩ <;>
      rcases FragBuf.entered_pkts hr with ⟨hj, hrp⟩ | ⟨-, hr⟩
    · rw [hi, hj]
    · rw [hqp] at haddr
      exact absurd (haddr ▸ h.live j r hr) hnew
    · rw [hrp] at haddr
      exact absurd (haddr ▸ h.live i q hq) hnew
    · exact h.unique i j q r hq hr haddr

theorem RxPacket.copyLen_eq (hhdr : ipv4HdrSize ≤ p.dgram.len) (hword : p.dgram.len < 2 ^ 16) :
    (p.copyLen : Int) = p.fragLen := by
  unfold RxPacket.copyLen RxPacket.fragLen u64 ipv4HdrSize at *
  omega

/-- The length of a fragment that is shorter than a header is a large number. -/
theorem RxPacket.copyLen_ge (hhdr : p.dgram.len < ipv4HdrSize) : 2 ^ 63 ≤ p.copyLen := by
  unfold RxPacket.copyLen u64 ipv4HdrSize at *
  omega

/-- The fragments in the slots do not add up to more than 45 words. -/
theorem FragBuf.Counted.sum_le (h : buf.Counted) {m : Nat} (hm : m ≤ fragBufSlots) :
    ∑ i ∈ Finset.range m, slotWeight RxPacket.fragLen buf.pkts i ≤ 45 * 2 ^ 16 := by
  have hone : ∀ i ∈ Finset.range m, slotWeight RxPacket.fragLen buf.pkts i ≤ 2 ^ 16 := by
    intro i _
    unfold slotWeight
    cases hq : buf.pkts i with
    | none => simp
    | some q =>
        have hword := h.word i q hq
        simp only [Option.elim_some, RxPacket.fragLen]
        omega
  have hsum := Finset.sum_le_card_nsmul _ _ _ hone
  rw [Finset.card_range, nsmul_eq_mul] at hsum
  unfold fragBufSlots at hm
  have hcast : (m : Int) ≤ 45 := by exact_mod_cast hm
  nlinarith

/-- A buffer is merged as it should be just when its first slots are filled, with fragments that are not
shorter than a header. -/
theorem FragBuf.mergeRight_iff (h : buf.Counted) (hdistinct : buf.Distinct live) :
    buf.MergeRight live ↔
      ∀ i < buf.npkts.toNat, ∃ q, buf.pkts i = some q ∧ ipv4HdrSize ≤ q.dgram.len := by
  have hpos : (0 : Int) ≤ buf.npkts := le_trans (Int.natCast_nonneg _) h.tally.count_le
  have hcount : buf.npkts = (buf.npkts.toNat : Int) := (Int.toNat_of_nonneg hpos).symm
  have htotal : (∀ i < buf.npkts.toNat, buf.pkts i ≠ none) →
      buf.tsize = ∑ i ∈ Finset.range buf.npkts.toNat, slotWeight RxPacket.fragLen buf.pkts i :=
    h.tally.total_eq_sum hcount
  constructor
  · intro hmerge i hi
    obtain ⟨q, hq, -⟩ := hmerge.present i hi
    refine ⟨q, hq, ?_⟩
    by_contra hshort
    have hfilled : ∀ i < buf.npkts.toNat, buf.pkts i ≠ none := by
      intro j hj
      obtain ⟨r, hr, -⟩ := hmerge.present j hj
      simp [hr]
    have hslots : buf.npkts.toNat ≤ fragBufSlots := by
      by_contra hmany
      have hout := h.tally.bounded _ (hfilled fragBufSlots (by omega))
      omega
    have hle := h.sum_le hslots
    rw [← htotal hfilled, ← hmerge.copied] at hle
    -- One copy alone is larger than what all slots can hold.
    have hone : (buf.pkts i).elim 0 RxPacket.copyLen ≤ buf.copied buf.npkts.toNat :=
      Finset.single_le_sum (f := fun i => (buf.pkts i).elim 0 RxPacket.copyLen)
        (fun _ _ => Nat.zero_le _) (Finset.mem_range.mpr hi)
    rw [hq, Option.elim_some] at hone
    have hlarge := RxPacket.copyLen_ge (not_le.mp hshort)
    omega
  · intro hall
    refine ⟨?_, ?_, ?_⟩
    · intro i hi
      obtain ⟨q, hq, -⟩ := hall i hi
      exact ⟨q, hq, hdistinct.live i q hq⟩
    · intro i j q r _ _ hq hr haddr
      exact hdistinct.unique i j q r hq hr haddr
    · have hfilled : ∀ i < buf.npkts.toNat, buf.pkts i ≠ none := by
        intro j hj
        obtain ⟨r, hr, -⟩ := hall j hj
        simp [hr]
      rw [htotal hfilled, FragBuf.copied, Nat.cast_sum]
      refine Finset.sum_congr rfl fun i hi => ?_
      obtain ⟨q, hq, hhdr⟩ := hall i (Finset.mem_range.mp hi)
      have hcopy := RxPacket.copyLen_eq hhdr (h.word i q hq)
      rw [slotWeight, hq, Option.elim_some, Option.elim_some, hcopy]

/-- A fragment is right just when the buffer can take it. -/
theorem FragBuf.right_iff_takes (h : buf.Counted) (hdistinct : buf.Distinct live)
    (hword : p.dgram.len < 2 ^ 16) (hnew : p.addr ∉ live) :
    buf.Right (p.addr :: live) p ↔ buf.Takes p := by
  have hpos : (0 : Int) ≤ buf.npkts := le_trans (Int.natCast_nonneg _) h.tally.count_le
  have hmerge : ∀ hslot : 0 ≤ buf.slotOf p ∧ buf.slotOf p < fragBufSlots,
      (buf.entered p).MergeRight (p.addr :: live) ↔ ∀ i : Nat, (i : Int) ≤ buf.npkts →
        if (i : Int) = buf.slotOf p then ipv4HdrSize ≤ p.dgram.len
        else ∃ q, buf.pkts i = some q ∧ ipv4HdrSize ≤ q.dgram.len := by
    intro hslot
    rw [FragBuf.mergeRight_iff (h.entered hword hslot) (hdistinct.entered hnew)]
    refine forall_congr' fun i => ?_
    have hlt : i < (buf.entered p).npkts.toNat ↔ (i : Int) ≤ buf.npkts := by
      change i < (buf.npkts + 1).toNat ↔ _
      omega
    have hpkts : (buf.entered p).pkts i =
        Function.update buf.pkts (buf.slotOf p).toNat (some p) i := rfl
    rw [hlt, hpkts]
    refine imp_congr_right fun _ => ?_
    by_cases hi : (i : Int) = buf.slotOf p
    · rw [if_pos hi, show i = (buf.slotOf p).toNat by omega, Function.update_self]
      simp
    · rw [if_neg hi, Function.update_of_ne (by omega)]
  have hdone : ¬ (buf.entered p).Waits ↔ buf.npkts = buf.lastOf p := by
    change ¬ (buf.npkts + 1 - 1 ≠ buf.lastOf p ∨ buf.lastOf p = -1) ↔ _
    omega
  constructor
  · rintro ⟨buf', hadd, hright⟩
    obtain ⟨hdivisor, hslot, rfl⟩ := FragBuf.add_eq_ok.mp hadd
    exact ⟨hdivisor, hslot, fun hcomplete => (hmerge hslot).mp (hright (hdone.mpr hcomplete))⟩
  · intro htakes
    refine ⟨buf.entered p, FragBuf.add_eq_ok.mpr ⟨htakes.divisor, htakes.slot, rfl⟩, fun hnow => ?_⟩
    exact (hmerge htakes.slot).mpr (htakes.complete (hdone.mp hnow))

end Buffer

/-! ## The table -/

section Table

variable {rxMem : RxMemory} {rx rx₁ rx' : Receiver} {live live' freed : List Nat} {fb : Nat}
  {d : Ipv4Datagram} {p : RxPacket} {bufs : Nat → FragBuf} {known known' : Nat → Prop}

/-- The buffers that are known count their fragments, which are live and in one buffer each. -/
structure FragInv (bufs : Nat → FragBuf) (live : List Nat) (known : Nat → Prop) : Prop where
  counted : ∀ fb, known fb → (bufs fb).Counted
  distinct : ∀ fb, known fb → (bufs fb).Distinct live
  apart : ∀ fb fb' i j q r, known fb → known fb' → (bufs fb).pkts i = some q →
    (bufs fb').pkts j = some r → q.addr = r.addr → fb = fb'

/-- A fragment is entered into a known buffer. -/
theorem FragInv.enter (h : FragInv bufs live known) (hknown : known fb) (hnew : p.addr ∉ live)
    (hword : p.dgram.len < 2 ^ 16)
    (hslot : 0 ≤ (bufs fb).slotOf p ∧ (bufs fb).slotOf p < fragBufSlots) :
    FragInv (Function.update bufs fb ((bufs fb).entered p)) (p.addr :: live) known := by
  have hentry : ∀ {fb' i : Nat} {q : RxPacket},
      (Function.update bufs fb ((bufs fb).entered p) fb').pkts i = some q →
        (fb' = fb ∧ q = p) ∨ (bufs fb').pkts i = some q := by
    intro fb' i q hq
    by_cases hfb : fb' = fb
    · subst hfb
      rw [Function.update_self] at hq
      rcases FragBuf.entered_pkts hq with ⟨-, hqp⟩ | ⟨-, hq⟩
      · exact .inl ⟨rfl, hqp⟩
      · exact .inr hq
    · rw [Function.update_of_ne hfb] at hq
      exact .inr hq
  refine ⟨?_, ?_, ?_⟩
  · intro fb' hknown'
    by_cases hfb : fb' = fb
    · subst hfb
      rw [Function.update_self]
      exact (h.counted _ hknown).entered hword hslot
    · rw [Function.update_of_ne hfb]
      exact h.counted _ hknown'
  · intro fb' hknown'
    by_cases hfb : fb' = fb
    · subst hfb
      rw [Function.update_self]
      exact (h.distinct _ hknown).entered hnew
    · rw [Function.update_of_ne hfb]
      have hold := h.distinct _ hknown'
      exact ⟨fun i q hq => List.mem_cons_of_mem _ (hold.live i q hq), hold.unique⟩
  · intro fb₁ fb₂ i j q r hknown₁ hknown₂ hq hr haddr
    rcases hentry hq with ⟨hfb₁, hqp⟩ | hq <;> rcases hentry hr with ⟨hfb₂, hrp⟩ | hr
    · exact hfb₁.trans hfb₂.symm
    · rw [hqp] at haddr
      exact absurd (haddr ▸ (h.distinct _ hknown₂).live j r hr) hnew
    · rw [hrp] at haddr
      exact absurd (haddr ▸ (h.distinct _ hknown₁).live i q hq) hnew
    · exact h.apart fb₁ fb₂ i j q r hknown₁ hknown₂ hq hr haddr

/-- Fewer buffers are known, and other packets are live. -/
theorem FragInv.restrict (h : FragInv bufs live known) (hsub : ∀ fb, known' fb → known fb)
    (hlive : ∀ fb ptr, known' fb → (bufs fb).Has ptr → ptr ∈ live → ptr ∈ live') :
    FragInv bufs live' known' where
  counted := fun fb hfb => h.counted fb (hsub fb hfb)
  distinct := by
    intro fb hfb
    have hold := h.distinct fb (hsub fb hfb)
    exact ⟨fun i q hq => hlive fb q.addr hfb ⟨i, q, hq, rfl⟩ (hold.live i q hq), hold.unique⟩
  apart := fun fb fb' i j q r hfb hfb' => h.apart fb fb' i j q r (hsub fb hfb) (hsub fb' hfb')

/-- The fragments of a buffer are freed, and the buffer is forgotten. -/
theorem FragInv.free (h : FragInv bufs live known) (hknown : known fb)
    (hrest : ∀ fb', known' fb' → known fb' ∧ fb' ≠ fb)
    (hfreed : ∀ ptr ∈ freed, (bufs fb).Has ptr) :
    FragInv bufs (live.filter fun ptr => ptr ∉ freed) known' := by
  refine h.restrict (fun fb' hfb' => (hrest fb' hfb').1) fun fb' ptr hfb' hhas hptr => ?_
  refine List.mem_filter.mpr ⟨hptr, decide_eq_true fun hmem => ?_⟩
  obtain ⟨i, q, hq, haddr⟩ := hhas
  obtain ⟨j, r, hr, haddr'⟩ := hfreed ptr hmem
  exact (hrest fb' hfb').2
    (h.apart fb' fb i j q r (hrest fb' hfb').1 hknown hq hr (haddr.trans haddr'.symm))

/-- The buffer that a lookup allocates. -/
theorem findFragBuf_new (hget : hmGet hmHashNum rx.fragments (UInt32.ofNat d.iden) = 0)
    (hfind : findFragBuf rxMem rx d = (fb, rx₁)) :
    rx₁.bufs fb = { rxMem.fragBuf rx.allocs with
      fsize := u64 (d.len + 2 ^ 64 - ipv4HdrSize)
      eIdx := -1 } := by
  simp only [findFragBuf, hget, ne_eq, not_true_eq_false, if_false] at hfind
  obtain ⟨rfl, rfl⟩ := Prod.mk.inj hfind
  exact Function.update_self ..

/-- A clear buffer becomes known; the others are what they were. -/
theorem FragInv.add_clear {bufs' : Nat → FragBuf} (h : FragInv bufs live known)
    (hsame : ∀ fb', fb' ≠ fb → bufs' fb' = bufs fb') (hclear : (bufs' fb).Clear)
    (hsub : ∀ fb', known' fb' → fb' ≠ fb → known fb') : FragInv bufs' live known' := by
  have hnone : ∀ {i : Nat} {q : RxPacket}, (bufs' fb).pkts i ≠ some q := by
    intro i q hq
    rw [hclear.pkts] at hq
    cases hq
  refine ⟨?_, ?_, ?_⟩
  · intro fb' hfb'
    by_cases hfb : fb' = fb
    · subst hfb
      exact hclear.counted
    · rw [hsame fb' hfb]
      exact h.counted fb' (hsub fb' hfb' hfb)
  · intro fb' hfb'
    by_cases hfb : fb' = fb
    · subst hfb
      exact ⟨fun i q hq => absurd hq hnone, fun i j q r hq => absurd hq hnone⟩
    · rw [hsame fb' hfb]
      exact h.distinct fb' (hsub fb' hfb' hfb)
  · intro fb₁ fb₂ i j q r hfb₁ hfb₂ hq hr haddr
    by_cases hfirst : fb₁ = fb
    · exact absurd (hfirst ▸ hq) hnone
    · by_cases hsecond : fb₂ = fb
      · exact absurd (hsecond ▸ hr) hnone
      · rw [hsame fb₁ hfirst] at hq
        rw [hsame fb₂ hsecond] at hr
        exact h.apart fb₁ fb₂ i j q r (hsub fb₁ hfb₁ hfirst) (hsub fb₂ hfb₂ hsecond) hq hr haddr

/-- A lookup finds a buffer that counts its fragments, or allocates one in a clear entry. -/
theorem FragInv.find (h : FragInv rx.bufs live rx.InTable)
    (hclear : hmGet hmHashNum rx.fragments (UInt32.ofNat d.iden) = 0 → (rxMem.fragBuf rx.allocs).Clear)
    (hfind : findFragBuf rxMem rx d = (fb, rx₁)) :
    FragInv rx₁.bufs live fun fb' => rx₁.InTable fb' ∨ fb' = fb := by
  rcases findFragBuf_cases hfind with ⟨hget, rfl, rfl⟩ | ⟨hget, -⟩
  · obtain ⟨-, i, hfound⟩ := foundAt_of_hmGet hget
    refine h.restrict ?_ fun _ _ _ _ hptr => hptr
    rintro fb' (hfb' | rfl)
    · exact hfb'
    · exact ⟨_, _, hfound.holds⟩
  · refine h.add_clear (fun fb' hfb => findFragBuf_bufs hfind hfb) ?_ ?_
    · obtain ⟨htsize, hnpkts, hpkts⟩ := hclear hget
      rw [findFragBuf_new hget hfind]
      exact ⟨htsize, hnpkts, hpkts⟩
    · rintro fb' (⟨index, key, hholds⟩ | heq) hne
      · exact ⟨index, key, (holds_of_find hfind hholds).resolve_right hne⟩
      · exact absurd heq hne

end Table

/-! ## Runs -/

/-- The receiver, the addresses of the packets that are allocated, and whether the kernel has not
stopped. -/
structure FragState where
  rx : Receiver
  live : List Nat
  up : Bool

/-- A packet is received, or one is released by those who were handed it. -/
inductive FragOp where
  | recv (p : RxPacket)
  | release (ptr : Nat)

/-- The packet with its header in host order. -/
def RxPacket.host (p : RxPacket) : RxPacket := { p with dgram := p.dgram.toHost }

theorem RxPacket.host_len_lt (p : RxPacket) : p.host.dgram.len < 2 ^ 16 := n2h16_lt p.dgram.len

/-- A packet is received where no live packet is, and a fragment that is queued is not released. -/
def FragOp.Allowed (s : FragState) : FragOp → Prop
  | .recv p => p.addr ∉ s.live
  | .release ptr => ∀ fb, ¬ s.rx.Refers fb ptr

/-- The state afterwards; when a datagram is complete its fragments are deallocated. -/
def FragState.after (rxMem : RxMemory) (s : FragState) : FragOp → FragState
  | .recv p =>
      match ipv4HandlePkt rxMem s.rx p with
      | .error _ => { s with up := false }
      | .ok (_, rx) =>
          { s with
            rx := rx
            live := (p.addr :: s.live).filter fun ptr => ptr ∉ newlyFreed s.rx rx }
  | .release ptr => { s with live := s.live.filter fun x => x ≠ ptr }

/-- One event of a run. -/
def FragStep (rxMem : RxMemory) (s : FragState) (op : FragOp) (t : FragState) : Prop :=
  s.up = true ∧ op.Allowed s ∧ t = s.after rxMem op

/-- A fragment is handled as it should be. -/
def FragOp.Right (rxMem : RxMemory) (s : FragState) : FragOp → Prop
  | .recv p => p.host.dgram.isFragment = true →
      ∀ fb rx₁, findFragBuf rxMem s.rx p.host.dgram = (fb, rx₁) →
        (rx₁.bufs fb).Right (p.addr :: s.live) p.host
  | .release _ => True

/-- A new buffer is a clear entry of the slab. -/
def FragOp.ClearEntry (rxMem : RxMemory) (s : FragState) : FragOp → Prop
  | .recv p => p.host.dgram.isFragment = true →
      hmGet hmHashNum s.rx.fragments (UInt32.ofNat p.host.dgram.iden) = 0 →
        (rxMem.fragBuf s.rx.allocs).Clear
  | .release _ => True

/-- A fragment can be taken by its buffer. -/
def FragOp.Takes (rxMem : RxMemory) (s : FragState) : FragOp → Prop
  | .recv p => p.host.dgram.isFragment = true →
      ∀ fb rx₁, findFragBuf rxMem s.rx p.host.dgram = (fb, rx₁) → (rx₁.bufs fb).Takes p.host
  | .release _ => True

/-- The receiver after `ipv4_init`, and no packets. -/
def bootFragState : FragState := ⟨initialReceiver, [], true⟩

section Runs

variable {rxMem : RxMemory} {s t : FragState} {op : FragOp} {p : RxPacket}

/-- The table is well formed, and its buffers count their fragments. -/
structure FragState.Inv (s : FragState) : Prop where
  wf : s.rx.Wf
  bufs : FragInv s.rx.bufs s.live s.rx.InTable

theorem bootFragState_inv : bootFragState.Inv := by
  have hnone : ∀ {index fb : Nat} {key : UInt32}, ¬ bootFragState.rx.fragments.Holds index key fb :=
    fun hholds => initialReceiver_emptyTable _ hholds.occupied
  have hempty : ∀ fb, ¬ bootFragState.rx.InTable fb := by
    rintro fb ⟨index, key, hholds⟩
    exact hnone hholds
  refine ⟨⟨fun _ _ _ _ _ hholds => absurd hholds hnone, fun _ _ _ hholds => absurd hholds hnone⟩, ?_⟩
  exact ⟨fun fb hfb => absurd hfb (hempty fb), fun fb hfb => absurd hfb (hempty fb),
    fun fb _ _ _ _ _ hfb => absurd hfb (hempty fb)⟩

/-- What a fragment that was handled keeps. -/
theorem FragState.Inv.fragment (h : s.Inv) (hnew : p.addr ∉ s.live) (hword : p.dgram.len < 2 ^ 16)
    (hclear : hmGet hmHashNum s.rx.fragments (UInt32.ofNat p.dgram.iden) = 0 →
      (rxMem.fragBuf s.rx.allocs).Clear)
    {outcome : Ipv4Outcome} {rx' : Receiver}
    (hcall : handleFragment rxMem s.rx p = .ok (outcome, rx')) :
    FragInv rx'.bufs ((p.addr :: s.live).filter fun ptr => ptr ∉ newlyFreed s.rx rx') rx'.InTable := by
  cases hfind : findFragBuf rxMem s.rx p.dgram with
  | mk fb rx₁ =>
      obtain ⟨buf, hadd, hbufs, hcases⟩ := handleFragment_cases hfind hcall
      obtain ⟨-, hslot, rfl⟩ := FragBuf.add_eq_ok.mp hadd
      have hentered := (h.bufs.find hclear hfind).enter (.inr rfl) hnew hword hslot
      have hsame := findFragBuf_freed hfind
      rw [← hbufs] at hentered
      rcases hcases with ⟨-, -, hfragments, -, hlist⟩ | ⟨-, -, ⟨e, hremove⟩, -, hlist⟩
      · -- the fragment is queued
        have hnothing : newlyFreed s.rx rx' = [] := newlyFreed_append (hlist.trans hsame)
        rw [hnothing]
        refine hentered.restrict (fun fb' hfb' => .inl ?_) fun fb' ptr _ _ hptr => ?_
        · rw [Receiver.InTable, ← hfragments]
          exact hfb'
        · exact List.mem_filter.mpr ⟨hptr, by simp⟩
      · -- the datagram is complete
        rw [newlyFreed_append (hlist.trans (by rw [hsame]))]
        have hknown : rx₁.InTable fb ∨ fb = fb := .inr rfl
        refine hentered.free hknown ?_ ?_
        · rintro fb' ⟨index, key, hholds⟩
          refine ⟨.inl ⟨index, key, hholds.of_remove hremove⟩, ?_⟩
          rintro rfl
          exact h.wf.removed hfind hremove index key hholds
        · intro ptr hptr
          rw [hbufs, Function.update_self]
          exact FragBuf.has_of_mem_addrs hptr

/-- Every event keeps the invariant, as long as new buffers are clear. -/
theorem FragState.Inv.step (h : s.Inv) (hstep : FragStep rxMem s op t)
    (hclear : op.ClearEntry rxMem s) : t.Inv := by
  obtain ⟨-, hallowed, rfl⟩ := hstep
  cases op with
  | recv p =>
      rw [FragState.after]
      cases hcall : ipv4HandlePkt rxMem s.rx p with
      | error e => exact ⟨h.wf, h.bufs⟩
      | ok r =>
          obtain ⟨outcome, rx'⟩ := r
          refine ⟨h.wf.handle hcall, ?_⟩
          by_cases hfragment : p.dgram.toHost.isFragment = true
          · rw [ipv4HandlePkt_fragment hfragment] at hcall
            exact h.fragment (p := p.host) hallowed p.host_len_lt (hclear hfragment) hcall
          · rw [ipv4HandlePkt, if_neg hfragment] at hcall
            obtain ⟨-, rfl⟩ := Prod.mk.inj (Except.ok.inj hcall)
            have hnothing : newlyFreed s.rx s.rx = [] := newlyFreed_append rfl
            refine h.bufs.restrict (fun _ hfb => hfb) fun fb ptr _ _ hptr => ?_
            exact List.mem_filter.mpr ⟨List.mem_cons_of_mem _ hptr, by simp [hnothing]⟩
  | release ptr =>
      refine ⟨h.wf, h.bufs.restrict (fun _ hfb => hfb) fun fb x hfb hhas hx => ?_⟩
      refine List.mem_filter.mpr ⟨hx, decide_eq_true ?_⟩
      rintro rfl
      exact hallowed fb ⟨hfb, hhas⟩

/-- A fragment is handled as it should be just when its buffer can take it. -/
theorem FragState.Inv.right_iff_takes (h : s.Inv) (hstep : FragStep rxMem s op t)
    (hclear : op.ClearEntry rxMem s) : op.Right rxMem s ↔ op.Takes rxMem s := by
  obtain ⟨-, hallowed, -⟩ := hstep
  cases op with
  | release ptr => exact Iff.rfl
  | recv p =>
      refine forall_congr' fun hfragment => forall_congr' fun fb => forall_congr' fun rx₁ =>
        forall_congr' fun hfind => ?_
      have hfound := h.bufs.find (hclear hfragment) hfind
      exact FragBuf.right_iff_takes (hfound.counted fb (.inr rfl)) (hfound.distinct fb (.inr rfl))
        p.host_len_lt hallowed

/-- The slab entry is clear, and the fragment can be taken. -/
def FragOp.Fits (rxMem : RxMemory) (s : FragState) (op : FragOp) : Prop :=
  op.ClearEntry rxMem s ∧ op.Takes rxMem s

/-- Along a run, all slab entries are clear and all packets are handled as they should be just when all
of them fit. -/
theorem clear_right_iff_fits (ops : List FragOp) :
    (∀ pre op t u, pre ++ [op] <+: ops → Run (FragStep rxMem) bootFragState pre t →
        FragStep rxMem t op u → op.ClearEntry rxMem t ∧ op.Right rxMem t) ↔
      ∀ pre op t u, pre ++ [op] <+: ops → Run (FragStep rxMem) bootFragState pre t →
        FragStep rxMem t op u → op.Fits rxMem t := by
  refine Run.steps_iff (fun s op t hinv hstep hfits => hinv.step hstep hfits.1) ?_ bootFragState_inv ops
  intro s op t hinv hstep
  exact and_congr_right fun hclear => hinv.right_iff_takes hstep hclear

/-- All packets of a run are handled as they should be when they fit, and, if all slab entries are clear,
only then. -/
theorem fragments_safe (rxMem : RxMemory) (ops : List FragOp) :
    ((∀ pre op t u, pre ++ [op] <+: ops → Run (FragStep rxMem) bootFragState pre t →
        FragStep rxMem t op u → op.Fits rxMem t) →
      ∀ pre op t u, pre ++ [op] <+: ops → Run (FragStep rxMem) bootFragState pre t →
        FragStep rxMem t op u → op.Right rxMem t) ∧
    ((∀ n, (rxMem.fragBuf n).Clear) →
      (∀ pre op t u, pre ++ [op] <+: ops → Run (FragStep rxMem) bootFragState pre t →
        FragStep rxMem t op u → op.Right rxMem t) →
      ∀ pre op t u, pre ++ [op] <+: ops → Run (FragStep rxMem) bootFragState pre t →
        FragStep rxMem t op u → op.Fits rxMem t) := by
  constructor
  · intro hfits pre op t u hpre hrun hstep
    exact ((clear_right_iff_fits ops).mpr hfits pre op t u hpre hrun hstep).2
  · intro hclear hright
    refine (clear_right_iff_fits ops).mp fun pre op t u hpre hrun hstep => ⟨?_, ?_⟩
    · cases op with
      | recv p => exact fun _ _ => hclear _
      | release ptr => trivial
    · exact hright pre op t u hpre hrun hstep

end Runs

/-! ## Two fragments -/

/-- A fragment at address one, with offset and length in network order. -/
def fragmentAtOne (fOff len : Nat) : RxPacket :=
  ⟨1, ⟨5, 4, 0, 0, n2h16 len, 0, n2h16 fOff, 128, 17, 0, 0, 0, List.replicate 16 0⟩⟩

/-- A last fragment with 16 bytes at offset 8, which completes its datagram. -/
def loneFragment : RxPacket := fragmentAtOne 1 36

/-- The first fragment of a datagram, without data. -/
def emptyFragment : RxPacket := fragmentAtOne ipv4MoreFrags 20

theorem zeroRxMemory_clear (n : Nat) : (zeroRxMemory.fragBuf n).Clear := ⟨rfl, rfl, fun _ => rfl⟩

/-- A run of one packet that fits. -/
theorem lone_fragment_safe :
    ∀ pre op t u, pre ++ [op] <+: [.recv loneFragment] →
      Run (FragStep zeroRxMemory) bootFragState pre t → FragStep zeroRxMemory t op u →
        op.Right zeroRxMemory t := by
  refine (fragments_safe zeroRxMemory [.recv loneFragment]).1 fun pre op t u hpre hrun hstep => ?_
  obtain ⟨rfl, rfl⟩ := concat_prefix_singleton hpre
  obtain rfl := Run.of_nil hrun
  refine ⟨fun _ _ => zeroRxMemory_clear _, fun _ fb rx₁ hfind => ?_⟩
  have hbuf := findFragBuf_new (by decide) hfind
  rw [hbuf]
  refine ⟨⟨by decide, fun _ => by decide⟩, by decide, fun _ i hi => ?_⟩
  have hzero : i = 0 := by
    have hle : (i : Int) ≤ 0 := hi
    omega
  subst hzero
  exact (by decide : ipv4HdrSize ≤ loneFragment.host.dgram.len)

/-- A fragment without data divides by zero. -/
theorem empty_fragment_unsafe :
    ¬ ∀ pre op t u, pre ++ [op] <+: [.recv emptyFragment] →
      Run (FragStep zeroRxMemory) bootFragState pre t → FragStep zeroRxMemory t op u →
        op.Right zeroRxMemory t := by
  intro hall
  have hright := hall [] (.recv emptyFragment) bootFragState _ List.prefix_rfl .nil
    ⟨rfl, List.not_mem_nil, rfl⟩
  obtain ⟨buf', hadd, -⟩ := hright (by decide) _ _ rfl
  obtain ⟨⟨hlen, -⟩, -⟩ := FragBuf.add_eq_ok.mp hadd
  exact hlen (by decide)

end Net
end Micael
