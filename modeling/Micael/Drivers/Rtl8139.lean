import Micael.Foundation.Run
import Micael.Kernel.Machine

/-!
# Transmission with four descriptors

The network card has four transmit descriptors with a buffer each.  The driver copies a frame into
the buffer of a descriptor, gives the descriptor to the card by writing its size, and goes round.
The card completes descriptors in the order in which it got them, at any later time.

The mask `tx_flag` is meant to hold the descriptors in use, but nothing sets a bit of it.  So the
driver always takes the next descriptor, and the fifth frame in a row is copied over the first one.

Main results:

- Theorem {lit}`rtl8139SendPkt_idle`: what a transmission does as long as no bit of the mask is set.
- Theorem {lit}`TxInv.step`: what every step with a free descriptor keeps.
- Theorem {lit}`rtl8139_tx_safe_iff`: no frame in flight is overwritten exactly if every frame is sent
  while fewer than four are in flight.
-/

namespace Micael
namespace Drivers

open Foundation

/-- The bytes of a frame. -/
abbrev Frame := List UInt8

/-- `TX_BUFFER_SIZE`. -/
def txBufferSize : Nat := 4

/-- The fields of `rtl8139_t` for transmission; the buffers are given by what is in them. -/
structure Rtl8139 where
  txNumber : Nat
  txFlag : BitVec 32
  txSize : Nat → Nat
  txBuffer : Nat → Frame

/-- The driver, the descriptors that the card has got and not completed, oldest first, and what has
happened so far: the frames that were sent, those that were given to the card, and whether a frame
was copied into the buffer of a descriptor in flight. -/
structure TxState where
  rtl : Rtl8139
  inFlight : List Nat
  sent : List Frame
  given : List Frame
  overwritten : Bool

/-! ## The driver -/

/-- `rtl8139_cmd_tx`. -/
def rtl8139CmdTx (s : TxState) : TxState :=
  let n := s.rtl.txNumber
  { s with
    rtl := { s.rtl with txNumber := if n + 1 = txBufferSize then 0 else n + 1 }
    inFlight := s.inFlight ++ [n]
    given := s.given ++ [(s.rtl.txBuffer n).take (s.rtl.txSize n)] }

/-- The loop of `__handle_tx`.  It does not change the mask, so it has seen all descriptors after four
turns. -/
def handleTxLoop : Nat → TxState → Except Halt TxState
  | 0, _ => .error .hang
  | n + 1, s =>
      if s.rtl.txFlag.getLsbD s.rtl.txNumber then handleTxLoop n (rtl8139CmdTx s) else .ok s

/-- `__handle_tx`. -/
def handleTx (s : TxState) : Except Halt TxState :=
  let tx := if s.rtl.txNumber ≠ 0 then s.rtl.txNumber - 1 else 3
  handleTxLoop txBufferSize
    { s with
      rtl := { s.rtl with
        txFlag := s.rtl.txFlag &&& ~~~(1#32 <<< tx)
        txSize := Function.update s.rtl.txSize tx 0 } }

/-- `rtl8139_alloc_tx`. -/
def rtl8139AllocTx (rtl : Rtl8139) : Nat :=
  ((List.range' rtl.txNumber (txBufferSize - rtl.txNumber) ++ List.range rtl.txNumber).find?
    fun i => !rtl.txFlag.getLsbD i).getD 0xff

/-- `__irq_handler`, with the bit `RTL8139_ISR_ROK` of the cause and one of the bits for transmission:
a frame that was received is handled instead. -/
def irqHandler (s : TxState) (rok : Bool) : Except Halt TxState :=
  if rok then .ok s else handleTx s

/-- The copy of a frame into the buffer of a descriptor. -/
def copyFrame (s : TxState) (index : Nat) (data : Frame) : TxState :=
  let page := data ++ (s.rtl.txBuffer index).drop data.length
  { s with
    rtl := { s.rtl with
      txBuffer := Function.update s.rtl.txBuffer index page
      txSize := Function.update s.rtl.txSize index data.length }
    sent := s.sent ++ [data]
    overwritten := s.overwritten || decide (index ∈ s.inFlight) }

/-- `rtl8139_send_pkt`; an index behind the array faults. -/
def rtl8139SendPkt (s : TxState) (data : Frame) : Except Halt TxState :=
  let index := rtl8139AllocTx s.rtl
  if txBufferSize ≤ index then .error .fault
  else
    let s := copyFrame s index data
    .ok (if index = s.rtl.txNumber then rtl8139CmdTx s else s)

/-! ## Runs -/

/-- What can happen: a frame is sent, the card completes its oldest descriptor, or it interrupts. -/
inductive TxEvent where
  | send (data : Frame)
  | complete
  | irq (rok : Bool)

/-- One step of the driver and the card. -/
inductive TxStep : TxState → TxEvent → TxState → Prop
  | send {s t : TxState} {data : Frame} : rtl8139SendPkt s data = .ok t → TxStep s (.send data) t
  | complete {s : TxState} {n : Nat} {rest : List Nat} :
      s.inFlight = n :: rest → TxStep s .complete { s with inFlight := rest }
  | irq {s t : TxState} {rok : Bool} : irqHandler s rok = .ok t → TxStep s (.irq rok) t

/-- The state after `__init`; what the pages of the buffers hold does not matter. -/
def txInit (txBuffer : Nat → Frame) : TxState where
  rtl := ⟨0, 0#32, fun _ => 0, txBuffer⟩
  inFlight := []
  sent := []
  given := []
  overwritten := false

/-- No frame in flight was overwritten, every frame was given to the card once and in order, and the
next one can be sent. -/
structure TxState.Safe (s : TxState) : Prop where
  kept : s.overwritten = false
  given : s.given = s.sent
  ready : ∀ data, ∃ t, rtl8139SendPkt s data = .ok t

/-! ## The descriptors in flight -/

/-- The descriptor before {lit}`n`. -/
def prevTx (n : Nat) : Nat := if n = 0 then 3 else n - 1

/-- The {lit}`k` descriptors before {lit}`n`, in the order of the round. -/
def before (n : Nat) : Nat → List Nat
  | 0 => []
  | k + 1 => before (prevTx n) k ++ [prevTx n]

theorem before_length (n k : Nat) : (before n k).length = k := by
  induction k generalizing n with
  | zero => rfl
  | succ k ih => simp [before, ih]

/-- The oldest descriptor in front of the others. -/
theorem before_tail {n k m : Nat} {rest : List Nat} (h : before n (k + 1) = m :: rest) :
    rest = before n k := by
  induction k generalizing n m rest with
  | zero => exact (List.cons.inj h).2.symm
  | succ k ih =>
      cases hfirst : before (prevTx n) (k + 1) with
      | nil =>
          have hlen := before_length (prevTx n) (k + 1)
          rw [hfirst] at hlen
          cases hlen
      | cons m' rest' =>
          rw [before, hfirst, List.cons_append] at h
          rw [← (List.cons.inj h).2, ih hfirst]
          rfl

/-- The next descriptor is in flight when all four are. -/
theorem mem_before_iff {n k : Nat} (hn : n < txBufferSize) (hk : k ≤ txBufferSize) :
    n ∈ before n k ↔ k = txBufferSize := by
  have hall : ∀ n < 4, ∀ k < 5, n ∈ before n k ↔ k = 4 := by decide
  exact hall n hn k (Nat.lt_succ_of_le hk)

theorem prevTx_next {n : Nat} (hn : n < txBufferSize) :
    prevTx (if n + 1 = txBufferSize then 0 else n + 1) = n := by
  have hall : ∀ n < 4, prevTx (if n + 1 = 4 then 0 else n + 1) = n := by decide
  exact hall n hn

/-! ## The invariant -/

/-- What holds as long as no frame is overwritten: the mask is empty, and the descriptors in flight
are the last ones of the round. -/
structure TxInv (s : TxState) : Prop where
  flag : s.rtl.txFlag = 0#32
  number : s.rtl.txNumber < txBufferSize
  few : s.inFlight.length ≤ txBufferSize
  flight : s.inFlight = before s.rtl.txNumber s.inFlight.length
  given : s.given = s.sent
  kept : s.overwritten = false

/-- With an empty mask the next descriptor is taken. -/
theorem rtl8139AllocTx_idle {rtl : Rtl8139} (hflag : rtl.txFlag = 0#32)
    (hnumber : rtl.txNumber < txBufferSize) : rtl8139AllocTx rtl = rtl.txNumber := by
  obtain ⟨k, hk⟩ : ∃ k, txBufferSize - rtl.txNumber = k + 1 :=
    ⟨txBufferSize - rtl.txNumber - 1, by omega⟩
  simp [rtl8139AllocTx, hflag, hk, List.range'_succ]

/-- What a transmission does as long as no bit of the mask is set. -/
theorem rtl8139SendPkt_idle {s : TxState} (hflag : s.rtl.txFlag = 0#32)
    (hnumber : s.rtl.txNumber < txBufferSize) (data : Frame) :
    ∃ t, rtl8139SendPkt s data = .ok t ∧ t.rtl.txFlag = 0#32 ∧
      t.rtl.txNumber = (if s.rtl.txNumber + 1 = txBufferSize then 0 else s.rtl.txNumber + 1) ∧
      t.inFlight = s.inFlight ++ [s.rtl.txNumber] ∧ t.sent = s.sent ++ [data] ∧
      t.given = s.given ++ [data] ∧
      t.overwritten = (s.overwritten || decide (s.rtl.txNumber ∈ s.inFlight)) := by
  have hindex := rtl8139AllocTx_idle hflag hnumber
  refine ⟨rtl8139CmdTx (copyFrame s s.rtl.txNumber data), ?_, ?_⟩
  · simp only [rtl8139SendPkt, hindex, if_neg (not_le.mpr hnumber)]
    exact congrArg Except.ok (if_pos rfl)
  · simp [rtl8139CmdTx, copyFrame, hflag]

/-- The interrupt handler changes nothing that matters. -/
theorem irqHandler_idle {s t : TxState} {rok : Bool} (hflag : s.rtl.txFlag = 0#32)
    (hcall : irqHandler s rok = .ok t) :
    t.rtl.txFlag = 0#32 ∧ t.rtl.txNumber = s.rtl.txNumber ∧ t.inFlight = s.inFlight ∧
      t.sent = s.sent ∧ t.given = s.given ∧ t.overwritten = s.overwritten := by
  cases rok with
  | true =>
      obtain rfl := Except.ok.inj hcall
      exact ⟨hflag, rfl, rfl, rfl, rfl, rfl⟩
  | false =>
      simp only [irqHandler, handleTx, handleTxLoop, txBufferSize, hflag, BitVec.zero_and,
        BitVec.getLsbD_zero, Bool.false_eq_true, if_false] at hcall
      obtain rfl := Except.ok.inj hcall
      exact ⟨rfl, rfl, rfl, rfl, rfl, rfl⟩

theorem txInit_inv (txBuffer : Nat → Frame) : TxInv (txInit txBuffer) where
  flag := rfl
  number := Nat.succ_pos 3
  few := Nat.zero_le _
  flight := rfl
  given := rfl
  kept := rfl

theorem TxInv.safe {s : TxState} (h : TxInv s) : s.Safe where
  kept := h.kept
  given := h.given
  ready data := by
    obtain ⟨t, ht, -⟩ := rtl8139SendPkt_idle h.flag h.number data
    exact ⟨t, ht⟩

/-- A frame is sent only while a descriptor is free. -/
def SendsWithRoom (s : TxState) (event : TxEvent) : Prop :=
  ∀ data, event = .send data → s.inFlight.length < txBufferSize

/-- What every step with a free descriptor keeps. -/
theorem TxInv.step {s t : TxState} {event : TxEvent} (h : TxInv s) (hstep : TxStep s event t)
    (hroom : SendsWithRoom s event) : TxInv t := by
  cases hstep with
  | @send _ data hcall =>
      have hlt := hroom data rfl
      obtain ⟨t', hcall', hflag, hnumber, hflight, hsent, hgiven, hover⟩ :=
        rtl8139SendPkt_idle h.flag h.number data
      obtain rfl := Except.ok.inj (hcall'.symm.trans hcall)
      have hlength : t'.inFlight.length = s.inFlight.length + 1 := by simp [hflight]
      constructor
      case flag => exact hflag
      case number =>
        have hn := h.number
        rw [hnumber]
        split
        · exact Nat.succ_pos 3
        · omega
      case few => omega
      case flight => rw [hlength, before, hnumber, prevTx_next h.number, ← h.flight, hflight]
      case given => rw [hgiven, hsent, h.given]
      case kept =>
        have hfree : s.rtl.txNumber ∉ s.inFlight := by
          rw [h.flight, mem_before_iff h.number h.few]
          omega
        rw [hover, h.kept]
        simp [hfree]
  | @complete n rest hcons =>
      have hlength : s.inFlight.length = rest.length + 1 := by simp [hcons]
      have hold := h.flight
      have hfew := h.few
      rw [hlength] at hold hfew
      constructor
      case flag => exact h.flag
      case number => exact h.number
      case few => exact Nat.le_of_succ_le hfew
      case flight => exact before_tail (hold.symm.trans hcons)
      case given => exact h.given
      case kept => exact h.kept
  | irq hcall =>
      obtain ⟨hflag, hnumber, hflight, hsent, hgiven, hover⟩ := irqHandler_idle h.flag hcall
      constructor
      case flag => exact hflag
      case number => rw [hnumber]; exact h.number
      case few => rw [hflight]; exact h.few
      case flight => rw [hflight, hnumber]; exact h.flight
      case given => rw [hgiven, hsent, h.given]
      case kept => rw [hover, h.kept]

/-- A frame that is sent without a free descriptor overwrites the oldest one in flight. -/
theorem TxInv.room_of_safe {s t : TxState} {event : TxEvent} (h : TxInv s)
    (hstep : TxStep s event t) (hsafe : t.Safe) : SendsWithRoom s event := by
  rintro data rfl
  by_contra hfull
  have hlength : s.inFlight.length = txBufferSize := by
    have hfew := h.few
    omega
  cases hstep with
  | send hcall =>
      obtain ⟨t', hcall', -, -, -, -, -, hover⟩ := rtl8139SendPkt_idle h.flag h.number data
      obtain rfl := Except.ok.inj (hcall'.symm.trans hcall)
      have hmem : s.rtl.txNumber ∈ s.inFlight := by
        rw [h.flight, mem_before_iff h.number h.few]
        exact hlength
      have hkept := hsafe.kept
      rw [hover] at hkept
      simp [hmem] at hkept

/-- For every order of sends, completions and interrupts, no frame in flight is overwritten and every
frame is given to the card once and in order, exactly if no frame is sent while four are in
flight. -/
theorem rtl8139_tx_safe_iff (txBuffer : Nat → Frame) (events : List TxEvent) :
    (∀ pre t, pre <+: events → Run TxStep (txInit txBuffer) pre t → t.Safe) ↔
      ∀ pre event t u, pre ++ [event] <+: events → Run TxStep (txInit txBuffer) pre t →
        TxStep t event u → SendsWithRoom t event :=
  Run.safe_iff (fun _ h => h.safe) (fun _ _ _ h hstep hroom => h.step hstep hroom)
    (fun _ _ _ h hstep hsafe => h.room_of_safe hstep hsafe) (txInit_inv txBuffer) events

/-- Five frames in a row: the fifth is copied over the first. -/
theorem rtl8139_fifth_frame_overwrites :
    ∃ t, Run TxStep (txInit fun _ => []) (List.replicate 5 (.send [0])) t ∧ ¬ t.Safe := by
  have hrun : Run TxStep (txInit fun _ => []) (List.replicate 5 (.send [0])) _ :=
    .snoc (.snoc (.snoc (.snoc (.snoc .nil (.send rfl)) (.send rfl)) (.send rfl)) (.send rfl))
      (.send rfl)
  exact ⟨_, hrun, fun hsafe => Bool.noConfusion hsafe.kept⟩

end Drivers
end Micael
