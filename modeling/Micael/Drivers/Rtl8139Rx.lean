import Micael.Drivers.Rtl8139
import Micael.Foundation.Circular
import Micael.Foundation.RingRecords

/-!
# The receive ring of the network card

The card writes every frame that it receives into a ring of 8 KiB, behind a header with a status and the
length of the frame, in one piece: it is set up not to wrap inside a frame.  It raises an interrupt, and
the handler takes frames out of the ring until the card says that the ring is empty.  Then it clears the
cause of the interrupt.  The card goes on receiving in between.

The handler reads the length of the next frame and its bytes from where its own offset says; the card takes
from the register `CAPR` up to where the ring has been read.

Main results:

- Theorem {lit}`handleRxTurn_spec`: what a turn of the handler does while a frame is waiting.
- Theorem {lit}`RxInv.step`: what every step of the card and of the handler keeps.
- Theorem {lit}`rx_frames_in_order`: the frames handled are the first of those received, byte for byte.
- Theorem {lit}`rx_none_left_iff`: no frame is left behind exactly if the ring is empty whenever the cause of
  the interrupt is cleared.
-/

namespace Micael
namespace Drivers

open Foundation

/-! ## The card and the driver -/

/-- `RX_BUFFER_SIZE`. -/
def rxBufferSize : Nat := 8192

/-- `RX_BUFFER_OVRH`: the header, and what rounding up to the next word takes. -/
def rxBufferOvrh : Nat := 7

/-- `RX_BUFFER_PAD`. -/
def rxBufferPad : Nat := 0x10

/-- The bytes of the block that the driver allocates for the ring. -/
def rxBlockSize : Nat := 4 * 4096

/-- No frame that the card receives is longer, with its checksum. -/
def rxFrameMax : Nat := 1792

/-- The fields of `rtl8139_t` for reception. -/
structure Rtl8139Rx where
  cbr : Nat
  rxBuffer : Nat

/-- Where the handler is: not running, in front of a turn of its loop, in front of the look at the register
`CR`, or in front of the write to `ISR`. -/
inductive RxPhase where
  | idle
  | turn
  | look
  | ack
deriving DecidableEq

/-- The driver, the card, and the memory they share: where the card writes next, its register `CAPR`, the bit
`RTL8139_ISR_ROK` of the cause, and what has happened so far: the frames that the card received, and those
that were given to `eth_handle_frame`. -/
structure RxState where
  rtl : Rtl8139Rx
  mem : Memory
  wptr : Nat
  capr : Nat
  rok : Bool
  phase : RxPhase
  received : List Frame
  handled : List Frame

/-- A frame in the ring, and the status in front of it. -/
structure RxRecord where
  status : Nat
  frame : Frame

/-- How far a frame reaches in the ring, with its header. -/
def rxSpan (size : Nat) : Nat := (size + 4 + 3) / 4 * 4

/-- The status, the length and the frame; the card starts every frame on a word. -/
def rxFormat : RecordFormat RxRecord where
  bytes r := littleEndian 2 r.status ++ (littleEndian 2 r.frame.length ++ r.frame)
  span r := rxSpan r.frame.length
  fits r := by simp [rxSpan]; omega

/-- A turn of the loop of `__handle_rx`. -/
def handleRxTurn (s : RxState) : Except Halt RxState :=
  let data := s.rtl.rxBuffer + s.rtl.cbr
  let size := s.mem.load (data + 2) 2
  if size = 0 then .error .kassert
  else
    let cbr := (s.rtl.cbr + size + rxBufferOvrh) / 4 * 4
    let cbr := if rxBufferSize ≤ cbr then cbr - rxBufferSize else cbr
    .ok { s with
      rtl := { s.rtl with cbr := cbr }
      capr := u16OfInt ((cbr : Int) - rxBufferPad)
      handled := s.handled ++ [s.mem.bytes (data + 4) size]
      phase := .look }

/-- Up to where the card takes the ring as read. -/
def RxState.rptr (s : RxState) : Nat := (s.capr + rxBufferPad) % rxBufferSize

/-- The bit `BUFE` of the register `CR`: the ring is empty. -/
def RxState.bufe (s : RxState) : Bool := s.wptr = s.rptr

/-- The card has room for a frame: the ring is empty, or the frame does not fill the rest of it. -/
def RxState.HasRoom (s : RxState) (frame : Frame) : Prop :=
  s.bufe ∨ rxSpan frame.length < (s.rptr + rxBufferSize - s.wptr) % rxBufferSize

/-- The card receives a frame. -/
def RxState.receive (s : RxState) (r : RxRecord) : RxState :=
  { s with
    mem := s.mem.write (s.rtl.rxBuffer + s.wptr) (rxFormat.bytes r)
    wptr := (s.wptr + rxFormat.span r) % rxBufferSize
    rok := true
    received := s.received ++ [r.frame] }

/-- What can happen next. -/
inductive RxEvent where
  | receive (r : RxRecord)
  | irq
  | turn
  | look
  | ack

/-- One step of the card or of `__irq_handler`. -/
inductive RxStep : RxState → RxEvent → RxState → Prop
  | receive {s : RxState} {r : RxRecord} :
      0 < r.frame.length → r.frame.length ≤ rxFrameMax → s.HasRoom r.frame →
        RxStep s (.receive r) (s.receive r)
  | irq {s : RxState} : s.phase = .idle → s.rok = true → RxStep s .irq { s with phase := .turn }
  | turn {s t : RxState} : s.phase = .turn → handleRxTurn s = .ok t → RxStep s .turn t
  | look {s : RxState} :
      s.phase = .look → RxStep s .look { s with phase := if s.bufe then .ack else .turn }
  | ack {s : RxState} : s.phase = .ack → RxStep s .ack { s with phase := .idle, rok := false }

/-- The state after `__init`; a reset sets the register `CAPR` so that the ring is read up to its start. -/
def rxInit (rxBuffer : Nat) (mem : Memory) : RxState where
  rtl := ⟨0, rxBuffer⟩
  mem := mem
  wptr := 0
  capr := 0xfff0
  rok := false
  phase := .idle
  received := []
  handled := []

/-! ## What holds between steps -/

/-- The frames that wait in the ring lie from the position `pos` on, and the driver and the card agree on
where that is.  A turn of the loop, or an interrupt, comes only while a frame waits. -/
structure RxInv (s : RxState) (pos : Nat) (waiting : List RxRecord) : Prop where
  aligned : pos % 4 = 0
  cbr : s.rtl.cbr = pos % rxBufferSize
  rptr : s.rptr = pos % rxBufferSize
  wptr : s.wptr = (pos + rxFormat.total waiting) % rxBufferSize
  room : rxFormat.total waiting < rxBufferSize
  stored : rxFormat.Stored s.mem s.rtl.rxBuffer rxBufferSize pos waiting
  sizes : ∀ r ∈ waiting, 0 < r.frame.length ∧ r.frame.length ≤ rxFrameMax
  frames : s.received = s.handled ++ waiting.map (·.frame)
  turn : s.phase = .turn → waiting ≠ []
  cause : s.phase = .idle → s.rok = true → waiting ≠ []

theorem rxInit_inv (rxBuffer : Nat) (mem : Memory) : RxInv (rxInit rxBuffer mem) 0 [] where
  aligned := rfl
  cbr := rfl
  rptr := by norm_num [RxState.rptr, rxInit, rxBufferPad, rxBufferSize]
  wptr := rfl
  room := by decide
  stored := trivial
  sizes := fun _ h => absurd h List.not_mem_nil
  frames := rfl
  turn := fun h => by cases h
  cause := fun _ h => by cases h

section Steps

variable {s t : RxState} {pos : Nat} {waiting : List RxRecord} {r : RxRecord} {event : RxEvent}

theorem rxSpan_pos (size : Nat) : 0 < rxSpan size := by
  unfold rxSpan
  omega

theorem rxSpan_le {size : Nat} (h : size ≤ rxFrameMax) : rxSpan size ≤ rxFrameMax + 4 := by
  unfold rxSpan
  unfold rxFrameMax at *
  omega

/-- The reader's position after a write to `CAPR`. -/
theorem rptr_of_capr {cbr : Nat} (hcbr : cbr < rxBufferSize) :
    (u16OfInt ((cbr : Int) - rxBufferPad) + rxBufferPad) % rxBufferSize = cbr := by
  unfold u16OfInt rxBufferSize rxBufferPad at *
  omega

/-- The ring is empty when no frame waits. -/
theorem RxInv.bufe_iff (h : RxInv s pos waiting) : s.bufe = true ↔ waiting = [] := by
  rw [RxState.bufe, decide_eq_true_iff, h.wptr, h.rptr]
  constructor
  · intro heq
    cases waiting with
    | nil => rfl
    | cons first rest =>
        have hne := Circular.mod_ne_of_lt (n := rxBufferSize) (i := pos)
          (k := pos + rxFormat.total (first :: rest)) ?_ ?_
        · exact absurd heq.symm hne
        · have hspan : 0 < rxFormat.span first := rxSpan_pos _
          rw [RecordFormat.total_cons]
          omega
        · exact Nat.add_lt_add_left h.room pos
  · rintro rfl
    rfl

/-- What is left of the ring when a frame has room. -/
theorem RxInv.total_lt (h : RxInv s pos waiting) (hmax : r.frame.length ≤ rxFrameMax)
    (hroom : s.HasRoom r.frame) : rxFormat.total waiting + rxFormat.span r < rxBufferSize := by
  rcases hroom with hempty | hspan
  · obtain rfl := h.bufe_iff.mp hempty
    have hle := rxSpan_le hmax
    change 0 + rxSpan r.frame.length < rxBufferSize
    unfold rxFrameMax at hle
    unfold rxBufferSize
    omega
  · rw [h.wptr, h.rptr] at hspan
    change rxFormat.total waiting + rxSpan r.frame.length < rxBufferSize
    have hold := h.room
    unfold rxBufferSize at *
    omega

/-- What a turn of the handler does while a frame is waiting. -/
theorem handleRxTurn_spec (h : RxInv s pos (r :: waiting)) :
    ∃ t, handleRxTurn s = .ok t ∧ t.rtl.cbr = (pos + rxFormat.span r) % rxBufferSize ∧
      t.rptr = (pos + rxFormat.span r) % rxBufferSize ∧ t.handled = s.handled ++ [r.frame] ∧
      t.phase = .look ∧ t.rtl.rxBuffer = s.rtl.rxBuffer ∧ t.mem = s.mem ∧ t.wptr = s.wptr ∧
      t.received = s.received ∧ t.rok = s.rok := by
  obtain ⟨hpos, hmax⟩ := h.sizes r List.mem_cons_self
  obtain ⟨-, hlength, hframe⟩ : _ ∧ _ ∧ _ := by
    have hfirst := h.stored.1
    rw [rxFormat, Memory.holdsAt_append, Memory.holdsAt_append] at hfirst
    exact hfirst
  rw [length_littleEndian, ← h.cbr] at hlength hframe
  rw [length_littleEndian] at hframe
  -- the length that the card wrote is read back
  have hsize : s.mem.load (s.rtl.rxBuffer + s.rtl.cbr + 2) 2 = r.frame.length := by
    rw [hlength.load]
    apply Nat.mod_eq_of_lt
    unfold rxFrameMax at hmax
    omega
  have hcbr : (if rxBufferSize ≤ (s.rtl.cbr + r.frame.length + rxBufferOvrh) / 4 * 4 then
      (s.rtl.cbr + r.frame.length + rxBufferOvrh) / 4 * 4 - rxBufferSize
      else (s.rtl.cbr + r.frame.length + rxBufferOvrh) / 4 * 4) =
      (pos + rxFormat.span r) % rxBufferSize := by
    have hnext : (s.rtl.cbr + r.frame.length + rxBufferOvrh) / 4 * 4 =
        pos % rxBufferSize + rxFormat.span r := by
      have halign := h.aligned
      rw [h.cbr]
      change _ = pos % rxBufferSize + rxSpan r.frame.length
      unfold rxSpan rxBufferOvrh rxBufferSize
      omega
    have hspan : rxFormat.span r ≤ rxBufferSize := by
      have hroom := h.room
      rw [RecordFormat.total_cons] at hroom
      omega
    rw [hnext]
    exact RecordFormat.wrap_add (by decide) hspan
  refine ⟨{ s with
      rtl := { s.rtl with cbr := (pos + rxFormat.span r) % rxBufferSize }
      capr := u16OfInt (((pos + rxFormat.span r) % rxBufferSize : Nat) - rxBufferPad)
      handled := s.handled ++ [s.mem.bytes (s.rtl.rxBuffer + s.rtl.cbr + 4) r.frame.length]
      phase := .look }, ?_, ?_⟩
  · rw [handleRxTurn]
    simp only [hsize, if_neg hpos.ne', hcbr]
  · have hlt : (pos + rxFormat.span r) % rxBufferSize < rxBufferSize := Nat.mod_lt _ (by decide)
    exact ⟨rfl, rptr_of_capr hlt, congrArg (s.handled ++ [·]) hframe, rfl, rfl, rfl, rfl, rfl, rfl⟩

theorem RxInv.receive (h : RxInv s pos waiting) (hpos : 0 < r.frame.length)
    (hmax : r.frame.length ≤ rxFrameMax) (hroom : s.HasRoom r.frame) :
    RxInv (s.receive r) pos (waiting ++ [r]) := by
  have htotal := h.total_lt hmax hroom
  constructor
  case aligned => exact h.aligned
  case cbr => exact h.cbr
  case rptr => exact h.rptr
  case wptr =>
    change (s.wptr + rxFormat.span r) % rxBufferSize = _
    rw [h.wptr, Nat.mod_add_mod, RecordFormat.total_append, RecordFormat.total_cons,
      RecordFormat.total_nil, Nat.add_zero, Nat.add_assoc]
  case room => simpa using htotal
  case stored =>
    have hput := h.stored.put (r := r) htotal.le
    rw [← h.wptr] at hput
    exact hput
  case sizes =>
    intro r' hr'
    rcases List.mem_append.mp hr' with hold | hnew
    · exact h.sizes r' hold
    · obtain rfl := List.mem_singleton.mp hnew
      exact ⟨hpos, hmax⟩
  case frames =>
    change s.received ++ [r.frame] = s.handled ++ _
    rw [h.frames, List.map_append, List.append_assoc]
    rfl
  case turn => simp
  case cause => simp

/-- A turn takes the oldest frame out of the ring. -/
theorem RxInv.turned (h : RxInv s pos (r :: waiting)) (hcall : handleRxTurn s = .ok t) :
    RxInv t (pos + rxFormat.span r) waiting := by
  obtain ⟨t', hcall', hcbr, hrptr, hhandled, hphase, hbuf, hmem, hwptr, hreceived, -⟩ :=
    handleRxTurn_spec h
  obtain rfl := Except.ok.inj (hcall'.symm.trans hcall)
  have hroom := h.room
  rw [RecordFormat.total_cons] at hroom
  constructor
  case aligned =>
    have halign := h.aligned
    change (pos + rxSpan r.frame.length) % 4 = 0
    unfold rxSpan
    omega
  case cbr => exact hcbr
  case rptr => exact hrptr
  case wptr => rw [hwptr, h.wptr, RecordFormat.total_cons, Nat.add_assoc]
  case room => omega
  case stored =>
    rw [hmem, hbuf]
    exact h.stored.2
  case sizes => exact fun r' hr' => h.sizes r' (List.mem_cons_of_mem _ hr')
  case frames => rw [hreceived, hhandled, h.frames, List.map_cons, List.append_assoc, List.singleton_append]
  case turn =>
    intro hturn
    rw [hphase] at hturn
    cases hturn
  case cause =>
    intro hidle
    rw [hphase] at hidle
    cases hidle

/-- The handler goes on to another point of its code. -/
theorem RxInv.goto (h : RxInv s pos waiting) (phase : RxPhase) (rok : Bool)
    (hturn : phase = .turn → waiting ≠ []) (hcause : phase = .idle → rok = true → waiting ≠ []) :
    RxInv { s with phase := phase, rok := rok } pos waiting where
  aligned := h.aligned
  cbr := h.cbr
  rptr := h.rptr
  wptr := h.wptr
  room := h.room
  stored := h.stored
  sizes := h.sizes
  frames := h.frames
  turn := hturn
  cause := hcause

/-- What every step of the card and of the handler keeps. -/
theorem RxInv.step (h : RxInv s pos waiting) (hstep : RxStep s event t) :
    ∃ pos' waiting', RxInv t pos' waiting' := by
  cases hstep with
  | receive hpos hmax hroom => exact ⟨pos, _, h.receive hpos hmax hroom⟩
  | irq hidle hrok => exact ⟨pos, waiting, h.goto .turn s.rok (fun _ => h.cause hidle hrok) (by simp)⟩
  | turn hphase hcall =>
      cases waiting with
      | nil => exact absurd rfl (h.turn hphase)
      | cons r waiting => exact ⟨_, waiting, h.turned hcall⟩
  | look hphase =>
      cases hbufe : s.bufe with
      | true => exact ⟨pos, waiting, h.goto .ack s.rok (by simp) (by simp)⟩
      | false =>
          have hmore : waiting ≠ [] := fun hnone => by
            rw [h.bufe_iff.mpr hnone] at hbufe
            cases hbufe
          exact ⟨pos, waiting, h.goto .turn s.rok (fun _ => hmore) (by simp)⟩
  | ack hphase => exact ⟨pos, waiting, h.goto .idle false (by simp) (by simp)⟩

/-- All frames have been handled when none waits. -/
theorem RxInv.handled_iff (h : RxInv s pos waiting) : s.handled = s.received ↔ waiting = [] := by
  rw [h.frames]
  simp

end Steps

/-! ## Runs -/

/-- The frames handled are the first ones of those received, each with its own bytes; the driver reads inside
its block, at the start of a word; a turn of the loop finds a frame, which lies inside the block, and hands it
on; and the card takes the ring as empty exactly when all frames have been handled. -/
structure RxState.Right (s : RxState) : Prop where
  fifo : s.handled <+: s.received
  offset : s.rtl.cbr < rxBufferSize ∧ s.rtl.cbr % 4 = 0
  turn : s.phase = .turn → ∃ t frame, handleRxTurn s = .ok t ∧ t.handled = s.handled ++ [frame] ∧
    t.handled <+: s.received ∧ s.rtl.cbr + 4 + frame.length ≤ rxBlockSize
  empty : s.bufe = true ↔ s.handled = s.received

theorem RxInv.right {s : RxState} {pos : Nat} {waiting : List RxRecord} (h : RxInv s pos waiting) :
    s.Right := by
  have hlt : s.rtl.cbr < rxBufferSize := by
    rw [h.cbr]
    exact Nat.mod_lt _ (by decide)
  constructor
  case fifo => exact ⟨_, h.frames.symm⟩
  case offset =>
    have halign := h.aligned
    have hcbr := h.cbr
    unfold rxBufferSize at *
    omega
  case turn =>
    intro hphase
    cases waiting with
    | nil => exact absurd rfl (h.turn hphase)
    | cons r waiting =>
        obtain ⟨t, hcall, -, -, hhandled, -⟩ := handleRxTurn_spec h
        refine ⟨t, r.frame, hcall, hhandled, ?_, ?_⟩
        · rw [hhandled, h.frames, List.map_cons]
          exact ⟨waiting.map (·.frame), by simp⟩
        · have hmax := (h.sizes r List.mem_cons_self).2
          unfold rxBufferSize at hlt
          unfold rxFrameMax at hmax
          unfold rxBlockSize
          omega
  case empty => rw [h.bufe_iff, h.handled_iff]

/-- For every order of received frames, interrupts and steps of the handler, the frames that are given to
`eth_handle_frame` are the first ones of those received, in order and byte for byte. -/
theorem rx_frames_in_order (rxBuffer : Nat) (mem : Memory) {events : List RxEvent} {t : RxState}
    (hrun : Run RxStep (rxInit rxBuffer mem) events t) : t.Right := by
  obtain ⟨pos, waiting, h⟩ : ∃ pos waiting, RxInv t pos waiting := by
    apply Run.invariant (fun s => ∃ pos waiting, RxInv s pos waiting) ?_ hrun
    · exact ⟨0, [], rxInit_inv rxBuffer mem⟩
    · rintro s event u ⟨pos, waiting, h⟩ hstep
      exact h.step hstep
  exact h.right

/-- A frame arrives, the handler takes it out and another frame arrives before it has cleared the cause. -/
theorem rx_frames_in_order_two :
    ∃ t, Run RxStep (rxInit 0 fun _ => 0) [.receive ⟨1, [1, 2]⟩, .irq, .turn, .look, .receive ⟨1, [3]⟩] t ∧
      t.Right ∧ t.handled = [[1, 2]] ∧ t.received = [[1, 2], [3]] := by
  have hfirst : RxStep (rxInit 0 fun _ => 0) (.receive ⟨1, [1, 2]⟩) _ :=
    .receive (by decide) (by decide) (.inl rfl)
  have hrun : Run RxStep (rxInit 0 fun _ => 0) [.receive ⟨1, [1, 2]⟩, .irq, .turn, .look, .receive ⟨1, [3]⟩] _ :=
    .snoc (.snoc (.snoc (.snoc (.snoc .nil hfirst) (.irq rfl rfl)) (.turn rfl rfl)) (.look rfl))
      (.receive (by decide) (by decide) (.inl rfl))
  exact ⟨_, hrun, rx_frames_in_order 0 _ hrun, by decide, by decide⟩

/-- Nothing has been left in the ring when the handler has returned and no interrupt is due. -/
def RxState.NoneLeft (s : RxState) : Prop := s.phase = .idle → s.rok = false → s.handled = s.received

/-- The cause of the interrupt is cleared only while the ring is empty. -/
def AcksEmptyRing (s : RxState) (event : RxEvent) : Prop := event = .ack → s.handled = s.received

/-- No frame is ever left in the ring without an interrupt that is due exactly if the ring is empty whenever
the handler clears the cause: no frame arrives between its last look at `CR` and its write to `ISR`. -/
theorem rx_none_left_iff (rxBuffer : Nat) (mem : Memory) (events : List RxEvent) :
    (∀ pre t, pre <+: events → Run RxStep (rxInit rxBuffer mem) pre t → t.NoneLeft) ↔
      ∀ pre event t u, pre ++ [event] <+: events → Run RxStep (rxInit rxBuffer mem) pre t →
        RxStep t event u → AcksEmptyRing t event := by
  have hinv : ∀ s : RxState, (∃ pos waiting, RxInv s pos waiting) ∧ s.NoneLeft → s.NoneLeft := fun _ h => h.2
  apply Run.safe_iff hinv
  case hkeep =>
    rintro s event t ⟨⟨pos, waiting, h⟩, hnone⟩ hstep hack
    refine ⟨h.step hstep, ?_⟩
    intro hidle hrok
    cases hstep with
    | receive => cases hrok
    | irq => cases hidle
    | turn hphase hcall =>
        obtain ⟨r, rest, rfl⟩ := List.exists_cons_of_ne_nil (h.turn hphase)
        obtain ⟨t', hcall', -, -, -, hlook, -⟩ := handleRxTurn_spec h
        obtain rfl := Except.ok.inj (hcall'.symm.trans hcall)
        rw [hlook] at hidle
        cases hidle
    | look => simp at hidle; split at hidle <;> cases hidle
    | ack => exact hack rfl
  case hbreak =>
    rintro s event t - hstep hnone rfl
    cases hstep with
    | ack hphase => exact hnone rfl rfl
  case hs => exact ⟨⟨0, [], rxInit_inv rxBuffer mem⟩, fun _ _ => rfl⟩

end Drivers
end Micael
