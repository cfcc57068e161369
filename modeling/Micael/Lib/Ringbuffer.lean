import Micael.Foundation.Circular
import Micael.Foundation.Run
import Micael.Kernel.Machine

/-!
# The ring buffer

`rb_write` and `rb_read` move their bytes whatever the buffer holds; that a reader does not overtake the writer
and a writer not the reader by a turn is left to the callers.  Where they see to it, the buffer is a queue.

Each call holds a lock of its own kind, so that one writer and one reader can be in the loop at the same time.
`rb_create` does not set the locks: they hold what was in the block before, and a call that finds its lock
taken in this way does not return.  Pointers are not null.

Main results:

- Theorem {lit}`Ringbuffer.Queues.put`, {lit}`Ringbuffer.Queues.get`: one turn of the loop of a call.
- Theorem {lit}`rbWrite_returns`, {lit}`rbRead_returns`: a call that finds its lock free returns.
- Theorem {lit}`rbEvent_busy`: the loops of a writer and a reader at the same time.
- Theorem {lit}`rbCall_events`: a call is a run of its turns.
- Theorem {lit}`ringbuffer_fifo`: what was read is what was written first, along every run.
-/

namespace Micael
namespace Lib

open Foundation

/-! ## The buffer -/

/-- `struct ringbuffer`; a lock is taken or free. -/
structure Ringbuffer where
  data : Nat → UInt8
  size : UInt64
  wPtr : UInt64
  rPtr : UInt64
  wSpin : Bool
  rSpin : Bool

/-- `rb_create`: whether there is a cache, and the blocks that `kmalloc` gives, with what they held. -/
def rbCreate (cached : Bool) (size : UInt64) (block : Option Ringbuffer) (cells : Option (Nat → UInt8)) :
    Except Errno Ringbuffer :=
  if cached = false then .error .enomem
  else if size = 0 then .error .einval
  else
    match block with
    | none => .error .enomem
    | some rb =>
      match cells with
      | none => .error .enomem
      | some data => .ok { rb with data := data, size := size, wPtr := 0, rPtr := 0 }

/-- A pointer behind the cell: `__update_w_ptr` and `__update_r_ptr`. -/
def updatePtr (size ptr : UInt64) : UInt64 := if ptr + 1 ≥ size then 0 else ptr + 1

/-- A turn of the loop of `rb_write`. -/
def Ringbuffer.put (rb : Ringbuffer) (byte : UInt8) : Ringbuffer :=
  { rb with
    data := Function.update rb.data rb.wPtr.toNat byte
    wPtr := updatePtr rb.size rb.wPtr }

/-- A turn of the loop of `rb_read`: the byte, and the buffer after it. -/
def Ringbuffer.get (rb : Ringbuffer) : UInt8 × Ringbuffer :=
  (rb.data rb.rPtr.toNat, { rb with rPtr := updatePtr rb.size rb.rPtr })

/-- The loop of `rb_read`. -/
def Ringbuffer.gets (rb : Ringbuffer) : Nat → List UInt8 × Ringbuffer
  | 0 => ([], rb)
  | size + 1 =>
      let first := rb.get
      let rest := first.2.gets size
      (first.1 :: rest.1, rest.2)

/-- `rb_write`, when no other call runs. -/
def rbWrite (rb : Ringbuffer) (buffer : List UInt8) : Except Halt (Int × Ringbuffer) :=
  if buffer.length = 0 then .ok (-Errno.einval.toInt, rb)
  else if rb.wSpin then .error .hang
  else .ok (ssizeOfInt buffer.length, { buffer.foldl Ringbuffer.put { rb with wSpin := true } with wSpin := false })

/-- `rb_read`, when no other call runs: the result, the bytes in the caller's buffer and the ring buffer. -/
def rbRead (rb : Ringbuffer) (size : Nat) : Except Halt (Int × List UInt8 × Ringbuffer) :=
  if size = 0 then .ok (-Errno.einval.toInt, [], rb)
  else if rb.rSpin then .error .hang
  else
    let r := { rb with rSpin := true }.gets size
    .ok (ssizeOfInt size, r.1, { r.2 with rSpin := false })

/-! ## Calls, one after the other and at the same time -/

/-- A ring buffer with the calls on it: the buffer of the writer in the loop and how much of it is written,
the size that the reader in the loop wants and what it has read, and the buffers of the calls that returned. -/
structure RbState where
  rb : Ringbuffer
  writer : Option (List UInt8 × Nat)
  reader : Option (Nat × List UInt8)
  writes : List (List UInt8)
  reads : List (List UInt8)

/-- Before the first call. -/
def RbState.start (rb : Ringbuffer) : RbState :=
  { rb := rb, writer := none, reader := none, writes := [], reads := [] }

/-- The bytes written so far. -/
def RbState.bytesWritten (s : RbState) : List UInt8 :=
  s.writes.flatten ++ s.writer.elim [] fun w => w.1.take w.2

/-- The bytes read so far. -/
def RbState.bytesRead (s : RbState) : List UInt8 :=
  s.reads.flatten ++ s.reader.elim [] Prod.snd

/-- A call. -/
inductive RbCall where
  | write (buffer : List UInt8)
  | read (size : Nat)

/-- A call that nothing interrupts. -/
def rbCall (s : RbState) : RbCall → Except Halt RbState
  | .write buffer =>
      (rbWrite s.rb buffer).map fun r => { s with rb := r.2, writes := s.writes ++ [buffer] }
  | .read size =>
      (rbRead s.rb size).map fun r => { s with rb := r.2.2, reads := s.reads ++ [r.2.1] }

/-- What a call does at a time: take its lock, go through its loop once, give its lock back and return.  A call for no
byte returns without its lock. -/
inductive RbEvent where
  | writeBegin (buffer : List UInt8)
  | writeTurn
  | writeEnd
  | readBegin (size : Nat)
  | readTurn
  | readEnd

/-- The state after an event, when it can happen. -/
def rbEvent (s : RbState) : RbEvent → Option RbState
  | .writeBegin buffer =>
      if buffer.length = 0 then some { s with writes := s.writes ++ [buffer] }
      else if s.rb.wSpin then none
      else some { s with rb := { s.rb with wSpin := true }, writer := some (buffer, 0) }
  | .writeTurn =>
      match s.writer with
      | some (buffer, written) =>
          if h : written < buffer.length then
            some { s with rb := s.rb.put buffer[written], writer := some (buffer, written + 1) }
          else none
      | none => none
  | .writeEnd =>
      match s.writer with
      | some (buffer, written) =>
          if written < buffer.length then none
          else some { s with
            rb := { s.rb with wSpin := false }
            writer := none
            writes := s.writes ++ [buffer] }
      | none => none
  | .readBegin size =>
      if size = 0 then some { s with reads := s.reads ++ [[]] }
      else if s.rb.rSpin then none
      else some { s with rb := { s.rb with rSpin := true }, reader := some (size, []) }
  | .readTurn =>
      match s.reader with
      | some (size, buffer) =>
          if buffer.length < size then
            some { s with rb := s.rb.get.2, reader := some (size, buffer ++ [s.rb.get.1]) }
          else none
      | none => none
  | .readEnd =>
      match s.reader with
      | some (size, buffer) =>
          if buffer.length < size then none
          else some { s with
            rb := { s.rb with rSpin := false }
            reader := none
            reads := s.reads ++ [buffer] }
      | none => none

/-- No reader is before the writer, and no writer a turn before the reader. -/
def RbState.Balanced (s : RbState) : Prop :=
  s.bytesRead.length ≤ s.bytesWritten.length ∧
    s.bytesWritten.length ≤ s.bytesRead.length + s.rb.size.toNat

/-- One of the calls that follow each other. -/
def balancedCall (s : RbState) (call : RbCall) (t : RbState) : Prop := rbCall s call = .ok t ∧ t.Balanced

/-- One of the events of calls at the same time. -/
def balancedEvent (s : RbState) (e : RbEvent) (t : RbState) : Prop := rbEvent s e = some t ∧ t.Balanced

/-- First in, first out, and both pointers are inside. -/
structure RbState.Fifo (s : RbState) : Prop where
  fifo : s.bytesRead <+: s.bytesWritten
  wPtr : s.rb.wPtr < s.rb.size
  rPtr : s.rb.rPtr < s.rb.size

/-! ## One turn -/

/-- The ring buffer is a queue to which `written` was written and from which `read` was read. -/
structure Ringbuffer.Queues (rb : Ringbuffer) (written read : List UInt8) : Prop where
  holds : Circular.Holds rb.data rb.size.toNat written read
  wPtr : rb.wPtr.toNat = written.length % rb.size.toNat
  rPtr : rb.rPtr.toNat = read.length % rb.size.toNat
  pos : 0 < rb.size.toNat

section Turns

variable {rb : Ringbuffer} {written read : List UInt8}

/-- A pointer follows the number of bytes. -/
theorem updatePtr_toNat {size ptr : UInt64} {k : Nat} (hpos : 0 < size.toNat) (hptr : ptr.toNat = k % size.toNat) :
    (updatePtr size ptr).toNat = (k + 1) % size.toNat := by
  have hlt : k % size.toNat < size.toNat := Nat.mod_lt k hpos
  have hsize := size.toNat_lt
  have hadd : (ptr + 1).toNat = k % size.toNat + 1 := by
    rw [UInt64.toNat_add, hptr, UInt64.toNat_one, Nat.mod_eq_of_lt (by omega)]
  have hge : ptr + 1 ≥ size ↔ size.toNat ≤ k % size.toNat + 1 := by
    rw [ge_iff_le, UInt64.le_iff_toNat_le, hadd]
  rw [updatePtr, ← Circular.wrap_succ hpos k]
  by_cases hend : ptr + 1 ≥ size
  · rw [if_pos hend, if_pos (hge.mp hend), UInt64.toNat_zero]
  · rw [if_neg hend, if_neg (hge.not.mp hend), hadd]

@[simp]
theorem Ringbuffer.put_size (byte : UInt8) : (rb.put byte).size = rb.size :=
  rfl

@[simp]
theorem Ringbuffer.get_size : rb.get.2.size = rb.size :=
  rfl

/-- A byte is written into a buffer that is not full. -/
theorem Ringbuffer.Queues.put (h : rb.Queues written read) (hroom : written.length < read.length + rb.size.toNat)
    (byte : UInt8) : (rb.put byte).Queues (written ++ [byte]) read := by
  constructor
  case holds =>
    rw [Ringbuffer.put, h.wPtr]
    exact h.holds.put hroom byte
  case wPtr =>
    rw [List.length_append, List.length_singleton]
    exact updatePtr_toNat h.pos h.wPtr
  case rPtr => exact h.rPtr
  case pos => exact h.pos

/-- A byte is read from a buffer that is not empty. -/
theorem Ringbuffer.Queues.get (h : rb.Queues written read) (hmore : read.length < written.length) :
    rb.get.2.Queues written (read ++ [rb.get.1]) := by
  constructor
  case holds =>
    rw [Ringbuffer.get, h.rPtr]
    exact h.holds.get hmore
  case wPtr => exact h.wPtr
  case rPtr =>
    rw [List.length_append, List.length_singleton]
    exact updatePtr_toNat h.pos h.rPtr
  case pos => exact h.pos

/-- The locks do not matter. -/
theorem Ringbuffer.Queues.locks (h : rb.Queues written read) (wSpin rSpin : Bool) :
    { rb with wSpin := wSpin, rSpin := rSpin }.Queues written read := by
  constructor
  case holds => exact h.holds
  case wPtr => exact h.wPtr
  case rPtr => exact h.rPtr
  case pos => exact h.pos

/-- Both pointers are inside. -/
theorem Ringbuffer.Queues.inside (h : rb.Queues written read) : rb.wPtr < rb.size ∧ rb.rPtr < rb.size := by
  rw [UInt64.lt_iff_toNat_lt, UInt64.lt_iff_toNat_lt, h.wPtr, h.rPtr]
  exact ⟨Nat.mod_lt _ h.pos, Nat.mod_lt _ h.pos⟩

/-- A new buffer is an empty queue. -/
theorem rbCreate_queues {cached : Bool} {size : UInt64} {block : Option Ringbuffer} {cells : Option (Nat → UInt8)}
    (hcreate : rbCreate cached size block cells = .ok rb) : rb.Queues [] [] := by
  unfold rbCreate at hcreate
  split at hcreate
  · cases hcreate
  split at hcreate
  · cases hcreate
  rename_i hsize
  split at hcreate
  · cases hcreate
  split at hcreate
  · cases hcreate
  cases hcreate
  have hpos : 0 < size.toNat := Nat.pos_of_ne_zero fun hzero => hsize (UInt64.toNat_inj.mp hzero)
  constructor
  case holds => exact Circular.Holds.empty _ _
  case wPtr => exact (Nat.zero_mod _).symm
  case rPtr => exact (Nat.zero_mod _).symm
  case pos => exact hpos

end Turns

/-! ## Calls one after the other -/

section Calls

variable {rb : Ringbuffer} {written read : List UInt8} {s t : RbState}

theorem foldl_put_size (buffer : List UInt8) : (buffer.foldl Ringbuffer.put rb).size = rb.size := by
  induction buffer generalizing rb with
  | nil => rfl
  | cons byte rest ih => rw [List.foldl_cons, ih, Ringbuffer.put_size]

/-- The loop of `rb_write`, when all of it finds room. -/
theorem Ringbuffer.Queues.puts {buffer : List UInt8} (h : rb.Queues written read)
    (hroom : written.length + buffer.length ≤ read.length + rb.size.toNat) :
    (buffer.foldl Ringbuffer.put rb).Queues (written ++ buffer) read := by
  induction buffer generalizing rb written with
  | nil =>
      rw [List.append_nil]
      exact h
  | cons byte rest ih =>
      rw [List.length_cons] at hroom
      have hfirst := h.put (by omega) byte
      have hrest : (written ++ [byte]).length + rest.length ≤ read.length + (rb.put byte).size.toNat := by
        rw [List.length_append, List.length_singleton, Ringbuffer.put_size]
        omega
      rw [List.foldl_cons, List.append_cons]
      exact ih hfirst hrest

theorem Ringbuffer.gets_size (size : Nat) : (rb.gets size).2.size = rb.size := by
  induction size generalizing rb with
  | zero => rfl
  | succ size ih => rw [Ringbuffer.gets, ih, Ringbuffer.get_size]

@[simp]
theorem Ringbuffer.length_gets (size : Nat) : (rb.gets size).1.length = size := by
  induction size generalizing rb with
  | zero => rfl
  | succ size ih => rw [Ringbuffer.gets, List.length_cons, ih]

/-- The loop of `rb_read`, when there is enough to read. -/
theorem Ringbuffer.Queues.gets {size : Nat} (h : rb.Queues written read)
    (hmore : read.length + size ≤ written.length) :
    (rb.gets size).2.Queues written (read ++ (rb.gets size).1) := by
  induction size generalizing rb read with
  | zero =>
      rw [Ringbuffer.gets, List.append_nil]
      exact h
  | succ size ih =>
      have hfirst := h.get (by omega)
      have hrest : (read ++ [rb.get.1]).length + size ≤ written.length := by
        rw [List.length_append, List.length_singleton]
        omega
      rw [Ringbuffer.gets, List.append_cons]
      exact ih hfirst hrest

/-- A call of `rb_write` that finds the lock free returns, and leaves it free. -/
theorem rbWrite_returns {buffer : List UInt8} (hlock : rb.wSpin = false) (hne : buffer ≠ []) :
    ∃ rb', rbWrite rb buffer = .ok (ssizeOfInt buffer.length, rb') ∧ rb'.wSpin = false := by
  have hlen : buffer.length ≠ 0 := fun hzero => hne (List.length_eq_zero_iff.mp hzero)
  rw [rbWrite, if_neg hlen, hlock]
  exact ⟨_, rfl, rfl⟩

/-- A call of `rb_read` that finds the lock free returns as many bytes as it was asked for. -/
theorem rbRead_returns {size : Nat} (hlock : rb.rSpin = false) (hne : size ≠ 0) :
    ∃ bytes rb', rbRead rb size = .ok (ssizeOfInt size, bytes, rb') ∧ bytes.length = size ∧ rb'.rSpin = false := by
  rw [rbRead, if_neg hne, hlock]
  exact ⟨_, _, rfl, Ringbuffer.length_gets size, rfl⟩

/-- `rb_write` writes all of its bytes behind the others. -/
theorem rbWrite_queues {buffer : List UInt8} {n : Int} {rb' : Ringbuffer} (h : rb.Queues written read)
    (hwrite : rbWrite rb buffer = .ok (n, rb')) :
    rb'.size = rb.size ∧ (written.length + buffer.length ≤ read.length + rb.size.toNat →
      rb'.Queues (written ++ buffer) read) := by
  unfold rbWrite at hwrite
  split at hwrite
  · rename_i hempty
    simp only [Except.ok.injEq, Prod.mk.injEq] at hwrite
    obtain ⟨-, rfl⟩ := hwrite
    rw [List.length_eq_zero_iff.mp hempty, List.append_nil]
    exact ⟨rfl, fun _ => h⟩
  split at hwrite
  · cases hwrite
  · simp only [Except.ok.injEq, Prod.mk.injEq] at hwrite
    obtain ⟨-, rfl⟩ := hwrite
    constructor
    · exact foldl_put_size buffer
    · intro hroom
      exact ((h.locks true rb.rSpin).puts hroom).locks false _

/-- `rb_read` reads its bytes behind the others. -/
theorem rbRead_queues {size : Nat} {n : Int} {bytes : List UInt8} {rb' : Ringbuffer} (h : rb.Queues written read)
    (hread : rbRead rb size = .ok (n, bytes, rb')) :
    rb'.size = rb.size ∧ (read.length + bytes.length ≤ written.length →
      rb'.Queues written (read ++ bytes)) := by
  unfold rbRead at hread
  split at hread
  · simp only [Except.ok.injEq, Prod.mk.injEq] at hread
    obtain ⟨-, rfl, rfl⟩ := hread
    rw [List.append_nil]
    exact ⟨rfl, fun _ => h⟩
  split at hread
  · cases hread
  · simp only [Except.ok.injEq, Prod.mk.injEq] at hread
    obtain ⟨-, rfl, rfl⟩ := hread
    constructor
    · exact Ringbuffer.gets_size size
    · intro hmore
      rw [Ringbuffer.length_gets] at hmore
      exact ((h.locks rb.wSpin true).gets hmore).locks _ false

/-- Between calls, the ring buffer is the queue of what was written and read. -/
structure RbState.Idle (s : RbState) : Prop where
  writer : s.writer = none
  reader : s.reader = none
  queues : s.rb.Queues s.writes.flatten s.reads.flatten

theorem RbState.bytesWritten_of_none (hwriter : s.writer = none) : s.bytesWritten = s.writes.flatten := by
  rw [RbState.bytesWritten, hwriter, Option.elim_none, List.append_nil]

theorem RbState.bytesRead_of_none (hreader : s.reader = none) : s.bytesRead = s.reads.flatten := by
  rw [RbState.bytesRead, hreader, Option.elim_none, List.append_nil]

/-- Between calls, the balance is one of calls that returned. -/
theorem RbState.Balanced.of_none (h : s.Balanced) (hwriter : s.writer = none) (hreader : s.reader = none) :
    s.reads.flatten.length ≤ s.writes.flatten.length ∧
      s.writes.flatten.length ≤ s.reads.flatten.length + s.rb.size.toNat := by
  rw [RbState.Balanced, RbState.bytesWritten_of_none hwriter, RbState.bytesRead_of_none hreader] at h
  exact h

/-- A call keeps the queue, if it leaves the numbers of bytes in balance. -/
theorem rbCall_idle {call : RbCall} (h : s.Idle) (hcall : rbCall s call = .ok t) (hbal : t.Balanced) : t.Idle := by
  cases call with
  | write buffer =>
      obtain ⟨⟨n, rb'⟩, hwrite, rfl⟩ := Halt.map_eq_ok.mp hcall
      obtain ⟨hsize, hafter⟩ := rbWrite_queues h.queues hwrite
      have hroom := (hbal.of_none h.writer h.reader).2
      simp only [List.flatten_append, List.flatten_singleton, hsize] at hroom
      rw [List.length_append] at hroom
      constructor
      case writer => exact h.writer
      case reader => exact h.reader
      case queues =>
        rw [List.flatten_append, List.flatten_singleton]
        exact hafter hroom
  | read size =>
      obtain ⟨⟨n, bytes, rb'⟩, hread, rfl⟩ := Halt.map_eq_ok.mp hcall
      obtain ⟨-, hafter⟩ := rbRead_queues h.queues hread
      have hmore := (hbal.of_none h.writer h.reader).1
      simp only [List.flatten_append, List.flatten_singleton] at hmore
      rw [List.length_append] at hmore
      constructor
      case writer => exact h.writer
      case reader => exact h.reader
      case queues =>
        rw [List.flatten_append, List.flatten_singleton]
        exact hafter hmore

end Calls

/-! ## Calls at the same time -/

section Events

variable {s t : RbState}

/-- Whatever the calls are at, the ring buffer is the queue of what they have written and read; who is in a loop
has its lock. -/
structure RbState.Busy (s : RbState) : Prop where
  queues : s.rb.Queues s.bytesWritten s.bytesRead
  writer : s.writer.isSome = true → s.rb.wSpin = true
  reader : s.reader.isSome = true → s.rb.rSpin = true

theorem RbState.Idle.busy (h : s.Idle) : s.Busy := by
  constructor
  case queues =>
    rw [RbState.bytesWritten_of_none h.writer, RbState.bytesRead_of_none h.reader]
    exact h.queues
  case writer => simp [h.writer]
  case reader => simp [h.reader]

/-- Who finds a lock free is alone. -/
theorem none_of_free {α : Type} {call : Option α} {spin : Bool} (hlock : call.isSome = true → spin = true)
    (hfree : spin = false) : call = none := by
  rw [← Option.not_isSome_iff_eq_none]
  intro hsome
  rw [hlock hsome] at hfree
  cases hfree

/-- An event that moves no byte. -/
theorem RbState.Busy.locks (h : s.Busy) {wSpin rSpin : Bool}
    (hrb : t.rb = { s.rb with wSpin := wSpin, rSpin := rSpin }) (hwritten : t.bytesWritten = s.bytesWritten)
    (hread : t.bytesRead = s.bytesRead) (hwriter : t.writer.isSome = true → wSpin = true)
    (hreader : t.reader.isSome = true → rSpin = true) : t.Busy := by
  constructor
  case queues =>
    rw [hrb, hwritten, hread]
    exact h.queues.locks wSpin rSpin
  case writer =>
    rw [hrb]
    exact hwriter
  case reader =>
    rw [hrb]
    exact hreader

theorem RbState.bytesWritten_of_some {buffer : List UInt8} {written : Nat}
    (hwriter : s.writer = some (buffer, written)) :
    s.bytesWritten = s.writes.flatten ++ buffer.take written := by
  rw [RbState.bytesWritten, hwriter, Option.elim_some]

theorem RbState.bytesRead_of_some {size : Nat} {buffer : List UInt8} (hreader : s.reader = some (size, buffer)) :
    s.bytesRead = s.reads.flatten ++ buffer := by
  rw [RbState.bytesRead, hreader, Option.elim_some]

/-- A turn of the writer's loop. -/
theorem RbState.Busy.put {byte : UInt8} (h : s.Busy) (hrb : t.rb = s.rb.put byte)
    (hwritten : t.bytesWritten = s.bytesWritten ++ [byte]) (hread : t.bytesRead = s.bytesRead)
    (hwriter : s.writer.isSome = true) (hreader : t.reader = s.reader) (hbal : t.Balanced) : t.Busy := by
  have hroom := hbal.2
  rw [hwritten, hread, hrb, List.length_append, List.length_singleton, Ringbuffer.put_size] at hroom
  constructor
  case queues =>
    rw [hrb, hwritten, hread]
    exact h.queues.put hroom byte
  case writer =>
    rw [hrb]
    exact fun _ => h.writer hwriter
  case reader =>
    rw [hrb, hreader]
    exact h.reader

/-- A turn of the reader's loop. -/
theorem RbState.Busy.get (h : s.Busy) (hrb : t.rb = s.rb.get.2)
    (hwritten : t.bytesWritten = s.bytesWritten) (hread : t.bytesRead = s.bytesRead ++ [s.rb.get.1])
    (hwriter : t.writer = s.writer) (hreader : s.reader.isSome = true) (hbal : t.Balanced) : t.Busy := by
  have hmore := hbal.1
  rw [hwritten, hread, List.length_append, List.length_singleton] at hmore
  constructor
  case queues =>
    rw [hrb, hwritten, hread]
    exact h.queues.get hmore
  case writer =>
    rw [hrb, hwriter]
    exact h.writer
  case reader =>
    rw [hrb]
    exact fun _ => h.reader hreader

/-- A writer takes its lock. -/
theorem RbState.Busy.writeBegin {buffer : List UInt8} (h : s.Busy)
    (hevent : rbEvent s (.writeBegin buffer) = some t) : t.Busy := by
  simp only [rbEvent] at hevent
  split at hevent
  · rename_i hempty
    cases hevent
    apply h.locks
    case hrb => rfl
    case hwritten =>
      obtain rfl := List.length_eq_zero_iff.mp hempty
      simp [RbState.bytesWritten]
    case hread => rfl
    case hwriter => exact h.writer
    case hreader => exact h.reader
  split at hevent
  · cases hevent
  · rename_i hfree
    cases hevent
    have hnone := none_of_free h.writer (Bool.not_eq_true _ ▸ hfree)
    apply h.locks
    case hrb => rfl
    case hwritten =>
      rw [RbState.bytesWritten_of_none hnone, RbState.bytesWritten_of_some rfl, List.take_zero, List.append_nil]
    case hread => rfl
    case hwriter => exact fun _ => rfl
    case hreader => exact h.reader

/-- A writer goes through its loop. -/
theorem RbState.Busy.writeTurn (h : s.Busy) (hevent : rbEvent s .writeTurn = some t) (hbal : t.Balanced) :
    t.Busy := by
  simp only [rbEvent] at hevent
  split at hevent
  case h_2 => cases hevent
  case h_1 buffer written hwriter =>
    split at hevent
    · rename_i hlt
      cases hevent
      apply h.put
      case hrb => rfl
      case hwritten =>
        rw [RbState.bytesWritten_of_some hwriter, RbState.bytesWritten_of_some rfl, List.append_assoc,
          List.take_append_getElem hlt]
      case hread => rfl
      case hwriter => rw [hwriter, Option.isSome_some]
      case hreader => rfl
      case hbal => exact hbal
    · cases hevent

/-- A writer returns. -/
theorem RbState.Busy.writeEnd (h : s.Busy) (hevent : rbEvent s .writeEnd = some t) : t.Busy := by
  simp only [rbEvent] at hevent
  split at hevent
  case h_2 => cases hevent
  case h_1 buffer written hwriter =>
    split at hevent
    · cases hevent
    · rename_i hdone
      cases hevent
      apply h.locks
      case hrb => rfl
      case hwritten =>
        rw [RbState.bytesWritten_of_some hwriter, RbState.bytesWritten_of_none rfl, List.flatten_append,
          List.flatten_singleton, List.take_of_length_le (Nat.le_of_not_lt hdone)]
      case hread => rfl
      case hwriter => exact fun hsome => absurd hsome (by simp)
      case hreader => exact h.reader

/-- A reader takes its lock. -/
theorem RbState.Busy.readBegin {size : Nat} (h : s.Busy) (hevent : rbEvent s (.readBegin size) = some t) :
    t.Busy := by
  simp only [rbEvent] at hevent
  split at hevent
  · cases hevent
    apply h.locks
    case hrb => rfl
    case hwritten => rfl
    case hread => simp [RbState.bytesRead]
    case hwriter => exact h.writer
    case hreader => exact h.reader
  split at hevent
  · cases hevent
  · rename_i hfree
    cases hevent
    have hnone := none_of_free h.reader (Bool.not_eq_true _ ▸ hfree)
    apply h.locks
    case hrb => rfl
    case hwritten => rfl
    case hread => rw [RbState.bytesRead_of_none hnone, RbState.bytesRead_of_some rfl, List.append_nil]
    case hwriter => exact h.writer
    case hreader => exact fun _ => rfl

/-- A reader goes through its loop. -/
theorem RbState.Busy.readTurn (h : s.Busy) (hevent : rbEvent s .readTurn = some t) (hbal : t.Balanced) :
    t.Busy := by
  simp only [rbEvent] at hevent
  split at hevent
  case h_2 => cases hevent
  case h_1 size buffer hreader =>
    split at hevent
    · cases hevent
      apply h.get
      case hrb => rfl
      case hwritten => rfl
      case hread => rw [RbState.bytesRead_of_some hreader, RbState.bytesRead_of_some rfl, List.append_assoc]
      case hwriter => rfl
      case hreader => rw [hreader, Option.isSome_some]
      case hbal => exact hbal
    · cases hevent

/-- A reader returns. -/
theorem RbState.Busy.readEnd (h : s.Busy) (hevent : rbEvent s .readEnd = some t) : t.Busy := by
  simp only [rbEvent] at hevent
  split at hevent
  case h_2 => cases hevent
  case h_1 size buffer hreader =>
    split at hevent
    · cases hevent
    · cases hevent
      apply h.locks
      case hrb => rfl
      case hwritten => rfl
      case hread =>
        rw [RbState.bytesRead_of_some hreader, RbState.bytesRead_of_none rfl, List.flatten_append,
          List.flatten_singleton]
      case hwriter => exact h.writer
      case hreader => exact fun hsome => absurd hsome (by simp)

/-- An event keeps the queue, if it leaves the numbers of bytes in balance. -/
theorem rbEvent_busy {e : RbEvent} (h : s.Busy) (hevent : rbEvent s e = some t) (hbal : t.Balanced) : t.Busy := by
  cases e with
  | writeBegin buffer => exact h.writeBegin hevent
  | writeTurn => exact h.writeTurn hevent hbal
  | writeEnd => exact h.writeEnd hevent
  | readBegin size => exact h.readBegin hevent
  | readTurn => exact h.readTurn hevent hbal
  | readEnd => exact h.readEnd hevent

end Events

/-! ## A call is a run of its turns -/

section CallEvents

variable {s t : RbState} {rb : Ringbuffer}

/-- One event after the other. -/
def rbTurn (s : RbState) (e : RbEvent) (t : RbState) : Prop := rbEvent s e = some t

/-- The turns of a writer. -/
theorem run_writeTurns {buffer : List UInt8} (hwriter : s.writer = some (buffer, 0)) {k : Nat}
    (hk : k ≤ buffer.length) :
    Run rbTurn s (List.replicate k .writeTurn)
      { s with rb := (buffer.take k).foldl Ringbuffer.put s.rb, writer := some (buffer, k) } := by
  induction k with
  | zero =>
      rw [← hwriter]
      exact .nil
  | succ k ih =>
      rw [List.replicate_succ', ← List.take_append_getElem hk, List.foldl_append]
      exact .snoc (ih (Nat.le_of_succ_le hk)) (dif_pos hk)

/-- The last byte of a loop of `rb_read`. -/
theorem Ringbuffer.gets_succ (size : Nat) :
    rb.gets (size + 1) = ((rb.gets size).1 ++ [(rb.gets size).2.get.1], (rb.gets size).2.get.2) := by
  induction size generalizing rb with
  | zero => rfl
  | succ size ih => rw [Ringbuffer.gets, ih, Ringbuffer.gets]; rfl

/-- The turns of a reader. -/
theorem run_readTurns {size : Nat} (hreader : s.reader = some (size, [])) {k : Nat} (hk : k ≤ size) :
    Run rbTurn s (List.replicate k .readTurn)
      { s with rb := (s.rb.gets k).2, reader := some (size, (s.rb.gets k).1) } := by
  induction k with
  | zero =>
      rw [Ringbuffer.gets, ← hreader]
      exact .nil
  | succ k ih =>
      have hshort : (s.rb.gets k).1.length < size := by
        rw [Ringbuffer.length_gets]
        exact hk
      rw [List.replicate_succ', Ringbuffer.gets_succ]
      exact .snoc (ih (Nat.le_of_succ_le hk)) (if_pos hshort)

/-- A call of `rb_write` that nothing interrupts is a run of its events. -/
theorem rbWrite_events {buffer : List UInt8} (hwriter : s.writer = none)
    (hcall : rbCall s (.write buffer) = .ok t) : ∃ events, Run rbTurn s events t := by
  obtain ⟨⟨n, rb'⟩, hwrite, rfl⟩ := Halt.map_eq_ok.mp hcall
  by_cases hempty : buffer.length = 0
  · rw [rbWrite, if_pos hempty, Except.ok.injEq, Prod.mk.injEq] at hwrite
    obtain ⟨-, rfl⟩ := hwrite
    have hevent : rbTurn s (.writeBegin buffer) { s with writes := s.writes ++ [buffer] } := if_pos hempty
    exact ⟨[] ++ [.writeBegin buffer], .snoc .nil hevent⟩
  · rw [rbWrite, if_neg hempty] at hwrite
    cases hlock : s.rb.wSpin with
    | true =>
        rw [hlock] at hwrite
        cases hwrite
    | false =>
        rw [hlock, if_neg Bool.false_ne_true, Except.ok.injEq, Prod.mk.injEq] at hwrite
        obtain ⟨-, rfl⟩ := hwrite
        have hbegin : Run rbTurn s ([] ++ [.writeBegin buffer])
            { s with rb := { s.rb with wSpin := true }, writer := some (buffer, 0) } := by
          apply Run.snoc .nil
          rw [rbTurn, rbEvent, if_neg hempty, hlock, if_neg Bool.false_ne_true]
        have hturns := hbegin.append (run_writeTurns rfl (Nat.le_refl buffer.length))
        rw [List.take_length] at hturns
        refine ⟨_ ++ [.writeEnd], .snoc hturns ?_⟩
        rw [rbTurn, rbEvent]
        simp [hwriter]

/-- A call of `rb_read` that nothing interrupts is a run of its events. -/
theorem rbRead_events {size : Nat} (hreader : s.reader = none) (hcall : rbCall s (.read size) = .ok t) :
    ∃ events, Run rbTurn s events t := by
  obtain ⟨⟨n, bytes, rb'⟩, hread, rfl⟩ := Halt.map_eq_ok.mp hcall
  by_cases hempty : size = 0
  · rw [rbRead, if_pos hempty, Except.ok.injEq, Prod.mk.injEq, Prod.mk.injEq] at hread
    obtain ⟨-, rfl, rfl⟩ := hread
    have hevent : rbTurn s (.readBegin size) { s with reads := s.reads ++ [[]] } := if_pos hempty
    exact ⟨[] ++ [.readBegin size], .snoc .nil hevent⟩
  · rw [rbRead, if_neg hempty] at hread
    cases hlock : s.rb.rSpin with
    | true =>
        rw [hlock] at hread
        cases hread
    | false =>
        rw [hlock, if_neg Bool.false_ne_true, Except.ok.injEq, Prod.mk.injEq, Prod.mk.injEq] at hread
        obtain ⟨-, rfl, rfl⟩ := hread
        have hbegin : Run rbTurn s ([] ++ [.readBegin size])
            { s with rb := { s.rb with rSpin := true }, reader := some (size, []) } := by
          apply Run.snoc .nil
          rw [rbTurn, rbEvent, if_neg hempty, hlock, if_neg Bool.false_ne_true]
        have hturns := hbegin.append (run_readTurns rfl (Nat.le_refl size))
        refine ⟨_ ++ [.readEnd], .snoc hturns ?_⟩
        rw [rbTurn, rbEvent]
        simp [hreader]

/-- A call that nothing interrupts is a run of its events. -/
theorem rbCall_events {call : RbCall} (hwriter : s.writer = none) (hreader : s.reader = none)
    (hcall : rbCall s call = .ok t) : ∃ events, Run rbTurn s events t := by
  cases call with
  | write buffer => exact rbWrite_events hwriter hcall
  | read size => exact rbRead_events hreader hcall

end CallEvents

/-- A queue is read in the order in which it was written. -/
theorem RbState.Busy.fifo {s : RbState} (h : s.Busy) : s.Fifo :=
  ⟨h.queues.holds.fifo, h.queues.inside.1, h.queues.inside.2⟩

/-- First in, first out: for every size, the bytes read are a prefix of the bytes written and both pointers stay
inside, whether calls follow each other or a reader and a writer take turns, as long as the numbers of bytes are
in balance. -/
theorem ringbuffer_fifo {cached : Bool} {size : UInt64} {block : Option Ringbuffer} {cells : Option (Nat → UInt8)}
    {rb : Ringbuffer} (hcreate : rbCreate cached size block cells = .ok rb) :
    (∀ calls s, Run balancedCall (.start rb) calls s → s.Fifo) ∧
      ∀ events s, Run balancedEvent (.start rb) events s → s.Fifo := by
  have hstart : (RbState.start rb).Idle := ⟨rfl, rfl, rbCreate_queues hcreate⟩
  constructor
  · intro calls s hrun
    have hidle : s.Idle :=
      hrun.invariant RbState.Idle (fun _ _ _ hs hstep => rbCall_idle hs hstep.1 hstep.2) hstart
    exact hidle.busy.fifo
  · intro events s hrun
    have hbusy : s.Busy :=
      hrun.invariant RbState.Busy (fun _ _ _ hs hstep => rbEvent_busy hs hstep.1 hstep.2) hstart.busy
    exact hbusy.fifo

/-- A buffer of one byte, in a block with free locks. -/
def oneByte : Ringbuffer :=
  { data := fun _ => 0, size := 1, wPtr := 0, rPtr := 0, wSpin := false, rSpin := false }

theorem oneByte_read_back :
    ∃ s, Run balancedCall (.start oneByte) [.write [7], .read 1, .write [8]] s ∧ s.bytesRead = [7] ∧ s.Fifo := by
  have hcreate : rbCreate true 1 (some oneByte) (some fun _ => 0) = .ok oneByte := rfl
  have hfirst : Run balancedCall (.start oneByte) ([] ++ [.write [7]]) _ := .snoc .nil ⟨rfl, by decide, by decide⟩
  have hsecond : Run balancedCall (.start oneByte) ([.write [7]] ++ [.read 1]) _ :=
    .snoc hfirst ⟨rfl, by decide, by decide⟩
  have hthird : Run balancedCall (.start oneByte) ([.write [7], .read 1] ++ [.write [8]]) _ :=
    .snoc hsecond ⟨rfl, by decide, by decide⟩
  exact ⟨_, hthird, rfl, (ringbuffer_fifo hcreate).1 _ _ hthird⟩

end Lib
end Micael
