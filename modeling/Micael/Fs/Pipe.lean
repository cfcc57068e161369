import Micael.Foundation.Run
import Micael.Kernel.Machine
import Micael.Kernel.Util

/-!
# Pipes

A pipe is a buffer with one pointer: the bytes below `ptr` were written and not read.  A reader
copies from the front of the buffer and moves what it left to the front.  A call that would have
to sleep stops the model; the wait queues and the spinlock decide nothing else here.

The calls of a run carry what the caller can see: the buffer that was given to a write, and the
buffer and the length that a read returned.

Main results:

- Theorem {lit}`pipe_isByteStream_iff`: a run of reads and writes is a byte stream exactly when every
  read asks for at least all unread bytes.
- Theorem {lit}`partial_read_not_byteStream`: one byte read out of two leaves the pointer where it was.
-/

namespace Micael
namespace Fs

open Foundation Kernel

/-- `struct pipe`: the fields that its data path uses. -/
structure Pipe where
  mem : Memory
  size : Nat
  ptr : Nat

/-- Why a call on a pipe does not complete. -/
inductive PipeStop where
  /-- The call returns `-EINVAL`. -/
  | einval
  /-- The caller is put to sleep on `wq_readers`. -/
  | sleepReader
  /-- The caller is put to sleep on `wq_writers`. -/
  | sleepWriter
deriving DecidableEq, Repr

/-- `pipe_create`: `mem` is what `kmalloc` returned. -/
def pipeCreate (mem : Memory) (size : Nat) : Except PipeStop Pipe :=
  if size = 0 then .error .einval else .ok ⟨mem, size, 0⟩

/-- `__read`: the pipe, the caller's buffer and the number of bytes read. -/
def read (pipe : Pipe) (size : Nat) (buffer : Memory) : Except PipeStop (Pipe × Memory × Nat) :=
  if pipe.ptr = 0 then
    .error .sleepReader
  else
    let nread := if size < pipe.ptr then size else pipe.ptr
    let buffer := kmemcpy buffer 0 pipe.mem 0 nread
    if pipe.ptr ≤ size then
      .ok ({ pipe with ptr := 0 }, buffer, nread)
    else
      let mem := kmemmove pipe.mem 0 size (pipe.ptr - nread)
      .ok ({ pipe with mem := mem, ptr := u64 (size + pipe.ptr - nread) }, buffer, nread)

/-- `__write`: the pipe and the number of bytes written. -/
def write (pipe : Pipe) (size : Nat) (buffer : Memory) : Except PipeStop (Pipe × Nat) :=
  if u64 (pipe.size + 2 ^ 64 - pipe.ptr) < size then
    .error .sleepWriter
  else
    let mem := kmemcpy pipe.mem pipe.ptr buffer 0 size
    .ok ({ pipe with mem := mem, ptr := u64 (pipe.ptr + size) }, size)

/-- `pipe_read`: a null pointer is `none`. -/
def pipeRead (pipe : Option Pipe) (buffer : Option Memory) (size : Nat) :
    Except PipeStop (Pipe × Memory × Nat) :=
  match pipe, buffer with
  | some pipe, some buffer => if size = 0 then .error .einval else read pipe size buffer
  | _, _ => .error .einval

/-- `pipe_write`: a null pointer is `none`. -/
def pipeWrite (pipe : Option Pipe) (buffer : Option Memory) (size : Nat) :
    Except PipeStop (Pipe × Nat) :=
  match pipe, buffer with
  | some pipe, some buffer => if size = 0 then .error .einval else write pipe size buffer
  | _, _ => .error .einval

/-! ## Runs -/

/-- A completed call as its caller sees it. -/
inductive PipeCall where
  | write (size : Nat) (buffer : Memory)
  | read (size : Nat) (buffer : Memory) (nread : Nat)

/-- One completed call. -/
inductive PipeStep : Pipe → PipeCall → Pipe → Prop
  | write {pipe pipe' : Pipe} {size : Nat} {buffer : Memory} {n : Nat} :
      pipeWrite (some pipe) (some buffer) size = .ok (pipe', n) →
      PipeStep pipe (.write size buffer) pipe'
  | read {pipe pipe' : Pipe} {size : Nat} {buffer buffer' : Memory} {nread : Nat} :
      pipeRead (some pipe) (some buffer) size = .ok (pipe', buffer', nread) →
      PipeStep pipe (.read size buffer' nread) pipe'

/-- The bytes a call hands to the pipe. -/
def PipeCall.written : PipeCall → List UInt8
  | .write size buffer => buffer.bytes 0 size
  | .read _ _ _ => []

/-- The bytes a call returns from the pipe. -/
def PipeCall.returned : PipeCall → List UInt8
  | .write _ _ => []
  | .read _ buffer nread => buffer.bytes 0 nread

/-- All bytes written in a run. -/
def written (calls : List PipeCall) : List UInt8 := calls.flatMap PipeCall.written

/-- All bytes read in a run. -/
def returned (calls : List PipeCall) : List UInt8 := calls.flatMap PipeCall.returned

/-- What a byte stream promises about a run that starts in {lit}`start`. -/
structure IsByteStream (start : Pipe) (calls : List PipeCall) : Prop where
  /-- The bytes read are a prefix of the bytes written. -/
  inOrder : returned calls <+: written calls
  /-- A read returns as many bytes as it asked for, or all unread ones. -/
  counts : ∀ pre size buffer nread, pre ++ [.read size buffer nread] <+: calls →
    nread = min size ((written pre).length - (returned pre).length)
  /-- In every state reached, the pointer is the number of unread bytes. -/
  pointer : ∀ pre pipe, pre <+: calls → Run PipeStep start pre pipe →
    pipe.ptr + (returned pre).length = (written pre).length

/-- The call takes all unread bytes, if it is a read. -/
def PipeCall.Drains (pipe : Pipe) : PipeCall → Prop
  | .write _ _ => True
  | .read size _ _ => pipe.ptr ≤ size

/-- Every read of the run asks for at least all unread bytes. -/
def AllDrain (start : Pipe) (calls : List PipeCall) : Prop :=
  ∀ pre call pipe, pre ++ [call] <+: calls → Run PipeStep start pre pipe → call.Drains pipe

/-! ## Steps -/

/-- What a completed write does. -/
theorem write_step {pipe pipe' : Pipe} {size : Nat} {buffer : Memory}
    (h : PipeStep pipe (.write size buffer) pipe') :
    ¬ u64 (pipe.size + 2 ^ 64 - pipe.ptr) < size ∧
      pipe' = { pipe with
        mem := kmemcpy pipe.mem pipe.ptr buffer 0 size
        ptr := u64 (pipe.ptr + size) } := by
  cases h with
  | write hwrite =>
      obtain ⟨-, hbody⟩ := guard_eq_ok.mp hwrite
      obtain ⟨hroom, hbody⟩ := guard_eq_ok.mp hbody
      obtain ⟨rfl, -⟩ := Prod.mk.inj (Except.ok.inj hbody)
      exact ⟨hroom, rfl⟩

/-- What a completed read does, when it drains the pipe and when it does not. -/
theorem read_step {pipe pipe' : Pipe} {size nread : Nat} {buffer' : Memory}
    (h : PipeStep pipe (.read size buffer' nread) pipe') :
    0 < size ∧ 0 < pipe.ptr ∧ nread = min size pipe.ptr ∧
      buffer'.bytes 0 nread = pipe.mem.bytes 0 nread ∧
      (pipe.ptr ≤ size → pipe' = { pipe with ptr := 0 }) ∧
      (size < pipe.ptr → pipe'.ptr = u64 pipe.ptr) := by
  cases h with
  | read hread =>
      obtain ⟨hsize, hbody⟩ := guard_eq_ok.mp hread
      obtain ⟨hptr, hbody⟩ := guard_eq_ok.mp hbody
      by_cases hdrain : pipe.ptr ≤ size
      · rw [if_neg (by omega : ¬ size < pipe.ptr), if_pos hdrain] at hbody
        obtain ⟨rfl, hrest⟩ := Prod.mk.inj (Except.ok.inj hbody)
        obtain ⟨rfl, rfl⟩ := Prod.mk.inj hrest
        exact ⟨by omega, by omega, by omega, bytes_kmemcpy _ _ _ _ _, fun _ => rfl, by omega⟩
      · rw [if_pos (by omega : size < pipe.ptr), if_neg hdrain] at hbody
        obtain ⟨rfl, hrest⟩ := Prod.mk.inj (Except.ok.inj hbody)
        obtain ⟨rfl, rfl⟩ := Prod.mk.inj hrest
        refine ⟨by omega, by omega, by omega, bytes_kmemcpy _ _ _ _ _, by omega, fun _ => ?_⟩
        exact congrArg u64 (Nat.add_sub_cancel_left _ _)

/-! ## Runs whose reads drain the pipe -/

theorem written_concat (calls : List PipeCall) (call : PipeCall) :
    written (calls ++ [call]) = written calls ++ call.written := by
  simp [written]

theorem returned_concat (calls : List PipeCall) (call : PipeCall) :
    returned (calls ++ [call]) = returned calls ++ call.returned := by
  simp [returned]

/-- The buffer holds exactly the bytes written and not read. -/
structure InSync (calls : List PipeCall) (pipe : Pipe) : Prop where
  ptr_le : pipe.ptr ≤ pipe.size
  size_lt : pipe.size < 2 ^ 64
  unread : returned calls ++ pipe.mem.bytes 0 pipe.ptr = written calls

theorem InSync.pointer {calls : List PipeCall} {pipe : Pipe} (h : InSync calls pipe) :
    pipe.ptr + (returned calls).length = (written calls).length := by
  rw [← h.unread, List.length_append, Memory.length_bytes, Nat.add_comm]

/-- A write that fits keeps the buffer in step with the calls. -/
theorem InSync.write {calls : List PipeCall} {pipe pipe' : Pipe} {size : Nat} {buffer : Memory}
    (h : InSync calls pipe) (hstep : PipeStep pipe (.write size buffer) pipe') :
    InSync (calls ++ [.write size buffer]) pipe' := by
  obtain ⟨hroom, rfl⟩ := write_step hstep
  have hle := h.ptr_le
  have hlt := h.size_lt
  have hfree : u64 (pipe.size + 2 ^ 64 - pipe.ptr) = pipe.size - pipe.ptr := by
    unfold u64
    omega
  have hptr : u64 (pipe.ptr + size) = pipe.ptr + size := u64_eq_of_lt (by omega)
  refine ⟨by dsimp only; omega, hlt, ?_⟩
  dsimp only
  rw [hptr, Memory.bytes_add, bytes_kmemcpy_of_disjoint (by omega), Nat.zero_add, bytes_kmemcpy,
    returned_concat, written_concat, ← h.unread]
  simp [PipeCall.returned, PipeCall.written]

/-- So does a read that drains the pipe. -/
theorem InSync.read {calls : List PipeCall} {pipe pipe' : Pipe} {size nread : Nat}
    {buffer : Memory} (h : InSync calls pipe)
    (hstep : PipeStep pipe (.read size buffer nread) pipe') (hdrain : pipe.ptr ≤ size) :
    InSync (calls ++ [.read size buffer nread]) pipe' := by
  obtain ⟨-, -, hnread, hbytes, hpipe, -⟩ := read_step hstep
  obtain rfl := hpipe hdrain
  have hall : nread = pipe.ptr := by omega
  subst hall
  refine ⟨Nat.zero_le _, h.size_lt, ?_⟩
  rw [returned_concat, written_concat, ← h.unread, PipeCall.returned, PipeCall.written, hbytes]
  simp

/-- One call of a run whose reads drain the pipe. -/
theorem InSync.step {calls : List PipeCall} {pipe pipe' : Pipe} {call : PipeCall}
    (h : InSync calls pipe) (hstep : PipeStep pipe call pipe') (hdrain : call.Drains pipe) :
    InSync (calls ++ [call]) pipe' := by
  cases call with
  | write size buffer => exact h.write hstep
  | read size buffer nread => exact h.read hstep hdrain

theorem AllDrain.of_prefix {start : Pipe} {calls pre : List PipeCall} (h : AllDrain start calls)
    (hpre : pre <+: calls) : AllDrain start pre :=
  fun short call pipe hshort hrun => h short call pipe (hshort.trans hpre) hrun

/-- A run whose reads all drain the pipe stays in step. -/
theorem InSync.run {start pipe : Pipe} {calls : List PipeCall} (hstart : InSync [] start)
    (hrun : Run PipeStep start calls pipe) (hdrain : AllDrain start calls) :
    InSync calls pipe := by
  induction hrun with
  | nil => exact hstart
  | snoc hfirst hlast ih =>
      have hsync := ih (hdrain.of_prefix (List.prefix_append _ _))
      exact hsync.step hlast (hdrain _ _ _ List.prefix_rfl hfirst)

theorem pipeCreate_inSync {mem : Memory} {size : Nat} {start : Pipe} (hsize : size < 2 ^ 64)
    (hcreate : pipeCreate mem size = .ok start) : InSync [] start := by
  obtain ⟨-, hbody⟩ := guard_eq_ok.mp hcreate
  obtain rfl := Except.ok.inj hbody
  exact ⟨Nat.zero_le _, hsize, rfl⟩

/-- The pointer is a machine word, whatever the calls were. -/
theorem ptr_lt {start pipe : Pipe} {calls : List PipeCall} (hstart : start.ptr < 2 ^ 64)
    (hrun : Run PipeStep start calls pipe) : pipe.ptr < 2 ^ 64 := by
  refine Run.invariant (fun pipe => pipe.ptr < 2 ^ 64) ?_ hrun hstart
  intro pipe call pipe' _ hstep
  cases call with
  | write size buffer =>
      obtain ⟨-, rfl⟩ := write_step hstep
      exact u64_lt _
  | read size buffer nread =>
      obtain ⟨-, -, -, -, hdrained, hpart⟩ := read_step hstep
      rcases Nat.lt_or_ge size pipe.ptr with hlt | hge
      · rw [hpart hlt]
        exact u64_lt _
      · rw [hdrained hge]
        norm_num

/-- Runs whose reads drain the pipe are byte streams. -/
theorem isByteStream_of_allDrain {start pipe : Pipe} {calls : List PipeCall}
    (hstart : InSync [] start) (hrun : Run PipeStep start calls pipe)
    (hdrain : AllDrain start calls) : IsByteStream start calls := by
  refine ⟨?_, ?_, ?_⟩
  · exact ⟨_, (hstart.run hrun hdrain).unread⟩
  · intro pre size buffer nread hpre
    obtain ⟨after, hafter⟩ := hrun.of_prefix hpre
    obtain ⟨before, hbefore, hstep⟩ := hafter.of_concat
    have hsync := hstart.run hbefore
      (hdrain.of_prefix ((List.prefix_append _ _).trans hpre))
    obtain ⟨-, -, hnread, -⟩ := read_step hstep
    have hptr := hsync.pointer
    omega
  · intro pre mid hpre hmid
    exact (hstart.run hmid (hdrain.of_prefix hpre)).pointer

/-- A read that leaves bytes behind leaves the pointer where it was, so the run is no longer a
byte stream. -/
theorem allDrain_of_isByteStream {start pipe : Pipe} {calls : List PipeCall}
    (hstart : start.ptr < 2 ^ 64) (hrun : Run PipeStep start calls pipe)
    (hstream : IsByteStream start calls) : AllDrain start calls := by
  intro pre call mid hpre hmid
  obtain ⟨after, hafter⟩ := hrun.of_prefix hpre
  obtain ⟨before, hbefore, hstep⟩ := hafter.of_concat
  have hshort : pre <+: calls := (List.prefix_append _ _).trans hpre
  have hptr := hstream.pointer pre before hshort hbefore
  have hptr' := hstream.pointer _ after hpre hafter
  have hmidptr := hstream.pointer pre mid hshort hmid
  cases call with
  | write size buffer => trivial
  | read size buffer nread =>
      change mid.ptr ≤ size
      by_contra hleft
      obtain ⟨hsize, -, hnread, -, -, hpart⟩ := read_step hstep
      have hkept : after.ptr = before.ptr := by
        rw [hpart (by omega), u64_eq_of_lt (ptr_lt hstart hbefore)]
      rw [returned_concat, written_concat, List.length_append, List.length_append,
        PipeCall.returned, PipeCall.written, Memory.length_bytes, List.length_nil] at hptr'
      omega

/-- A run of reads and writes on a fresh pipe is a byte stream exactly when every read asks for
at least all the unread bytes. -/
theorem pipe_isByteStream_iff {mem : Memory} {size : Nat} {start pipe : Pipe}
    {calls : List PipeCall} (hsize : size < 2 ^ 64) (hcreate : pipeCreate mem size = .ok start)
    (hrun : Run PipeStep start calls pipe) :
    IsByteStream start calls ↔ AllDrain start calls := by
  have hstart := pipeCreate_inSync hsize hcreate
  have hptr : start.ptr < 2 ^ 64 := lt_of_le_of_lt hstart.ptr_le hstart.size_lt
  constructor
  · exact allDrain_of_isByteStream hptr hrun
  · exact isByteStream_of_allDrain hstart hrun

/-! ## Two bytes written, and two or one of them read -/

/-- A buffer of zeros. -/
def zeros : Memory := fun _ => 0

/-- The pipe of four bytes, fresh and after a write of two bytes. -/
def fourBytes (ptr : Nat) : Pipe := ⟨zeros, 4, ptr⟩

theorem kmemcpy_zeros (a b n : Nat) : kmemcpy zeros a zeros b n = zeros := by
  funext x
  rw [kmemcpy_apply]
  exact ite_self _

theorem kmemmove_zeros (a b n : Nat) : kmemmove zeros a b n = zeros := by
  funext x
  rw [kmemmove_apply]
  exact ite_self _

theorem write_two : PipeStep (fourBytes 0) (.write 2 zeros) (fourBytes 2) := by
  refine PipeStep.write (n := 2) ?_
  simp [pipeWrite, write, fourBytes, kmemcpy_zeros, u64]

theorem read_two : PipeStep (fourBytes 2) (.read 2 zeros 2) (fourBytes 0) := by
  have hread : pipeRead (some (fourBytes 2)) (some zeros) 2 = .ok (fourBytes 0, zeros, 2) := by
    simp [pipeRead, read, fourBytes, kmemcpy_zeros]
  exact .read hread

theorem read_one : PipeStep (fourBytes 2) (.read 1 zeros 1) (fourBytes 2) := by
  have hread : pipeRead (some (fourBytes 2)) (some zeros) 1 = .ok (fourBytes 2, zeros, 1) := by
    simp [pipeRead, read, fourBytes, kmemcpy_zeros, kmemmove_zeros, u64]
  exact .read hread

theorem allDrain_two : AllDrain (fourBytes 0) [.write 2 zeros, .read 2 zeros 2] := by
  intro pre call mid hpre hmid
  rcases concat_prefix_pair hpre with ⟨rfl, rfl⟩ | ⟨-, rfl⟩
  · obtain ⟨-, rfl⟩ := write_step hmid.of_singleton
    exact show u64 (0 + 2) ≤ 2 by decide
  · trivial

theorem pipe_isByteStream_two :
    IsByteStream (fourBytes 0) [.write 2 zeros, .read 2 zeros 2] :=
  (pipe_isByteStream_iff (show 4 < 2 ^ 64 by norm_num) (show pipeCreate zeros 4 = _ from rfl)
    (.snoc (.snoc .nil write_two) read_two)).mpr allDrain_two

/-- One byte read out of two: the pointer still says that two bytes are unread. -/
theorem partial_read_not_byteStream :
    Run PipeStep (fourBytes 0) [.write 2 zeros, .read 1 zeros 1] (fourBytes 2) ∧
      ¬ IsByteStream (fourBytes 0) [.write 2 zeros, .read 1 zeros 1] := by
  have hrun : Run PipeStep (fourBytes 0) [.write 2 zeros, .read 1 zeros 1] (fourBytes 2) :=
    .snoc (.snoc .nil write_two) read_one
  refine ⟨hrun, fun hstream => ?_⟩
  have hptr := hstream.pointer _ _ List.prefix_rfl hrun
  simp [fourBytes, returned, written, PipeCall.returned, PipeCall.written] at hptr

end Fs
end Micael
