import Micael.Foundation.StackWords
import Mathlib.Tactic

/-!
# Entering and leaving the kernel

The routines of `interrupts.S` and `switch.S` for a processor with fifteen general registers.  Before
`isr_common` runs, the processor itself has pushed the interrupted context and, for some exceptions, an error
code; all stubs bring the stack to the same form.

The instruction pointer is followed where control leaves a routine.  The result of a comparison is kept apart
from the other flags, which `iretq` restores.

Main results:

- Theorem {lit}`Cpu.enter_spec`: a handler is called with the interrupted context on the stack.
- Theorem {lit}`Cpu.exec_isrReturn`: a context on the stack is resumed.
- Theorem {lit}`interrupt_transparent`: an interrupt is invisible to the code that it interrupts.
- Theorem {lit}`exec_switchSave`, Theorem {lit}`exec_switchReturn`: a routine that has called
  `native_context_switch` is returned to.
-/

namespace Micael
namespace Arch

open Foundation

/-! ## The processor -/

/-- The general registers apart from the stack pointer. -/
inductive Reg where
  | rax | rcx | rdx | rbx | rbp | rsi | rdi | r8 | r9 | r10 | r11 | r12 | r13 | r14 | r15
deriving DecidableEq, Repr

/-- `SEG_KERNEL_CODE`. -/
def segKernelCode : UInt64 := 0x08

/-- A context that execution can be resumed in. -/
structure Context where
  reg : Reg → UInt64
  rip : UInt64
  cs : UInt64
  rflags : UInt64
  rsp : UInt64
  ss : UInt64

/-- A processor.  `swapgs` exchanges the two bases of the segment `gs`. -/
structure Cpu extends Context where
  gs : UInt64
  kernelGs : UInt64
  zf : Bool
  mem : Memory

/-- The flags without the interrupt flag. -/
def clearInterrupt (rflags : UInt64) : UInt64 := rflags &&& ~~~0x200

/-- The instructions of the routines, in the operand order of their source. -/
inductive Instr where
  | push (r : Reg)
  | pushImm (v : UInt64)
  | pop (r : Reg)
  /-- `movq %rsp, (r)` -/
  | storeSp (r : Reg)
  /-- `movq r, %rsp` -/
  | loadSp (r : Reg)
  /-- `movq %rsp, r` -/
  | readSp (r : Reg)
  | movImm (v : UInt64) (r : Reg)
  | addSp (n : UInt64)
  /-- `cmp $v, off(%rsp)` -/
  | cmp (v off : UInt64)
  /-- `je` over the instruction that follows. -/
  | jeOver (i : Instr)
  | swapgs
  | cli
  /-- `call *r`; the address of the next instruction is `next`. -/
  | call (r : Reg) (next : UInt64)
  | ret
  | iretq

/-- Push a word. -/
def Cpu.pushWord (cpu : Cpu) (w : UInt64) : Cpu :=
  { cpu with rsp := cpu.rsp - 8, mem := cpu.mem.setWord (cpu.rsp - 8).toNat w }

/-- The word at an offset from the stack pointer. -/
def Cpu.top (cpu : Cpu) (off : UInt64) : UInt64 := cpu.mem.word (cpu.rsp + off).toNat

/-- Execute an instruction. -/
def Instr.step : Instr → Cpu → Cpu
  | .push r, cpu => cpu.pushWord (cpu.reg r)
  | .pushImm v, cpu => cpu.pushWord v
  | .pop r, cpu => { cpu with reg := Function.update cpu.reg r (cpu.top 0), rsp := cpu.rsp + 8 }
  | .storeSp r, cpu => { cpu with mem := cpu.mem.setWord (cpu.reg r).toNat cpu.rsp }
  | .loadSp r, cpu => { cpu with rsp := cpu.reg r }
  | .readSp r, cpu => { cpu with reg := Function.update cpu.reg r cpu.rsp }
  | .movImm v r, cpu => { cpu with reg := Function.update cpu.reg r v }
  | .addSp n, cpu => { cpu with rsp := cpu.rsp + n }
  | .cmp v off, cpu => { cpu with zf := cpu.top off == v }
  | .jeOver i, cpu => if cpu.zf then cpu else i.step cpu
  | .swapgs, cpu => { cpu with gs := cpu.kernelGs, kernelGs := cpu.gs }
  | .cli, cpu => { cpu with rflags := clearInterrupt cpu.rflags }
  | .call r next, cpu => { cpu.pushWord next with rip := cpu.reg r }
  | .ret, cpu => { cpu with rip := cpu.top 0, rsp := cpu.rsp + 8 }
  | .iretq, cpu =>
      { cpu with
        rip := cpu.top 0
        cs := cpu.top 8
        rflags := cpu.top 16
        rsp := cpu.top 24
        ss := cpu.top 32 }

/-- Execute a routine. -/
def exec (code : List Instr) (cpu : Cpu) : Cpu := code.foldl (fun cpu i => i.step cpu) cpu

@[simp]
theorem exec_nil (cpu : Cpu) : exec [] cpu = cpu := rfl

@[simp]
theorem exec_cons (i : Instr) (code : List Instr) (cpu : Cpu) :
    exec (i :: code) cpu = exec code (i.step cpu) := rfl

@[simp]
theorem exec_append (code rest : List Instr) (cpu : Cpu) :
    exec (code ++ rest) cpu = exec rest (exec code cpu) := by
  simp [exec]

/-- The registers in the order in which `isr_common` pops them. -/
def isrRegs : List Reg := [.rax, .rcx, .rdx, .rbx, .rbp, .rsi, .rdi, .r8, .r9, .r10, .r11, .r12, .r13, .r14, .r15]

/-- The exceptions that the processor pushes an error code for. -/
def errorCodeVectors : List Nat := [8, 10, 11, 12, 13, 14, 17, 21, 29, 30]

/-- The vectors that have a stub: `isr0` to `isr20`, `isr128` and `irq0` to `irq15`. -/
def IsrVector : Type := { vec : Nat // vec ≤ 20 ∨ vec = 0x80 ∨ 32 ≤ vec ∧ vec < 48 }

/-- The number that the stub of a vector pushes. -/
def IsrVector.num (vec : IsrVector) : UInt64 := UInt64.ofNat vec.val

/-- The stubs that push no error code. -/
def bareStubs : List Nat := [8, 10, 11, 12, 13, 14, 17]

/-- The stub of a vector. -/
def isrStub (vec : IsrVector) : List Instr :=
  if vec.val ∈ bareStubs then [.cli, .pushImm vec.num] else [.cli, .pushImm 0, .pushImm vec.num]

/-- A stub leaves the error code out just when the processor pushes one. -/
theorem IsrVector.mem_bareStubs_iff (vec : IsrVector) :
    vec.val ∈ bareStubs ↔ vec.val ∈ errorCodeVectors := by
  have hstub := vec.property
  simp only [bareStubs, errorCodeVectors, List.mem_cons, List.not_mem_nil, or_false]
  omega

/-- `isr_common` up to the call of `interrupt_handler`, which returns to `next`. -/
def isrCommon (interruptHandler next : UInt64) : List Instr :=
  [.cmp 0x8 24, .jeOver .swapgs] ++ isrRegs.reverse.map .push ++
    [.readSp .rdi, .movImm interruptHandler .rax, .call .rax next]

/-- The rest of `isr_common`; `native_context_switch_user` and `native_context_load` end alike. -/
def isrReturn : List Instr :=
  isrRegs.map .pop ++ [.addSp 16, .cmp 0x8 8, .jeOver .swapgs, .iretq]

/-- The registers in the order in which `native_context_switch` pops them. -/
def switchRegs : List Reg := [.rbp, .rbx, .rdi, .rsi, .r12, .r13, .r14, .r15]

/-- `native_context_switch` and `native_context_switch_user` begin alike. -/
def switchSave : List Instr := switchRegs.reverse.map .push ++ [.storeSp .rdi, .loadSp .rsi]

/-- `native_context_switch`. -/
def nativeContextSwitch : List Instr := switchSave ++ switchRegs.map .pop ++ [.ret]

/-- `native_context_switch_user`. -/
def nativeContextSwitchUser : List Instr := switchSave ++ isrReturn

/-- `native_context_load`, apart from the page directory. -/
def nativeContextLoad : List Instr := .loadSp .rsi :: isrReturn

/-- The privilege level of a code segment is the lowest. -/
def userMode (cs : UInt64) : Prop := cs &&& 3 = 3

instance (cs : UInt64) : Decidable (userMode cs) := inferInstanceAs (Decidable (_ = _))

/-- Where the processor starts to push: at `rsp0` of the TSS when the privilege level changes, else at the
stack pointer, down to a multiple of 16. -/
def Cpu.interruptStack (cpu : Cpu) (rsp0 : UInt64) : UInt64 :=
  (if userMode cpu.cs then rsp0 else cpu.rsp) &&& ~~~0xf

/-- The processor takes an interrupt through a gate of type `0x8e` or `0xee` and selector `0x08`. -/
def Cpu.deliver (cpu : Cpu) (rsp0 : UInt64) (err : Option UInt64) : Cpu :=
  let start := { cpu with
    rsp := cpu.interruptStack rsp0
    cs := segKernelCode
    ss := if userMode cpu.cs then 0 else cpu.ss
    rflags := clearInterrupt cpu.rflags }
  let pushed := ((((start.pushWord cpu.ss).pushWord cpu.rsp).pushWord cpu.rflags).pushWord cpu.cs).pushWord
    cpu.rip
  match err with
  | some code => pushed.pushWord code
  | none => pushed

/-- An interrupt, up to the call of `interrupt_handler`. -/
def Cpu.enter (cpu : Cpu) (rsp0 : UInt64) (vec : IsrVector) (err : Option UInt64)
    (interruptHandler next : UInt64) : Cpu :=
  exec (isrStub vec ++ isrCommon interruptHandler next) (cpu.deliver rsp0 err)

/-- The words of a context on a kernel stack, from the stack pointer upwards; an `isr_regs_t`. -/
def Context.trapFrame (c : Context) (num err : UInt64) : List UInt64 :=
  isrRegs.map c.reg ++ [num, err, c.rip, c.cs, c.rflags, c.rsp, c.ss]

@[simp]
theorem Context.length_trapFrame (c : Context) (num err : UInt64) : (c.trapFrame num err).length = 22 := rfl

/-- Rounding down to a multiple of 16. -/
theorem toNat_and_not_15 (v : UInt64) : (v &&& ~~~0xf).toNat = v.toNat / 16 * 16 := by
  have hmask : (~~~0xf : UInt64).toNat = (2 ^ 60 - 1) <<< 4 := by decide
  have hshift : v.toNat / 16 * 16 = (v.toNat >>> 4) <<< 4 := by
    rw [Nat.shiftRight_eq_div_pow, Nat.shiftLeft_eq]
  rw [UInt64.toNat_and, hmask, hshift]
  apply Nat.eq_of_testBit_eq
  intro i
  rw [Nat.testBit_and, Nat.testBit_shiftLeft, Nat.testBit_shiftLeft, Nat.testBit_two_pow_sub_one,
    Nat.testBit_shiftRight]
  by_cases hlow : 4 ≤ i
  · have hi : 4 + (i - 4) = i := by omega
    rw [hi]
    by_cases hhigh : i < 64
    · have hmem : i - 4 < 60 := by omega
      simp [hlow, hmem]
    · have hbit : v.toNat.testBit i = false := by
        apply Nat.testBit_lt_two_pow
        exact v.toNat_lt.trans_le (Nat.pow_le_pow_right (by decide) (by omega))
      simp [hlow, hbit]
  · simp [hlow]

/-- The stack that an interrupt uses is below the one it starts from, and aligned. -/
theorem Cpu.toNat_interruptStack (cpu : Cpu) (rsp0 : UInt64) :
    (cpu.interruptStack rsp0).toNat = (if userMode cpu.cs then rsp0 else cpu.rsp).toNat / 16 * 16 :=
  toNat_and_not_15 _

/-! ## Frames in memory -/

/-- The context with a value for `rax`. -/
def Context.setRax (c : Context) (v : UInt64) : Context := { c with reg := Function.update c.reg .rax v }

/-- The context with interrupts enabled. -/
def Context.enableIrq (c : Context) : Context := { c with rflags := c.rflags ||| 0x200 }

@[simp]
theorem Context.cs_enableIrq (c : Context) : c.enableIrq.cs = c.cs := rfl

/-- The frame at an address holds a context. -/
def FrameAt (mem : Memory) (f : Nat) (c : Context) : Prop :=
  ∃ num err, mem.words f 22 = c.trapFrame num err

section Frames

variable {mem mem' : Memory} {f : Nat} {c : Context} {v : UInt64}

theorem FrameAt.congr (h : FrameAt mem f c) (hsame : ∀ x, f ≤ x → x < f + 176 → mem' x = mem x) :
    FrameAt mem' f c := by
  obtain ⟨num, err, hwords⟩ := h
  exact ⟨num, err, (Memory.words_congr hsame).trans hwords⟩

/-- A copy of a frame. -/
theorem FrameAt.copy {f' : Nat} (h : FrameAt mem f c) (hsame : ∀ i < 176, mem' (f' + i) = mem (f + i)) :
    FrameAt mem' f' c := by
  obtain ⟨num, err, hwords⟩ := h
  exact ⟨num, err, (Memory.words_eq_of_bytes hsame).trans hwords⟩

/-- A frame that has been stored. -/
theorem frameAt_storeWords {num err : UInt64} : FrameAt (mem.storeWords f (c.trapFrame num err)) f c :=
  ⟨num, err, @Memory.words_storeWords mem f (c.trapFrame num err)⟩

/-- A store of words elsewhere. -/
theorem FrameAt.storeWords {a : Nat} {ws : List UInt64} (h : FrameAt mem f c)
    (hdisjoint : f + 176 ≤ a ∨ a + 8 * ws.length ≤ f) : FrameAt (mem.storeWords a ws) f c :=
  h.congr fun x hlow hhigh => Memory.storeWords_of_outside (by omega)

/-- The `cs` of a frame. -/
theorem FrameAt.word_cs (h : FrameAt mem f c) : mem.word (f + 144) = c.cs := by
  obtain ⟨num, err, hwords⟩ := h
  have hread := @Memory.words_getElem? mem f 22 18 (by decide)
  rw [hwords] at hread
  exact (Option.some.inj hread).symm

/-- The `eflags` of a frame. -/
theorem FrameAt.word_rflags (h : FrameAt mem f c) : mem.word (f + 152) = c.rflags := by
  obtain ⟨num, err, hwords⟩ := h
  have hread := @Memory.words_getElem? mem f 22 19 (by decide)
  rw [hwords] at hread
  exact (Option.some.inj hread).symm

/-- A store to `rax` in a frame. -/
theorem FrameAt.setRax (h : FrameAt mem f c) : FrameAt (mem.setWord f v) f (c.setRax v) := by
  obtain ⟨num, err, hwords⟩ := h
  have hset := @Memory.words_setWord mem f 22 v 0
  rw [hwords] at hset
  refine ⟨num, err, hset.trans ?_⟩
  simp [Context.trapFrame, Context.setRax, isrRegs]

/-- A store to `eflags` in a frame. -/
theorem FrameAt.enableIrq (h : FrameAt mem f c) :
    FrameAt (mem.setWord (f + 152) (mem.word (f + 152) ||| 0x200)) f c.enableIrq := by
  rw [h.word_rflags]
  obtain ⟨num, err, hwords⟩ := h
  have hset := @Memory.words_setWord mem f 22 (c.rflags ||| 0x200) 19
  rw [hwords] at hset
  exact ⟨num, err, hset⟩

end Frames

/-! ## Pushes and pops -/

section Stack

variable {cpu : Cpu} {ws : List UInt64} {rs : List Reg} {n : Nat}

theorem toNat_sub_ofNat {v : UInt64} (h : n ≤ v.toNat) : (v - UInt64.ofNat n).toNat = v.toNat - n := by
  have hlt := v.toNat_lt
  have hn : (UInt64.ofNat n).toNat = n := by
    rw [UInt64.toNat_ofNat']
    exact Nat.mod_eq_of_lt (by omega)
  rw [UInt64.toNat_sub_of_le _ _ (UInt64.le_iff_toNat_le.mpr (by rw [hn]; exact h)), hn]

theorem toNat_add_ofNat {v : UInt64} (h : v.toNat + n < 2 ^ 64) :
    (v + UInt64.ofNat n).toNat = v.toNat + n := by
  have hn : (UInt64.ofNat n).toNat = n := by
    rw [UInt64.toNat_ofNat']
    exact Nat.mod_eq_of_lt (by omega)
  rw [UInt64.toNat_add, hn]
  exact Nat.mod_eq_of_lt h

/-- Push words one after the other. -/
def Cpu.pushAll (cpu : Cpu) (ws : List UInt64) : Cpu := ws.foldl Cpu.pushWord cpu

/-- The processor after some pushes. -/
theorem Cpu.pushAll_eq (h : 8 * ws.length ≤ cpu.rsp.toNat) :
    cpu.pushAll ws = { cpu with
      rsp := cpu.rsp - UInt64.ofNat (8 * ws.length)
      mem := cpu.mem.pushWords cpu.rsp.toNat ws } := by
  induction ws generalizing cpu with
  | nil => simp [Cpu.pushAll]
  | cons w ws ih =>
      rw [List.length_cons] at h
      have hone : (cpu.rsp - 8).toNat = cpu.rsp.toNat - 8 := toNat_sub_ofNat (n := 8) (by omega)
      have hless : 8 * ws.length ≤ (cpu.pushWord w).rsp.toNat := by
        simp only [Cpu.pushWord, hone]
        omega
      have hrest := ih hless
      have hsum : cpu.rsp - 8 - UInt64.ofNat (8 * ws.length) = cpu.rsp - UInt64.ofNat (8 * (w :: ws).length) := by
        rw [List.length_cons, Nat.mul_succ, UInt64.ofNat_add]
        grind
      calc
        cpu.pushAll (w :: ws) = (cpu.pushWord w).pushAll ws := rfl
        _ = _ := by rw [hrest]; simp only [Cpu.pushWord, hone, hsum, Memory.pushWords_cons]

/-- Registers are pushed with the values that they have at first. -/
theorem exec_push (rs : List Reg) (cpu : Cpu) : exec (rs.map .push) cpu = cpu.pushAll (rs.map cpu.reg) := by
  induction rs generalizing cpu with
  | nil => rfl
  | cons r rs ih =>
      rw [List.map_cons, exec_cons, ih]
      rfl

/-- The processor after some registers were popped. -/
theorem exec_pop (h : cpu.rsp.toNat + 8 * rs.length < 2 ^ 64) :
    exec (rs.map .pop) cpu = { cpu with
      reg := assign cpu.reg rs (cpu.mem.words cpu.rsp.toNat rs.length)
      rsp := cpu.rsp + UInt64.ofNat (8 * rs.length) } := by
  induction rs generalizing cpu with
  | nil => simp [assign]
  | cons r rs ih =>
      rw [List.length_cons] at h
      have hone : (cpu.rsp + 8).toNat = cpu.rsp.toNat + 8 := toNat_add_ofNat (n := 8) (by omega)
      have hfirst : cpu.top 0 = cpu.mem.word cpu.rsp.toNat := by simp [Cpu.top]
      have hless : (Instr.step (.pop r) cpu).rsp.toNat + 8 * rs.length < 2 ^ 64 := by
        simp only [Instr.step, hone]
        omega
      have hsum : cpu.rsp + 8 + UInt64.ofNat (8 * rs.length) = cpu.rsp + UInt64.ofNat (8 * (r :: rs).length) := by
        rw [List.length_cons, Nat.mul_succ, UInt64.ofNat_add]
        grind
      rw [List.map_cons, exec_cons, ih hless]
      simp only [Instr.step, hone, hsum, hfirst, List.length_cons, Memory.words_succ, assign]

end Stack

/-! ## Resuming a context -/

section Resume

variable {cpu : Cpu} {c : Context} {num err : UInt64}

/-- The processor in a context that was resumed: `swapgs` was executed unless it is one of the kernel. -/
def Cpu.resumed (cpu : Cpu) (c : Context) : Cpu :=
  { cpu with
    toContext := c
    gs := if c.cs = segKernelCode then cpu.gs else cpu.kernelGs
    kernelGs := if c.cs = segKernelCode then cpu.kernelGs else cpu.gs
    zf := c.cs == segKernelCode }

/-- `isr_common` resumes the context that it finds on the stack. -/
theorem Cpu.exec_isrReturn (hframe : cpu.mem.words cpu.rsp.toNat 22 = c.trapFrame num err)
    (hroom : cpu.rsp.toNat + 176 < 2 ^ 64) : exec isrReturn cpu = cpu.resumed c := by
  have hsplit : cpu.mem.words cpu.rsp.toNat 15 = isrRegs.map c.reg ∧
      cpu.mem.words (cpu.rsp.toNat + 120) 7 = [num, err, c.rip, c.cs, c.rflags, c.rsp, c.ss] := by
    have happend : cpu.mem.words cpu.rsp.toNat (isrRegs.map c.reg ++
        [num, err, c.rip, c.cs, c.rflags, c.rsp, c.ss]).length = _ := hframe
    exact Memory.words_of_append happend
  obtain ⟨hregs, hrest⟩ := hsplit
  simp only [Memory.words_succ, Memory.words_zero, List.cons.injEq, and_true, Nat.add_assoc,
    Nat.reduceAdd] at hrest
  obtain ⟨-, -, hrip, hcs, hrflags, hrsp, hss⟩ := hrest
  have hpop : exec (isrRegs.map .pop) cpu = { cpu with reg := c.reg, rsp := cpu.rsp + 120 } := by
    have hreg : assign cpu.reg isrRegs (cpu.mem.words cpu.rsp.toNat isrRegs.length) = c.reg := by
      funext r
      rw [show cpu.mem.words cpu.rsp.toNat isrRegs.length = _ from hregs]
      exact assign_of_map (by decide) (by cases r <;> decide)
    have hlen : cpu.rsp.toNat + 8 * isrRegs.length < 2 ^ 64 := by
      simp only [isrRegs, List.length_cons, List.length_nil]
      omega
    rw [exec_pop hlen, hreg]
    rfl
  have hat : ∀ n, n < 40 → (cpu.rsp + 120 + 16 + UInt64.ofNat n).toNat = cpu.rsp.toNat + (136 + n) := by
    intro n hn
    have hbase : (cpu.rsp + 120).toNat = cpu.rsp.toNat + 120 := toNat_add_ofNat (n := 120) (by omega)
    have hskip : (cpu.rsp + 120 + 16).toNat = (cpu.rsp + 120).toNat + 16 := toNat_add_ofNat (n := 16) (by omega)
    rw [toNat_add_ofNat (by omega), hskip, hbase]
    omega
  have hat0 : cpu.mem.word (cpu.rsp + 120 + 16 + 0).toNat = c.rip := (congrArg _ (hat 0 (by decide))).trans hrip
  have hat8 : cpu.mem.word (cpu.rsp + 120 + 16 + 8).toNat = c.cs := (congrArg _ (hat 8 (by decide))).trans hcs
  have hat16 : cpu.mem.word (cpu.rsp + 120 + 16 + 16).toNat = c.rflags :=
    (congrArg _ (hat 16 (by decide))).trans hrflags
  have hat24 : cpu.mem.word (cpu.rsp + 120 + 16 + 24).toNat = c.rsp :=
    (congrArg _ (hat 24 (by decide))).trans hrsp
  have hat32 : cpu.mem.word (cpu.rsp + 120 + 16 + 32).toNat = c.ss := (congrArg _ (hat 32 (by decide))).trans hss
  rw [isrReturn, exec_append, hpop]
  by_cases hkernel : c.cs = 8
  · simp only [exec_cons, exec_nil, Instr.step, Cpu.top, hat0, hat8, hat16, hat24, hat32, hkernel,
      beq_self_eq_true, if_true, Cpu.resumed, segKernelCode]
    rw [← hkernel]
  · have hcmp : (c.cs == 8) = false := beq_false_of_ne hkernel
    simp only [exec_cons, exec_nil, Instr.step, Cpu.top, hat0, hat8, hat16, hat24, hat32, hcmp, hkernel,
      Bool.false_eq_true, if_false, Cpu.resumed, segKernelCode]

end Resume

/-! ## Interrupting a context -/

section Enter

variable {cpu : Cpu} {rsp0 : UInt64} {vec : IsrVector} {err : Option UInt64} {interruptHandler next : UInt64}

/-- The processor that pushes the frame of an interrupt. -/
def Cpu.entering (cpu : Cpu) (rsp0 : UInt64) : Cpu :=
  { cpu with
    rsp := cpu.interruptStack rsp0
    cs := segKernelCode
    ss := if userMode cpu.cs then 0 else cpu.ss
    rflags := clearInterrupt (clearInterrupt cpu.rflags)
    gs := if cpu.cs = segKernelCode then cpu.gs else cpu.kernelGs
    kernelGs := if cpu.cs = segKernelCode then cpu.kernelGs else cpu.gs
    zf := cpu.cs == segKernelCode }

theorem Cpu.pushAll_append (cpu : Cpu) (ws us : List UInt64) :
    cpu.pushAll (ws ++ us) = (cpu.pushAll ws).pushAll us :=
  List.foldl_append

@[simp]
theorem Cpu.reg_pushAll (cpu : Cpu) (ws : List UInt64) : (cpu.pushAll ws).reg = cpu.reg := by
  induction ws generalizing cpu with
  | nil => rfl
  | cons w ws ih => exact ih (cpu.pushWord w)

/-- Every stub brings the stack to the same form, if the processor has pushed an error code just for the
vectors that it does so for. -/
theorem exec_isrStub (hvec : err.isSome = true ↔ vec.val ∈ errorCodeVectors) :
    exec (isrStub vec) (cpu.deliver rsp0 err) =
      Cpu.pushAll { cpu with
        rsp := cpu.interruptStack rsp0
        cs := segKernelCode
        ss := if userMode cpu.cs then 0 else cpu.ss
        rflags := clearInterrupt (clearInterrupt cpu.rflags) }
      [cpu.ss, cpu.rsp, cpu.rflags, cpu.cs, cpu.rip, err.getD 0, vec.num] := by
  rw [← vec.mem_bareStubs_iff] at hvec
  cases err with
  | none =>
      have hcode : vec.val ∉ bareStubs := fun h => absurd (hvec.mpr h) (by simp)
      rw [isrStub, if_neg hcode]
      rfl
  | some code =>
      rw [isrStub, if_pos (hvec.mp rfl)]
      rfl

/-- `swapgs` is executed unless the kernel was interrupted. -/
theorem exec_swapgs {p : Cpu} {cs : UInt64} (htop : p.top 24 = cs) :
    exec [.cmp 0x8 24, .jeOver .swapgs] p = { p with
      zf := cs == segKernelCode
      gs := if cs = segKernelCode then p.gs else p.kernelGs
      kernelGs := if cs = segKernelCode then p.kernelGs else p.gs } := by
  by_cases hkernel : cs = 8
  · simp only [exec_cons, exec_nil, Instr.step, htop, hkernel, segKernelCode, beq_self_eq_true, if_true]
  · have hcmp : (cs == 8) = false := beq_false_of_ne hkernel
    simp only [exec_cons, exec_nil, Instr.step, htop, hcmp, hkernel, segKernelCode, Bool.false_eq_true, if_false]

/-- The kernel's base of `gs` is there before the registers are pushed. -/
theorem exec_isrSwapgs (hroom : 56 ≤ (cpu.interruptStack rsp0).toNat) (num code : UInt64) :
    exec [.cmp 0x8 24, .jeOver .swapgs]
        (Cpu.pushAll { cpu with
          rsp := cpu.interruptStack rsp0
          cs := segKernelCode
          ss := if userMode cpu.cs then 0 else cpu.ss
          rflags := clearInterrupt (clearInterrupt cpu.rflags) }
        [cpu.ss, cpu.rsp, cpu.rflags, cpu.cs, cpu.rip, code, num]) =
      (cpu.entering rsp0).pushAll [cpu.ss, cpu.rsp, cpu.rflags, cpu.cs, cpu.rip, code, num] := by
  have hlt := (cpu.interruptStack rsp0).toNat_lt
  have hsp : (cpu.interruptStack rsp0 - 56).toNat = (cpu.interruptStack rsp0).toNat - 56 :=
    toNat_sub_ofNat (n := 56) hroom
  have hat : (cpu.interruptStack rsp0 - 56 + 24).toNat = (cpu.interruptStack rsp0).toNat - 56 + 24 := by
    rw [← hsp]
    exact toNat_add_ofNat (n := 24) (by omega)
  have hwords : (cpu.mem.pushWords (cpu.interruptStack rsp0).toNat
      [cpu.ss, cpu.rsp, cpu.rflags, cpu.cs, cpu.rip, code, num]).words
        ((cpu.interruptStack rsp0).toNat - 56) 7 =
      [num, code, cpu.rip, cpu.cs, cpu.rflags, cpu.rsp, cpu.ss] := Memory.words_pushWords hroom
  simp only [Memory.words_succ, Memory.words_zero, List.cons.injEq, and_true, Nat.add_assoc,
    Nat.reduceAdd] at hwords
  have htop : Cpu.top (Cpu.pushAll { cpu with
      rsp := cpu.interruptStack rsp0
      cs := segKernelCode
      ss := if userMode cpu.cs then 0 else cpu.ss
      rflags := clearInterrupt (clearInterrupt cpu.rflags) }
      [cpu.ss, cpu.rsp, cpu.rflags, cpu.cs, cpu.rip, code, num]) 24 = cpu.cs := by
    rw [Cpu.pushAll_eq (by exact hroom)]
    exact (congrArg _ hat).trans hwords.2.2.2.1
  rw [exec_swapgs htop, Cpu.pushAll_eq (by exact hroom), Cpu.pushAll_eq (by exact hroom)]
  rfl

/-- `interrupt_handler` is called with the frame of the interrupted context in `rdi`, and the return address
below it. -/
theorem Cpu.enter_eq (hvec : err.isSome = true ↔ vec.val ∈ errorCodeVectors)
    (hroom : 184 ≤ (cpu.interruptStack rsp0).toNat) :
    cpu.enter rsp0 vec err interruptHandler next =
      { (cpu.entering rsp0).pushAll
          ((cpu.trapFrame vec.num (err.getD 0)).reverse ++ [next]) with
        reg := Function.update (Function.update cpu.reg .rdi (cpu.interruptStack rsp0 - 176)) .rax
          interruptHandler
        rip := interruptHandler } := by
  have hframe : [cpu.ss, cpu.rsp, cpu.rflags, cpu.cs, cpu.rip, err.getD 0, vec.num] ++
      isrRegs.reverse.map cpu.reg = (cpu.trapFrame vec.num (err.getD 0)).reverse := by
    simp [Context.trapFrame]
  have hsp : ((cpu.entering rsp0).pushAll (cpu.trapFrame vec.num (err.getD 0)).reverse).rsp =
      cpu.interruptStack rsp0 - 176 := by
    have hless : 176 ≤ (cpu.interruptStack rsp0).toNat := by omega
    rw [Cpu.pushAll_eq (by exact hless)]
    rfl
  have hreg : ((cpu.entering rsp0).pushAll (cpu.trapFrame vec.num (err.getD 0)).reverse).reg =
      cpu.reg := Cpu.reg_pushAll _ _
  have hregs : (cpu.entering rsp0).reg = cpu.reg := rfl
  rw [Cpu.enter, exec_append, exec_isrStub hvec, isrCommon, exec_append, exec_append,
    exec_isrSwapgs (by omega), exec_push, Cpu.reg_pushAll, ← Cpu.pushAll_append, hregs, hframe,
    Cpu.pushAll_append]
  generalize (cpu.entering rsp0).pushAll (cpu.trapFrame vec.num (err.getD 0)).reverse = p at *
  rw [← hsp]
  simp only [exec_cons, exec_nil, Instr.step, hreg, Function.update_self]
  rfl

/-- What an interrupt does when it pushes from address `a` down. -/
structure Cpu.Entered (cpu after : Cpu) (a : Nat) (num err : UInt64) : Prop where
  frame : after.mem.words (a - 176) 22 = cpu.trapFrame num err
  arg : (after.reg .rdi).toNat = a - 176
  rsp : after.rsp.toNat = a - 184
  cs : after.cs = segKernelCode
  gs : after.gs = if cpu.cs = segKernelCode then cpu.gs else cpu.kernelGs
  kernelGs : after.kernelGs = if cpu.cs = segKernelCode then cpu.kernelGs else cpu.gs
  kept : ∀ x, x < a - 184 ∨ a ≤ x → after.mem x = cpu.mem x

/-- The handler is called with the interrupted context on the stack, whatever vector it is. -/
theorem Cpu.enter_spec (hvec : err.isSome = true ↔ vec.val ∈ errorCodeVectors)
    (hroom : 184 ≤ (cpu.interruptStack rsp0).toNat) :
    cpu.Entered (cpu.enter rsp0 vec err interruptHandler next) (cpu.interruptStack rsp0).toNat
      vec.num (err.getD 0) := by
  have hcount : (cpu.trapFrame vec.num (err.getD 0)).length = 22 :=
    cpu.length_trapFrame vec.num (err.getD 0)
  rw [Cpu.enter_eq hvec hroom]
  generalize hframe : cpu.trapFrame vec.num (err.getD 0) = frame at hcount
  have hwords : frame.reverse ++ [next] = (next :: frame).reverse := List.reverse_cons.symm
  have hlen : (next :: frame).length = 23 := by rw [List.length_cons, hcount]
  have hless : 8 * (next :: frame).reverse.length ≤ (cpu.entering rsp0).rsp.toNat := by
    rw [List.length_reverse, hlen]
    exact hroom
  rw [hwords, Cpu.pushAll_eq hless, List.length_reverse, hlen]
  rw [List.length_reverse] at hless
  constructor
  case frame =>
    have hnext : (cpu.interruptStack rsp0).toNat - 184 + 8 = (cpu.interruptStack rsp0).toNat - 176 := by omega
    have hread := @Memory.words_pushWords_reverse cpu.mem _ (next :: frame) hless
    have hbehind := (@Memory.words_of_append _ _ [next] frame hread).2
    rw [hlen, hcount] at hbehind
    rw [hframe, ← hnext]
    exact hbehind
  case arg => exact toNat_sub_ofNat (n := 176) (by omega)
  case rsp => exact toNat_sub_ofNat (n := 184) hroom
  case cs => rfl
  case gs => rfl
  case kernelGs => rfl
  case kept =>
    intro x hx
    apply Memory.pushWords_of_outside
    · rwa [List.length_reverse]
    · rwa [List.length_reverse, hlen]

end Enter

section Switch

variable {cpu : Cpu} {f : Reg → UInt64} {rip : UInt64}

/-- The registers are pushed, and the stack pointer is stored and replaced. -/
theorem exec_switchSave (hroom : 64 ≤ cpu.rsp.toNat) :
    exec switchSave cpu = { cpu with
      rsp := cpu.reg .rsi
      mem := (cpu.mem.pushWords cpu.rsp.toNat (switchRegs.reverse.map cpu.reg)).setWord
        (cpu.reg .rdi).toNat (cpu.rsp - 64) } := by
  have hlen : 8 * (switchRegs.reverse.map cpu.reg).length ≤ cpu.rsp.toNat := hroom
  rw [switchSave, exec_append, exec_push, Cpu.pushAll_eq hlen]
  rfl

/-- The processor after a call of `native_context_switch` has returned. -/
def Cpu.returned (cpu : Cpu) (f : Reg → UInt64) (rip : UInt64) : Cpu :=
  { cpu with
    reg := fun r => if r ∈ switchRegs then f r else cpu.reg r
    rip := rip
    rsp := cpu.rsp + 72 }

/-- A call returns with the registers that it has saved. -/
theorem exec_switchReturn (hframe : cpu.mem.words cpu.rsp.toNat 9 = switchRegs.map f ++ [rip])
    (hroom : cpu.rsp.toNat + 72 < 2 ^ 64) :
    exec (switchRegs.map .pop ++ [.ret]) cpu = cpu.returned f rip := by
  have hsplit : cpu.mem.words cpu.rsp.toNat 8 = switchRegs.map f ∧
      cpu.mem.words (cpu.rsp.toNat + 64) 1 = [rip] := by
    have happend : cpu.mem.words cpu.rsp.toNat (switchRegs.map f ++ [rip]).length = _ := hframe
    exact Memory.words_of_append happend
  have hrip : cpu.mem.word (cpu.rsp.toNat + 64) = rip := by simpa [Memory.words_succ] using hsplit.2
  have hreg : assign cpu.reg switchRegs (cpu.mem.words cpu.rsp.toNat switchRegs.length) =
      fun r => if r ∈ switchRegs then f r else cpu.reg r := by
    funext r
    rw [show cpu.mem.words cpu.rsp.toNat switchRegs.length = _ from hsplit.1]
    by_cases hr : r ∈ switchRegs
    · rw [if_pos hr, assign_of_map (by decide) hr]
    · rw [if_neg hr, assign_of_not_mem hr]
  have hlen : cpu.rsp.toNat + 8 * switchRegs.length < 2 ^ 64 := by
    simp only [switchRegs, List.length_cons, List.length_nil]
    omega
  have hlast : cpu.mem.word (cpu.rsp + 64 + 0).toNat = rip := by
    have hsp : (cpu.rsp + 64).toNat = cpu.rsp.toNat + 64 := toNat_add_ofNat (n := 64) (by omega)
    rw [UInt64.add_zero, hsp, hrip]
  have hsum : cpu.rsp + 64 + 8 = cpu.rsp + 72 := by grind
  have hofNat : UInt64.ofNat (8 * switchRegs.length) = 64 := rfl
  rw [exec_append, exec_pop hlen, hreg, hofNat]
  simp only [exec_cons, exec_nil, Instr.step, Cpu.top, hlast, hsum, Cpu.returned]

end Switch

end Arch
end Micael
