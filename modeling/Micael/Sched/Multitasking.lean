import Micael.Sched.KernelStacks

/-!
# Multitasking

Seen from a task, an interrupt puts the context that it interrupts on a stack of the task's own, and returning
from it takes the context off; a call of `sched_switch` returns where it was made.  That is what the kernel
stacks of `KernelStacks` implement: along every run, the context of the processor is the one that the abstract
tasks have.

Main results:

- Theorem {lit}`Simulates.run`: the machine refines the tasks, along every run.
-/

namespace Micael
namespace Sched

open Foundation Kernel Arch

variable {τ : Type} [DecidableEq τ]

/-! ## Tasks -/

/-- How a task goes on when it gets the processor: it is started, or a call of `sched_switch` returns. -/
inductive Resumption where
  | absent
  | start (c : Context)
  | resume (c : Context)

/-- A task, with the contexts that were interrupted, the last one first, and whether `exec_state` is where an
interrupt of user code puts its frame. -/
structure Task where
  next : Resumption
  traps : List Context
  current : Bool

/-- The task that runs, its context, and all tasks. -/
structure Tasks (τ : Type) where
  cur : τ
  live : Context
  task : τ → Task

/-- The registers that a call preserves. -/
def calleeSaved : List Reg := [.rbx, .rbp, .r12, .r13, .r14, .r15]

/-- A call of `sched_switch` made in context `c` returns in context `c'`. -/
structure ReturnsTo (c c' : Context) : Prop where
  reg : ∀ r ∈ calleeSaved, c'.reg r = c.reg r
  rip : c'.rip = c.rip
  rsp : c'.rsp = c.rsp
  cs : c'.cs = segKernelCode

/-- The running task goes on in a context, and is changed. -/
def Tasks.goesOn (s : Tasks τ) (live : Context) (task : Task) : Tasks τ :=
  ⟨s.cur, live, Function.update s.task s.cur task⟩

/-- The running task gives the processor to another one, which goes on in a context. -/
def Tasks.gives (s : Tasks τ) (next : τ) (live : Context) (ret : UInt64) : Tasks τ :=
  ⟨next, live, Function.update s.task s.cur { s.task s.cur with next := .resume { s.live with rip := ret } }⟩

/-- Another task is changed. -/
def Tasks.setTask (s : Tasks τ) (t : τ) (task : Task) : Tasks τ :=
  { s with task := Function.update s.task t task }

/-- The steps of the tasks. -/
inductive TaskStep (L : KernelLayout τ) : Tasks τ → Event τ → Tasks τ → Prop
  | compute {s : Tasks τ} {c : Context} :
      c.cs = s.live.cs → TaskStep L s .compute (s.goesOn c (s.task s.cur))
  | interrupt {s : Tasks τ} {vec : IsrVector} {c : Context} : c.cs = segKernelCode →
      TaskStep L s (.interrupt vec)
        (s.goesOn c { s.task s.cur with traps := s.live :: (s.task s.cur).traps })
  | isrReturn {s : Tasks τ} {c : Context} {rest : List Context} : (s.task s.cur).traps = c :: rest →
      TaskStep L s .isrReturn (s.goesOn c { s.task s.cur with traps := rest })
  | prepareSwitch {s : Tasks τ} {c : Context} {rest : List Context} : (s.task s.cur).traps = c :: rest →
      TaskStep L s .prepareSwitch (s.goesOn s.live
        { s.task s.cur with traps := c.enableIrq :: rest, current := decide (userMode c.cs) })
  | sysRead {s : Tasks τ} {c : Context} {rest : List Context} :
      (s.task s.cur).traps = c :: rest → userMode c.cs →
      TaskStep L s .sysRead (s.goesOn s.live { s.task s.cur with current := true })
  | syscallHandler {s : Tasks τ} {c : Context} {rest : List Context} {ret : Int32} :
      (s.task s.cur).traps = c :: rest → userMode c.cs →
      TaskStep L s (.syscallHandler ret) (s.goesOn s.live { s.task s.cur with
        traps := (if (s.task s.cur).current then c.setRax ret.toInt64.toUInt64 else c) :: rest })
  | schedSwitchSelf {s : Tasks τ} : TaskStep L s (.schedSwitch s.cur) s
  | schedSwitchStart {s : Tasks τ} {next : τ} {c : Context} : next ≠ s.cur → (s.task next).next = .start c →
      TaskStep L s (.schedSwitch next) (s.gives next c L.switchUserReturn)
  | schedSwitchResume {s : Tasks τ} {next : τ} {c c' : Context} :
      next ≠ s.cur → (s.task next).next = .resume c → ReturnsTo c c' →
      TaskStep L s (.schedSwitch next) (s.gives next c' L.switchReturn)
  | schedThreadCreate {s : Tasks τ} {t : τ} {func : UInt64} : t ≠ s.cur → (s.task t).next = .absent →
      TaskStep L s (.schedThreadCreate t func)
        (s.setTask t ⟨.start (threadContext (L.stackEnd t) func), [], true⟩)
  | sysFork {s : Tasks τ} {c : Context} {rest : List Context} {child : τ} :
      child ≠ s.cur → (s.task child).next = .absent → (s.task s.cur).traps = c :: rest → userMode c.cs →
      TaskStep L s (.sysFork child) (s.setTask child ⟨.start (c.setRax 0), [], true⟩)
  | schedEnterUserland {s : Tasks τ} {ip sp : UInt64} :
      TaskStep L s (.schedEnterUserland ip sp)
        (s.goesOn (bootstrapContext ip sp) { s.task s.cur with traps := [] })
  | destroy {s : Tasks τ} {t : τ} : t ≠ s.cur → TaskStep L s (.destroy t) (s.setTask t ⟨.absent, [], true⟩)

/-! ## What the stacks hold -/

variable (L : KernelLayout τ)

/-- The frames on the kernel stack of a task hold the contexts that were interrupted.  User code is interrupted
first, at the end of the stack; code of the kernel is interrupted at or below its stack pointer. -/
inductive Chain (mem : Memory) (t : τ) : List Nat → List Context → Prop
  | nil : Chain mem t [] []
  | user {f : Nat} {c : Context} : FrameAt mem f c → userMode c.cs → f + execStateSize = L.stackEnd t →
      Chain mem t [f] [c]
  | kernel {f : Nat} {fs : List Nat} {c : Context} {cs : List Context} :
      FrameAt mem f c → c.cs = segKernelCode → 16 ∣ f → L.kstackTop t ≤ f →
      f + execStateSize ≤ c.rsp.toNat → c.rsp.toNat ≤ L.floor t fs → Chain mem t fs cs →
      Chain mem t (f :: fs) (c :: cs)

/-- A context that the processor can have: one of the kernel with its stack pointer below the frames, or one of
user code without any. -/
def Mode (t : τ) (frames : List Nat) (c : Context) (traps : List Context) : Prop :=
  c.cs = segKernelCode ∧ c.rsp.toNat ≤ L.floor t frames ∨ userMode c.cs ∧ traps = []

/-- What the machine holds of a task that waits for the processor. -/
inductive Waits (m : Machine τ) (t : τ) : Resumption → Prop
  | absent : m.stage t = .absent → m.frames t = [] → Waits m t .absent
  | start {c : Context} :
      m.stage t = .unstarted → m.frames t = [] → m.execState t + execStateSize = L.stackEnd t →
      FrameAt m.cpu.mem (m.execState t) c → Mode L t [] c [] → Waits m t (.start c)
  | resume {c : Context} {sp : UInt64} {reg : Reg → UInt64} :
      m.stage t = .started → m.cpu.mem.word (L.bottomField t) = sp → L.kstackTop t ≤ sp.toNat →
      sp.toNat + 72 ≤ L.floor t (m.frames t) → m.cpu.mem.words sp.toNat 9 = switchRegs.map reg ++ [c.rip] →
      (∀ r ∈ calleeSaved, reg r = c.reg r) → c.rsp = sp + 72 → Waits m t (.resume c)

/-- `exec_state` is the frame of the interrupted user code, or lies below it. -/
structure ExecState (m : Machine τ) (t : τ) (current : Bool) : Prop where
  low : L.kstackTop t ≤ m.execState t
  atEnd : current = true → m.execState t + execStateSize = L.stackEnd t
  stale : current = false → m.execState t + 2 * execStateSize ≤ L.stackEnd t

/-- The machine holds a task that does not run. -/
structure Holds (m : Machine τ) (t : τ) (task : Task) : Prop where
  waits : Waits L m t task.next
  chain : Chain L m.cpu.mem t (m.frames t) task.traps
  exec : m.stage t ≠ .absent → ExecState L m t task.current

/-- The machine does what the tasks do. -/
structure Simulates (m : Machine τ) (s : Tasks τ) : Prop where
  cur : m.cur = s.cur
  live : m.cpu.toContext = s.live
  base : kernelBase m.cpu = L.kernelBase
  stage : m.stage s.cur = .started
  mode : Mode L s.cur (m.frames s.cur) s.live (s.task s.cur).traps
  rsp0 : ∀ c ∈ s.live :: (s.task s.cur).traps, userMode c.cs → m.rsp0 = UInt64.ofNat (L.stackEnd s.cur)
  chain : Chain L m.cpu.mem s.cur (m.frames s.cur) (s.task s.cur).traps
  exec : ExecState L m s.cur (s.task s.cur).current
  others : ∀ t, t ≠ s.cur → Holds L m t (s.task t)

variable {L} {m m' : Machine τ} {s : Tasks τ} {t u : τ} {mem mem' : Memory} {fs : List Nat}
  {cs : List Context} {task : Task}

theorem not_userMode_kernel : ¬ userMode segKernelCode := by decide

omit [DecidableEq τ] in
theorem Chain.eq_nil (h : Chain L mem t [] cs) : cs = [] := by
  cases h
  rfl

omit [DecidableEq τ] in
theorem Chain.eq_nil_of_traps (h : Chain L mem t fs []) : fs = [] := by
  cases h
  rfl

omit [DecidableEq τ] in
theorem Chain.floor_le (h : Chain L mem t fs cs) : L.floor t fs + 172 ≤ L.stackEnd t := by
  have hend := L.stackEnd_eq t
  induction h with
  | nil =>
      rw [KernelLayout.floor_nil]
      omega
  | user hframe huser hplace =>
      rw [execStateSize] at hplace
      rw [KernelLayout.floor_cons]
      omega
  | kernel hframe hkernel hdvd hlow hroom hrsp hrest ih =>
      rw [KernelLayout.floor_cons]
      omega

omit [DecidableEq τ] in
/-- The frames are above the floor. -/
theorem Chain.floor_le_of_mem (h : Chain L mem t fs cs) : ∀ f ∈ fs, L.floor t fs ≤ f := by
  induction h with
  | nil => simp
  | user hframe huser hplace => simp
  | @kernel f fs c cs hframe hkernel hdvd hlow hroom hrsp hrest ih =>
      intro f' hf'
      rw [KernelLayout.floor_cons]
      rcases List.mem_cons.mp hf' with rfl | hmem
      · exact le_rfl
      · have hlater := ih f' hmem
        omega

omit [DecidableEq τ] in
/-- The frames lie on the stack. -/
theorem Chain.bounds (h : Chain L mem t fs cs) :
    ∀ f ∈ fs, L.kstackTop t ≤ f ∧ f + execStateSize ≤ L.stackEnd t := by
  have hend := L.stackEnd_eq t
  induction h with
  | nil => simp
  | user hframe huser hplace =>
      intro f' hf'
      rw [List.mem_singleton.mp hf']
      rw [execStateSize] at *
      omega
  | kernel hframe hkernel hdvd hlow hroom hrsp hrest ih =>
      have hfloor := hrest.floor_le
      intro f' hf'
      rcases List.mem_cons.mp hf' with rfl | hmem
      · omega
      · exact ih f' hmem

omit [DecidableEq τ] in
/-- The contexts depend on the frames only. -/
theorem Chain.congr (h : Chain L mem t fs cs)
    (hsame : ∀ f ∈ fs, ∀ x, f ≤ x → x < f + execStateSize → mem' x = mem x) : Chain L mem' t fs cs := by
  induction h with
  | nil => exact .nil
  | user hframe huser hplace =>
      exact .user (hframe.congr (hsame _ (List.mem_singleton_self _))) huser hplace
  | kernel hframe hkernel hdvd hlow hroom hrsp hrest ih =>
      exact .kernel (hframe.congr (hsame _ List.mem_cons_self)) hkernel hdvd hlow hroom hrsp
        (ih fun f hf => hsame f (List.mem_cons_of_mem _ hf))

omit [DecidableEq τ] in
/-- The contexts are kept if what the task owns is. -/
theorem Chain.congr_of_owns (h : Chain L mem t fs cs) (hsame : ∀ x, L.Owns t x → mem' x = mem x) :
    Chain L mem' t fs cs := by
  refine h.congr fun f hf x hlow hhigh => hsame x (.inl ?_)
  have hbounds := h.bounds f hf
  omega

/-- The last frame of a chain. -/
structure Top (L : KernelLayout τ) (mem : Memory) (t : τ) (f : Nat) (fs : List Nat) (c : Context)
    (rest : List Context) : Prop where
  frame : FrameAt mem f c
  low : L.kstackTop t ≤ f
  high : f + execStateSize ≤ L.stackEnd t
  mode : Mode L t fs c rest
  chain : Chain L mem t fs rest
  above : ∀ f' ∈ fs, f + execStateSize ≤ f'
  user : userMode c.cs → f + execStateSize = L.stackEnd t
  kernel : c.cs = segKernelCode → f + 2 * execStateSize ≤ L.stackEnd t
  replace : ∀ mem' c', FrameAt mem' f c' → c'.cs = c.cs → c'.rsp = c.rsp → Chain L mem' t fs rest →
    Chain L mem' t (f :: fs) (c' :: rest)

omit [DecidableEq τ] in
theorem Chain.top {f : Nat} (h : Chain L mem t (f :: fs) cs) :
    ∃ c rest, cs = c :: rest ∧ Top L mem t f fs c rest := by
  have hbounds := h.bounds f List.mem_cons_self
  have hend := L.stackEnd_eq t
  have hdvd := L.aligned t
  cases h with
  | @user f c hframe huser hplace =>
      refine ⟨c, [], rfl, hframe, hbounds.1, hbounds.2, .inr ⟨huser, rfl⟩, .nil, by simp, fun _ => hplace, ?_, ?_⟩
      · intro hkernel
        rw [hkernel] at huser
        exact absurd huser not_userMode_kernel
      · intro mem' c' hframe' hcs hrsp hrest
        exact .user hframe' (by rwa [hcs]) hplace
  | @kernel f fs c cs hframe hkernel hdvd hlow hroom hrsp hrest =>
      have hfloor := hrest.floor_le
      refine ⟨c, cs, rfl, hframe, hbounds.1, hbounds.2, .inl ⟨hkernel, hrsp⟩, hrest, ?_, ?_, ?_, ?_⟩
      · intro f' hf'
        have habove := hrest.floor_le_of_mem f' hf'
        omega
      · intro huser
        rw [hkernel] at huser
        exact absurd huser not_userMode_kernel
      · intro _
        rw [execStateSize] at *
        omega
      · intro mem' c' hframe' hcs hrsp' hrest'
        exact .kernel hframe' (by rwa [hcs]) hdvd hlow (by rwa [hrsp']) (by rwa [hrsp']) hrest'

omit [DecidableEq τ] in
/-- A task that does not run is not concerned by a step that leaves alone what it owns. -/
theorem Holds.congr (h : Holds L m t task) (hstage : m'.stage t = m.stage t)
    (hframes : m'.frames t = m.frames t) (hexec : m'.execState t = m.execState t)
    (hmem : m.stage t ≠ .absent → ∀ x, L.Owns t x → m'.cpu.mem x = m.cpu.mem x) : Holds L m' t task := by
  have hend := L.stackEnd_eq t
  constructor
  case waits =>
    have hwaits := h.waits
    generalize task.next = next at hwaits
    cases hwaits with
    | absent habsent hempty => exact .absent (hstage.trans habsent) (hframes.trans hempty)
    | start hunstarted hempty hplace hframe hmode =>
        refine .start (hstage.trans hunstarted) (hframes.trans hempty) (by rwa [hexec]) ?_ hmode
        rw [hexec]
        refine hframe.congr fun x hlow hhigh => hmem (by simp [hunstarted]) x (.inl ?_)
        rw [execStateSize] at hplace
        omega
    | @resume c sp reg hstarted hword hlow hhigh hwords hreg hrsp =>
        have hfloor := h.chain.floor_le
        have hkept := hmem (by simp [hstarted])
        have hfield : m'.cpu.mem.word (L.bottomField t) = m.cpu.mem.word (L.bottomField t) :=
          Memory.word_congr fun x hx hx' => hkept x (.inr ⟨hx, hx'⟩)
        have hsaved : m'.cpu.mem.words sp.toNat 9 = m.cpu.mem.words sp.toNat 9 :=
          Memory.words_congr fun x hx hx' => hkept x (.inl (by omega))
        exact .resume (hstage.trans hstarted) (hfield.trans hword) hlow (by rwa [hframes])
          (hsaved.trans hwords) hreg hrsp
  case chain =>
    rw [hframes]
    by_cases habsent : m.stage t = .absent
    · have hempty : m.frames t = [] := by
        have hwaits := h.waits
        generalize task.next = next at hwaits
        cases hwaits with
        | absent _ hempty => exact hempty
        | start hunstarted => simp [habsent] at hunstarted
        | resume hstarted => simp [habsent] at hstarted
      have hchain := h.chain
      rw [hempty] at hchain ⊢
      rw [hchain.eq_nil]
      exact .nil
    · exact h.chain.congr_of_owns (hmem habsent)
  case exec =>
    intro hpresent
    have hexecState := h.exec (by rwa [hstage] at hpresent)
    exact ⟨by rw [hexec]; exact hexecState.low, by rw [hexec]; exact hexecState.atEnd,
      by rw [hexec]; exact hexecState.stale⟩

/-! ## One step -/

section Fields

variable (s : Tasks τ) (live : Context) (task : Task) (next : τ) (ret : UInt64)

@[simp]
theorem Tasks.cur_goesOn : (s.goesOn live task).cur = s.cur := rfl

@[simp]
theorem Tasks.live_goesOn : (s.goesOn live task).live = live := rfl

@[simp]
theorem Tasks.task_goesOn_self : (s.goesOn live task).task s.cur = task := Function.update_self ..

theorem Tasks.task_goesOn_of_ne (h : t ≠ s.cur) : (s.goesOn live task).task t = s.task t :=
  Function.update_of_ne h ..

@[simp]
theorem Tasks.cur_gives : (s.gives next live ret).cur = next := rfl

@[simp]
theorem Tasks.task_gives_self :
    (s.gives next live ret).task s.cur = { s.task s.cur with next := .resume { s.live with rip := ret } } :=
  Function.update_self ..

theorem Tasks.task_gives_of_ne (h : t ≠ s.cur) : (s.gives next live ret).task t = s.task t :=
  Function.update_of_ne h ..

@[simp]
theorem Tasks.cur_setTask : (s.setTask t task).cur = s.cur := rfl

@[simp]
theorem Tasks.live_setTask : (s.setTask t task).live = s.live := rfl

@[simp]
theorem Tasks.task_setTask_self : (s.setTask t task).task t = task := Function.update_self ..

theorem Tasks.task_setTask_of_ne (h : t ≠ u) : (s.setTask u task).task t = s.task t :=
  Function.update_of_ne h ..

end Fields

omit [DecidableEq τ] in
theorem Simulates.cs_eq (h : Simulates L m s) : m.cpu.cs = s.live.cs := by rw [← h.live]

/-- The current task changes nothing that other tasks own. -/
structure Spares (L : KernelLayout τ) (m m' : Machine τ) : Prop where
  cur : m'.cur = m.cur
  stage : m'.stage = m.stage
  frames : ∀ u, u ≠ m.cur → m'.frames u = m.frames u
  execState : ∀ u, u ≠ m.cur → m'.execState u = m.execState u
  mem : ∀ u, u ≠ m.cur → m.stage u ≠ .absent → ∀ x, L.Owns u x → m'.cpu.mem x = m.cpu.mem x

/-- A step of the current task changes nothing that other tasks own, unless it removes them. -/
def Leaves (L : KernelLayout τ) (ev : Event τ) (m m' : Machine τ) : Prop :=
  ∀ u, u ≠ m.cur → m.stage u ≠ .absent → ev ≠ .destroy u → ∀ x, L.Owns u x → m'.cpu.mem x = m.cpu.mem x

/-- What is to be shown of a step of the current task. -/
theorem Simulates.goesOn {ev : Event τ} {live : Context} (h : Simulates L m s) (hspares : Spares L m m')
    (hlive : m'.cpu.toContext = live) (hbase : kernelBase m'.cpu = kernelBase m.cpu)
    (hmode : Mode L s.cur (m'.frames s.cur) live task.traps)
    (hrsp0 : ∀ c ∈ live :: task.traps, userMode c.cs → m'.rsp0 = UInt64.ofNat (L.stackEnd s.cur))
    (hchain : Chain L m'.cpu.mem s.cur (m'.frames s.cur) task.traps)
    (hexec : ExecState L m' s.cur task.current) :
    Simulates L m' (s.goesOn live task) ∧ Leaves L ev m m' := by
  refine ⟨?_, fun u hu hpresent _ => hspares.mem u hu hpresent⟩
  constructor
  case cur => exact hspares.cur.trans h.cur
  case live => exact hlive
  case base => exact hbase.trans h.base
  case stage =>
    rw [hspares.stage]
    exact h.stage
  case mode =>
    rw [Tasks.cur_goesOn, Tasks.task_goesOn_self]
    exact hmode
  case rsp0 =>
    rw [Tasks.cur_goesOn, Tasks.task_goesOn_self]
    exact hrsp0
  case chain =>
    rw [Tasks.cur_goesOn, Tasks.task_goesOn_self]
    exact hchain
  case exec =>
    rw [Tasks.cur_goesOn, Tasks.task_goesOn_self]
    exact hexec
  case others =>
    rw [Tasks.cur_goesOn]
    intro u hu
    have hne : u ≠ m.cur := by rwa [h.cur]
    rw [Tasks.task_goesOn_of_ne s live task hu]
    exact (h.others u hu).congr (congrFun hspares.stage u) (hspares.frames u hne) (hspares.execState u hne)
      (hspares.mem u hne)

theorem Simulates.step_compute {cpu : Cpu} (h : Simulates L m s) (hcpu : m.Computes L cpu) :
    ∃ s', TaskStep L s .compute s' ∧ Simulates L { m with cpu := cpu } s' ∧
      Leaves L .compute m { m with cpu := cpu } := by
  have hcs : cpu.cs = s.live.cs := hcpu.cs.trans h.cs_eq
  refine ⟨_, .compute (c := cpu.toContext) hcs, h.goesOn ?_ rfl hcpu.base ?_ ?_ ?_ ?_⟩
  case refine_1 =>
    exact ⟨rfl, rfl, fun u hu => rfl, fun u hu => rfl, fun u hu hpresent x hx =>
      hcpu.mem x (.inl ⟨u, hu, hpresent, hx⟩)⟩
  case refine_2 =>
    rcases h.mode with ⟨hkernel, -⟩ | ⟨huser, hempty⟩
    · have hrsp := hcpu.rsp (hcs.trans hkernel)
      rw [h.cur] at hrsp
      exact .inl ⟨hcs.trans hkernel, hrsp⟩
    · exact .inr ⟨by rwa [hcs], hempty⟩
  case refine_3 =>
    intro c hc huser
    rcases List.mem_cons.mp hc with rfl | hmem
    · exact h.rsp0 s.live List.mem_cons_self (by rwa [hcs] at huser)
    · exact h.rsp0 c (List.mem_cons_of_mem _ hmem) huser
  case refine_4 =>
    refine h.chain.congr fun f hf x hlow hhigh => hcpu.mem x (.inr (.inl ⟨f, ?_, hlow, hhigh⟩))
    rwa [h.cur]
  case refine_5 => exact ⟨h.exec.low, h.exec.atEnd, h.exec.stale⟩

omit [DecidableEq τ] in
/-- An interrupt of user code uses the kernel stack from its end on. -/
theorem Simulates.interruptStack_user (h : Simulates L m s) (huser : userMode s.live.cs) :
    (m.cpu.interruptStack m.rsp0).toNat = L.stackEnd s.cur := by
  have hdvd := L.aligned s.cur
  have hend := L.stackEnd_eq s.cur
  rw [Cpu.toNat_interruptStack, h.cs_eq, if_pos huser, h.rsp0 s.live List.mem_cons_self huser,
    L.toNat_stackEnd]
  omega

omit [DecidableEq τ] in
/-- An interrupt of the kernel goes on below the stack pointer. -/
theorem Simulates.interruptStack_kernel (h : Simulates L m s) (hkernel : s.live.cs = segKernelCode) :
    (m.cpu.interruptStack m.rsp0).toNat = s.live.rsp.toNat / 16 * 16 := by
  have hmode : ¬ userMode s.live.cs := by
    rw [hkernel]
    exact not_userMode_kernel
  rw [Cpu.toNat_interruptStack, h.cs_eq, if_neg hmode, ← h.live]

theorem Simulates.step_interrupt {vec : IsrVector} {err : Option UInt64} (h : Simulates L m s)
    (herr : err.isSome = true ↔ vec.val ∈ errorCodeVectors)
    (hroom : L.kstackTop m.cur + 184 ≤ (m.cpu.interruptStack m.rsp0).toNat) :
    ∃ s', TaskStep L s (.interrupt vec) s' ∧ Simulates L (m.enter L vec err) s' ∧
      Leaves L (.interrupt vec) m (m.enter L vec err) := by
  have hentered : m.cpu.Entered (m.cpu.enter m.rsp0 vec err L.interruptHandler L.handlerReturn)
      (m.cpu.interruptStack m.rsp0).toNat vec.num (err.getD 0) := Cpu.enter_spec herr (by omega)
  have hfloor := h.chain.floor_le
  have hend := L.stackEnd_eq s.cur
  have hdvd := L.aligned s.cur
  have hframe : FrameAt (m.cpu.enter m.rsp0 vec err L.interruptHandler L.handlerReturn).mem
      ((m.cpu.interruptStack m.rsp0).toNat - 176) s.live := ⟨_, _, by rw [hentered.frame, h.live]⟩
  have hframes : (m.enter L vec err).frames s.cur =
      ((m.cpu.interruptStack m.rsp0).toNat - 176) :: m.frames s.cur := by
    rw [Machine.enter, ← h.cur]
    exact Function.update_self ..
  rw [h.cur] at hroom
  have hstack : (m.cpu.interruptStack m.rsp0).toNat ≤ L.stackEnd s.cur := by
    rcases h.mode with ⟨hkernel, hrsp⟩ | ⟨huser, -⟩
    · rw [h.interruptStack_kernel hkernel]
      omega
    · rw [h.interruptStack_user huser]
  refine ⟨_, .interrupt hentered.cs, h.goesOn ?_ rfl ?_ ?_ ?_ ?_ ?_⟩
  case refine_1 =>
    refine ⟨rfl, rfl, fun u hu => Function.update_of_ne hu .., fun u hu => rfl, fun u hu hpresent x hx => ?_⟩
    refine hentered.kept x ?_
    have hapart := hx.ne (u := s.cur) (by rwa [← h.cur])
    rw [KernelLayout.Owns] at hapart
    omega
  case refine_2 => exact (if_pos hentered.cs).trans hentered.gs
  case refine_3 =>
    refine .inl ⟨hentered.cs, ?_⟩
    rw [hframes, KernelLayout.floor_cons, hentered.rsp]
    omega
  case refine_4 =>
    intro c hc huser
    rcases List.mem_cons.mp hc with rfl | hmem
    · rw [hentered.cs] at huser
      exact absurd huser not_userMode_kernel
    · exact h.rsp0 c hmem huser
  case refine_5 =>
    rw [hframes]
    rcases h.mode with ⟨hkernel, hrsp⟩ | ⟨huser, hempty⟩
    · have hplace := h.interruptStack_kernel hkernel
      refine .kernel hframe hkernel (by omega) (by omega) (by rw [execStateSize]; omega) hrsp ?_
      refine h.chain.congr fun f hf x hlow hhigh => hentered.kept x (.inr ?_)
      have hf' := h.chain.floor_le_of_mem f hf
      omega
    · have hplace := h.interruptStack_user huser
      have hchain := h.chain
      rw [hempty] at hchain ⊢
      rw [hchain.eq_nil_of_traps]
      exact .user hframe huser (by rw [execStateSize]; omega)
  case refine_6 => exact ⟨h.exec.low, h.exec.atEnd, h.exec.stale⟩

omit [DecidableEq τ] in
/-- The kernel handles the last of the interrupted contexts. -/
theorem Simulates.top {f : Nat} (h : Simulates L m s) (hhandles : m.Handles f) :
    ∃ fs c rest, m.frames s.cur = f :: fs ∧ (s.task s.cur).traps = c :: rest ∧
      Top L m.cpu.mem s.cur f fs c rest := by
  have hframe := hhandles.frame
  rw [h.cur] at hframe
  have hchain := h.chain
  obtain ⟨fs, hfs⟩ := List.head?_eq_some_iff.mp hframe
  rw [hfs] at hchain
  obtain ⟨c, rest, hcs, htop⟩ := hchain.top
  exact ⟨fs, c, rest, hfs, hcs, htop⟩

omit [DecidableEq τ] in
/-- A system call comes from user code. -/
theorem Simulates.topCall {f : Nat} (h : Simulates L m s) (hhandles : m.HandlesCall f) :
    ∃ c, m.frames s.cur = [f] ∧ (s.task s.cur).traps = [c] ∧ userMode c.cs ∧
      Top L m.cpu.mem s.cur f [] c [] := by
  obtain ⟨fs, c, rest, hfs, hcs, htop⟩ := h.top hhandles.toHandles
  have huser : userMode c.cs := by
    rw [← htop.frame.word_cs]
    exact hhandles.user
  have hrest : rest = [] := by
    rcases htop.mode with ⟨hkernel, -⟩ | ⟨-, hempty⟩
    · rw [hkernel] at huser
      exact absurd huser not_userMode_kernel
    · exact hempty
  subst hrest
  obtain rfl := htop.chain.eq_nil_of_traps
  exact ⟨c, hfs, hcs, huser, htop⟩

theorem kernelBase_resumed {cpu : Cpu} (c : Context) (hcs : cpu.cs = segKernelCode) :
    kernelBase (cpu.resumed c) = kernelBase cpu := by
  have hbase : kernelBase cpu = cpu.gs := if_pos hcs
  rw [hbase, kernelBase]
  by_cases hkernel : c.cs = segKernelCode
  · simp [Cpu.resumed, hkernel]
  · simp [Cpu.resumed, hkernel]

omit [DecidableEq τ] in
/-- A stack lies below the end of memory. -/
theorem Top.fits {f : Nat} {c : Context} {rest : List Context} (h : Top L mem t f fs c rest) :
    f + 176 < 2 ^ 64 := by
  have hfits : L.stackEnd t < 2 ^ 64 := (L.fits t).2
  have hhigh := h.high
  rw [execStateSize] at hhigh
  omega

theorem Simulates.step_isrReturn {f : Nat} (h : Simulates L m s) (hhandles : m.Handles f)
    (hrsp : m.cpu.rsp.toNat = f) :
    ∃ s', TaskStep L s .isrReturn s' ∧ Simulates L m.isrReturn s' ∧ Leaves L .isrReturn m m.isrReturn := by
  obtain ⟨fs, c, rest, hfs, hcs, htop⟩ := h.top hhandles
  obtain ⟨num, err, hwords⟩ := htop.frame
  have hfits := htop.fits
  rw [← hrsp] at hwords hfits
  have hresumed : Arch.exec Arch.isrReturn m.cpu = m.cpu.resumed c := Cpu.exec_isrReturn hwords hfits
  have hframes : m.isrReturn.frames s.cur = fs := by
    have hpopped : m.isrReturn.frames m.cur = (m.frames m.cur).tail := Function.update_self ..
    rw [← h.cur, hpopped, h.cur, hfs, List.tail_cons]
  have hcpu : m.isrReturn.cpu = m.cpu.resumed c := hresumed
  have hspares : Spares L m m.isrReturn := by
    constructor
    case cur => simp only [Machine.isrReturn]
    case stage => simp only [Machine.isrReturn]
    case frames =>
      intro u hu
      simp only [Machine.isrReturn, Function.update_of_ne hu]
    case execState => simp only [Machine.isrReturn, implies_true]
    case mem =>
      intro u hu hpresent x hx
      rw [hcpu, Cpu.resumed]
  refine ⟨_, .isrReturn hcs, h.goesOn hspares ?_ ?_ ?_ ?_ ?_ ?_⟩
  · rw [hcpu, Cpu.resumed]
  · rw [hcpu]
    exact kernelBase_resumed c hhandles.cs
  · rw [hframes]
    exact htop.mode
  · intro c' hc' huser
    have hmem : c' ∈ (s.task s.cur).traps := by rwa [hcs]
    have hrsp0 := h.rsp0 c' (List.mem_cons_of_mem _ hmem) huser
    simpa only [Machine.isrReturn] using hrsp0
  · rw [hframes, hcpu]
    exact htop.chain
  · constructor
    case low => simpa only [Machine.isrReturn] using h.exec.low
    case atEnd => simpa only [Machine.isrReturn] using h.exec.atEnd
    case stale => simpa only [Machine.isrReturn] using h.exec.stale

omit [DecidableEq τ] in
/-- The kernel goes on. -/
theorem Simulates.mode_kernel (h : Simulates L m s) (hcs : m.cpu.cs = segKernelCode) (traps : List Context) :
    Mode L s.cur (m.frames s.cur) s.live traps := by
  rw [h.cs_eq] at hcs
  rcases h.mode with hkernel | ⟨huser, -⟩
  · exact .inl hkernel
  · rw [hcs] at huser
    exact absurd huser not_userMode_kernel

omit [DecidableEq τ] in
/-- What is to be shown of `rsp0` when the last of the interrupted contexts changes. -/
theorem Simulates.rsp0_replace {c c' : Context} {rest : List Context} (h : Simulates L m s)
    (hcs : (s.task s.cur).traps = c :: rest) (hsame : c'.cs = c.cs) :
    ∀ d ∈ s.live :: c' :: rest, userMode d.cs → m.rsp0 = UInt64.ofNat (L.stackEnd s.cur) := by
  have hrsp0 := h.rsp0
  rw [hcs] at hrsp0
  intro d hd huser
  rcases List.mem_cons.mp hd with rfl | hmem
  · exact hrsp0 s.live List.mem_cons_self huser
  · rcases List.mem_cons.mp hmem with rfl | hrest
    · exact hrsp0 c (List.mem_cons_of_mem _ List.mem_cons_self) (by rwa [hsame] at huser)
    · exact hrsp0 d (List.mem_cons_of_mem _ (List.mem_cons_of_mem _ hrest)) huser

theorem Simulates.step_prepareSwitch {f : Nat} (h : Simulates L m s) (hhandles : m.Handles f) :
    ∃ s', TaskStep L s .prepareSwitch s' ∧ Simulates L (m.prepareSwitch f) s' ∧
      Leaves L .prepareSwitch m (m.prepareSwitch f) := by
  obtain ⟨fs, c, rest, hfs, hcs, htop⟩ := h.top hhandles
  have hhigh := htop.high
  have hlow := htop.low
  have hexec : (m.prepareSwitch f).execState s.cur = f := by
    rw [Machine.prepareSwitch, ← h.cur]
    exact Function.update_self ..
  have houtside : ∀ x, x < f ∨ f + execStateSize ≤ x → (m.prepareSwitch f).cpu.mem x = m.cpu.mem x := by
    intro x hx
    rw [execStateSize] at hx
    exact Memory.setWord_of_outside (by rw [eflagsOffset]; omega)
  refine ⟨_, .prepareSwitch hcs, h.goesOn ?_ h.live rfl (h.mode_kernel hhandles.cs _)
    (h.rsp0_replace hcs c.cs_enableIrq) ?_ ?_⟩
  · refine ⟨rfl, rfl, fun u hu => rfl, fun u hu => Function.update_of_ne hu .., fun u hu hpresent x hx => ?_⟩
    refine houtside x ?_
    have hapart := hx.ne (u := s.cur) (by rwa [← h.cur])
    rw [KernelLayout.Owns] at hapart
    omega
  · have hframes : (m.prepareSwitch f).frames s.cur = f :: fs := hfs
    rw [hframes]
    refine htop.replace _ c.enableIrq htop.frame.enableIrq rfl rfl (htop.chain.congr ?_)
    intro f' hf' x hx hx'
    have habove := htop.above f' hf'
    exact houtside x (.inr (by omega))
  · constructor
    case low => rwa [hexec]
    case atEnd =>
      rw [hexec]
      intro hcurrent
      exact htop.user (of_decide_eq_true hcurrent)
    case stale =>
      rw [hexec]
      intro hstale
      rcases htop.mode with ⟨hkernel, -⟩ | ⟨huser, -⟩
      · exact htop.kernel hkernel
      · exact absurd huser (of_decide_eq_false hstale)

theorem Simulates.step_sysRead {f : Nat} (h : Simulates L m s) (hhandles : m.HandlesCall f) :
    ∃ s', TaskStep L s .sysRead s' ∧ Simulates L (m.sysRead f) s' ∧ Leaves L .sysRead m (m.sysRead f) := by
  obtain ⟨c, hfs, hcs, huser, htop⟩ := h.topCall hhandles
  have hexec : (m.sysRead f).execState s.cur = f := by
    rw [Machine.sysRead, ← h.cur]
    exact Function.update_self ..
  refine ⟨_, .sysRead hcs huser, h.goesOn ?_ h.live rfl h.mode h.rsp0 h.chain ?_⟩
  · exact ⟨rfl, rfl, fun u hu => rfl, fun u hu => Function.update_of_ne hu .., fun u hu hpresent x hx => rfl⟩
  · refine ⟨?_, ?_, ?_⟩
    · rw [hexec]
      exact htop.low
    · rw [hexec]
      exact fun _ => htop.user huser
    · intro hstale
      cases hstale

theorem Simulates.step_syscallHandler {f : Nat} {ret : Int32} (h : Simulates L m s)
    (hhandles : m.HandlesCall f) :
    ∃ s', TaskStep L s (.syscallHandler ret) s' ∧ Simulates L (m.syscallHandler ret) s' ∧
      Leaves L (.syscallHandler ret) m (m.syscallHandler ret) := by
  obtain ⟨c, hfs, hcs, huser, htop⟩ := h.topCall hhandles
  have hplace := htop.user huser
  have hend := L.stackEnd_eq s.cur
  have hlow := h.exec.low
  have hstack : m.execState s.cur + 8 ≤ L.stackEnd s.cur := by
    rw [execStateSize] at hplace
    cases hcurrent : (s.task s.cur).current with
    | true =>
        have hexec := h.exec.atEnd hcurrent
        rw [execStateSize] at hexec
        omega
    | false =>
        have hexec := h.exec.stale hcurrent
        rw [execStateSize] at hexec
        omega
  have hmem : (m.syscallHandler ret).cpu.mem =
      m.cpu.mem.setWord (m.execState s.cur) ret.toInt64.toUInt64 := by
    rw [Machine.syscallHandler, h.cur]
  refine ⟨_, .syscallHandler hcs huser, h.goesOn ?_ h.live rfl (h.mode_kernel hhandles.cs _) ?_ ?_ ?_⟩
  · refine ⟨rfl, rfl, fun u hu => rfl, fun u hu => rfl, fun u hu hpresent x hx => ?_⟩
    rw [hmem]
    apply Memory.setWord_of_outside
    have hapart := hx.ne (u := s.cur) (by rwa [← h.cur])
    rw [KernelLayout.Owns] at hapart
    omega
  · refine h.rsp0_replace hcs ?_
    split <;> rfl
  · have hframes : (m.syscallHandler ret).frames s.cur = [f] := hfs
    rw [hframes, hmem]
    cases hcurrent : (s.task s.cur).current with
    | true =>
        have hexec := h.exec.atEnd hcurrent
        have hsame : m.execState s.cur = f := by omega
        rw [hsame]
        exact htop.replace _ (c.setRax _) htop.frame.setRax rfl rfl .nil
    | false =>
        have hexec := h.exec.stale hcurrent
        refine htop.replace _ c (htop.frame.congr fun x hx hx' => ?_) rfl rfl .nil
        rw [execStateSize] at *
        exact Memory.setWord_of_outside (by omega)
  · exact ⟨h.exec.low, h.exec.atEnd, h.exec.stale⟩

omit [DecidableEq τ] in
/-- The caller's stack pointer is on its stack. -/
theorem Simulates.rsp_le (h : Simulates L m s) (hcs : m.cpu.cs = segKernelCode) :
    m.cpu.rsp.toNat ≤ L.floor s.cur (m.frames s.cur) := by
  rcases h.mode_kernel hcs [] with ⟨-, hrsp⟩ | ⟨huser, -⟩
  · rwa [← h.live] at hrsp
  · rw [← h.cs_eq, hcs] at huser
    exact absurd huser not_userMode_kernel

omit [DecidableEq τ] in
/-- The task that has called `sched_switch` waits for its return. -/
theorem Simulates.holds_suspended {ret : UInt64} {reg : Reg → UInt64} (h : Simulates L m s)
    (hcs : m.cpu.cs = segKernelCode) (hroom : L.kstackTop m.cur + 72 ≤ m.cpu.rsp.toNat)
    (hsuspended : m.Suspended L mem reg ret) (hreg : ∀ r ∈ calleeSaved, reg r = m.cpu.reg r)
    (hmem : m'.cpu.mem = mem) (hstage : m'.stage s.cur = .started) (hframes : m'.frames = m.frames)
    (hexec : m'.execState = m.execState) :
    Holds L m' s.cur { s.task s.cur with next := .resume { s.live with rip := ret } } := by
  have hfloor := h.rsp_le hcs
  have hend := h.chain.floor_le
  have hsub : (m.cpu.rsp - 72).toNat = m.cpu.rsp.toNat - 72 := toNat_sub_ofNat (n := 72) (by omega)
  have hfield := L.fieldApart s.cur s.cur
  have hword := hsuspended.word
  have hkept := hsuspended.kept
  have hwords := hsuspended.words
  rw [h.cur] at hword hkept hroom
  rw [← hmem] at hword hkept hwords
  rw [← hsub] at hwords
  have hsaved : ∀ r ∈ calleeSaved, reg r = s.live.reg r := by
    rw [← h.live]
    exact hreg
  have hrsp : s.live.rsp = m.cpu.rsp - 72 + 72 := by
    rw [← h.live]
    grind
  constructor
  case waits =>
    refine .resume hstage hword (by omega) ?_ hwords hsaved hrsp
    rw [hframes]
    omega
  case chain =>
    rw [hframes]
    refine h.chain.congr fun f hf x hlow hhigh => hkept x ?_ ?_
    · have habove := h.chain.floor_le_of_mem f hf
      omega
    · have hbounds := h.chain.bounds f hf
      rw [kstackSize] at hfield
      have hstack := L.stackEnd_eq s.cur
      omega
  case exec =>
    intro _
    constructor
    case low => simpa only [hexec] using h.exec.low
    case atEnd => simpa only [hexec] using h.exec.atEnd
    case stale => simpa only [hexec] using h.exec.stale

omit [DecidableEq τ] in
/-- What others own is not touched when the registers are saved. -/
theorem Simulates.suspended_owns {ret : UInt64} {reg : Reg → UInt64} {x : Nat} (h : Simulates L m s)
    (hcs : m.cpu.cs = segKernelCode) (hroom : L.kstackTop m.cur + 72 ≤ m.cpu.rsp.toNat)
    (hsuspended : m.Suspended L mem reg ret) (hu : u ≠ s.cur) (hx : L.Owns u x) : mem x = m.cpu.mem x := by
  have hfloor := h.rsp_le hcs
  have hend := h.chain.floor_le
  have hapart := hx.ne hu
  rw [h.cur] at hroom
  rw [KernelLayout.Owns] at hapart
  refine hsuspended.kept x (by omega) ?_
  rw [h.cur]
  omega

/-- What is to be shown when the current task gives the processor to another one. -/
theorem Simulates.gives {ev : Event τ} {next : τ} {ret : UInt64} {reg : Reg → UInt64} {cpu : Cpu}
    (h : Simulates L m s) (hcs : m.cpu.cs = segKernelCode)
    (hroom : L.kstackTop m.cur + 72 ≤ m.cpu.rsp.toNat) (hnext : next ≠ s.cur)
    (hpresent : m.stage next ≠ .absent) (hsuspended : m.Suspended L mem reg ret)
    (hreg : ∀ r ∈ calleeSaved, reg r = m.cpu.reg r) (hmem : cpu.mem = mem)
    (hbase : kernelBase cpu = kernelBase m.cpu)
    (hmode : Mode L next (m.frames next) cpu.toContext (s.task next).traps) :
    Simulates L
      { m with
        cur := next
        rsp0 := UInt64.ofNat (L.stackEnd next)
        stage := Function.update m.stage next .started
        cpu := cpu }
      (s.gives next cpu.toContext ret) ∧
    Leaves L ev m
      { m with
        cur := next
        rsp0 := UInt64.ofNat (L.stackEnd next)
        stage := Function.update m.stage next .started
        cpu := cpu } := by
  have hkept : ∀ u, u ≠ s.cur → ∀ x, L.Owns u x → cpu.mem x = m.cpu.mem x := by
    intro u hu x hx
    rw [hmem]
    exact h.suspended_owns hcs hroom hsuspended hu hx
  have hholds := h.others next hnext
  refine ⟨?_, fun u hu _ _ => hkept u (by rwa [← h.cur])⟩
  constructor
  case cur => rfl
  case live => rfl
  case base => exact hbase.trans h.base
  case stage => exact Function.update_self ..
  case mode =>
    rw [Tasks.cur_gives, Tasks.task_gives_of_ne _ _ _ _ hnext]
    exact hmode
  case rsp0 => exact fun c hc huser => rfl
  case chain =>
    rw [Tasks.cur_gives, Tasks.task_gives_of_ne _ _ _ _ hnext]
    exact hholds.chain.congr_of_owns (hkept next hnext)
  case exec =>
    have hexec := hholds.exec hpresent
    rw [Tasks.cur_gives, Tasks.task_gives_of_ne _ _ _ _ hnext]
    exact ⟨hexec.low, hexec.atEnd, hexec.stale⟩
  case others =>
    rw [Tasks.cur_gives]
    intro u hu
    by_cases hcur : u = s.cur
    · subst hcur
      rw [Tasks.task_gives_self]
      refine h.holds_suspended hcs hroom hsuspended hreg hmem ?_ rfl rfl
      exact (Function.update_of_ne hu ..).trans h.stage
    · rw [Tasks.task_gives_of_ne _ _ _ _ hcur]
      exact (h.others u hcur).congr (Function.update_of_ne hu ..) rfl rfl fun _ => hkept u hcur

theorem Simulates.step_schedSwitch {next : τ} (h : Simulates L m s) (hcs : m.cpu.cs = segKernelCode)
    (hroom : L.kstackTop m.cur + 72 ≤ m.cpu.rsp.toNat) (hpresent : m.stage next ≠ .absent) :
    ∃ s', TaskStep L s (.schedSwitch next) s' ∧ Simulates L (m.schedSwitch L next) s' ∧
      Leaves L (.schedSwitch next) m (m.schedSwitch L next) := by
  by_cases hself : m.cur = next
  · rw [Machine.schedSwitch, if_pos hself, ← hself, h.cur]
    exact ⟨s, .schedSwitchSelf, h, fun _ _ _ _ _ _ => rfl⟩
  have hnext : next ≠ s.cur := fun heq => hself (by rw [h.cur, heq])
  have hfloor := h.rsp_le hcs
  have hend := h.chain.floor_le
  have hstack : m.cpu.rsp.toNat ≤ L.stackEnd m.cur := by
    rw [h.cur]
    omega
  have hholds := h.others next hnext
  have hwaits := hholds.waits
  have hreg : ∀ estate ret, ∀ r ∈ calleeSaved, (m.switchCall L estate ret).reg r = m.cpu.reg r := by
    intro estate ret r hr
    have hne : r ≠ .rsi ∧ r ≠ .rdi := by
      constructor
      · rintro rfl
        exact absurd hr (by decide)
      · rintro rfl
        exact absurd hr (by decide)
    exact (Function.update_of_ne hne.1 ..).trans (Function.update_of_ne hne.2 ..)
  rw [Machine.schedSwitch, if_neg hself]
  have htop := L.stackEnd_eq next
  generalize hresumption : (s.task next).next = resumption at hwaits
  cases hwaits with
  | absent habsent => exact absurd habsent hpresent
  | @start c hunstarted hempty hplace hframe hmode =>
      obtain ⟨mem, hsuspended, hsave⟩ := @Machine.exec_switchCall _ L m
        (UInt64.ofNat (m.execState next)) L.switchUserReturn hroom hstack
      have hfits : L.stackEnd next < 2 ^ 64 := (L.fits next).2
      rw [execStateSize] at hplace
      have hestate : (UInt64.ofNat (m.execState next)).toNat = m.execState next := by
        rw [UInt64.toNat_ofNat', Nat.mod_eq_of_lt (by omega)]
      have hkept : FrameAt mem (m.execState next) c :=
        hframe.congr fun x hx hx' => h.suspended_owns hcs hroom hsuspended hnext (.inl (by omega))
      obtain ⟨num, err, hwords⟩ := hkept
      rw [← hestate] at hwords
      have hcpu : Arch.exec nativeContextSwitchUser
          (m.switchCall L (UInt64.ofNat (m.execState next)) L.switchUserReturn) = Cpu.resumed
          { m.switchCall L (UInt64.ofNat (m.execState next)) L.switchUserReturn with
            rsp := UInt64.ofNat (m.execState next)
            mem := mem } c := by
        rw [nativeContextSwitchUser, exec_append, hsave]
        exact Cpu.exec_isrReturn hwords (by rw [hestate]; omega)
      have hempty' : (s.task next).traps = [] := by
        have hchain := hholds.chain
        rw [hempty] at hchain
        exact hchain.eq_nil
      rw [if_pos hunstarted, hcpu]
      refine ⟨_, .schedSwitchStart hnext hresumption,
        h.gives hcs hroom hnext hpresent hsuspended (hreg _ _) rfl (kernelBase_resumed c hcs) ?_⟩
      rw [hempty, hempty']
      exact hmode
  | @resume c sp reg hstarted hword hlow hhigh hwords hsaved hrsp =>
      obtain ⟨mem, hsuspended, hsave⟩ := @Machine.exec_switchCall _ L m
        (m.cpu.mem.word (L.bottomField next)) L.switchReturn hroom hstack
      have hbelow := hholds.chain.floor_le
      have hfits : L.stackEnd next < 2 ^ 64 := (L.fits next).2
      have hkept : mem.words sp.toNat 9 = m.cpu.mem.words sp.toNat 9 :=
        Memory.words_congr fun x hx hx' => h.suspended_owns hcs hroom hsuspended hnext (.inl (by omega))
      have hcpu : Arch.exec nativeContextSwitch
          (m.switchCall L (m.cpu.mem.word (L.bottomField next)) L.switchReturn) = Cpu.returned
          { m.switchCall L (m.cpu.mem.word (L.bottomField next)) L.switchReturn with
            rsp := sp
            mem := mem } reg c.rip := by
        rw [nativeContextSwitch, List.append_assoc, exec_append, hsave, hword]
        exact exec_switchReturn (hkept.trans hwords) (by change sp.toNat + 72 < 2 ^ 64; omega)
      have hne : m.stage next ≠ .unstarted := by simp [hstarted]
      have hsum : (sp + 72).toNat = sp.toNat + 72 := toNat_add_ofNat (n := 72) (by omega)
      rw [if_neg hne, hcpu]
      refine ⟨_, .schedSwitchResume hnext hresumption ?_,
        h.gives hcs hroom hnext hpresent hsuspended (hreg _ _) rfl rfl ?_⟩
      · refine ⟨fun r hr => ?_, rfl, hrsp.symm, hcs⟩
        have hmem : r ∈ switchRegs := by
          revert r
          decide
        exact (if_pos hmem).trans (hsaved r hr)
      · refine .inl ⟨hcs, ?_⟩
        change (sp + 72).toNat ≤ _
        omega

/-- What is to be shown when the current task creates or removes another one. -/
theorem Simulates.sets {ev : Event τ} {stage : Stage} {execState : Nat} (h : Simulates L m s) (ht : t ≠ s.cur)
    (hev : m.stage t = .absent ∨ ev = .destroy t)
    (hmem : ∀ x, ¬ L.Owns t x → mem x = m.cpu.mem x)
    (hholds : Holds L
      { m with
        cpu := { m.cpu with mem := mem }
        stage := Function.update m.stage t stage
        execState := Function.update m.execState t execState
        frames := Function.update m.frames t [] } t task) :
    Simulates L
      { m with
        cpu := { m.cpu with mem := mem }
        stage := Function.update m.stage t stage
        execState := Function.update m.execState t execState
        frames := Function.update m.frames t [] } (s.setTask t task) ∧
    Leaves L ev m
      { m with
        cpu := { m.cpu with mem := mem }
        stage := Function.update m.stage t stage
        execState := Function.update m.execState t execState
        frames := Function.update m.frames t [] } := by
  have hcur : s.cur ≠ t := fun heq => ht heq.symm
  have hframes : Function.update m.frames t [] s.cur = m.frames s.cur := Function.update_of_ne hcur ..
  have hexec : Function.update m.execState t execState s.cur = m.execState s.cur :=
    Function.update_of_ne hcur ..
  refine ⟨?_, fun u hu hpresent hdestroy x hx => hmem x (hx.ne ?_)⟩
  case refine_2 =>
    rintro rfl
    rcases hev with habsent | hevent
    · exact hpresent habsent
    · exact hdestroy hevent
  constructor
  case cur => exact h.cur
  case live => exact h.live
  case base => exact h.base
  case stage => exact (Function.update_of_ne hcur ..).trans h.stage
  case mode =>
    rw [Tasks.cur_setTask, Tasks.live_setTask, Tasks.task_setTask_of_ne _ _ hcur]
    simpa only [hframes] using h.mode
  case rsp0 =>
    rw [Tasks.cur_setTask, Tasks.task_setTask_of_ne _ _ hcur]
    exact h.rsp0
  case chain =>
    rw [Tasks.cur_setTask, Tasks.task_setTask_of_ne _ _ hcur]
    simpa only [hframes] using h.chain.congr_of_owns fun x hx => hmem x (hx.ne hcur)
  case exec =>
    rw [Tasks.cur_setTask, Tasks.task_setTask_of_ne _ _ hcur]
    constructor
    case low => simpa only [hexec] using h.exec.low
    case atEnd => simpa only [hexec] using h.exec.atEnd
    case stale => simpa only [hexec] using h.exec.stale
  case others =>
    rw [Tasks.cur_setTask]
    intro u hu
    by_cases heq : u = t
    · subst heq
      rw [Tasks.task_setTask_self]
      exact hholds
    · rw [Tasks.task_setTask_of_ne _ _ heq]
      exact (h.others u hu).congr (Function.update_of_ne heq ..) (Function.update_of_ne heq ..)
        (Function.update_of_ne heq ..) fun _ x hx => hmem x (hx.ne heq)

omit [DecidableEq τ] in
/-- A thread that has not been started. -/
theorem Holds.start {c : Context} (hstage : m.stage t = .unstarted) (hframes : m.frames t = [])
    (hexec : m.execState t = L.stackEnd t - execStateSize)
    (hframe : FrameAt m.cpu.mem (L.stackEnd t - execStateSize) c) (hmode : Mode L t [] c []) : Holds L m t ⟨.start c, [], true⟩ := by
  have hend := L.stackEnd_eq t
  have hsize : execStateSize = 176 := rfl
  constructor
  case waits => exact .start hstage hframes (by omega) (by rwa [hexec]) hmode
  case chain =>
    rw [hframes]
    exact .nil
  case exec => exact fun _ => ⟨by omega, fun _ => by omega, fun hstale => by cases hstale⟩

omit [DecidableEq τ] in
/-- A task that is to be created is not there. -/
theorem Simulates.absent (h : Simulates L m s) (habsent : m.stage t = .absent) :
    t ≠ s.cur ∧ (s.task t).next = .absent := by
  have ht : t ≠ s.cur := by
    rintro rfl
    rw [h.stage] at habsent
    cases habsent
  have hwaits := (h.others t ht).waits
  refine ⟨ht, ?_⟩
  generalize (s.task t).next = next at hwaits
  cases hwaits with
  | absent => rfl
  | start hunstarted => simp [habsent] at hunstarted
  | resume hstarted => simp [habsent] at hstarted

omit [DecidableEq τ] in
theorem mode_threadContext (t : τ) (f : UInt64) : Mode L t [] (threadContext (L.stackEnd t) f) [] := by
  have hend := L.stackEnd_eq t
  have hfits : L.stackEnd t < 2 ^ 64 := (L.fits t).2
  have hrsp : (UInt64.ofNat (L.stackEnd t - execStateSize + 4)).toNat = L.stackEnd t - 172 := by
    rw [UInt64.toNat_ofNat', Nat.mod_eq_of_lt (by rw [execStateSize]; omega), execStateSize]
    omega
  refine .inl ⟨rfl, ?_⟩
  rw [threadContext, hrsp, KernelLayout.floor_nil]
  omega

theorem Simulates.step_schedThreadCreate {func : UInt64} (h : Simulates L m s) (habsent : m.stage t = .absent) :
    ∃ s', TaskStep L s (.schedThreadCreate t func) s' ∧ Simulates L (m.schedThreadCreate L t func) s' ∧
      Leaves L (.schedThreadCreate t func) m (m.schedThreadCreate L t func) := by
  obtain ⟨ht, hnext⟩ := h.absent habsent
  have hend := L.stackEnd_eq t
  have hfits : L.stackEnd t < 2 ^ 64 := (L.fits t).2
  have hfield := L.fieldApart t t
  rw [kstackSize] at hfield
  have hlen : ((threadContext (L.stackEnd t) func).trapFrame 0 0).length = 22 := rfl
  refine ⟨_, .schedThreadCreate ht hnext, h.sets ht (.inl habsent) ?_ (Holds.start (Function.update_self ..)
    (Function.update_self ..) (Function.update_self ..) ?_ ?_)⟩
  · intro x hx
    rw [KernelLayout.Owns] at hx
    rw [Memory.setWord_of_outside (by omega), Memory.storeWords_of_outside]
    rw [hlen, execStateSize]
    omega
  · have hstored := @frameAt_storeWords m.cpu.mem (L.stackEnd t - execStateSize)
      (threadContext (L.stackEnd t) func) 0 0
    refine hstored.congr fun x hx hx' => ?_
    have hsize : execStateSize = 176 := rfl
    exact Memory.setWord_of_outside (by omega)
  · exact mode_threadContext t func

theorem Simulates.step_sysFork {f : Nat} (h : Simulates L m s) (hhandles : m.HandlesCall f)
    (hcurrent : m.execState m.cur = f) (habsent : m.stage t = .absent) :
    ∃ s', TaskStep L s (.sysFork t) s' ∧ Simulates L (m.sysFork L t) s' ∧
      Leaves L (.sysFork t) m (m.sysFork L t) := by
  obtain ⟨ht, hnext⟩ := h.absent habsent
  obtain ⟨c, hfs, hcs, huser, htop⟩ := h.topCall hhandles
  have hend := L.stackEnd_eq t
  have hend' := L.stackEnd_eq s.cur
  have hfield := L.fieldApart t t
  have hfield' := L.fieldApart t s.cur
  have hapart := L.apart s.cur t (Ne.symm ht)
  have hlow := htop.low
  have hhigh := htop.high
  rw [kstackSize] at hfield hfield' hapart
  refine ⟨_, .sysFork ht hnext hcs huser, h.sets ht (.inl habsent) ?_ (Holds.start (Function.update_self ..)
    (Function.update_self ..) (Function.update_self ..) ?_ ?_)⟩
  · intro x hx
    rw [KernelLayout.Owns] at hx
    have hsize : execStateSize = 176 := rfl
    rw [Memory.setWord_of_outside (by omega), kmemcpy_apply, if_neg (by omega),
      Memory.setWord_of_outside (by omega)]
  · have hcopy : FrameAt (kmemcpy (m.cpu.mem.setWord (L.bottomField t) (UInt64.ofNat (L.stackEnd t)))
        (L.stackEnd t - execStateSize) (m.cpu.mem.setWord (L.bottomField t) (UInt64.ofNat (L.stackEnd t)))
        (m.execState m.cur) execStateSize) (L.stackEnd t - execStateSize) c := by
      refine htop.frame.copy fun i hi => ?_
      rw [execStateSize] at *
      rw [kmemcpy_apply, if_pos (by omega), Nat.add_sub_cancel_left, hcurrent]
      exact Memory.setWord_of_outside (by omega)
    dsimp only
    exact hcopy.setRax
  · exact .inr ⟨huser, rfl⟩

theorem Simulates.step_schedEnterUserland {ip sp bootstrap : UInt64} (h : Simulates L m s)
    (hcs : m.cpu.cs = segKernelCode) (hfits : bootstrap.toNat + execStateSize < 2 ^ 64)
    (hwords : m.cpu.mem.words bootstrap.toNat 22 = (bootstrapContext ip sp).trapFrame 0 0) :
    ∃ s', TaskStep L s (.schedEnterUserland ip sp) s' ∧ Simulates L (m.schedEnterUserland L bootstrap) s' ∧
      Leaves L (.schedEnterUserland ip sp) m (m.schedEnterUserland L bootstrap) := by
  have hload : (m.schedEnterUserland L bootstrap).cpu = Cpu.resumed
      { m.cpu with reg := Function.update m.cpu.reg .rsi bootstrap, rsp := bootstrap }
        (bootstrapContext ip sp) := by
    dsimp only [Machine.schedEnterUserland]
    exact exec_nativeContextLoad hwords hfits
  have huser : userMode (bootstrapContext ip sp).cs := (by decide : userMode segUserCode)
  have hframes : (m.schedEnterUserland L bootstrap).frames s.cur = [] := by
    rw [← h.cur]
    exact Function.update_self ..
  have hrsp0 : (m.schedEnterUserland L bootstrap).rsp0 = UInt64.ofNat (L.stackEnd s.cur) := by
    rw [Machine.schedEnterUserland, h.cur]
  have hspares : Spares L m (m.schedEnterUserland L bootstrap) := by
    constructor
    case cur => simp only [Machine.schedEnterUserland]
    case stage => simp only [Machine.schedEnterUserland]
    case frames =>
      intro u hu
      simp only [Machine.schedEnterUserland, Function.update_of_ne hu]
    case execState => simp only [Machine.schedEnterUserland, implies_true]
    case mem =>
      intro u hu hpresent x hx
      rw [hload, Cpu.resumed]
  refine ⟨_, .schedEnterUserland, h.goesOn hspares ?_ ?_ (.inr ⟨huser, rfl⟩) (fun _ _ _ => hrsp0) ?_ ?_⟩
  · rw [hload, Cpu.resumed]
  · rw [hload]
    exact kernelBase_resumed _ hcs
  · rw [hframes]
    exact .nil
  · constructor
    case low => simpa only [Machine.schedEnterUserland] using h.exec.low
    case atEnd => simpa only [Machine.schedEnterUserland] using h.exec.atEnd
    case stale => simpa only [Machine.schedEnterUserland] using h.exec.stale

theorem Simulates.step_destroy (h : Simulates L m s) (ht : t ≠ m.cur)
    (hmem : ∀ x, ¬ L.Owns t x → mem x = m.cpu.mem x) :
    ∃ s', TaskStep L s (.destroy t) s' ∧ Simulates L (m.destroy t mem) s' ∧
      Leaves L (.destroy t) m (m.destroy t mem) := by
  have hne : t ≠ s.cur := by rwa [← h.cur]
  have hsame : Function.update m.execState t (m.execState t) = m.execState := Function.update_eq_self ..
  have hsets := @Simulates.sets _ _ L m s t mem ⟨.absent, [], true⟩ (.destroy t) .absent (m.execState t) h hne
    (.inr rfl) hmem
  rw [hsame] at hsets
  refine ⟨_, .destroy hne, hsets ?_⟩
  constructor
  case waits => exact .absent (Function.update_self ..) (Function.update_self ..)
  case chain =>
    have hframes : Function.update m.frames t [] t = [] := Function.update_self ..
    simp only [hframes]
    exact .nil
  case exec => exact fun hpresent => absurd (Function.update_self ..) hpresent

/-- What a step of the machine does, a step of the tasks does. -/
theorem Simulates.step {ev : Event τ} (h : Simulates L m s) (hstep : Step L m ev m') :
    ∃ s', TaskStep L s ev s' ∧ Simulates L m' s' ∧ Leaves L ev m m' := by
  cases hstep with
  | compute hcpu => exact h.step_compute hcpu
  | interrupt herr hroom => exact h.step_interrupt herr hroom
  | isrReturn hhandles hrsp => exact h.step_isrReturn hhandles hrsp
  | prepareSwitch hhandles hroom => exact h.step_prepareSwitch hhandles
  | sysRead hhandles => exact h.step_sysRead hhandles
  | syscallHandler hhandles => exact h.step_syscallHandler hhandles
  | schedSwitch hcs hroom hpresent => exact h.step_schedSwitch hcs hroom hpresent
  | schedThreadCreate hcs habsent => exact h.step_schedThreadCreate habsent
  | sysFork hhandles hcurrent habsent => exact h.step_sysFork hhandles hcurrent habsent
  | schedEnterUserland hcs hfits hwords => exact h.step_schedEnterUserland hcs hfits hwords
  | destroy hcs ht hmem => exact h.step_destroy ht hmem

/-! ## Runs -/

/-- The machine refines the tasks, along every run. -/
theorem Simulates.run {events : List (Event τ)} (h : Simulates L m s) (hrun : Run (Step L) m events m') :
    ∃ s', Run (TaskStep L) s events s' ∧ Simulates L m' s' := by
  refine hrun.simulation (Simulates L) (fun m ev m' s hsim hstep => ?_) h
  obtain ⟨s', htask, hsim', -⟩ := hsim.step hstep
  exact ⟨s', htask, hsim'⟩

end Sched
end Micael
