import Micael.Sched.Placement

/-!
# When `mts_get_next` returns the idle task

The decision for the idle task rests on the largest key of the heap, which {lit}`mts_get_next` reads
before anything else.  When the heap has nothing to offer, a runnable active task keeps the processor
if it has time left, or if {lit}`__schedule_task` restarts its time in place.  Otherwise the idle exit
is taken with that task in hand: it is put into the heap after the key was read, or it is dropped.

A task is only restarted in place when {lit}`mts_tick` has marked it, and when {lit}`__adjust_priority`
does not penalise it.

Main results:

- Theorem {lit}`newPriority_switch_iff`: when {lit}`__adjust_priority` penalises a marked task.
- Theorem {lit}`idleRight_iff`: for one call, exactly when the idle task is returned only with nothing
  left to run.
- Theorem {lit}`mts_idle_right_iff`: the same for the calls of a run.
-/

namespace Micael
namespace Sched

open Foundation Lib

/-! ## Penalties -/

/-- `__adjust_priority` penalises the task: it is no longer young, it is not interactive, and it uses
most of its time and more than its share. -/
structure Penalised (q : RunQueue) (t : SchedTask) (fl : Floats) : Prop where
  old : ¬ q.tick - t.birth < 20
  busy : ¬ (fl.rtu ≤ 40 ∧ t.totalRunning + t.execRt > stsBase)
  utilised : 90 ≤ fl.rtu
  overused : fl.usage = .overuse

theorem SchedTask.charged_of_needResched {t : SchedTask} (hflag : t.state.needResched = true) :
    t.charged = { t with totalRunning := t.totalRunning + t.execRt } := by
  unfold SchedTask.charged
  rw [if_pos (by simp [SchedState.restarts, hflag])]

/-- The status of `__adjust_priority` for a task that was marked when its time was used up. -/
theorem newPriority_switch_iff (q : RunQueue) {t : SchedTask} (fl : Floats)
    (hflag : t.state.needResched = true) :
    (newPriority q t.charged fl).2.2 = .switch ↔ Penalised q t fl := by
  rw [SchedTask.charged_of_needResched hflag]
  unfold newPriority
  by_cases hyoung : q.tick - t.birth < 20
  · rw [if_pos hyoung]
    exact iff_of_false (by simp) fun h => h.old hyoung
  rw [if_neg hyoung]
  by_cases hbusy : fl.rtu ≤ 40 ∧ t.totalRunning + t.execRt > stsBase
  · simp only [one_mul, if_pos hbusy]
    exact iff_of_false (by simp) fun h => h.busy hbusy
  by_cases hrtu : fl.rtu ≥ 90
  · simp only [one_mul, if_neg hbusy, if_pos hrtu]
    by_cases huse : fl.usage = .overuse
    · rw [if_pos huse]
      exact iff_of_true rfl ⟨hyoung, hbusy, hrtu, huse⟩
    · rw [if_neg huse]
      exact iff_of_false (by simp) fun h => huse h.overused
  · simp only [one_mul, if_neg hbusy, if_neg hrtu]
    exact iff_of_false (by simp) fun h => hrtu h.utilised

/-! ## The idle exit -/

/-- A task that is blocked or unscheduled. -/
def SchedState.gone (state : SchedState) : Bool :=
  state.value = .blocked ∨ state.value = .unscheduled

/-- When `mts_get_next` returns the idle task, and no task is active any more, the heap is empty and the
task that was active is blocked or unscheduled. -/
def IdleRight (s : Mts) (me : Nat) (fl : Floats) : Prop :=
  ∀ s', mtsGetNext s me fl = some ((s.rq me).idle, s') → (s'.rq me).active = none →
    (s'.rq me).pqueue.size = 0 ∧ ∀ a, (s.rq me).active = some a → (s'.st a).state.gone = true

/-- With no key above `INT_MIN` in the heap, the active task stays the active one: it is neither blocked
nor unscheduled, and it has time left or is restarted in place. -/
structure KeepsCpu (q : RunQueue) (t : SchedTask) (fl : Floats) : Prop where
  scheduled : t.state ≠ .plain .unscheduled
  awake : t.state ≠ .plain .blocked
  above : intMin ≤ t.sprio
  time :
    t.execRt < t.timeslice ∨
      t.state.needResched = true ∧ intMin < t.sprio ∧ ¬ Penalised q t fl

/-- With no key above `INT_MIN` in the heap, the active task is put into the heap, too late to be
found there. -/
structure Expelled (q : RunQueue) (t : SchedTask) (fl : Floats) : Prop where
  usedUp : t.timeslice ≤ t.execRt
  marked : t.state.needResched = true
  above : intMin < t.sprio
  penalised : Penalised q t fl

/-- The state and the floating-point decisions do not lead to the idle task while there is something to
run. -/
structure IdleFits (s : Mts) (me : Nat) (fl : Floats) : Prop where
  empty :
    (s.rq me).pqueue.size = 0 ∨ ∃ a, (s.rq me).active = some a ∧ KeepsCpu (s.rq me) (s.st a) fl
  active :
    ∀ a, (s.rq me).active = some a →
      KeepsCpu (s.rq me) (s.st a) fl ∨
        (s.st a).state.gone = true ∧ ¬ Expelled (s.rq me) (s.st a) fl

/-- The result is that of the idle exit, taken in state `s₁`. -/
def IdleExit (s₁ : Mts) (me : Nat) (r : Option (Nat × Mts)) : Prop :=
  ∃ s', r = some ((s₁.rq me).idle, s') ∧ (s'.rq me).active = none ∧
    (s'.rq me).pqueue = (s₁.rq me).pqueue ∧ s'.st = s₁.st

theorem Mts.spinRelease_rq (s : Mts) (l : LockId) : (s.spinRelease l).rq = s.rq :=
  (SameButLocks.release s l).rq

theorem Mts.spinRelease_st (s : Mts) (l : LockId) : (s.spinRelease l).st = s.st :=
  (SameButLocks.release s l).st

theorem setupActive_idleExit (s₁ : Mts) (me : Nat) (fl : Floats) :
    IdleExit s₁ me (setupActive s₁ me intMin fl) := by
  unfold setupActive
  rw [if_pos rfl]
  refine ⟨_, rfl, ?_, ?_, ?_⟩
  · simp [Mts.spinRelease_rq]
  · simp [Mts.spinRelease_rq]
  · rw [Mts.spinRelease_st, Mts.setRq_st]

/-- When the heap had something to offer, some task is active afterwards. -/
theorem setupActive_active {s s' : Mts} {me t : Nat} {prio : Int} {fl : Floats}
    (hprio : prio ≠ intMin) (hret : setupActive s me prio fl = some (t, s')) :
    (s'.rq me).active ≠ none := by
  unfold setupActive at hret
  rw [if_neg hprio] at hret
  generalize bhRemoveMax (s.rq me).pqueue = r at hret
  obtain ⟨r, pqueue⟩ := r
  cases r with
  | error e => exact absurd hret (by simp)
  | ok p =>
      obtain ⟨-, rfl⟩ := Prod.mk.inj (Option.some.inj hret)
      simp [Mts.spinRelease_rq]

/-- What a call that takes the idle exit has to meet. -/
theorem IdleExit.right_iff {s s₁ : Mts} {me : Nat} {fl : Floats}
    (h : IdleExit s₁ me (mtsGetNext s me fl)) (hidle : (s₁.rq me).idle = (s.rq me).idle) :
    IdleRight s me fl ↔
      (s₁.rq me).pqueue.size = 0 ∧ ∀ a, (s.rq me).active = some a → (s₁.st a).state.gone = true := by
  obtain ⟨s', hret, hactive, hqueue, hst⟩ := h
  rw [hidle] at hret
  constructor
  · intro hright
    have hdone := hright s' hret hactive
    rwa [hqueue, hst] at hdone
  · intro hdone s'' hret' _
    obtain ⟨-, rfl⟩ := Prod.mk.inj (Option.some.inj (hret.symm.trans hret'))
    rwa [hqueue, hst]

/-- A call after which a task is active. -/
theorem IdleRight.of_active {s : Mts} {me : Nat} {fl : Floats}
    (h : ∀ t s', mtsGetNext s me fl = some (t, s') → (s'.rq me).active ≠ none) :
    IdleRight s me fl := fun s' hret hnone => absurd hnone (h _ s' hret)

section Call

variable {s : Mts} {me a : Nat} {fl : Floats}

/-- `__schedule_task` for the active task, when it is marked. -/
theorem restart_result (hflag : (s.st a).state.needResched = true) (l : LockId) :
    scheduleTask (s.spinAcquire l) me a false fl =
      ((scheduleTask (s.spinAcquire l) me a false fl).1,
        if inserts (s.rq me) (s.st a) false fl then .switch else .ok) := by
  have hstate : ((s.spinAcquire l).st a).state ≠ .plain .ready := by
    rw [Mts.spinAcquire_st]
    exact SchedState.ne_plain_of_needResched hflag _
  have hstatus := scheduleTask_status hstate me false fl
  rw [Mts.spinAcquire_st, Mts.spinAcquire_rq] at hstatus
  exact Prod.ext rfl hstatus

/-- When the heap has something to offer, a task is active after the call. -/
theorem mtsGetNext_active {t : Nat} {s' : Mts} (hpeek : bhPeekMax (s.rq me).pqueue ≠ intMin)
    (hret : mtsGetNext s me fl = some (t, s')) : (s'.rq me).active ≠ none := by
  unfold mtsGetNext at hret
  simp only [Mts.spinAcquire_rq, Mts.spinAcquire_st] at hret
  cases hactive : (s.rq me).active with
  | none =>
      simp only [hactive] at hret
      exact setupActive_active hpeek hret
  | some a =>
      simp only [hactive] at hret
      split_ifs at hret with hsched hprio hblocked htime hneed
      · exact setupActive_active hpeek hret
      · exact setupActive_active hpeek hret
      · exact setupActive_active hpeek hret
      · obtain ⟨-, rfl⟩ := Prod.mk.inj (Option.some.inj hret)
        simp [Mts.spinAcquire_rq, hactive]
      · rw [restart_result hneed.1] at hret
        cases hins : inserts (s.rq me) (s.st a) false fl with
        | true =>
            rw [hins] at hret
            exact setupActive_active hpeek hret
        | false =>
            rw [hins] at hret
            obtain ⟨-, rfl⟩ := Prod.mk.inj (Option.some.inj hret)
            simp [Mts.spinRelease_rq, scheduleTask_active, Mts.spinAcquire_rq, hactive]
      · exact setupActive_active hpeek hret

/-- With nothing in the heap to offer, an active task that keeps the processor is active after the
call. -/
theorem KeepsCpu.stays {t : Nat} {s' : Mts} (h : KeepsCpu (s.rq me) (s.st a) fl)
    (hactive : (s.rq me).active = some a) (hpeek : bhPeekMax (s.rq me).pqueue = intMin)
    (hret : mtsGetNext s me fl = some (t, s')) : (s'.rq me).active ≠ none := by
  unfold mtsGetNext at hret
  simp only [Mts.spinAcquire_rq, Mts.spinAcquire_st, hactive, hpeek] at hret
  rw [if_neg h.scheduled, if_neg (not_lt.mpr h.above), if_neg h.awake] at hret
  by_cases htime : (s.st a).execRt < (s.st a).timeslice
  · rw [if_pos htime] at hret
    obtain ⟨-, rfl⟩ := Prod.mk.inj (Option.some.inj hret)
    simp [Mts.spinAcquire_rq, hactive]
  · obtain ⟨hflag, habove, hlenient⟩ := h.time.resolve_left htime
    rw [if_neg htime, if_pos ⟨hflag, habove⟩, restart_result hflag] at hret
    have hins : inserts (s.rq me) (s.st a) false fl = false := by
      unfold inserts
      simp [newPriority_switch_iff _ fl hflag, hlenient]
    rw [hins] at hret
    obtain ⟨-, rfl⟩ := Prod.mk.inj (Option.some.inj hret)
    simp [Mts.spinRelease_rq, scheduleTask_active, Mts.spinAcquire_rq, hactive]

/-- With nothing in the heap to offer, an active task that is penalised is put into the heap before the
idle exit is taken. -/
theorem Expelled.exits (h : Expelled (s.rq me) (s.st a) fl)
    (hactive : (s.rq me).active = some a) (hpeek : bhPeekMax (s.rq me).pqueue = intMin) :
    IdleExit (scheduleTask (s.spinAcquire (.rq me)) me a false fl).1 me (mtsGetNext s me fl) := by
  have hplain := SchedState.ne_plain_of_needResched h.marked
  unfold mtsGetNext
  simp only [Mts.spinAcquire_rq, Mts.spinAcquire_st, hactive, hpeek]
  rw [if_neg (hplain _), if_neg (not_lt.mpr h.above.le), if_neg (hplain _),
    if_neg (not_lt.mpr h.usedUp), if_pos ⟨h.marked, h.above⟩, restart_result h.marked]
  have hins : inserts (s.rq me) (s.st a) false fl = true := by
    unfold inserts
    simp [newPriority_switch_iff _ fl h.marked, h.penalised]
  rw [hins]
  exact setupActive_idleExit _ me fl

/-- With nothing in the heap to offer, any other active task is left behind by the idle exit. -/
theorem left_exits (hactive : (s.rq me).active = some a)
    (hpeek : bhPeekMax (s.rq me).pqueue = intMin)
    (hkeeps : ¬ KeepsCpu (s.rq me) (s.st a) fl) (hexpelled : ¬ Expelled (s.rq me) (s.st a) fl) :
    ∃ s₁, IdleExit s₁ me (mtsGetNext s me fl) ∧ (s₁.rq me).idle = (s.rq me).idle ∧
      (s₁.rq me).pqueue = (s.rq me).pqueue ∧ (s₁.st a).state.gone = (s.st a).state.gone := by
  unfold mtsGetNext
  simp only [Mts.spinAcquire_rq, Mts.spinAcquire_st, hactive, hpeek]
  split_ifs with hsched hprio hblocked htime hneed
  · refine ⟨_, setupActive_idleExit _ me fl, ?_, ?_, ?_⟩ <;>
      simp [Mts.dropActive, (freeEntry_fields _ a).2.1, (freeEntry_fields _ a).2.2.1,
        Mts.spinAcquire_rq, Mts.spinAcquire_st]
  · refine ⟨_, setupActive_idleExit _ me fl, ?_, ?_, ?_⟩ <;>
      simp [Mts.preempt, SchedState.gone, Mts.spinAcquire_rq, Mts.spinAcquire_st]
  · refine ⟨_, setupActive_idleExit _ me fl, ?_, ?_, ?_⟩ <;>
      simp [Mts.dropActive, Mts.spinAcquire_rq, Mts.spinAcquire_st]
  · exact absurd ⟨hsched, hblocked, not_lt.mp hprio, .inl htime⟩ hkeeps
  · refine absurd ⟨hsched, hblocked, not_lt.mp hprio, .inr ⟨hneed.1, hneed.2, fun hpen => ?_⟩⟩ hkeeps
    exact hexpelled ⟨not_lt.mp htime, hneed.1, hneed.2, hpen⟩
  · refine ⟨_, setupActive_idleExit _ me fl, ?_, ?_, ?_⟩ <;>
      simp [Mts.spinAcquire_rq, Mts.spinAcquire_st]

/-- The call is right when the task keeps the processor, wrong when it is penalised, and otherwise right
when nothing is left to run. -/
theorem idleRight_some (hactive : (s.rq me).active = some a)
    (hpeek : bhPeekMax (s.rq me).pqueue = intMin) : IdleRight s me fl ↔ IdleFits s me fl := by
  have honly : ∀ b, (s.rq me).active = some b → b = a := fun b hb =>
    Option.some.inj (hb.symm.trans hactive)
  by_cases hkeeps : KeepsCpu (s.rq me) (s.st a) fl
  · refine iff_of_true (.of_active fun t s' => hkeeps.stays hactive hpeek) ⟨?_, fun b hb => ?_⟩
    · exact .inr ⟨a, hactive, hkeeps⟩
    · rw [honly b hb]
      exact .inl hkeeps
  by_cases hexpelled : Expelled (s.rq me) (s.st a) fl
  · have hplain := SchedState.ne_plain_of_needResched hexpelled.marked
    refine iff_of_false (fun hright => ?_) fun hfits => ?_
    · have hidle := scheduleTask_idle (s.spinAcquire (.rq me)) me a false fl
      rw [Mts.spinAcquire_rq] at hidle
      have hgone := (((hexpelled.exits hactive hpeek).right_iff hidle).mp hright).2 a hactive
      rw [scheduleTask_st (by rw [Mts.spinAcquire_st]; exact hplain _), Function.update_self] at hgone
      exact absurd hgone (by simp [rescheduled, SchedTask.restart, SchedState.plain, SchedState.gone])
    · rcases hfits.active a hactive with hkept | ⟨-, hnot⟩
      · exact hkeeps hkept
      · exact hnot hexpelled
  · obtain ⟨s₁, hexit, hidle, hqueue, hgone⟩ := left_exits hactive hpeek hkeeps hexpelled
    rw [hexit.right_iff hidle, hqueue]
    constructor
    · rintro ⟨hempty, hall⟩
      refine ⟨.inl hempty, fun b hb => .inr ⟨?_, ?_⟩⟩
      · rw [honly b hb, ← hgone]
        exact hall a hactive
      · rw [honly b hb]
        exact hexpelled
    · intro hfits
      refine ⟨hfits.empty.resolve_right ?_, fun b hb => ?_⟩
      · rintro ⟨b, hb, hkept⟩
        rw [honly b hb] at hkept
        exact hkeeps hkept
      · rw [honly b hb, hgone]
        exact ((hfits.active a hactive).resolve_left hkeeps).1

/-- A call of `mts_get_next` is right, in the sense that it returns the idle task only with nothing left
to run, just when the heap has something to offer or the state fits. -/
theorem idleRight_iff (s : Mts) (me : Nat) (fl : Floats) :
    IdleRight s me fl ↔ (bhPeekMax (s.rq me).pqueue = intMin → IdleFits s me fl) := by
  by_cases hpeek : bhPeekMax (s.rq me).pqueue = intMin
  swap
  · exact iff_of_true (.of_active fun t s' => mtsGetNext_active hpeek) fun heq => absurd heq hpeek
  rw [forall_prop_of_true hpeek]
  cases hactive : (s.rq me).active with
  | some a => exact idleRight_some hactive hpeek
  | none =>
      have hexit : IdleExit (s.spinAcquire (.rq me)) me (mtsGetNext s me fl) := by
        unfold mtsGetNext
        simp only [Mts.spinAcquire_rq, hactive, hpeek]
        exact setupActive_idleExit _ me fl
      rw [hexit.right_iff (by rw [Mts.spinAcquire_rq]), Mts.spinAcquire_rq]
      constructor
      · rintro ⟨hempty, -⟩
        exact ⟨.inl hempty, fun a ha => absurd (hactive.symm.trans ha) (by simp)⟩
      · intro hfits
        refine ⟨hfits.empty.resolve_right ?_, fun a ha => absurd (hactive.symm.trans ha) (by simp)⟩
        rintro ⟨a, ha, -⟩
        exact absurd (hactive.symm.trans ha) (by simp)

end Call

/-! ## Runs -/

/-- The call is not a `mts_get_next` that returns the idle task with something left to run. -/
def MtsCall.IdleRight (s : Mts) : MtsCall → Prop
  | .getNext me fl => Sched.IdleRight s me fl
  | _ => True

/-- A `mts_get_next` is made when the heap has a key above `INT_MIN`, or in a state that fits. -/
def MtsCall.IdleFits (s : Mts) : MtsCall → Prop
  | .getNext me fl => bhPeekMax (s.rq me).pqueue = intMin → Sched.IdleFits s me fl
  | _ => True

/-- In a run, every `mts_get_next` returns the idle task only when the heap is then empty and the task
that was active is blocked or unscheduled, just when each is made in a state that fits. -/
theorem mts_idle_right_iff (s₀ : Mts) (calls : List (MtsCall × MtsRet)) :
    (∀ pre call s s', pre ++ [call] <+: calls → Run MtsStep s₀ pre s → MtsStep s call s' →
        call.1.IdleRight s) ↔
      ∀ pre call s s', pre ++ [call] <+: calls → Run MtsStep s₀ pre s → MtsStep s call s' →
        call.1.IdleFits s := by
  -- Nothing about the earlier calls is needed.
  have hkeep : ∀ s (call : MtsCall × MtsRet) s', True → MtsStep s call s' → call.1.IdleFits s → True :=
    fun _ _ _ h _ _ => h
  refine Run.steps_iff hkeep (fun s call s' _ _ => ?_) trivial calls
  cases hcall : call.1 with
  | getNext me fl => exact idleRight_iff s me fl
  | schedule me task nice mem garbage => exact Iff.rfl
  | tick me => exact Iff.rfl
  | block task => exact Iff.rfl
  | unblock turns me task fl => exact Iff.rfl
  | unschedule task => exact Iff.rfl

/-- A number of ticks on the first processor. -/
def Mts.ticks (s : Mts) : Nat → Mts
  | 0 => s
  | n + 1 => (s.ticks n).after (.tick 0)

theorem ticks_reached {s s' : Mts} (n : Nat) (h : ∃ calls, Run MtsStep s calls s') :
    ∃ calls, Run MtsStep s calls (s'.ticks n) := by
  induction n with
  | zero => exact h
  | succ n ih =>
      obtain ⟨calls, hrun⟩ := ih
      have hstep : MtsStep (s'.ticks n) (.tick 0, .status (mtsTick (s'.ticks n) 0).1)
          (s'.ticks (n + 1)) := rfl
      exact ⟨_, hrun.snoc hstep⟩

/-- The only task has used up its second time slice. -/
def oneUsedUp : Mts := ((oneActive.ticks 10).after (.getNext 0 calm)).ticks 10

/-- A task that uses most of its time and more than its share. -/
def greedy : Floats := ⟨95, .overuse, 0⟩

/-- The task is penalised.  It is in the heap and ready when the idle task is returned. -/
theorem penalised_task_left_ready :
    (∃ calls, Run MtsStep oneCpu calls oneUsedUp) ∧
      ¬ (MtsCall.getNext 0 greedy).IdleRight oneUsedUp := by
  have hactive := (Run.nil.snoc oneReady_step).snoc oneActive_step
  obtain ⟨calls, hrun⟩ := ticks_reached 10 ⟨_, hactive⟩
  have hstep : MtsStep (oneActive.ticks 10) (.getNext 0 calm, .task 1)
      ((oneActive.ticks 10).after (.getNext 0 calm)) := rfl
  refine ⟨ticks_reached 10 ⟨_, hrun.snoc hstep⟩, fun hright => ?_⟩
  have hret : mtsGetNext oneUsedUp 0 greedy =
      some (0, oneUsedUp.after (.getNext 0 greedy)) := rfl
  have hdone := hright (oneUsedUp.after (.getNext 0 greedy)) hret rfl
  exact absurd hdone.1 (by decide)

end Sched
end Micael
