import Micael.Sched.Mts

/-!
# What `__schedule_task` changes

`__schedule_task` reads and writes one entry and at most two run queues: that of the executing
processor, whose combined priority it raises, and that of the processor the task belongs to.  This
module says once what it leaves in every field.

Main results:

- Theorem {lit}`scheduleTask_st`, {lit}`scheduleTask_rq`, {lit}`scheduleTask_status`: the entries, the
  run queues and the status after `__schedule_task`.
- Theorem {lit}`Sound.rescheduled`: an entry stays within its bounds.
-/

namespace Micael
namespace Sched

open Foundation Lib

/-! ## Fields after a store -/

section Stores

variable (s : Mts) (c p : Nat) (q : RunQueue) (t : SchedTask) (l : LockId)

@[simp] theorem Mts.setRq_rq : (s.setRq c q).rq = Function.update s.rq c q := rfl
@[simp] theorem Mts.setRq_st : (s.setRq c q).st = s.st := rfl
@[simp] theorem Mts.setRq_live : (s.setRq c q).live = s.live := rfl
@[simp] theorem Mts.setRq_links : (s.setRq c q).links = s.links := rfl
@[simp] theorem Mts.setRq_cpu : (s.setRq c q).cpu = s.cpu := rfl
@[simp] theorem Mts.setRq_ncpu : (s.setRq c q).ncpu = s.ncpu := rfl
@[simp] theorem Mts.setSt_rq : (s.setSt p t).rq = s.rq := rfl
@[simp] theorem Mts.setSt_st : (s.setSt p t).st = Function.update s.st p t := rfl
@[simp] theorem Mts.setSt_live : (s.setSt p t).live = s.live := rfl
@[simp] theorem Mts.setSt_links : (s.setSt p t).links = s.links := rfl
@[simp] theorem Mts.setSt_cpu : (s.setSt p t).cpu = s.cpu := rfl
@[simp] theorem Mts.setSt_ncpu : (s.setSt p t).ncpu = s.ncpu := rfl

theorem Mts.setRq_self : s.setRq c (s.rq c) = s := by
  rw [Mts.setRq, Function.update_eq_self]

end Stores

/-- The two states differ in their locks only. -/
structure SameButLocks (s s' : Mts) : Prop where
  ncpu : s'.ncpu = s.ncpu
  rq : s'.rq = s.rq
  st : s'.st = s.st
  live : s'.live = s.live
  links : s'.links = s.links
  cpu : s'.cpu = s.cpu

theorem SameButLocks.acquire (s : Mts) (l : LockId) : SameButLocks s (s.spinAcquire l) := by
  unfold Mts.spinAcquire
  split_ifs <;> exact ⟨rfl, rfl, rfl, rfl, rfl, rfl⟩

theorem SameButLocks.release (s : Mts) (l : LockId) : SameButLocks s (s.spinRelease l) := by
  unfold Mts.spinRelease
  split_ifs <;> exact ⟨rfl, rfl, rfl, rfl, rfl, rfl⟩

/-! ## The entry -/

/-- The entry with the time it ran added to its total, as `__adjust_priority` finds it. -/
def SchedTask.charged (t : SchedTask) : SchedTask :=
  if t.state.restarts then { t with totalRunning := t.totalRunning + t.execRt } else t

/-- The entry that `__schedule_task` leaves. -/
def rescheduled (q : RunQueue) (t : SchedTask) (fl : Floats) : SchedTask :=
  (newPriority q t.charged fl).1.restart

/-- The new priority depends on the ticks and the lowest priority of the run queue only. -/
theorem newPriority_congr {q q' : RunQueue} (htick : q'.tick = q.tick)
    (hlowest : q'.lowest = q.lowest) (t : SchedTask) (fl : Floats) :
    newPriority q' t fl = newPriority q t fl := by
  simp only [newPriority, htick, hlowest]

/-- Whether `__schedule_task` puts the entry into the heap. -/
def inserts (q : RunQueue) (t : SchedTask) (switchTask : Bool) (fl : Floats) : Bool :=
  switchTask || (newPriority q t.charged fl).2.2 = .switch

/-- The run queue `q` after `__schedule_task` has made `t'` of `t`: `here` says that it is that of the
executing processor, `home` that the task belongs to it and `inserted` that the entry is put into the
heap. -/
def rescheduledQueue (q : RunQueue) (t t' : SchedTask) (lowest : Int) (p : Nat)
    (here home inserted : Bool) : RunQueue :=
  { q with
    nblocked := if home ∧ t.state = .plain .blocked then q.nblocked - 1 else q.nblocked
    lowest := if here then lowest else q.lowest
    rprio :=
      q.rprio + (if here then t'.prio else 0) - (if home ∧ inserted = false then t'.prio else 0)
    nready := if home ∧ inserted then q.nready + 1 else q.nready
    pqueue := if home ∧ inserted then (bhInsert q.pqueue t'.sprio (some p)).2 else q.pqueue }

section Effect

variable {s : Mts} {p : Nat}

theorem updateHeuristics_st (s : Mts) (p : Nat) :
    (updateHeuristics s p).st = Function.update s.st p (s.st p).charged := by
  unfold updateHeuristics SchedTask.charged
  simp only
  split_ifs <;> simp

theorem updateHeuristics_rq (s : Mts) (p c : Nat) :
    (updateHeuristics s p).rq c =
      { s.rq c with
        nblocked :=
          if c = s.cpu (s.st p).task ∧ (s.st p).state = .plain .blocked then (s.rq c).nblocked - 1
          else (s.rq c).nblocked } := by
  unfold updateHeuristics
  simp only
  by_cases hc : c = s.cpu (s.st p).task
  · subst hc
    split_ifs <;> simp_all
  · split_ifs <;> simp_all

theorem newPriority_updateHeuristics (s : Mts) (me p : Nat) (fl : Floats) :
    newPriority ((updateHeuristics s p).rq me) ((updateHeuristics s p).st p) fl =
      newPriority (s.rq me) (s.st p).charged fl := by
  rw [updateHeuristics_st, Function.update_self, updateHeuristics_rq]
  exact newPriority_congr rfl rfl _ fl

theorem scheduleTask_st (hstate : (s.st p).state ≠ .plain .ready) (me : Nat) (switchTask : Bool)
    (fl : Floats) :
    (scheduleTask s me p switchTask fl).1.st =
      Function.update s.st p (rescheduled (s.rq me) (s.st p) fl) := by
  unfold scheduleTask adjustPriority rescheduled
  simp only [newPriority_updateHeuristics, if_neg hstate]
  split_ifs <;> simp [updateHeuristics_st]

theorem scheduleTask_status (hstate : (s.st p).state ≠ .plain .ready) (me : Nat) (switchTask : Bool)
    (fl : Floats) :
    (scheduleTask s me p switchTask fl).2 =
      if inserts (s.rq me) (s.st p) switchTask fl then .switch else .ok := by
  unfold scheduleTask adjustPriority inserts
  simp only [newPriority_updateHeuristics, if_neg hstate]
  split_ifs <;> rfl

theorem SchedTask.restart_sprio (t : SchedTask) : t.restart.sprio = t.sprio := rfl

theorem SchedTask.restart_prio (t : SchedTask) : t.restart.prio = t.prio := rfl

theorem scheduleTask_rq (hstate : (s.st p).state ≠ .plain .ready) (me : Nat) (switchTask : Bool)
    (fl : Floats) (c : Nat) :
    (scheduleTask s me p switchTask fl).1.rq c =
      rescheduledQueue (s.rq c) (s.st p) (rescheduled (s.rq me) (s.st p) fl)
        (newPriority (s.rq me) (s.st p).charged fl).2.1 p (c = me) (c = s.cpu (s.st p).task)
        (inserts (s.rq me) (s.st p) switchTask fl) := by
  unfold scheduleTask adjustPriority inserts rescheduled rescheduledQueue
  simp only [newPriority_updateHeuristics, if_neg hstate]
  generalize hins :
    (switchTask || decide ((newPriority (s.rq me) (s.st p).charged fl).2.2 = .switch)) = ins
  cases ins <;> by_cases hhome : c = s.cpu (s.st p).task <;> by_cases hhere : c = me <;>
    simp_all [Function.update_apply, updateHeuristics_rq, SchedTask.restart_prio,
      SchedTask.restart_sprio]

/-- No processor switches. -/
theorem scheduleTask_active (s : Mts) (me p : Nat) (switchTask : Bool) (fl : Floats) (c : Nat) :
    ((scheduleTask s me p switchTask fl).1.rq c).active = (s.rq c).active := by
  by_cases hstate : (s.st p).state = .plain .ready
  · rw [scheduleTask, if_pos hstate]
  · rw [scheduleTask_rq hstate]
    rfl

theorem scheduleTask_idle (s : Mts) (me p : Nat) (switchTask : Bool) (fl : Floats) :
    ((scheduleTask s me p switchTask fl).1.rq me).idle = (s.rq me).idle := by
  by_cases hstate : (s.st p).state = .plain .ready
  · rw [scheduleTask, if_pos hstate]
  · rw [scheduleTask_rq hstate]
    rfl

/-- Everything else is left alone. -/
theorem scheduleTask_frame (s : Mts) (me p : Nat) (switchTask : Bool) (fl : Floats) :
    (scheduleTask s me p switchTask fl).1.live = s.live ∧
      (scheduleTask s me p switchTask fl).1.links = s.links ∧
      (scheduleTask s me p switchTask fl).1.cpu = s.cpu ∧
      (scheduleTask s me p switchTask fl).1.ncpu = s.ncpu := by
  unfold scheduleTask updateHeuristics
  simp only
  split_ifs <;> exact ⟨rfl, rfl, rfl, rfl⟩

end Effect

/-! ## Bounds -/

/-- An entry whose nice value `mts_schedule` accepts, with time to run and a priority that is neither
of the two ends of an `int`. -/
structure SchedTask.Sound (t : SchedTask) : Prop where
  nice : t.nice.natAbs ≤ 4
  timeslice : 0 < t.timeslice
  above : intMin < t.sprio
  below : t.sprio < intMax

theorem SchedTask.Sound.charged {t : SchedTask} (ht : t.Sound) : t.charged.Sound := by
  unfold SchedTask.charged
  split_ifs
  · exact ⟨ht.nice, ht.timeslice, ht.above, ht.below⟩
  · exact ht

theorem batchPriority_sound {t : SchedTask} (ht : t.Sound) {lowest : Int} (hlow : intMin + 1 < lowest)
    (hhigh : lowest ≤ intMax) (fl : Floats) : (batchPriority t lowest fl).Sound := by
  have hnice := ht.nice
  unfold batchPriority
  cases fl.usage with
  | overuse =>
      refine ⟨hnice, by simp [stsBatch], ?_, ?_⟩
      · simp only
        omega
      · simp only
        omega
  | underuse =>
      refine ⟨hnice, ?_, ?_, ?_⟩
      · simp [stsBatch]
      · simp only [intMin, spBatch]
        omega
      · simp only [intMax, spBatch]
        omega
  | fair => exact ⟨hnice, ht.timeslice, ht.above, ht.below⟩

/-- The entry that `__adjust_priority` leaves: that of a young task, of an interactive one, of a batch
task or of any other. -/
theorem newPriority_cases (q : RunQueue) (t : SchedTask) (fl : Floats) :
    ∃ sleep : Int, 0 ≤ sleep ∧ sleep ≤ 3 ∧
      ((newPriority q t fl).1 = { t with prio := spBase + t.nice, sprio := spBase + t.nice } ∨
        (newPriority q t fl).1 = { t with
          type := .normal
          timeslice := stsNormal
          prio := spInteractive + (t.nice + sleep)
          sprio := spInteractive + (t.nice + sleep) } ∨
        (newPriority q t fl).1 = batchPriority t q.lowest fl ∨
        (newPriority q t fl).1 = { t with
          timeslice := stsBase
          prio := spBase + (t.nice + sleep)
          sprio := spBase + (t.nice + sleep) }) := by
  unfold newPriority
  generalize hsleep :
    (if t.state = .plain .blocked ∧ t.type = .batch then spbSleep else 0) = sleep
  have hbonus : 0 ≤ sleep ∧ sleep ≤ 3 := by
    rw [← hsleep]
    split_ifs <;> simp [spbSleep]
  refine ⟨sleep, hbonus.1, hbonus.2, ?_⟩
  by_cases hyoung : q.tick - t.birth < 20
  · rw [if_pos hyoung]
    exact .inl rfl
  rw [if_neg hyoung]
  by_cases hinteractive : fl.rtu ≤ 40 ∧ t.totalRunning > 1 * stsBase
  · refine .inr (.inl ?_)
    simp only [if_pos hinteractive]
  by_cases hbatch : fl.rtu ≥ 90
  · refine .inr (.inr (.inl ?_))
    simp only [if_neg hinteractive, if_pos hbatch]
  · refine .inr (.inr (.inr ?_))
    simp only [if_neg hinteractive, if_neg hbatch]

theorem newPriority_sound {q : RunQueue} {t : SchedTask} (ht : t.Sound)
    (hlow : intMin + 1 < q.lowest) (hhigh : q.lowest ≤ intMax) (fl : Floats) :
    (newPriority q t fl).1.Sound := by
  have hnice := ht.nice
  obtain ⟨sleep, hpos, hle, heq | heq | heq | heq⟩ := newPriority_cases q t fl
  · rw [heq]
    refine ⟨hnice, ht.timeslice, ?_, ?_⟩ <;> simp only [intMin, intMax, spBase] <;> omega
  · rw [heq]
    refine ⟨hnice, by simp [stsNormal], ?_, ?_⟩ <;>
      simp only [intMin, intMax, spInteractive] <;> omega
  · rw [heq]
    exact batchPriority_sound ht hlow hhigh fl
  · rw [heq]
    refine ⟨hnice, by simp [stsBase], ?_, ?_⟩ <;> simp only [intMin, intMax, spBase] <;> omega

/-- The lowest priority does not rise. -/
theorem newPriority_lowest_le (q : RunQueue) (t : SchedTask) (fl : Floats) :
    (newPriority q t fl).2.1 ≤ q.lowest := by
  unfold newPriority
  simp only
  split_ifs <;> simp only [le_refl] <;> omega

theorem rescheduled_sound {q : RunQueue} {t : SchedTask} (ht : t.Sound)
    (hlow : intMin + 1 < q.lowest) (hhigh : q.lowest ≤ intMax) (fl : Floats) :
    (rescheduled q t fl).Sound := by
  have hnew := newPriority_sound ht.charged hlow hhigh fl
  exact ⟨hnew.nice, hnew.timeslice, hnew.above, hnew.below⟩

theorem rescheduled_state (q : RunQueue) (t : SchedTask) (fl : Floats) :
    (rescheduled q t fl).state = .plain .ready := rfl

theorem newPriority_kept (q : RunQueue) (t : SchedTask) (fl : Floats) :
    (newPriority q t fl).1.task = t.task ∧ (newPriority q t fl).1.state = t.state ∧
      (newPriority q t fl).1.execRt = t.execRt := by
  unfold newPriority batchPriority
  simp only
  split_ifs <;> cases fl.usage <;> exact ⟨rfl, rfl, rfl⟩

theorem charged_kept (t : SchedTask) :
    t.charged.task = t.task ∧ t.charged.state = t.state ∧ t.charged.execRt = t.execRt := by
  unfold SchedTask.charged
  split_ifs <;> exact ⟨rfl, rfl, rfl⟩

theorem rescheduled_task (q : RunQueue) (t : SchedTask) (fl : Floats) :
    (rescheduled q t fl).task = t.task :=
  (newPriority_kept q t.charged fl).1.trans (charged_kept t).1

/-- The time of a task that needs to be rescheduled starts again. -/
theorem rescheduled_execRt {t : SchedTask} (ht : t.state.restarts = true) (q : RunQueue)
    (fl : Floats) : (rescheduled q t fl).execRt = 0 := by
  have hstate : (newPriority q t.charged fl).1.state = t.state :=
    (newPriority_kept q t.charged fl).2.1.trans (charged_kept t).2.1
  unfold rescheduled SchedTask.restart
  simp only [hstate, ht, if_true]

end Sched
end Micael
