import Micael.Sched.Moves

/-!
# What the scheduler leaves behind when it refuses a call

{lit}`mts_schedule` counts a new task in its run queue before it tries the insertion.  When the heap is
full, the insertion is refused and the function returns the error, but the counters stay raised and
the entry stays allocated.

{lit}`mts_block` and {lit}`mts_unschedule` search the heap for a task that is not the active one.  When
the search finds nothing, both go on with the null pointer that it returned.

Main results:

- Theorem {lit}`mts_schedule_refused`: a refused task stays counted, in the combined priority and in the
  lowest one as well, and its entry stays allocated.
- Theorem {lit}`oneCpuWith_filled`: the heap of a processor can be filled.
- Theorem {lit}`mts_unknown_task`: a task that is neither active nor in the heap makes both functions
  follow a null pointer, except that {lit}`mts_unschedule` returns {lit}`ST_OK` before the processor
  was started.
-/

namespace Micael
namespace Sched

open Foundation Lib

/-! ## A full heap -/

/-- The arguments of `mts_schedule` are proper and the heap of the processor it selects is full. -/
structure HeapFull (s : Mts) (nice : Int) : Prop where
  started : s.ncpu ≠ 0
  nice : nice.natAbs ≤ 4
  full :
    (s.rq (leastLoaded s s.ncpu)).pqueue.size = (s.rq (leastLoaded s s.ncpu)).pqueue.capacity

/-- The outcome of a call that undid what it had done: an error, the run queues as before and the
entry `p` not allocated. -/
structure RolledBack (s : Mts) (p : Nat) (r : Status × Mts) : Prop where
  error : ∃ e, r.1 = .error e
  queues : r.2.rq = s.rq
  released : r.2.live p = false

/-- A run queue that counted an entry has another number of tasks. -/
theorem RunQueue.count_ne (q : RunQueue) (t : SchedTask) : q.count t ≠ q := by
  intro heq
  have hntasks : q.ntasks + 1 = q.ntasks := congrArg RunQueue.ntasks heq
  have hnat := congrArg UInt64.toNat hntasks
  rw [UInt64.toNat_add] at hnat
  have hbound := q.ntasks.toNat_lt
  change (q.ntasks.toNat + 1) % 2 ^ 64 = q.ntasks.toNat at hnat
  omega

/-- The insertion is refused after the task was counted, and nothing is undone. -/
theorem HeapFull.refuses {s : Mts} {nice : Int} (hfull : HeapFull s nice) (me task p : Nat)
    (garbage : Int) :
    (mtsSchedule s me task nice (some p) garbage).1 = .error .enospc ∧
      (mtsSchedule s me task nice (some p) garbage).2.rq =
        Function.update s.rq (leastLoaded s s.ncpu)
          ((s.rq (leastLoaded s s.ncpu)).count
            (newEntry task nice (s.rq (leastLoaded s s.ncpu)).tick)) ∧
      (mtsSchedule s me task nice (some p) garbage).2.live p = true := by
  have hgood : ¬ (s.ncpu = 0 ∨ nice.natAbs > 4) :=
    not_or.mpr ⟨hfull.started, not_lt.mpr hfull.nice⟩
  obtain ⟨s₁, hmade, hcall⟩ := mtsSchedule_insert me task p garbage hgood rfl
  have hrefused := hfull.full
  generalize leastLoaded s s.ncpu = c at *
  generalize newEntry task nice (s.rq c).tick = t at *
  have hinsert : bhInsert (s.rq c).pqueue t.sprio (some p) = (.error .enospc, (s.rq c).pqueue) :=
    if_pos hrefused
  rw [hinsert] at hcall
  obtain ⟨hstatus, hafter⟩ := hcall
  have hsame := (SameButLocks.release (s₁.setRq c ((s.rq c).count t)) .mts).trans
    (SameButLocks.release _ (.rq c))
  refine ⟨hstatus, ?_, ?_⟩
  · rw [hafter, hsame.rq, Mts.setRq_rq, hmade.rq]
  · rw [hafter, hsame.live, Mts.setRq_live, hmade.live, Function.update_self]

/-- When the heap is full, `mts_schedule` returns the error of the insertion, with the new task counted
in its run queue and the entry allocated. -/
theorem mts_schedule_refused {s : Mts} {nice : Int} (hfull : HeapFull s nice) (me task p : Nat)
    (garbage : Int) :
    (mtsSchedule s me task nice (some p) garbage).1 = .error .enospc ∧
      (mtsSchedule s me task nice (some p) garbage).2.rq =
        Function.update s.rq (leastLoaded s s.ncpu)
          ((s.rq (leastLoaded s s.ncpu)).count
            (newEntry task nice (s.rq (leastLoaded s s.ncpu)).tick)) ∧
      (mtsSchedule s me task nice (some p) garbage).2.live p = true ∧
      ¬ RolledBack s p (mtsSchedule s me task nice (some p) garbage) := by
  obtain ⟨hstatus, hrq, hlive⟩ := hfull.refuses me task p garbage
  refine ⟨hstatus, hrq, hlive, fun hback => ?_⟩
  have hqueue := congrFun hback.queues (leastLoaded s s.ncpu)
  rw [hrq, Function.update_self] at hqueue
  exact RunQueue.count_ne _ _ hqueue

/-! ## Filling a heap -/

/-- The processor with `n` tasks in its heap, in a run. -/
structure Filled (n : Nat) (s : Mts) : Prop where
  reached : ∃ calls, Run MtsStep oneCpu calls s
  single : s.ncpu = 1
  queue : ∀ c, QueueOk (s.rq c).pqueue
  size : (s.rq 0).pqueue.size = n

theorem oneCpu_filled : Filled 0 oneCpu where
  reached := ⟨[], .nil⟩
  single := rfl
  queue _ := bhInit_queueOk fun _ => ⟨0, 0⟩
  size := rfl

theorem leastLoaded_single (s : Mts) : leastLoaded s 1 = 0 := by
  rw [leastLoaded]
  exact ite_self 0

/-- One more task is scheduled, with an entry and a process id of its own. -/
theorem Filled.schedule {n : Nat} {s : Mts} (h : Filled n s) (hroom : n < 256) :
    Filled (n + 1) (s.after (.schedule 0 (n + 1) 0 (some (4096 + n)) 0)) := by
  obtain ⟨calls, hrun⟩ := h.reached
  have hsingle := h.single
  have hleast : leastLoaded s s.ncpu = 0 := by rw [hsingle, leastLoaded_single]
  have hgood : ¬ (s.ncpu = 0 ∨ (0 : Int).natAbs > 4) := by simp [hsingle]
  have hsize : (s.rq 0).pqueue.size < 256 := by
    rw [h.size]
    exact hroom
  obtain ⟨s₁, hmade, hcall⟩ := mtsSchedule_insert 0 (n + 1) (4096 + n) 0 hgood hleast
  have hsound := @newEntry_sound (n + 1) 0 (by simp) (s.rq 0).tick
  obtain ⟨pqueue, hinsert, hok, hpay⟩ := (h.queue 0).insert hsize hsound.above hsound.below (4096 + n)
  rw [hinsert] at hcall
  obtain ⟨-, hafter⟩ := hcall
  generalize ((s.rq 0).count (newEntry (n + 1) 0 (s.rq 0).tick)) = q at hafter
  have hstate : s.after (.schedule 0 (n + 1) 0 (some (4096 + n)) 0) =
      (mtsSchedule s 0 (n + 1) 0 (some (4096 + n)) 0).2 := rfl
  have hstep : MtsStep s (.schedule 0 (n + 1) 0 (some (4096 + n)) 0,
      .status (mtsSchedule s 0 (n + 1) 0 (some (4096 + n)) 0).1)
      (s.after (.schedule 0 (n + 1) 0 (some (4096 + n)) 0)) := rfl
  have hsame := (SameButLocks.release (s₁.setRq 0 { q with pqueue := pqueue }) .mts).trans
    (SameButLocks.release _ (.rq 0))
  have hrq : (s.after (.schedule 0 (n + 1) 0 (some (4096 + n)) 0)).rq =
      Function.update s.rq 0 { q with pqueue := pqueue } := by
    rw [hstate, hafter, hsame.rq, Mts.setRq_rq, hmade.rq]
  constructor
  case reached => exact ⟨_, hrun.snoc hstep⟩
  case single => rw [hstate, hafter, hsame.ncpu, Mts.setRq_ncpu, hmade.ncpu, hsingle]
  case queue =>
    intro c
    rw [hrq]
    rcases eq_or_ne c 0 with rfl | hc
    · rw [Function.update_self]
      exact hok
    · rw [Function.update_of_ne hc]
      exact h.queue c
  case size =>
    rw [hrq, Function.update_self, ← card_payloads, hpay, Multiset.card_cons, card_payloads, h.size]

/-- The processor after `n` calls of `mts_schedule`. -/
def oneCpuWith : Nat → Mts
  | 0 => oneCpu
  | n + 1 => (oneCpuWith n).after (.schedule 0 (n + 1) 0 (some (4096 + n)) 0)

/-- The heap of a processor is filled by calls of `mts_schedule`. -/
theorem oneCpuWith_filled {n : Nat} (hn : n ≤ 256) : Filled n (oneCpuWith n) := by
  induction n with
  | zero => exact oneCpu_filled
  | succ n ih => exact (ih (by omega)).schedule (by omega)

theorem Filled.heapFull {s : Mts} (h : Filled 256 s) : HeapFull s 0 where
  started := by
    rw [h.single]
    exact one_ne_zero
  nice := by simp
  full := by
    rw [h.single, leastLoaded_single, h.size]
    exact (h.queue 0).holds.capacity.symm

/-- The call for the task after the last one that fits leaves its entry allocated. -/
theorem full_heap_keeps_entry :
    (mtsSchedule (oneCpuWith 256) 0 257 0 (some 4352) 0).1 = .error .enospc ∧
      (mtsSchedule (oneCpuWith 256) 0 257 0 (some 4352) 0).2.live 4352 = true := by
  have hfull := (oneCpuWith_filled (le_refl 256)).heapFull
  obtain ⟨hstatus, -, hlive, -⟩ := mts_schedule_refused hfull 0 257 4352 0
  exact ⟨hstatus, hlive⟩

/-- After 256 tasks were scheduled on one processor, the next `mts_schedule` fails and is not undone. -/
theorem full_heap_not_rolled_back :
    (∃ calls, Run MtsStep oneCpu calls (oneCpuWith 256)) ∧ HeapFull (oneCpuWith 256) 0 ∧
      ¬ RolledBack (oneCpuWith 256) 4352 (mtsSchedule (oneCpuWith 256) 0 257 0 (some 4352) 0) := by
  have hfilled := oneCpuWith_filled (le_refl 256)
  obtain ⟨-, -, hlive⟩ := hfilled.heapFull.refuses 0 257 4352 0
  refine ⟨hfilled.reached, hfilled.heapFull, fun hback => ?_⟩
  exact absurd (hlive.symm.trans hback.released) (by simp)

/-! ## A task that is not found -/

/-- The task is not the active one of the processor that `task->cpu` names, and not in its heap. -/
structure Unknown (s : Mts) (task : Nat) : Prop where
  active : ∀ a, (s.rq (s.cpu task)).active = some a → (s.st a).task ≠ task
  ready :
    ∀ k < (s.rq (s.cpu task)).pqueue.size,
      (s.st ((s.rq (s.cpu task)).pqueue.elems k).payload).task ≠ task

/-- The outcome of a call that returns `ST_ENOENT` and leaves every run queue alone. -/
def RejectsCleanly (s : Mts) (r : Option (Status × Mts)) : Prop :=
  ∃ s', r = some (.error .enoent, s') ∧ s'.rq = s.rq

theorem Unknown.locks {s s' : Mts} {task : Nat} (h : Unknown s task) (hsame : SameButLocks s s') :
    Unknown s' task where
  active := by
    rw [hsame.rq, hsame.st, hsame.cpu]
    exact h.active
  ready := by
    rw [hsame.rq, hsame.st, hsame.cpu]
    exact h.ready

/-- The search for the task returns a null pointer. -/
theorem Unknown.not_found {s : Mts} {task : Nat} (h : Unknown s task) :
    bhRemovePld (s.rq (s.cpu task)).pqueue (some task) (some (cmpPld s)) =
      (.error .enoent, (s.rq (s.cpu task)).pqueue) := by
  change removeFirst (fun x => cmpPld s task x.payload) _ = _
  unfold removeFirst
  cases hfound : firstFrom (fun x => cmpPld s task x.payload) (s.rq (s.cpu task)).pqueue
      (s.rq (s.cpu task)).pqueue.size 0 with
  | none => rfl
  | some k =>
      obtain ⟨hk, htask⟩ := firstFrom_some hfound
      have hne := h.ready k (by omega)
      exact absurd (of_decide_eq_true htask).symm hne

theorem Unknown.not_running {s : Mts} {task : Nat} (h : Unknown s task) :
    ((s.rq (s.cpu task)).active.filter fun a => (s.st a).task = task) = none := by
  cases hactive : (s.rq (s.cpu task)).active with
  | none => rfl
  | some a => simpa using h.active a hactive

/-- `mts_block` reads the priority of a null entry. -/
theorem Unknown.block {s : Mts} {task : Nat} (h : Unknown s task) : mtsBlock s task = none := by
  have hfirst := SameButLocks.acquire s (.rq 0)
  have hboth : SameButLocks s
      (if (s.spinAcquire (.rq 0)).cpu task ≠ 0 then
        (s.spinAcquire (.rq 0)).spinAcquire (.rq ((s.spinAcquire (.rq 0)).cpu task))
      else s.spinAcquire (.rq 0)) := by
    split_ifs
    · exact hfirst.trans (SameButLocks.acquire _ _)
    · exact hfirst
  have hcpu := hfirst.cpu
  unfold mtsBlock
  simp only
  generalize (if (s.spinAcquire (.rq 0)).cpu task ≠ 0 then
      (s.spinAcquire (.rq 0)).spinAcquire (.rq ((s.spinAcquire (.rq 0)).cpu task))
    else s.spinAcquire (.rq 0)) = s₁ at hboth ⊢
  have h₁ := h.locks hboth
  rw [hcpu, ← hboth.cpu, h₁.not_running]
  simp only [h₁.not_found]

/-- `mts_unschedule` reads the task of a null active entry, or the list of a null entry. -/
theorem Unknown.unschedule {s : Mts} {task : Nat} (h : Unknown s task) :
    mtsUnschedule s task =
      if (s.rq (s.cpu task)).active = none ∧ (s.rq (s.cpu task)).iactive = false then some (.ok, s)
      else none := by
  unfold mtsUnschedule
  simp only
  split_ifs with hstart
  · rfl
  · cases hactive : (s.rq (s.cpu task)).active with
    | none => rfl
    | some a =>
        have hsame := SameButLocks.acquire s (.rq (s.cpu task))
        have hlost := (h.locks hsame).not_found
        rw [hsame.cpu, hsame.rq] at hlost
        simp only [if_neg (h.active a hactive), hlost]

/-- A task that is neither active nor in the heap is never rejected: `mts_block` follows a null pointer,
and so does `mts_unschedule` unless the processor was not started, when it returns `ST_OK`. -/
theorem mts_unknown_task {s : Mts} {task : Nat} (h : Unknown s task) :
    mtsBlock s task = none ∧
      (mtsUnschedule s task =
        if (s.rq (s.cpu task)).active = none ∧ (s.rq (s.cpu task)).iactive = false then some (.ok, s)
        else none) ∧
      ¬ RejectsCleanly s (mtsBlock s task) ∧ ¬ RejectsCleanly s (mtsUnschedule s task) := by
  refine ⟨h.block, h.unschedule, ?_, ?_⟩
  · rintro ⟨s', hret, -⟩
    rw [h.block] at hret
    exact absurd hret (by simp)
  · rintro ⟨s', hret, -⟩
    rw [h.unschedule] at hret
    split_ifs at hret
    exact absurd hret (by simp)

/-- The processor after its blocked task was replaced by the idle task. -/
def oneIdle : Mts := oneBlocked.after (.getNext 0 calm)

theorem oneIdle_step : MtsStep oneBlocked (.getNext 0 calm, .task 0) oneIdle := rfl

theorem oneIdle_unknown : Unknown oneIdle 1 where
  active a ha := absurd ha (by simp [show (oneIdle.rq (oneIdle.cpu 1)).active = none from rfl])
  ready k hk := absurd hk (by simp [show (oneIdle.rq (oneIdle.cpu 1)).pqueue.size = 0 from rfl])

/-- While the idle task runs, a blocked task can be neither blocked again nor unscheduled. -/
theorem idle_cpu_faults : mtsBlock oneIdle 1 = none ∧ mtsUnschedule oneIdle 1 = none := by
  obtain ⟨hblock, hunschedule, -, -⟩ := mts_unknown_task oneIdle_unknown
  exact ⟨hblock, hunschedule⟩

/-- A task is scheduled, runs, is blocked and replaced by the idle task.  To kill it then follows a null
pointer, and so does blocking a task that was never scheduled. -/
theorem blocked_task_not_rejected :
    (∃ calls, Run MtsStep oneCpu calls oneIdle) ∧ Unknown oneIdle 1 ∧
      mtsUnschedule oneIdle 1 = none ∧ mtsBlock oneIdle 1 = none ∧ mtsBlock oneActive 2 = none := by
  have hrun := (((Run.nil.snoc oneReady_step).snoc oneActive_step).snoc oneBlocked_step).snoc
    oneIdle_step
  exact ⟨⟨_, hrun⟩, oneIdle_unknown, rfl, rfl, rfl⟩

end Sched
end Micael
