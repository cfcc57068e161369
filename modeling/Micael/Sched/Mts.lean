import Mathlib
import Micael.Foundation.Run
import Micael.Kernel.Machine
import Micael.Lib.Bheap
import Micael.Lib.List

/-!
# The MTS scheduler

Every processor has a run queue: a heap of the tasks that are ready, by their scheduling priority,
a list of the tasks that are blocked, the active task and a few counters.  The entities that are
scheduled are entries of a slab cache; an entry is named by its address and a task by its process
id, which no two tasks share.

The state of an entry is a set of bits in the source.  The functions assign one of four values and
add the two flags to it, so that a state is a value and two flags here; the comparisons with `==`
hold for a value without flags.

The decisions of `__adjust_priority` that rest on floating-point numbers are inputs of a call.  The
heuristics that nothing reads are left out, and with them `__update_blocked`.  The
pointers to tasks and run queues are not null.  A call that follows a null pointer, or for which an
assertion fails, has no result.  The assertion of `__adjust_priority` about the ticks that were
allocated never fails, and is left out.  Processors are started one after the other, so that `mts.rq[i]` is
the run queue of processor `i`.

A lock that is taken while it is held sets a flag of the state, where the source spins for ever; so
does the release of a lock that is free.

Main results:

- Theorem {lit}`mts_locks_free_iff`: with all locks free, a call leaves all locks free and misuses
  none just when it is not `mts_get_next` for an active task that has time left.
-/

namespace Micael
namespace Sched

open Foundation Lib

/-! ## Entries, run queues and locks -/

/-- The values that are assigned to the state of an entry. -/
inductive StateValue where
  | active
  | ready
  | blocked
  | unscheduled
deriving DecidableEq, Repr

/-- The state of an entry: a value of `SCHED_STATES` with `ST_NEED_RESCHED` and `ST_PREEMPTED`. -/
structure SchedState where
  value : StateValue
  needResched : Bool
  preempted : Bool
deriving DecidableEq, Repr

/-- A state without flags. -/
def SchedState.plain (value : StateValue) : SchedState := ⟨value, false, false⟩

/-- The test `state & (ST_NEED_RESCHED | ST_BLOCKED)`. -/
def SchedState.restarts (state : SchedState) : Bool := state.needResched || state.value = .blocked

/-- `SCHED_TASK_TYPES`. -/
inductive TaskType where
  | normal
  | batch
deriving DecidableEq, Repr

/-- `sched_task_t`. -/
structure SchedTask where
  type : TaskType
  state : SchedState
  task : Nat
  prio : Int
  sprio : Int
  nice : Int
  timeslice : Nat
  execRt : Nat
  totalRunning : Nat
  totalAlloc : Nat
  birth : UInt64
deriving DecidableEq, Repr

/-- `run_queue_t`, without its wait list and its lock. -/
structure RunQueue where
  pqueue : Bheap Nat
  active : Option Nat
  idle : Nat
  tick : UInt64
  ntasks : UInt64
  nready : UInt64
  nblocked : UInt64
  rprio : Int
  lowest : Int
  iactive : Bool

/-- The list nodes: `wait_list` of every run queue and `list` of every entry. -/
inductive WaitNode where
  | waitList (cpu : Nat)
  | entry (p : Nat)
deriving DecidableEq, Repr

/-- The locks. -/
inductive LockId where
  | mts
  | rq (cpu : Nat)
deriving DecidableEq, Repr

/-- The scheduler: `mts`, the run queues, the entries with those that are allocated, `task->cpu` of
every task, and the locks. -/
structure Mts where
  ncpu : Nat
  rq : Nat → RunQueue
  st : Nat → SchedTask
  live : Nat → Bool
  links : Links WaitNode
  cpu : Nat → Nat
  held : LockId → Bool
  misused : Bool

def Mts.setRq (s : Mts) (c : Nat) (q : RunQueue) : Mts := { s with rq := Function.update s.rq c q }

def Mts.setSt (s : Mts) (p : Nat) (t : SchedTask) : Mts := { s with st := Function.update s.st p t }

/-- `spin_acquire`. -/
def Mts.spinAcquire (s : Mts) (l : LockId) : Mts :=
  if s.held l then { s with misused := true } else { s with held := Function.update s.held l true }

/-- `spin_release`. -/
def Mts.spinRelease (s : Mts) (l : LockId) : Mts :=
  if s.held l then { s with held := Function.update s.held l false } else { s with misused := true }

/-- `SCHED_STATUS`; `bh_insert` returns no value after an insertion, so that `mts_schedule` may hand
on any. -/
inductive Status where
  | ok
  | switch
  | error (e : Errno)
  | unspecified (v : Int)
deriving DecidableEq, Repr

/-! ## Priorities -/

/-- `SP_BASE`. -/
def spBase : Int := 7

/-- `SP_BATCH`. -/
def spBatch : Int := 5

/-- `SP_INTERACTIVE`. -/
def spInteractive : Int := 10

/-- `SPB_BIRTH`. -/
def spbBirth : Int := 2

/-- `SPB_SLEEP`. -/
def spbSleep : Int := 3

/-- `STS_BASE`. -/
def stsBase : Nat := 10

/-- `STS_BATCH`. -/
def stsBatch : Nat := 15

/-- `STS_NORMAL`. -/
def stsNormal : Nat := 5

/-- How the tick usage of a task compares with its fair share. -/
inductive Usage where
  | overuse
  | underuse
  | fair
deriving DecidableEq, Repr

/-- The floating-point outcomes in `__adjust_priority`: the runtime utilisation, the tick usage and
the ticks that are missing from the fair share, zero when there are none. -/
structure Floats where
  rtu : Int
  usage : Usage
  missing : Nat
deriving DecidableEq, Repr

/-- The part of `__adjust_priority` for a task that uses most of its time. -/
def batchPriority (t : SchedTask) (lowest : Int) (fl : Floats) : SchedTask :=
  let t : SchedTask :=
    match fl.usage with
    | .overuse => { t with timeslice := stsBatch, sprio := lowest - 1 }
    | .underuse =>
        { t with
          sprio := (spBatch + t.nice) * 11 / 10
          timeslice := max fl.missing stsBatch }
    | .fair => t
  { t with type := .batch, prio := spBatch + t.nice }

/-- The entry, the lowest priority and the status that `__adjust_priority` finds. -/
def newPriority (q : RunQueue) (t : SchedTask) (fl : Floats) : SchedTask × Int × Status :=
  if q.tick - t.birth < 20 then
    ({ t with prio := spBase + t.nice, sprio := spBase + t.nice }, q.lowest, .ok)
  else
    let bonus :=
      t.nice + if t.state = .plain .blocked ∧ t.type = .batch then spbSleep else 0
    if fl.rtu ≤ 40 ∧ t.totalRunning > 1 * stsBase then
      ({ t with
          type := .normal
          timeslice := stsNormal
          prio := spInteractive + bonus
          sprio := spInteractive + bonus }, q.lowest, .ok)
    else if fl.rtu ≥ 90 then
      let t := batchPriority t q.lowest fl
      (t, if t.sprio < q.lowest then t.sprio else q.lowest,
        if fl.usage = .overuse then .switch else .ok)
    else
      ({ t with
          timeslice := stsBase
          prio := spBase + bonus
          sprio := spBase + bonus }, q.lowest, .ok)

/-- `__adjust_priority` on processor `me`. -/
def adjustPriority (s : Mts) (me p : Nat) (fl : Floats) : Mts × Status :=
  let q := s.rq me
  let r := newPriority q (s.st p) fl
  ((s.setSt p r.1).setRq me { q with rprio := q.rprio + r.1.prio, lowest := r.2.1 }, r.2.2)

/-- `__schedule_task` up to `__adjust_priority`. -/
def updateHeuristics (s : Mts) (p : Nat) : Mts :=
  let c := s.cpu (s.st p).task
  let state := (s.st p).state
  let s :=
    if state = .plain .blocked then s.setRq c { s.rq c with nblocked := (s.rq c).nblocked - 1 }
    else s
  if state.restarts then
    s.setSt p { s.st p with totalRunning := (s.st p).totalRunning + (s.st p).execRt }
  else s

/-- The entry that `__schedule_task` leaves: the time of a task that is not just preempted starts
again, its timeslice is added to the ticks it was allocated, and the task is ready. -/
def SchedTask.restart (t : SchedTask) : SchedTask :=
  { t with
    totalAlloc := if t.state.restarts then t.totalAlloc + t.timeslice else t.totalAlloc
    execRt := if t.state.restarts then 0 else t.execRt
    state := .plain .ready }

/-- `__schedule_task` on processor `me`. -/
def scheduleTask (s : Mts) (me p : Nat) (switchTask : Bool) (fl : Floats) : Mts × Status :=
  let c := s.cpu (s.st p).task
  if (s.st p).state = .plain .ready then (s, .ok)
  else
    let r := adjustPriority (updateHeuristics s p) me p fl
    let s := r.1.setSt p (r.1.st p).restart
    let q := s.rq c
    if switchTask || r.2 = .switch then
      (s.setRq c
        { q with
          nready := q.nready + 1
          pqueue := (bhInsert q.pqueue (s.st p).sprio (some p)).2 }, .switch)
    else (s.setRq c { q with rprio := q.rprio - (s.st p).prio }, .ok)

/-! ## The operations -/

/-- The entry that `mts_schedule` fills in. -/
def newEntry (task : Nat) (nice : Int) (birth : UInt64) : SchedTask where
  type := .batch
  state := .plain .active
  task := task
  prio := spBase + spbBirth + nice
  sprio := spBase + spbBirth + nice
  nice := nice
  timeslice := stsBase
  execRt := 0
  totalRunning := 0
  totalAlloc := stsBase
  birth := birth

/-- The loop of `mts_schedule` over the run queues below `n`. -/
def leastLoaded (s : Mts) : Nat → Nat
  | 0 => 0
  | i + 1 =>
      let c := leastLoaded s i
      if (s.rq i).ntasks < (s.rq c).ntasks then i else c

/-- The run queue in which `mts_schedule` counts a new entry. -/
def RunQueue.count (q : RunQueue) (t : SchedTask) : RunQueue :=
  { q with
    lowest := if q.lowest > t.sprio then t.sprio else q.lowest
    ntasks := q.ntasks + 1
    nready := q.nready + 1
    rprio := q.rprio + t.prio }

/-- `mts_schedule` on processor `me`.  The slab cache serves `mem`, and `garbage` is what is left in
the return register by an insertion. -/
def mtsSchedule (s : Mts) (me task : Nat) (nice : Int) (mem : Option Nat) (garbage : Int) :
    Status × Mts :=
  if s.ncpu = 0 ∨ nice.natAbs > 4 then (.error .einval, s)
  else
    let s := s.spinAcquire .mts
    let c := leastLoaded s s.ncpu
    let s := { s with cpu := Function.update s.cpu task c }
    match mem with
    | none => (.error .enomem, s.spinRelease .mts)
    | some p =>
        let t := newEntry task nice (s.rq c).tick
        let s :=
          { s with
            live := Function.update s.live p true
            links := listInit s.links (.entry p)
            st := Function.update s.st p t }
        let s := s.spinAcquire (.rq c)
        let q := (s.rq c).count t
        match bhInsert q.pqueue t.sprio (some p) with
        | (.error e, _) => (.error e, ((s.setRq c q).spinRelease .mts).spinRelease (.rq c))
        | (.ok _, pqueue) =>
            let lower : Bool :=
              match q.active with
              | some a => (s.st a).sprio < t.sprio
              | none => false
            let ret : Status :=
              if garbage < 0 then .unspecified garbage
              else if lower ∧ c ≠ me then .switch
              else .unspecified garbage
            (ret, ((s.setRq c { q with pqueue := pqueue }).spinRelease .mts).spinRelease (.rq c))

/-- The call of `__schedule_task` for the active task at `setup_active`. -/
def requeueActive (s : Mts) (me : Nat) (fl : Floats) : Mts :=
  match (s.rq me).active with
  | some a => (scheduleTask s me a true fl).1
  | none => s

/-- `mts_get_next` from the label `setup_active` on, with the priority that was read before. -/
def setupActive (s : Mts) (me : Nat) (prio : Int) (fl : Floats) : Option (Nat × Mts) :=
  if prio = intMin then
    let q := s.rq me
    some (q.idle, (s.setRq me { q with active := none, iactive := true }).spinRelease (.rq me))
  else
    match bhRemoveMax (s.rq me).pqueue with
    | (.error _, _) => none
    | (.ok p, pqueue) =>
        let s := requeueActive (s.setRq me { s.rq me with pqueue := pqueue }) me fl
        let s := s.setSt p { s.st p with state := .plain .active }
        let q := s.rq me
        let s :=
          s.setRq me
            { q with
              active := some p
              iactive := false
              nready := q.nready - 1
              rprio := q.rprio - (s.st p).prio }
        some ((s.st p).task, s.spinRelease (.rq me))

/-- The run queue of `me` without an active task. -/
def Mts.dropActive (s : Mts) (me : Nat) : Mts := s.setRq me { s.rq me with active := none }

/-- `mmu_cache_free_entry` of an entry, after its node is removed from its list. -/
def Mts.freeEntry (s : Mts) (p : Nat) : Mts :=
  let s := s.spinAcquire .mts
  let s :=
    { s with
      links := listRemove s.links (.entry p)
      live := Function.update s.live p false }
  s.spinRelease .mts

/-- `state |= ST_PREEMPTED`. -/
def Mts.preempt (s : Mts) (p : Nat) : Mts :=
  s.setSt p { s.st p with state := { (s.st p).state with preempted := true } }

/-- `mts_get_next` on processor `me`, with the task it returns. -/
def mtsGetNext (s : Mts) (me : Nat) (fl : Floats) : Option (Nat × Mts) :=
  let s := s.spinAcquire (.rq me)
  let prio := bhPeekMax (s.rq me).pqueue
  match (s.rq me).active with
  | none => setupActive s me prio fl
  | some a =>
      let t := s.st a
      if t.state = .plain .unscheduled then setupActive ((s.freeEntry a).dropActive me) me prio fl
      else if prio > t.sprio then setupActive (s.preempt a) me prio fl
      else if t.state = .plain .blocked then setupActive (s.dropActive me) me prio fl
      -- The source returns here without a release of the lock.
      else if t.execRt < t.timeslice then some (t.task, s)
      else if t.state.needResched ∧ prio < t.sprio then
        match scheduleTask s me a false fl with
        | (s, .ok) => some (t.task, s.spinRelease (.rq me))
        | (s, _) => setupActive s me prio fl
      else setupActive s me prio fl

/-- The part of `mts_tick` for an active task. -/
def tickActive (s : Mts) (me a : Nat) : Status × Mts :=
  let s := s.setRq me { s.rq me with tick := (s.rq me).tick + 1 }
  let s := s.setSt a { s.st a with execRt := (s.st a).execRt + 1 }
  let t := s.st a
  if bhPeekMax (s.rq me).pqueue > t.sprio then (.switch, s.preempt a)
  else if t.state = .plain .blocked then (.switch, s)
  else if t.execRt ≥ t.timeslice then
    (.switch, s.setSt a { t with state := { t.state with needResched := true } })
  else (.ok, s)

/-- `mts_tick` on processor `me`. -/
def mtsTick (s : Mts) (me : Nat) : Status × Mts :=
  match (s.rq me).active with
  | none =>
      if (s.rq me).iactive = false then (.switch, s)
      else (if bhPeekMax (s.rq me).pqueue > intMin then .switch else .ok, s)
  | some a => tickActive s me a

/-- `__cmp_pld` with the process id of a task. -/
def cmpPld (s : Mts) (task p : Nat) : Bool := task = (s.st p).task

/-- `mts_unschedule`. -/
def mtsUnschedule (s : Mts) (task : Nat) : Option (Status × Mts) :=
  let c := s.cpu task
  let q := s.rq c
  if q.active = none ∧ q.iactive = false then some (.ok, s)
  else
    match q.active with
    | none => none
    | some a =>
        if (s.st a).task = task then
          let s := s.setSt a { s.st a with state := .plain .unscheduled }
          some (.switch, s.setRq c { q with ntasks := q.ntasks - 1 })
        else
          let s := s.spinAcquire (.rq c)
          match bhRemovePld q.pqueue (some task) (some (cmpPld s)) with
          | (.error _, _) => none
          | (.ok p, pqueue) =>
              let s :=
                s.setRq c
                  { q with
                    pqueue := pqueue
                    ntasks := q.ntasks - 1
                    nready := q.nready - 1 }
              some (.ok, (s.freeEntry p).spinRelease (.rq c))

/-- `mts_block` from its label `end` on: entry `t` of run queue `c` is moved to the wait list. -/
def moveToWaitList (s : Mts) (c task p : Nat) : Mts :=
  let s := s.setRq 0 { s.rq 0 with nblocked := (s.rq 0).nblocked + 1 }
  let q := s.rq c
  let s := s.setRq c { q with nready := q.nready - 1, rprio := q.rprio - (s.st p).prio }
  let s := s.setSt p { s.st p with state := .plain .blocked }
  let s :=
    { s with
      cpu := Function.update s.cpu task 0
      links := listAppend (listInit s.links (.entry p)) (.waitList 0) (.entry p) }
  let s := if c ≠ 0 then s.spinRelease (.rq 0) else s
  s.spinRelease (.rq c)

/-- `mts_block`. -/
def mtsBlock (s : Mts) (task : Nat) : Option (Status × Mts) :=
  let s := s.spinAcquire (.rq 0)
  let c := s.cpu task
  let s := if c ≠ 0 then s.spinAcquire (.rq c) else s
  let q := s.rq c
  let running : Option Nat := q.active.filter fun a => (s.st a).task = task
  match running with
  | some a => some (.switch, moveToWaitList s c task a)
  | none =>
      match bhRemovePld q.pqueue (some task) (some (cmpPld s)) with
      | (.error _, _) => none
      | (.ok p, pqueue) => some (.ok, moveToWaitList (s.setRq c { q with pqueue := pqueue }) c task p)

/-- The `FOREACH` loop of `mts_unblock` over the wait list of `c` at node `iter`: the first entry of
the task, if there is one.  There is no result when the turns run out, or when a null pointer or the
head of another list is reached. -/
def findWaiter (s : Mts) (c task : Nat) : Nat → Option WaitNode → Option (Option Nat)
  | 0, _ => none
  | _ + 1, none => none
  | _ + 1, some (.waitList c') => if c' = c then some none else none
  | turns + 1, some (.entry p) =>
      if (s.st p).task = task then some (some p)
      else findWaiter s c task turns (s.links (.entry p)).next

/-- `mts_unblock` on processor `me`. -/
def mtsUnblock (turns : Nat) (s : Mts) (me task : Nat) (fl : Floats) : Option (Status × Mts) :=
  let c := s.cpu task
  let s := s.spinAcquire (.rq c)
  let q := s.rq c
  if q.active = none ∧ q.iactive = false then some (.ok, s.spinRelease (.rq c))
  else
    match findWaiter s c task turns (s.links (.waitList c)).next with
    | none => none
    | some none => some (.error .enoent, s.spinRelease (.rq c))
    | some (some p) =>
        let s := { s with links := listRemove s.links (.entry p) }
        let s := (scheduleTask s me p true fl).1
        let ret : Status :=
          match (s.rq c).active with
          | some a => if (s.st p).sprio > (s.st a).sprio then .switch else .ok
          | none => .ok
        some (ret, s.spinRelease (.rq c))

/-- A call of the scheduler, with what the environment supplies. -/
inductive MtsCall where
  | schedule (me task : Nat) (nice : Int) (mem : Option Nat) (garbage : Int)
  | tick (me : Nat)
  | getNext (me : Nat) (fl : Floats)
  | block (task : Nat)
  | unblock (turns me task : Nat) (fl : Floats)
  | unschedule (task : Nat)
deriving DecidableEq, Repr

/-- What a call returns. -/
inductive MtsRet where
  | status (r : Status)
  | task (t : Nat)
deriving DecidableEq, Repr

/-- Makes a call. -/
def mtsExec (s : Mts) : MtsCall → Option (MtsRet × Mts)
  | .schedule me task nice mem garbage =>
      some ((mtsSchedule s me task nice mem garbage).map .status id)
  | .tick me => some ((mtsTick s me).map .status id)
  | .getNext me fl => (mtsGetNext s me fl).map (Prod.map .task id)
  | .block task => (mtsBlock s task).map (Prod.map .status id)
  | .unblock turns me task fl => (mtsUnblock turns s me task fl).map (Prod.map .status id)
  | .unschedule task => (mtsUnschedule s task).map (Prod.map .status id)

/-- One call with its result. -/
def MtsStep (s : Mts) (call : MtsCall × MtsRet) (s' : Mts) : Prop :=
  mtsExec s call.1 = some (call.2, s')

/-- A call that may fail has returned what its function did. -/
theorem of_map_eq_some {α : Type} {f : α → MtsRet} {x : Option (α × Mts)} {r : MtsRet} {s' : Mts}
    (h : x.map (Prod.map f id) = some (r, s')) : ∃ t, x = some (t, s') ∧ r = f t := by
  obtain ⟨⟨t, u⟩, hret, heq⟩ := Option.map_eq_some_iff.mp h
  obtain ⟨rfl, rfl⟩ := Prod.mk.inj heq
  exact ⟨t, hret, rfl⟩

section Step

variable {s s' : Mts} {r : MtsRet} {me task : Nat} {fl : Floats}

theorem MtsStep.getNext (h : MtsStep s (.getNext me fl, r) s') :
    ∃ t, mtsGetNext s me fl = some (t, s') ∧ r = .task t :=
  of_map_eq_some h

theorem MtsStep.block (h : MtsStep s (.block task, r) s') :
    ∃ t, mtsBlock s task = some (t, s') ∧ r = .status t :=
  of_map_eq_some h

theorem MtsStep.unblock {turns : Nat} (h : MtsStep s (.unblock turns me task fl, r) s') :
    ∃ t, mtsUnblock turns s me task fl = some (t, s') ∧ r = .status t :=
  of_map_eq_some h

theorem MtsStep.unschedule (h : MtsStep s (.unschedule task, r) s') :
    ∃ t, mtsUnschedule s task = some (t, s') ∧ r = .status t :=
  of_map_eq_some h

end Step

/-- The scheduler after `mts_init` and after `mts_init_cpu` on `ncpu` processors, whose run queues
were zero.  The pages of the heaps, the entries and the tasks hold what was there before. -/
def mtsStart (ncpu : Nat) (idle : Nat → Nat) (garbage : Nat → Elem Nat) (st : Nat → SchedTask)
    (cpu : Nat → Nat) : Mts where
  ncpu := ncpu
  rq c :=
    { pqueue := bhInit 256 garbage
      active := none
      idle := idle c
      tick := 0
      ntasks := 0
      nready := 0
      nblocked := 0
      rprio := 0
      lowest := intMax
      iactive := false }
  st := st
  live _ := false
  links
    | .waitList c => ⟨some (.waitList c), some (.waitList c)⟩
    | .entry _ => ⟨none, none⟩
  cpu := cpu
  held _ := false
  misused := false

/-! ## Locks -/

/-- The locks that are held are those of `h`, and none was misused. -/
structure Locked (s : Mts) (h : LockId → Bool) : Prop where
  held : s.held = h
  sound : s.misused = false

/-- No lock is held. -/
def noLock : LockId → Bool := fun _ => false

theorem Locked.acquire {s : Mts} {h : LockId → Bool} {l : LockId} (hs : Locked s h)
    (hl : h l = false) : Locked (s.spinAcquire l) (Function.update h l true) := by
  have hfree : s.held l = false := by rw [hs.held, hl]
  unfold Mts.spinAcquire
  rw [if_neg (by simp [hfree])]
  exact ⟨by rw [← hs.held], hs.sound⟩

theorem Locked.release {s : Mts} {h : LockId → Bool} {l : LockId} (hs : Locked s h)
    (hl : h l = true) : Locked (s.spinRelease l) (Function.update h l false) := by
  have hheld : s.held l = true := by rw [hs.held, hl]
  unfold Mts.spinRelease
  rw [if_pos hheld]
  exact ⟨by rw [← hs.held], hs.sound⟩

/-- A lock that was free before it was taken is free after its release. -/
theorem Locked.release_last {s : Mts} {h : LockId → Bool} {l : LockId} (hl : h l = false)
    (hs : Locked s (Function.update h l true)) : Locked (s.spinRelease l) h := by
  have hback := hs.release (Function.update_self ..)
  rwa [Function.update_idem, ← hl, Function.update_eq_self] at hback

theorem scheduleTask_locks (s : Mts) (me p : Nat) (switchTask : Bool) (fl : Floats) :
    (scheduleTask s me p switchTask fl).1.held = s.held ∧
      (scheduleTask s me p switchTask fl).1.misused = s.misused := by
  unfold scheduleTask updateHeuristics
  simp only
  split_ifs <;> exact ⟨rfl, rfl⟩

theorem Locked.scheduleTask {s : Mts} {h : LockId → Bool} (hs : Locked s h) (me p : Nat)
    (switchTask : Bool) (fl : Floats) : Locked (scheduleTask s me p switchTask fl).1 h := by
  obtain ⟨hheld, hmisused⟩ := scheduleTask_locks s me p switchTask fl
  exact ⟨hheld.trans hs.held, hmisused.trans hs.sound⟩

theorem Locked.requeueActive {s : Mts} {h : LockId → Bool} (hs : Locked s h) (me : Nat)
    (fl : Floats) : Locked (requeueActive s me fl) h := by
  unfold Sched.requeueActive
  cases (s.rq me).active with
  | none => exact hs
  | some a => exact hs.scheduleTask me a true fl

/-- `setup_active` releases the lock of the run queue, on both of its paths. -/
theorem Locked.setupActive {s s' : Mts} {me t : Nat} {prio : Int} {fl : Floats}
    (hs : Locked s (Function.update noLock (.rq me) true))
    (hret : setupActive s me prio fl = some (t, s')) : Locked s' noLock := by
  unfold Sched.setupActive at hret
  by_cases hidle : prio = intMin
  · rw [if_pos hidle] at hret
    obtain ⟨-, rfl⟩ := Prod.mk.inj (Option.some.inj hret)
    exact Locked.release_last rfl ⟨hs.held, hs.sound⟩
  · rw [if_neg hidle] at hret
    generalize bhRemoveMax (s.rq me).pqueue = r at hret
    obtain ⟨r, pqueue⟩ := r
    cases r with
    | error e => exact absurd hret (by simp)
    | ok p =>
        obtain ⟨-, rfl⟩ := Prod.mk.inj (Option.some.inj hret)
        have hpopped : Locked (s.setRq me { s.rq me with pqueue := pqueue }) _ :=
          ⟨hs.held, hs.sound⟩
        have hafter := hpopped.requeueActive me fl
        exact Locked.release_last rfl ⟨hafter.held, hafter.sound⟩

theorem Locked.freeEntry {s : Mts} {h : LockId → Bool} (hs : Locked s h) (hl : h .mts = false)
    (p : Nat) : Locked (s.freeEntry p) h := by
  have hin := hs.acquire hl
  exact Locked.release_last hl ⟨hin.held, hin.sound⟩

theorem noLock_rq_mts (c : Nat) : Function.update noLock (.rq c) true .mts = false := rfl

theorem noLock_mts_rq (c : Nat) : Function.update noLock .mts true (.rq c) = false := rfl

/-- Two locks that were taken and are released in the order they were taken. -/
theorem Locked.release_both {s : Mts} {h : LockId → Bool} {l l' : LockId} (hne : l ≠ l')
    (hl : h l = false) (hl' : h l' = false)
    (hs : Locked s (Function.update (Function.update h l true) l' true)) :
    Locked ((s.spinRelease l).spinRelease l') h := by
  rw [Function.update_comm hne] at hs
  have hfirst : Locked (s.spinRelease l) (Function.update h l' true) := by
    refine Locked.release_last ?_ hs
    rw [Function.update_of_ne hne, hl]
  exact Locked.release_last hl' hfirst

theorem Locked.schedule {s : Mts} (hs : Locked s noLock) (me task : Nat) (nice : Int)
    (mem : Option Nat) (garbage : Int) :
    Locked (mtsSchedule s me task nice mem garbage).2 noLock := by
  unfold mtsSchedule
  by_cases hbad : s.ncpu = 0 ∨ nice.natAbs > 4
  · rw [if_pos hbad]
    exact hs
  · rw [if_neg hbad]
    have hin : Locked (s.spinAcquire .mts) (Function.update noLock .mts true) := hs.acquire rfl
    generalize s.spinAcquire .mts = s₁ at hin ⊢
    cases mem with
    | none => exact Locked.release_last rfl ⟨hin.held, hin.sound⟩
    | some p =>
        simp only
        generalize leastLoaded s₁ s₁.ncpu = c
        have hboth := Locked.acquire
          (s := { s₁ with
            cpu := Function.update s₁.cpu task c
            live := Function.update s₁.live p true
            links := listInit s₁.links (.entry p)
            st := Function.update s₁.st p (newEntry task nice (s₁.rq c).tick) })
          ⟨hin.held, hin.sound⟩ (noLock_mts_rq c)
        split
        · exact Locked.release_both (by simp) rfl rfl ⟨hboth.held, hboth.sound⟩
        · exact Locked.release_both (by simp) rfl rfl ⟨hboth.held, hboth.sound⟩

theorem mtsTick_locks (s : Mts) (me : Nat) :
    (mtsTick s me).2.held = s.held ∧ (mtsTick s me).2.misused = s.misused := by
  unfold mtsTick
  cases (s.rq me).active with
  | none =>
      simp only
      split_ifs <;> exact ⟨rfl, rfl⟩
  | some a =>
      unfold tickActive
      simp only
      split_ifs <;> exact ⟨rfl, rfl⟩

theorem Locked.unschedule {s s' : Mts} {task : Nat} {r : Status} (hs : Locked s noLock)
    (hret : mtsUnschedule s task = some (r, s')) : Locked s' noLock := by
  unfold mtsUnschedule at hret
  simp only at hret
  split at hret
  · obtain ⟨-, rfl⟩ := Prod.mk.inj (Option.some.inj hret)
    exact hs
  · split at hret
    · exact absurd hret (by simp)
    · split at hret
      · obtain ⟨-, rfl⟩ := Prod.mk.inj (Option.some.inj hret)
        exact ⟨hs.held, hs.sound⟩
      · split at hret
        · exact absurd hret (by simp)
        · obtain ⟨-, rfl⟩ := Prod.mk.inj (Option.some.inj hret)
          have hin := hs.acquire (l := .rq (s.cpu task)) rfl
          refine Locked.release_last rfl (Locked.freeEntry ?_ (noLock_rq_mts _) _)
          exact ⟨hin.held, hin.sound⟩

/-- The release of both run queues at the end of `mts_block`. -/
theorem Locked.moveToWaitList {s : Mts} {c : Nat}
    (hs : Locked s (Function.update (Function.update noLock (.rq 0) true) (.rq c) true))
    (task p : Nat) : Locked (moveToWaitList s c task p) noLock := by
  unfold Sched.moveToWaitList
  by_cases hc : c = 0
  · subst hc
    rw [Function.update_idem] at hs
    exact Locked.release_last rfl ⟨hs.held, hs.sound⟩
  · simp only [hc, ne_eq, not_false_eq_true, if_true]
    exact Locked.release_both (by simpa using Ne.symm hc) rfl rfl ⟨hs.held, hs.sound⟩

theorem Locked.block {s s' : Mts} {task : Nat} {r : Status} (hs : Locked s noLock)
    (hret : mtsBlock s task = some (r, s')) : Locked s' noLock := by
  unfold mtsBlock at hret
  simp only at hret
  have hin : Locked (s.spinAcquire (.rq 0)) (Function.update noLock (.rq 0) true) := hs.acquire rfl
  generalize s.spinAcquire (.rq 0) = s₁ at hin hret
  have hboth : Locked (if s₁.cpu task ≠ 0 then s₁.spinAcquire (.rq (s₁.cpu task)) else s₁)
      (Function.update (Function.update noLock (.rq 0) true) (.rq (s₁.cpu task)) true) := by
    by_cases hc : s₁.cpu task = 0
    · rw [if_neg (not_not_intro hc), hc, Function.update_idem]
      exact hin
    · rw [if_pos hc]
      refine hin.acquire ?_
      rw [Function.update_of_ne (by simpa using hc)]
      rfl
  generalize (if s₁.cpu task ≠ 0 then s₁.spinAcquire (.rq (s₁.cpu task)) else s₁) = s₂
    at hboth hret
  split at hret
  · obtain ⟨-, rfl⟩ := Prod.mk.inj (Option.some.inj hret)
    exact hboth.moveToWaitList task _
  · split at hret
    · exact absurd hret (by simp)
    · obtain ⟨-, rfl⟩ := Prod.mk.inj (Option.some.inj hret)
      refine Locked.moveToWaitList ?_ task _
      exact ⟨hboth.held, hboth.sound⟩

theorem Locked.unblock {s s' : Mts} {turns me task : Nat} {fl : Floats} {r : Status}
    (hs : Locked s noLock) (hret : mtsUnblock turns s me task fl = some (r, s')) :
    Locked s' noLock := by
  unfold mtsUnblock at hret
  simp only at hret
  have hin := hs.acquire (l := .rq (s.cpu task)) rfl
  generalize s.spinAcquire (.rq (s.cpu task)) = s₁ at hin hret
  split at hret
  · obtain ⟨-, rfl⟩ := Prod.mk.inj (Option.some.inj hret)
    exact Locked.release_last rfl hin
  · split at hret
    · exact absurd hret (by simp)
    · obtain ⟨-, rfl⟩ := Prod.mk.inj (Option.some.inj hret)
      exact Locked.release_last rfl hin
    · obtain ⟨-, rfl⟩ := Prod.mk.inj (Option.some.inj hret)
      refine Locked.release_last rfl (Locked.scheduleTask ?_ me _ true fl)
      exact ⟨hin.held, hin.sound⟩

/-- `mts_get_next` returns the active task because it has time left. -/
def ReturnsEarly (s : Mts) : MtsCall → Prop
  | .getNext me _ =>
      ∃ a, (s.rq me).active = some a ∧ (s.st a).state ≠ .plain .unscheduled ∧
        bhPeekMax (s.rq me).pqueue ≤ (s.st a).sprio ∧ (s.st a).state ≠ .plain .blocked ∧
        (s.st a).execRt < (s.st a).timeslice
  | _ => False

theorem Mts.spinAcquire_rq (s : Mts) (l : LockId) : (s.spinAcquire l).rq = s.rq := by
  unfold Mts.spinAcquire
  split_ifs <;> rfl

theorem Mts.spinAcquire_st (s : Mts) (l : LockId) : (s.spinAcquire l).st = s.st := by
  unfold Mts.spinAcquire
  split_ifs <;> rfl

/-- An early return keeps the lock of the run queue. -/
theorem mtsGetNext_early {s : Mts} {me : Nat} {fl : Floats}
    (hearly : ReturnsEarly s (.getNext me fl)) :
    ∃ t, mtsGetNext s me fl = some (t, s.spinAcquire (.rq me)) := by
  obtain ⟨a, hactive, hsched, hprio, hblocked, htime⟩ := hearly
  refine ⟨(s.st a).task, ?_⟩
  unfold mtsGetNext
  simp only [Mts.spinAcquire_rq, Mts.spinAcquire_st, hactive]
  rw [if_neg hsched, if_neg (not_lt.mpr hprio), if_neg hblocked, if_pos htime]

/-- Every other return of `mts_get_next` releases the lock. -/
theorem Locked.getNext {s s' : Mts} {me t : Nat} {fl : Floats} (hs : Locked s noLock)
    (hearly : ¬ ReturnsEarly s (.getNext me fl)) (hret : mtsGetNext s me fl = some (t, s')) :
    Locked s' noLock := by
  have hin : Locked (s.spinAcquire (.rq me)) (Function.update noLock (.rq me) true) :=
    hs.acquire rfl
  unfold mtsGetNext at hret
  simp only [Mts.spinAcquire_rq, Mts.spinAcquire_st] at hret
  cases hactive : (s.rq me).active with
  | none =>
      simp only [hactive] at hret
      exact hin.setupActive hret
  | some a =>
      simp only [hactive] at hret
      by_cases hsched : (s.st a).state = .plain .unscheduled
      · rw [if_pos hsched] at hret
        have hfreed := hin.freeEntry (noLock_rq_mts me) a
        refine Locked.setupActive ?_ hret
        exact ⟨hfreed.held, hfreed.sound⟩
      rw [if_neg hsched] at hret
      by_cases hprio : bhPeekMax (s.rq me).pqueue > (s.st a).sprio
      · rw [if_pos hprio] at hret
        refine Locked.setupActive ?_ hret
        exact ⟨hin.held, hin.sound⟩
      rw [if_neg hprio] at hret
      by_cases hblocked : (s.st a).state = .plain .blocked
      · rw [if_pos hblocked] at hret
        refine Locked.setupActive ?_ hret
        exact ⟨hin.held, hin.sound⟩
      rw [if_neg hblocked] at hret
      by_cases htime : (s.st a).execRt < (s.st a).timeslice
      · exact absurd ⟨a, hactive, hsched, not_lt.mp hprio, hblocked, htime⟩ hearly
      rw [if_neg htime] at hret
      split at hret
      · have hafter := hin.scheduleTask me a false fl
        split at hret
        next s₁ hok =>
          obtain ⟨-, rfl⟩ := Prod.mk.inj (Option.some.inj hret)
          rw [hok] at hafter
          exact Locked.release_last rfl hafter
        next s₁ r hne hswitch =>
          rw [hswitch] at hafter
          exact hafter.setupActive hret
      · exact hin.setupActive hret

/-- With all locks free, a call leaves all locks free and misuses none, on every path on which it
returns, just when it is not `mts_get_next` for an active task with time left. -/
theorem mts_locks_free_iff {s : Mts} (hs : Locked s noLock) (call : MtsCall) :
    (∀ r s', MtsStep s (call, r) s' → Locked s' noLock) ↔ ¬ ReturnsEarly s call := by
  constructor
  · intro hall hearly
    cases call with
    | getNext me fl =>
        obtain ⟨t, hret⟩ := mtsGetNext_early hearly
        have hafter := hall (.task t) (s.spinAcquire (.rq me)) (by simp [MtsStep, mtsExec, hret])
        have hheld := congrFun (hs.acquire (l := .rq me) rfl).held (.rq me)
        rw [hafter.held, Function.update_self] at hheld
        exact absurd hheld (by simp [noLock])
    | schedule me task nice mem garbage => exact hearly
    | tick me => exact hearly
    | block task => exact hearly
    | unblock turns me task fl => exact hearly
    | unschedule task => exact hearly
  · intro hearly r s' hstep
    cases call with
    | schedule me task nice mem garbage =>
        obtain ⟨-, rfl⟩ := Prod.mk.inj (Option.some.inj hstep)
        exact hs.schedule me task nice mem garbage
    | tick me =>
        obtain ⟨-, rfl⟩ := Prod.mk.inj (Option.some.inj hstep)
        obtain ⟨hheld, hmisused⟩ := mtsTick_locks s me
        exact ⟨hheld.trans hs.held, hmisused.trans hs.sound⟩
    | getNext me fl =>
        obtain ⟨t, hret, -⟩ := hstep.getNext
        exact hs.getNext hearly hret
    | block task =>
        obtain ⟨t, hret, -⟩ := hstep.block
        exact hs.block hret
    | unblock turns me task fl =>
        obtain ⟨t, hret, -⟩ := hstep.unblock
        exact hs.unblock hret
    | unschedule task =>
        obtain ⟨t, hret, -⟩ := hstep.unschedule
        exact hs.unschedule hret

/-- One processor, whose idle task has the process id zero. -/
def oneCpu : Mts :=
  mtsStart 1 (fun _ => 0) (fun _ => ⟨0, 0⟩) (fun _ => newEntry 0 0 0) fun _ => 0

/-- A task that is not long overdue. -/
def calm : Floats := ⟨50, .fair, 0⟩

/-- The scheduler after a call. -/
def Mts.after (s : Mts) (call : MtsCall) : Mts := ((mtsExec s call).map Prod.snd).getD s

/-- The processor with one task scheduled, and then active. -/
def oneReady : Mts := oneCpu.after (.schedule 0 1 0 (some 4096) 0)

/-- The processor with its task active. -/
def oneActive : Mts := oneReady.after (.getNext 0 calm)

/-- The processor after its active task was blocked. -/
def oneBlocked : Mts := oneActive.after (.block 1)

theorem oneReady_step :
    MtsStep oneCpu (.schedule 0 1 0 (some 4096) 0, .status (.unspecified 0)) oneReady :=
  rfl

theorem oneActive_step : MtsStep oneReady (.getNext 0 calm, .task 1) oneActive := rfl

theorem oneBlocked_step : MtsStep oneActive (.block 1, .status .switch) oneBlocked := rfl

theorem oneActive_locked : Locked oneActive noLock := by
  have hstart : Locked oneCpu noLock := ⟨rfl, rfl⟩
  have hready : Locked oneReady noLock := hstart.schedule 0 1 0 (some 4096) 0
  have hret : mtsGetNext oneReady 0 calm = some (1, oneActive) := rfl
  refine hready.getNext ?_ hret
  rintro ⟨a, hactive, -⟩
  have hnone : (oneReady.rq 0).active = none := rfl
  exact absurd (hnone.symm.trans hactive) (by simp)

theorem schedule_locks_free : Locked oneReady noLock := by
  have hstart : Locked oneCpu noLock := ⟨rfl, rfl⟩
  have hall := (mts_locks_free_iff hstart (.schedule 0 1 0 (some 4096) 0)).mpr id
  exact hall _ _ oneReady_step

/-- A second `mts_get_next` in a row keeps the lock, so that a third waits for it for ever. -/
theorem second_get_next_keeps_lock :
    Locked oneActive noLock ∧
      (∃ calls, Run MtsStep oneCpu calls oneActive) ∧
      MtsStep oneActive (.getNext 0 calm, .task 1) (oneActive.after (.getNext 0 calm)) ∧
      (oneActive.after (.getNext 0 calm)).held (.rq 0) = true ∧
      ((oneActive.after (.getNext 0 calm)).after (.getNext 0 calm)).misused = true :=
  ⟨oneActive_locked, ⟨_, .snoc (.snoc .nil oneReady_step) oneActive_step⟩, rfl, rfl, rfl⟩

end Sched
end Micael
