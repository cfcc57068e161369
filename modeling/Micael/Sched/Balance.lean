import Micael.Sched.OnePlace

/-!
# New tasks are spread over the processors

`mts_schedule` gives a new task to the processor that has the fewest tasks, the first one of these,
and stores the index of that processor in the task.  The slab cache serves entries that are not
allocated.  A call is successful when its status is not an error, and then the heap took the entry.

A task may be scheduled more than once; `task->cpu` is then about its latest entry.

Main results:

- Theorem {lit}`leastLoaded_le`: the loop ends at a processor with the fewest tasks.
- Theorem {lit}`Spread.step`: a successful call keeps the numbers of tasks within one of each other.
- Theorem {lit}`mts_schedule_balances`: after every successful call, the numbers of tasks of any two
  processors differ by one at most, and the entry of a task is in the heap that `task->cpu` names.
-/

namespace Micael
namespace Sched

open Foundation Lib

/-! ## The selection loop -/

/-- The processor that is selected has as few tasks as any. -/
theorem leastLoaded_le (s : Mts) {n c : Nat} (hc : c < n) :
    (s.rq (leastLoaded s n)).ntasks.toNat ≤ (s.rq c).ntasks.toNat := by
  induction n with
  | zero => exact absurd hc (Nat.not_lt_zero c)
  | succ n ih =>
      rw [leastLoaded]
      by_cases hless : (s.rq n).ntasks < (s.rq (leastLoaded s n)).ntasks
      · rw [if_pos hless]
        rw [UInt64.lt_iff_toNat_lt] at hless
        rcases Nat.lt_succ_iff_lt_or_eq.mp hc with hlt | rfl
        · exact le_trans (le_of_lt hless) (ih hlt)
        · exact le_refl _
      · rw [if_neg hless]
        rw [UInt64.lt_iff_toNat_lt] at hless
        rcases Nat.lt_succ_iff_lt_or_eq.mp hc with hlt | rfl
        · exact ih hlt
        · exact not_lt.mp hless

/-! ## Successful calls -/

/-- A call of `mts_schedule`, with the entry that the slab cache serves and what an insertion leaves
in the return register. -/
structure ScheduleCall where
  me : Nat
  task : Nat
  nice : Int
  entry : Nat
  garbage : Int
deriving DecidableEq, Repr

/-- `mts_schedule` with the arguments of a call. -/
def ScheduleCall.exec (call : ScheduleCall) (s : Mts) : Status × Mts :=
  mtsSchedule s call.me call.task call.nice (some call.entry) call.garbage

/-- A successful call, for an entry that is not allocated. -/
structure ScheduleStep (s : Mts) (call : ScheduleCall) (s' : Mts) : Prop where
  fresh : s.live call.entry = false
  accepted : (call.exec s).1.accepted = true
  result : (call.exec s).2 = s'

/-- The entry that the latest call for a task gave it. -/
def latestEntry (calls : List ScheduleCall) (task : Nat) : Option Nat :=
  (calls.reverse.find? fun call => call.task = task).map ScheduleCall.entry

theorem latestEntry_concat (calls : List ScheduleCall) (call : ScheduleCall) (task : Nat) :
    latestEntry (calls ++ [call]) task =
      if call.task = task then some call.entry else latestEntry calls task := by
  unfold latestEntry
  rw [List.reverse_append, List.reverse_singleton, List.singleton_append, List.find?_cons]
  by_cases htask : call.task = task
  · simp [htask]
  · simp [htask]

/-- What a successful call does. -/
theorem ScheduleStep.scheduled {s s' : Mts} {call : ScheduleCall}
    (hqueue : ∀ c, QueueOk (s.rq c).pqueue) (hstep : ScheduleStep s call s') :
    ∃ c, Scheduled s s' call.task call.nice c call.entry := by
  have haccepted := hstep.accepted
  unfold ScheduleCall.exec at haccepted
  have hcases := @mtsSchedule_cases s call.task call.nice (some call.entry) call.me call.garbage
    hqueue
  rcases hcases with ⟨⟨e, herror⟩, -⟩ | ⟨c, p, -, ⟨e, herror⟩, -⟩ | ⟨c, p, hp, -, hdone⟩
  · rw [herror] at haccepted
    exact absurd haccepted (by simp [Status.accepted])
  · rw [herror] at haccepted
    exact absurd haccepted (by simp [Status.accepted])
  · obtain rfl := Option.some.inj hp
    exact ⟨c, hstep.result ▸ hdone⟩

/-! ## Balance -/

/-- The tasks are spread over `ncpu` processors: a run queue counts the entries of its heap, the
counts are within one of each other, and the latest entry of every task is in the heap of the
processor the task names, and in no other. -/
structure Spread (ncpu : Nat) (calls : List ScheduleCall) (s : Mts) : Prop where
  cpus : s.ncpu = ncpu
  queue : ∀ c, QueueOk (s.rq c).pqueue
  counted : ∀ c, (s.rq c).ntasks.toNat = (s.rq c).pqueue.size
  even : ∀ c < ncpu, ∀ c' < ncpu, (s.rq c).ntasks.toNat ≤ (s.rq c').ntasks.toNat + 1
  alive : ∀ c, ∀ p ∈ readyAt s c, s.live p = true
  latest : ∀ task p, latestEntry calls task = some p →
    s.live p = true ∧ (s.st p).task = task ∧ s.cpu task < ncpu ∧
      ∀ c, p ∈ readyAt s c ↔ c = s.cpu task

variable {s s' : Mts} {ncpu task c p : Nat} {nice : Int} {calls : List ScheduleCall}

theorem Spread.start (ncpu : Nat) (idle : Nat → Nat) (garbage : Nat → Elem Nat)
    (st : Nat → SchedTask) (cpu : Nat → Nat) :
    Spread ncpu [] (mtsStart ncpu idle garbage st cpu) where
  cpus := rfl
  queue _ := bhInit_queueOk garbage
  counted _ := rfl
  even _ _ _ _ := Nat.zero_le _
  alive c p hp := by
    rw [readyAt_mtsStart] at hp
    exact absurd hp (Multiset.notMem_zero p)
  latest _ _ hlatest := absurd hlatest (by simp [latestEntry])

theorem Scheduled.size_self (hs : Scheduled s s' task nice c p) :
    (s'.rq c).pqueue.size = (s.rq c).pqueue.size + 1 := by
  have hcard := congrArg Multiset.card hs.ready
  simpa only [readyAt, Multiset.card_cons, card_payloads] using hcard

/-- The count of a heap that has at most 256 entries does not wrap. -/
theorem Scheduled.ntasks_self (hs : Scheduled s s' task nice c p)
    (hcounted : (s.rq c).ntasks.toNat = (s.rq c).pqueue.size) :
    (s'.rq c).ntasks.toNat = (s.rq c).ntasks.toNat + 1 := by
  have hfits := hs.queue.holds.fits
  rw [Bheap.card_pairs, hs.size_self] at hfits
  rw [hs.rq_self]
  simp only [RunQueue.count, UInt64.toNat_add, UInt64.toNat_one]
  omega

theorem Scheduled.readyAt_other {c' : Nat} (hs : Scheduled s s' task nice c p) (hc : c' ≠ c) :
    readyAt s' c' = readyAt s c' := by
  rw [readyAt, hs.rq_other hc, readyAt]

theorem Scheduled.mem_readyAt {c' q : Nat} (hs : Scheduled s s' task nice c p) :
    q ∈ readyAt s' c' ↔ (c' = c ∧ q = p) ∨ q ∈ readyAt s c' := by
  by_cases hc : c' = c
  · subst hc
    rw [hs.ready, Multiset.mem_cons]
    simp
  · rw [hs.readyAt_other hc]
    simp [hc]

/-- Of two counts that are within one of each other, one that is not above the other may grow. -/
theorem Spread.even_scheduled (h : Spread ncpu calls s) (hs : Scheduled s s' task nice c p)
    {i j : Nat} (hi : i < ncpu) (hj : j < ncpu) :
    (s'.rq i).ntasks.toNat ≤ (s'.rq j).ntasks.toNat + 1 := by
  have hgrown := hs.ntasks_self (h.counted c)
  have hleast : (s.rq c).ntasks.toNat ≤ (s.rq j).ntasks.toNat := by
    rw [hs.least]
    exact leastLoaded_le s (h.cpus ▸ hj)
  have heven := h.even i hi j hj
  have hlow := h.even i hi c (h.cpus ▸ hs.bound)
  by_cases hic : i = c
  · subst hic
    by_cases hji : j = i
    · rw [hji]
      omega
    · rw [hs.rq_other hji, hgrown]
      omega
  · rw [hs.rq_other hic]
    by_cases hjc : j = c
    · rw [hjc, hgrown]
      omega
    · rw [hs.rq_other hjc]
      exact heven

/-- An entry that was allocated keeps its place, its task and its processor. -/
theorem Spread.latest_scheduled {call : ScheduleCall} (h : Spread ncpu calls s)
    (hs : Scheduled s s' call.task call.nice c call.entry) (hfresh : s.live call.entry = false)
    {t q : Nat} (hlatest : latestEntry (calls ++ [call]) t = some q) :
    s'.live q = true ∧ (s'.st q).task = t ∧ s'.cpu t < ncpu ∧
      ∀ c', q ∈ readyAt s' c' ↔ c' = s'.cpu t := by
  rw [latestEntry_concat] at hlatest
  by_cases htask : call.task = t
  · rw [if_pos htask] at hlatest
    obtain rfl := Option.some.inj hlatest
    have hcpu : s'.cpu t = c := by rw [hs.cpu, htask, Function.update_self]
    refine ⟨by rw [hs.live, Function.update_self], ?_, ?_, fun c' => ?_⟩
    · rw [hs.st, Function.update_self]
      exact htask
    · rw [hcpu, ← h.cpus]
      exact hs.bound
    · rw [hs.mem_readyAt, hcpu]
      constructor
      · rintro (⟨hc, -⟩ | hold)
        · exact hc
        · exact absurd (h.alive c' _ hold) (by simp [hfresh])
      · intro hc
        exact .inl ⟨hc, rfl⟩
  · rw [if_neg htask] at hlatest
    obtain ⟨hlive, hst, hbound, hplace⟩ := h.latest t q hlatest
    have hne : q ≠ call.entry := by
      rintro rfl
      exact absurd hlive (by simp [hfresh])
    have hcpu : s'.cpu t = s.cpu t := by rw [hs.cpu, Function.update_of_ne (Ne.symm htask)]
    refine ⟨?_, ?_, hcpu ▸ hbound, fun c' => ?_⟩
    · rw [hs.live, Function.update_of_ne hne]
      exact hlive
    · rw [hs.st, Function.update_of_ne hne]
      exact hst
    · rw [hs.mem_readyAt, hcpu, ← hplace c']
      simp [hne]

/-- A successful call keeps the tasks spread. -/
theorem Spread.step {call : ScheduleCall} (h : Spread ncpu calls s)
    (hstep : ScheduleStep s call s') : Spread ncpu (calls ++ [call]) s' := by
  obtain ⟨c, hs⟩ := hstep.scheduled h.queue
  refine ⟨hs.ncpu.trans h.cpus, fun c' => ?_, fun c' => ?_, ?_, ?_, ?_⟩
  · by_cases hc : c' = c
    · rw [hc]
      exact hs.queue
    · rw [hs.rq_other hc]
      exact h.queue c'
  · by_cases hc : c' = c
    · rw [hc, hs.ntasks_self (h.counted c), hs.size_self, h.counted c]
    · rw [hs.rq_other hc]
      exact h.counted c'
  · intro i hi j hj
    exact h.even_scheduled hs hi hj
  · intro c' q hq
    rw [hs.live]
    rcases hs.mem_readyAt.mp hq with ⟨-, rfl⟩ | hold
    · rw [Function.update_self]
    · have hne : q ≠ call.entry := by
        rintro rfl
        exact absurd (h.alive c' _ hold) (by simp [hstep.fresh])
      rw [Function.update_of_ne hne]
      exact h.alive c' q hold
  · intro t q hlatest
    exact h.latest_scheduled hs hstep.fresh hlatest

/-- From processors with empty run queues, after every sequence of successful calls the numbers of
tasks of any two processors differ by one at most, and the latest entry of every task that was
scheduled is in the heap of the processor `task->cpu` and in no other. -/
theorem mts_schedule_balances {idle : Nat → Nat} {garbage : Nat → Elem Nat} {st : Nat → SchedTask}
    {cpu : Nat → Nat} (hrun : Run ScheduleStep (mtsStart ncpu idle garbage st cpu) calls s) :
    (∀ c < ncpu, ∀ c' < ncpu, (s.rq c).ntasks.toNat ≤ (s.rq c').ntasks.toNat + 1) ∧
      ∀ task p, latestEntry calls task = some p →
        (s.st p).task = task ∧ s.cpu task < ncpu ∧ ∀ c, p ∈ readyAt s c ↔ c = s.cpu task := by
  have hspread : Spread ncpu calls s := by
    induction hrun with
    | nil => exact .start ncpu idle garbage st cpu
    | snoc _ hlast ih => exact ih.step hlast
  refine ⟨hspread.even, fun task p hlatest => ?_⟩
  obtain ⟨-, hplace⟩ := hspread.latest task p hlatest
  exact hplace

/-- Two processors. -/
def twoCpus : Mts := mtsStart 2 (fun _ => 0) (fun _ => ⟨0, 0⟩) (fun _ => newEntry 0 0 0) fun _ => 7

/-- The two processors after a first task. -/
def twoCpusOne : Mts := ((⟨0, 1, 0, 4096, 0⟩ : ScheduleCall).exec twoCpus).2

/-- The two processors after a second task. -/
def twoCpusTwo : Mts := ((⟨0, 2, 4, 8192, 0⟩ : ScheduleCall).exec twoCpusOne).2

/-- The second of two tasks goes to the second processor. -/
theorem second_task_on_second_cpu :
    (twoCpusTwo.rq 0).ntasks.toNat ≤ (twoCpusTwo.rq 1).ntasks.toNat + 1 ∧
      twoCpusTwo.cpu 2 = 1 ∧ 8192 ∈ readyAt twoCpusTwo 1 := by
  have hfirst : ScheduleStep twoCpus ⟨0, 1, 0, 4096, 0⟩ twoCpusOne := ⟨rfl, rfl, rfl⟩
  have hsecond : ScheduleStep twoCpusOne ⟨0, 2, 4, 8192, 0⟩ twoCpusTwo := ⟨rfl, rfl, rfl⟩
  have hrun := mts_schedule_balances (.snoc (.snoc .nil hfirst) hsecond)
  refine ⟨hrun.1 0 (by simp) 1 (by simp), rfl, ?_⟩
  exact ((hrun.2 2 8192 rfl).2.2 1).mpr rfl

end Sched
end Micael
