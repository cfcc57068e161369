import Micael.Sched.Moves

/-!
# Every task is in one place

With one processor, a task that was scheduled and not unscheduled is the active task, is ready once in
the heap, or waits once on the wait list.  A task that is blocked while it is active is on the wait
list at once, and stays the active task until the next `mts_get_next`, which drops it.

The calls are careful, which leaves out what the scheduler does not provide for: that a task of higher
priority is ready while the active one is blocked or unscheduled, that a blocked task is woken while it
is still the active one, that a task comes back to a full heap, that the entry of a task that was once blocked is freed
with links into the wait list, and that a task used its time without a tick that noticed.

Main results:

- Theorem {lit}`Tracked.step`: a careful call keeps every task of the history in its place.
- Theorem {lit}`mts_one_place`: in every run of careful calls, every task is in one place, and a task that
  is blocked is not returned by `mts_get_next`.
- Theorem {lit}`blocked_active_in_two_places`: the active task is in two places after it was blocked.
-/

namespace Micael
namespace Sched

open Foundation Lib

variable {s s' : Mts} {W : List Nat}

/-! ## What no call changes -/

/-- The number of processors, their idle tasks and the tasks of the entries are the same. -/
structure SameTasks (s s' : Mts) : Prop where
  ncpu : s'.ncpu = s.ncpu
  idle : ∀ c, (s'.rq c).idle = (s.rq c).idle
  task : ∀ k, (s'.st k).task = (s.st k).task

theorem SameTasks.refl (s : Mts) : SameTasks s s := ⟨rfl, fun _ => rfl, fun _ => rfl⟩

theorem SameTasks.trans {s'' : Mts} (h : SameTasks s s') (h' : SameTasks s' s'') :
    SameTasks s s'' :=
  ⟨h'.ncpu.trans h.ncpu, fun c => (h'.idle c).trans (h.idle c),
    fun k => (h'.task k).trans (h.task k)⟩

theorem SameButLocks.sameTasks (h : SameButLocks s s') : SameTasks s s' :=
  ⟨h.ncpu, fun c => by rw [h.rq], fun k => by rw [h.st]⟩

theorem SameTasks.release (h : SameTasks s s') (l : LockId) : SameTasks s (s'.spinRelease l) :=
  h.trans (SameButLocks.release s' l).sameTasks

theorem SameTasks.setRq {c : Nat} {q : RunQueue} (h : SameTasks s s')
    (hidle : q.idle = (s'.rq c).idle) : SameTasks s (s'.setRq c q) := by
  refine ⟨h.ncpu, fun c' => ?_, h.task⟩
  by_cases hc : c' = c
  · subst hc
    rw [Mts.setRq_rq, Function.update_self, hidle, h.idle]
  · rw [Mts.setRq_rq, Function.update_of_ne hc, h.idle]

theorem SameTasks.setSt {p : Nat} {t : SchedTask} (h : SameTasks s s')
    (htask : t.task = (s'.st p).task) : SameTasks s (s'.setSt p t) := by
  refine ⟨h.ncpu, h.idle, fun k => ?_⟩
  by_cases hk : k = p
  · subst hk
    rw [Mts.setSt_st, Function.update_self, htask, h.task]
  · rw [Mts.setSt_st, Function.update_of_ne hk, h.task]

theorem scheduleTask_sameTasks (s : Mts) (me p : Nat) (switchTask : Bool) (fl : Floats) :
    SameTasks s (scheduleTask s me p switchTask fl).1 := by
  by_cases hstate : (s.st p).state = .plain .ready
  · rw [scheduleTask, if_pos hstate]
    exact .refl s
  · refine ⟨(scheduleTask_frame s me p switchTask fl).2.2.2, fun c => ?_, fun k => ?_⟩
    · rw [scheduleTask_rq hstate]
      rfl
    · rw [scheduleTask_st hstate]
      by_cases hk : k = p
      · subst hk
        rw [Function.update_self, rescheduled_task]
      · rw [Function.update_of_ne hk]

theorem requeueActive_sameTasks (s : Mts) (me : Nat) (fl : Floats) :
    SameTasks s (requeueActive s me fl) := by
  unfold requeueActive
  cases (s.rq me).active with
  | none => exact .refl s
  | some a => exact scheduleTask_sameTasks s me a true fl

theorem setupActive_sameTasks {me t : Nat} {prio : Int} {fl : Floats}
    (hret : setupActive s me prio fl = some (t, s')) : SameTasks s s' := by
  unfold setupActive at hret
  by_cases hprio : prio = intMin
  · rw [if_pos hprio] at hret
    obtain ⟨-, rfl⟩ := Prod.mk.inj (Option.some.inj hret)
    apply SameTasks.release
    exact (SameTasks.refl s).setRq rfl
  · rw [if_neg hprio] at hret
    generalize bhRemoveMax (s.rq me).pqueue = popped at hret
    obtain ⟨found, pqueue⟩ := popped
    cases found with
    | error e => exact absurd hret (by simp)
    | ok p =>
        obtain ⟨-, rfl⟩ := Prod.mk.inj (Option.some.inj hret)
        have hpop : SameTasks s (s.setRq me { s.rq me with pqueue := pqueue }) :=
          (SameTasks.refl s).setRq rfl
        have hqueued := hpop.trans (requeueActive_sameTasks _ me fl)
        generalize requeueActive (s.setRq me { s.rq me with pqueue := pqueue }) me fl = s₂ at *
        apply SameTasks.release
        apply SameTasks.setRq
        · exact hqueued.setSt rfl
        · rfl

theorem freeEntry_sameTasks (s : Mts) (p : Nat) : SameTasks s (s.freeEntry p) := by
  obtain ⟨hncpu, hrq, hst, -⟩ := freeEntry_fields s p
  exact ⟨hncpu, fun c => by rw [hrq], fun k => by rw [hst]⟩

theorem NextPath.sameTasks {me t : Nat} {fl : Floats} (h : NextPath s me fl t s') :
    SameTasks s s' := by
  cases h with
  | none hactive hret => exact setupActive_sameTasks hret
  | free a hactive hstate hret =>
      have hdrop : SameTasks s ((s.freeEntry a).dropActive me) :=
        (freeEntry_sameTasks s a).setRq rfl
      exact hdrop.trans (setupActive_sameTasks hret)
  | drop a hactive hstate hret =>
      have hdrop : SameTasks s (s.dropActive me) := (SameTasks.refl s).setRq rfl
      exact hdrop.trans (setupActive_sameTasks hret)
  | requeue a s₁ hactive hruns hs₁ hstate hprio hret =>
      rcases hs₁ with rfl | rfl
      · exact setupActive_sameTasks hret
      · have hpreempt : SameTasks s (s.preempt a) := (SameTasks.refl s).setSt rfl
        exact hpreempt.trans (setupActive_sameTasks hret)
  | stay a hactive hruns htask hsame =>
      rw [hsame]
      exact .refl s
  | inPlace a hactive hruns hneed hins htask hret =>
      rw [hret]
      exact (scheduleTask_sameTasks s me a false fl).release _
  | penalised a hactive hruns hneed hins hret =>
      exact (scheduleTask_sameTasks s me a false fl).trans (setupActive_sameTasks hret)

theorem mtsTick_sameTasks (s : Mts) (me : Nat) : SameTasks s (mtsTick s me).2 := by
  unfold mtsTick
  cases (s.rq me).active with
  | none =>
      simp only
      split_ifs <;> exact .refl s
  | some a =>
      simp only
      rw [tickActive_eq]
      apply SameTasks.setSt
      · exact (SameTasks.refl s).setRq rfl
      · rfl

theorem park_sameTasks (s : Mts) (pqueue : Bheap Nat) (p : Nat) :
    SameTasks s (s.park pqueue p) := by
  refine ⟨rfl, fun c => ?_, fun k => ?_⟩
  · by_cases hc : c = 0
    · subst hc
      simp [Mts.park]
    · simp [Mts.park, hc]
  · by_cases hk : k = p
    · subst hk
      simp [Mts.park]
    · simp [Mts.park, hk]

theorem leave_sameTasks (s : Mts) (c p : Nat) : SameTasks s (s.leave c p) := by
  apply SameTasks.setRq
  · exact (SameTasks.refl s).setSt rfl
  · rfl

theorem mtsUnblock_sameTasks {turns me task : Nat} {fl : Floats} {r : Status} (hp : Placed s W)
    (hcare : CarefulUnblock s me task) (hret : mtsUnblock turns s me task fl = some (r, s')) :
    SameTasks s s' := by
  rcases mtsUnblock_cases hp.places hcare hret with hsame | ⟨p, s₁, -, -, hunlink, hsame⟩
  · exact hsame.sameTasks
  · have hfirst : SameTasks s (s.unlink p) := ⟨rfl, fun _ => rfl, fun _ => rfl⟩
    have hwoken := (hfirst.trans hunlink.sameTasks).trans (scheduleTask_sameTasks s₁ me p true fl)
    exact hwoken.trans hsame.sameTasks

theorem mtsUnschedule_sameTasks {task : Nat} {r : Status} (hp : Placed s W)
    (hret : mtsUnschedule s task = some (r, s')) : SameTasks s s' := by
  rcases mtsUnschedule_cases hp.places hret with
    ⟨-, -, rfl⟩ | ⟨a, -, -, rfl⟩ | ⟨a, p, pqueue, s₁, -, -, -, hsame, hout⟩
  · exact .refl _
  · exact leave_sameTasks s _ a
  · have hqueue : SameTasks s (s.unqueue (s.cpu task) pqueue) := (SameTasks.refl s).setRq rfl
    have hfreed := (hqueue.trans hsame.sameTasks).trans (freeEntry_sameTasks s₁ p)
    exact hfreed.trans hout.sameTasks

/-! ## Histories -/

/-- A status that is not an error. -/
def Status.accepted : Status → Bool
  | .error _ => false
  | _ => true

/-- Whether a task is scheduled and not unscheduled after one more call. -/
def scheduledAfter (task : Nat) (before : Bool) : MtsCall × MtsRet → Bool
  | (.schedule _ t _ _ _, .status r) => if t = task ∧ r.accepted then true else before
  | (.unschedule t, _) => if t = task then false else before
  | _ => before

/-- Whether a task was scheduled and not unscheduled by the calls. -/
def scheduledBy (task : Nat) (calls : List (MtsCall × MtsRet)) : Bool :=
  calls.foldl (scheduledAfter task) false

/-- Whether a task is blocked and not unblocked after one more call. -/
def blockedAfter (task : Nat) (before : Bool) : MtsCall × MtsRet → Bool
  | (.block t, _) => if t = task then true else before
  | (.unblock _ _ t _, _) => if t = task then false else before
  | (.unschedule t, _) => if t = task then false else before
  | _ => before

/-- Whether a task was blocked and not unblocked by the calls. -/
def blockedBy (task : Nat) (calls : List (MtsCall × MtsRet)) : Bool :=
  calls.foldl (blockedAfter task) false

theorem scheduledBy_concat (task : Nat) (calls : List (MtsCall × MtsRet)) (call : MtsCall × MtsRet) :
    scheduledBy task (calls ++ [call]) = scheduledAfter task (scheduledBy task calls) call := by
  simp [scheduledBy]

theorem blockedBy_concat (task : Nat) (calls : List (MtsCall × MtsRet)) (call : MtsCall × MtsRet) :
    blockedBy task (calls ++ [call]) = blockedAfter task (blockedBy task calls) call := by
  simp [blockedBy]

/-! ## Careful calls -/

/-- The calls that the scheduler provides for. -/
def Careful (s : Mts) : MtsCall → Prop
  | .schedule _ task _ mem _ => CarefulSchedule s task mem
  | .tick me => CarefulTick s me
  | .getNext me fl => CarefulGetNext s me fl
  | .block task => CarefulBlock s task
  | .unblock _ me task _ => CarefulUnblock s me task
  | .unschedule task => CarefulUnschedule s task

/-- An entry that is runnable or waits. -/
def Present (s : Mts) (W : List Nat) (p : Nat) : Prop := (∃ c, p ∈ runnable s c) ∨ p ∈ W

/-- The entries are in their places, and the tasks of the history have entries there. -/
structure Tracked (s : Mts) (W : List Nat) (calls : List (MtsCall × MtsRet)) : Prop where
  placed : Placed s W
  scheduled : ∀ task, scheduledBy task calls = true → ∃ p, Present s W p ∧ (s.st p).task = task
  blocked : ∀ task, blockedBy task calls = true → ∃ p ∈ W, (s.st p).task = task

section Steps

variable {calls : List (MtsCall × MtsRet)} {call : MtsCall × MtsRet}

/-- A call that neither schedules nor blocks, and keeps the entries where they are. -/
theorem Tracked.keep (h : Tracked s W calls) (hp : Placed s' W) (hrun : runnable s' = runnable s)
    (htasks : ∀ k, s.live k = true → (s'.st k).task = (s.st k).task)
    (hscheduled : ∀ task, scheduledBy task (calls ++ [call]) = true → scheduledBy task calls = true)
    (hblocked : ∀ task, blockedBy task (calls ++ [call]) = true → blockedBy task calls = true) :
    Tracked s' W (calls ++ [call]) := by
  refine ⟨hp, fun task ht => ?_, fun task ht => ?_⟩
  · obtain ⟨p, hpresent, htask⟩ := h.scheduled task (hscheduled task ht)
    refine ⟨p, ?_, (htasks p ?_).trans htask⟩
    · unfold Present
      rw [hrun]
      exact hpresent
    · rcases hpresent with ⟨c, hc⟩ | hw
      · exact (h.placed.places.home c p hc).1
      · exact (h.placed.places.waiting p hw).1
  · obtain ⟨p, hw, htask⟩ := h.blocked task (hblocked task ht)
    exact ⟨p, hw, (htasks p (h.placed.places.waiting p hw).1).trans htask⟩

theorem Tracked.schedule {me task : Nat} {nice garbage : Int} {mem : Option Nat}
    (h : Tracked s W calls) (hcare : CarefulSchedule s task mem) :
    Tracked (mtsSchedule s me task nice mem garbage).2 W
      (calls ++ [(.schedule me task nice mem garbage,
        .status (mtsSchedule s me task nice mem garbage).1)]) := by
  rcases mtsSchedule_cases me garbage h.placed.places.queue with
    ⟨⟨e, hstatus⟩, hfailed⟩ | ⟨c, p, hmem, ⟨e, hstatus⟩, hs⟩ | ⟨c, p, hmem, -, hs⟩
  · obtain ⟨hp, hrun⟩ := hfailed.placed h.placed hcare.single
    refine h.keep hp hrun (fun k _ => by rw [hfailed.st]) (fun t ht => ?_) fun t ht => ?_
    · rw [scheduledBy_concat] at ht
      simpa [scheduledAfter, hstatus, Status.accepted] using ht
    · rw [blockedBy_concat] at ht
      exact ht
  · obtain ⟨hp, hrun⟩ := hs.placed h.placed hcare hmem
    refine h.keep hp hrun (fun k hlive => ?_) (fun t ht => ?_) fun t ht => ?_
    · have hkp : k ≠ p := fun heq => by simp [heq, hcare.fresh p hmem] at hlive
      rw [hs.st, Function.update_of_ne hkp]
    · rw [scheduledBy_concat] at ht
      simpa [scheduledAfter, hstatus, Status.accepted] using ht
    · rw [blockedBy_concat] at ht
      exact ht
  · obtain ⟨hp, hrun⟩ := hs.placed h.placed hcare hmem
    have hkeep : ∀ k, s.live k = true →
        ((mtsSchedule s me task nice mem garbage).2.st k).task = (s.st k).task := by
      intro k hlive
      have hkp : k ≠ p := fun heq => by simp [heq, hcare.fresh p hmem] at hlive
      rw [hs.st, Function.update_of_ne hkp]
    have hself : ((mtsSchedule s me task nice mem garbage).2.st p).task = task := by
      rw [hs.st, Function.update_self]
      rfl
    generalize (mtsSchedule s me task nice mem garbage).1 = r at *
    generalize (mtsSchedule s me task nice mem garbage).2 = s' at *
    refine ⟨hp, fun t ht => ?_, fun t ht => ?_⟩
    · by_cases htask : task = t
      · refine ⟨p, .inl ⟨c, ?_⟩, hself.trans htask⟩
        rw [hrun, Function.update_self]
        exact Multiset.mem_cons_self p _
      · rw [scheduledBy_concat] at ht
        simp only [scheduledAfter, htask, false_and, if_false] at ht
        obtain ⟨k, hpresent, hk⟩ := h.scheduled t ht
        rcases hpresent with ⟨c', hc'⟩ | hw
        · refine ⟨k, .inl ⟨c', ?_⟩, (hkeep k (h.placed.places.home c' k hc').1).trans hk⟩
          rw [hrun]
          by_cases hc : c' = c
          · subst hc
            rw [Function.update_self]
            exact Multiset.mem_cons_of_mem hc'
          · rwa [Function.update_of_ne hc]
        · exact ⟨k, .inr hw, (hkeep k (h.placed.places.waiting k hw).1).trans hk⟩
    · rw [blockedBy_concat] at ht
      obtain ⟨k, hw, hk⟩ := h.blocked t ht
      exact ⟨k, hw, (hkeep k (h.placed.places.waiting k hw).1).trans hk⟩

theorem Tracked.block {task : Nat} {r : Status} (h : Tracked s W calls)
    (hcare : CarefulBlock s task) (hret : mtsBlock s task = some (r, s')) :
    ∃ p, Tracked s' (p :: W) (calls ++ [(.block task, .status r)]) := by
  obtain ⟨p, pqueue, rest, htaken, hsame, hrest, hplaced, hrun⟩ :=
    mtsBlock_spec h.placed hcare hret
  have htasks := ((park_sameTasks s pqueue p).trans hsame.sameTasks).task
  refine ⟨p, hplaced, fun t ht => ?_, fun t ht => ?_⟩
  · rw [scheduledBy_concat] at ht
    obtain ⟨k, hpresent, hk⟩ := h.scheduled t ht
    refine ⟨k, ?_, (htasks k).trans hk⟩
    rcases hpresent with ⟨c, hc⟩ | hw
    · by_cases hkp : k = p
      · exact .inr (hkp ▸ List.mem_cons_self)
      · refine .inl ⟨c, ?_⟩
        rw [hrun]
        by_cases hc0 : c = 0
        · subst hc0
          rw [Function.update_self]
          rw [hrest] at hc
          exact (Multiset.mem_cons.mp hc).resolve_left hkp
        · rwa [Function.update_of_ne hc0]
    · exact .inr (List.mem_cons_of_mem p hw)
  · rw [blockedBy_concat] at ht
    by_cases htask : task = t
    · exact ⟨p, List.mem_cons_self, ((htasks p).trans htaken.1).trans htask⟩
    · simp only [blockedAfter, htask, if_false] at ht
      obtain ⟨k, hw, hk⟩ := h.blocked t ht
      exact ⟨k, List.mem_cons_of_mem p hw, (htasks k).trans hk⟩

theorem Tracked.unblock {turns me task : Nat} {fl : Floats} {r : Status} (h : Tracked s W calls)
    (hcare : CarefulUnblock s me task) (hret : mtsUnblock turns s me task fl = some (r, s')) :
    ∃ W', Tracked s' W' (calls ++ [(.unblock turns me task fl, .status r)]) := by
  have htasks := (mtsUnblock_sameTasks h.placed hcare hret).task
  rcases mtsUnblock_spec h.placed hcare hret with
    hsame | ⟨p, as, bs, hptask, rfl, hplaced, -, hrun⟩
  · obtain ⟨hp, hrun⟩ := hsame.placed h.placed
    refine ⟨W, h.keep hp hrun (fun k _ => htasks k) (fun t ht => ?_) fun t ht => ?_⟩
    · rw [scheduledBy_concat] at ht
      exact ht
    · rw [blockedBy_concat] at ht
      by_cases htask : task = t
      · simp [blockedAfter, htask] at ht
      · simpa [blockedAfter, htask] using ht
  · refine ⟨as ++ bs, hplaced, fun t ht => ?_, fun t ht => ?_⟩
    · rw [scheduledBy_concat] at ht
      obtain ⟨k, hpresent, hk⟩ := h.scheduled t ht
      refine ⟨k, ?_, (htasks k).trans hk⟩
      unfold Present
      rw [hrun]
      by_cases hkp : k = p
      · refine .inl ⟨0, ?_⟩
        rw [Function.update_self, hkp]
        exact Multiset.mem_cons_self p _
      · rcases hpresent with ⟨c, hc⟩ | hw
        · refine .inl ⟨c, ?_⟩
          by_cases hc0 : c = 0
          · subst hc0
            rw [Function.update_self]
            exact Multiset.mem_cons_of_mem hc
          · rwa [Function.update_of_ne hc0]
        · exact .inr (by simpa [hkp] using hw)
    · rw [blockedBy_concat] at ht
      by_cases htask : task = t
      · simp [blockedAfter, htask] at ht
      · simp only [blockedAfter, htask, if_false] at ht
        obtain ⟨k, hw, hk⟩ := h.blocked t ht
        have hkp : k ≠ p := by
          rintro rfl
          exact htask (hptask.symm.trans hk)
        exact ⟨k, by simpa [hkp] using hw, (htasks k).trans hk⟩

theorem Tracked.unschedule {task : Nat} {r : Status} (h : Tracked s W calls)
    (hcare : CarefulUnschedule s task) (hret : mtsUnschedule s task = some (r, s')) :
    Tracked s' W (calls ++ [(.unschedule task, .status r)]) := by
  have htasks := (mtsUnschedule_sameTasks h.placed hret).task
  have hscheduled : ∀ t, scheduledBy t (calls ++ [(.unschedule task, .status r)]) = true →
      task ≠ t ∧ scheduledBy t calls = true := by
    intro t ht
    rw [scheduledBy_concat] at ht
    by_cases htask : task = t
    · simp [scheduledAfter, htask] at ht
    · exact ⟨htask, by simpa [scheduledAfter, htask] using ht⟩
  have hblocked : ∀ t, blockedBy t (calls ++ [(.unschedule task, .status r)]) = true →
      blockedBy t calls = true := by
    intro t ht
    rw [blockedBy_concat] at ht
    by_cases htask : task = t
    · simp [blockedAfter, htask] at ht
    · simpa [blockedAfter, htask] using ht
  rcases mtsUnschedule_spec h.placed hcare hret with ⟨-, -, rfl⟩ | ⟨p, howner, hplaced, rest, hrest, hrun⟩
  · exact h.keep h.placed rfl (fun k _ => htasks k) (fun t ht => (hscheduled t ht).2) hblocked
  · refine ⟨hplaced, fun t ht => ?_, fun t ht => ?_⟩
    · obtain ⟨hne, ht⟩ := hscheduled t ht
      obtain ⟨k, hpresent, hk⟩ := h.scheduled t ht
      have hkp : k ≠ p := by
        rintro rfl
        exact hne (howner.symm.trans hk)
      refine ⟨k, ?_, (htasks k).trans hk⟩
      rcases hpresent with ⟨c, hc⟩ | hw
      · refine .inl ⟨c, ?_⟩
        rw [hrun]
        by_cases hcc : c = s.cpu task
        · subst hcc
          rw [Function.update_self]
          rw [hrest] at hc
          exact (Multiset.mem_cons.mp hc).resolve_left hkp
        · rwa [Function.update_of_ne hcc]
      · exact .inr hw
    · obtain ⟨k, hw, hk⟩ := h.blocked t (hblocked t ht)
      exact ⟨k, hw, (htasks k).trans hk⟩

theorem Tracked.getNext {me t : Nat} {fl : Floats} (h : Tracked s W calls)
    (hcare : CarefulGetNext s me fl) (hret : mtsGetNext s me fl = some (t, s')) :
    Tracked s' W (calls ++ [(.getNext me fl, .task t)]) := by
  have hs := mtsGetNext_spec h.placed hcare hret
  have htasks := (SameButLocks.acquire s (.rq me)).sameTasks.trans
    (mtsGetNext_path h.placed hcare hret).sameTasks
  refine h.keep hs.placed hs.kept (fun k _ => htasks.task k) (fun u hu => ?_) fun u hu => ?_
  · rwa [scheduledBy_concat] at hu
  · rwa [blockedBy_concat] at hu

theorem Tracked.tick {me : Nat} {r : Status} (h : Tracked s W calls) (hcare : CarefulTick s me) :
    Tracked (mtsTick s me).2 W (calls ++ [(.tick me, .status r)]) := by
  obtain ⟨hp, hrun⟩ := mtsTick_spec h.placed hcare
  refine h.keep hp hrun (fun k _ => (mtsTick_sameTasks s me).task k) (fun u hu => ?_)
    fun u hu => ?_
  · rwa [scheduledBy_concat] at hu
  · rwa [blockedBy_concat] at hu

/-- A careful call keeps every task of the history in its place. -/
theorem Tracked.step (h : Tracked s W calls) (hcare : Careful s call.1)
    (hstep : MtsStep s call s') : ∃ W', Tracked s' W' (calls ++ [call]) := by
  obtain ⟨op, ret⟩ := call
  cases op with
  | schedule me task nice mem garbage =>
      obtain ⟨rfl, rfl⟩ := Prod.mk.inj (Option.some.inj hstep)
      exact ⟨W, h.schedule hcare⟩
  | tick me =>
      obtain ⟨rfl, rfl⟩ := Prod.mk.inj (Option.some.inj hstep)
      exact ⟨W, h.tick hcare⟩
  | getNext me fl =>
      obtain ⟨t, hret, rfl⟩ := hstep.getNext
      exact ⟨W, h.getNext hcare hret⟩
  | block task =>
      obtain ⟨t, hret, rfl⟩ := hstep.block
      obtain ⟨p, hp⟩ := h.block hcare hret
      exact ⟨_, hp⟩
  | unblock turns me task fl =>
      obtain ⟨t, hret, rfl⟩ := hstep.unblock
      exact h.unblock hcare hret
  | unschedule task =>
      obtain ⟨t, hret, rfl⟩ := hstep.unschedule
      exact ⟨W, h.unschedule hcare hret⟩

end Steps

theorem Entered.idle {task c p : Nat} {nice : Int} (hs : Entered s s' task nice c p) (c' : Nat) :
    (s'.rq c').idle = (s.rq c').idle := by
  by_cases hc : c' = c
  · subst hc
    rw [hs.rq_self]
    rfl
  · rw [hs.rq_other hc]

/-- Neither the processors nor their idle tasks change. -/
theorem careful_fixed {call : MtsCall × MtsRet} (hp : Placed s W) (hcare : Careful s call.1)
    (hstep : MtsStep s call s') : s'.ncpu = s.ncpu ∧ ∀ c, (s'.rq c).idle = (s.rq c).idle := by
  obtain ⟨op, ret⟩ := call
  cases op with
  | schedule me task nice mem garbage =>
      obtain ⟨-, rfl⟩ := Prod.mk.inj (Option.some.inj hstep)
      rcases mtsSchedule_cases me garbage hp.places.queue with
        ⟨-, hfailed⟩ | ⟨c, p, -, -, hs⟩ | ⟨c, p, -, -, hs⟩
      · exact ⟨hfailed.ncpu, fun c => congrArg RunQueue.idle (congrFun hfailed.rq c)⟩
      · exact ⟨hs.ncpu, hs.idle⟩
      · exact ⟨hs.ncpu, hs.idle⟩
  | tick me =>
      obtain ⟨-, rfl⟩ := Prod.mk.inj (Option.some.inj hstep)
      exact ⟨(mtsTick_sameTasks s me).ncpu, (mtsTick_sameTasks s me).idle⟩
  | getNext me fl =>
      obtain ⟨t, hret, -⟩ := hstep.getNext
      have hsame := (SameButLocks.acquire s (.rq me)).sameTasks.trans
        (mtsGetNext_path hp hcare hret).sameTasks
      exact ⟨hsame.ncpu, hsame.idle⟩
  | block task =>
      obtain ⟨t, hret, -⟩ := hstep.block
      obtain ⟨p, pqueue, -, hout⟩ := mtsBlock_cases hp.places hcare hret
      have hsame := (park_sameTasks s pqueue p).trans hout.sameTasks
      exact ⟨hsame.ncpu, hsame.idle⟩
  | unblock turns me task fl =>
      obtain ⟨t, hret, -⟩ := hstep.unblock
      have hsame := mtsUnblock_sameTasks hp hcare hret
      exact ⟨hsame.ncpu, hsame.idle⟩
  | unschedule task =>
      obtain ⟨t, hret, -⟩ := hstep.unschedule
      have hsame := mtsUnschedule_sameTasks hp hret
      exact ⟨hsame.ncpu, hsame.idle⟩

/-! ## One place -/

/-- The task is `q->active` of the only processor. -/
def IsActive (s : Mts) (task : Nat) : Prop :=
  ∃ a, (s.rq 0).active = some a ∧ (s.st a).task = task

/-- How often the task occurs among entries. -/
def taskCount (s : Mts) (m : Multiset Nat) (task : Nat) : Nat :=
  (m.map fun p => (s.st p).task).count task

/-- The task is in exactly one place: it is `q->active`, or occurs once in `q->pqueue`, or occurs once
in the wait list `W`. -/
def OnePlace (s : Mts) (W : List Nat) (task : Nat) : Prop :=
  IsActive s task ∧ taskCount s (readyAt s 0) task = 0 ∧ taskCount s W task = 0 ∨
    ¬ IsActive s task ∧ taskCount s (readyAt s 0) task = 1 ∧ taskCount s W task = 0 ∨
    ¬ IsActive s task ∧ taskCount s (readyAt s 0) task = 0 ∧ taskCount s W task = 1

/-- The task was blocked while it was active: it is on the wait list and still `q->active`. -/
def StillActive (s : Mts) (W : List Nat) (task : Nat) : Prop :=
  (∃ a, (s.rq 0).active = some a ∧ (s.st a).task = task ∧ (s.st a).state = .plain .blocked) ∧
    taskCount s (readyAt s 0) task = 0 ∧ taskCount s W task = 1

theorem taskCount_eq_count {m : Multiset Nat} {p task : Nat} (htask : (s.st p).task = task)
    (hsingle : ∀ q ∈ m, (s.st q).task = task → q = p) : taskCount s m task = m.count p := by
  rw [taskCount, Multiset.count_map, Multiset.count_eq_card_filter_eq]
  congr 1
  refine Multiset.filter_congr fun q hq => ⟨fun heq => ?_, fun heq => ?_⟩
  · exact (hsingle q hq heq.symm).symm
  · rw [← heq, htask]

theorem nodup_of_ring {l : Links WaitNode} {c : Nat}
    (hring : ListRing l (.waitList c) (W.map .entry)) : W.Nodup :=
  (List.nodup_cons.mp hring.nodup).2.of_map

/-- An entry that is runnable or waits puts its task into one place. -/
theorem Placed.onePlace (hp : Placed s W) (hone : s.ncpu = 1) {p task : Nat}
    (hpresent : Present s W p) (htask : (s.st p).task = task) :
    (OnePlace s W task ∨ StillActive s W task) ∧
      (p ∈ W → taskCount s (readyAt s 0) task = 0 ∧ taskCount s W task = 1) := by
  have hlive : s.live p = true := by
    rcases hpresent with ⟨c, hc⟩ | hw
    · exact (hp.places.home c p hc).1
    · exact (hp.places.waiting p hw).1
  have hcpu : s.cpu (s.st p).task = 0 := by
    have hlt := hp.places.cpus p hlive
    omega
  have hunique : ∀ q, s.live q = true → (s.st q).task = task → q = p := fun q hq heq =>
    hp.places.single q p hq hlive (heq.trans htask.symm)
  have hready : taskCount s (readyAt s 0) task = (readyAt s 0).count p := by
    refine taskCount_eq_count htask fun q hq => hunique q ?_
    exact (hp.places.home 0 q (Multiset.mem_add.mpr (.inl hq))).1
  have hwait : taskCount s W task = Multiset.count p W :=
    taskCount_eq_count htask fun q hq => hunique q (hp.places.waiting q hq).1
  have hactive : IsActive s task ↔ (s.rq 0).active = some p := by
    refine ⟨?_, fun ha => ⟨p, ha, htask⟩⟩
    rintro ⟨a, ha, heq⟩
    rw [ha, hunique a (hp.active 0 a ha).live heq]
  have hnodup := hp.places.nodup 0
  rw [runnable] at hnodup
  rw [OnePlace, StillActive, hready, hwait, hactive]
  by_cases hw : p ∈ W
  · have hout : p ∉ readyAt s 0 := fun hmem =>
      (hp.places.runs_not_blocked (c := 0) (Multiset.mem_add.mpr (.inl hmem))).1 hw
    have hzero : (readyAt s 0).count p = 0 := Multiset.count_eq_zero.mpr hout
    have hcount : Multiset.count p (W : Multiset Nat) = 1 := by
      rw [Multiset.coe_count]
      exact List.count_eq_one_of_mem (nodup_of_ring hp.places.ring) hw
    refine ⟨?_, fun _ => ⟨hzero, hcount⟩⟩
    by_cases ha : (s.rq 0).active = some p
    · exact .inr ⟨⟨p, ha, htask, (hp.places.waiting p hw).2.2⟩, hzero, hcount⟩
    · exact .inl (.inr (.inr ⟨ha, hzero, hcount⟩))
  · refine ⟨.inl ?_, fun hmem => absurd hmem hw⟩
    have hcount : Multiset.count p (W : Multiset Nat) = 0 := Multiset.count_eq_zero.mpr hw
    obtain ⟨c, hc⟩ := hpresent.resolve_right hw
    obtain ⟨-, hhome, hruns⟩ := hp.places.home c p hc
    obtain rfl : c = 0 := hhome.symm.trans hcpu
    by_cases ha : (s.rq 0).active = some p
    · have hout := hp.active_not_ready ha hruns 0
      exact .inl ⟨ha, Multiset.count_eq_zero.mpr hout, hcount⟩
    · have hmem : p ∈ readyAt s 0 := by
        refine (Multiset.mem_add.mp hc).resolve_right fun hrunning => ha ?_
        unfold runningAt at hrunning
        cases hactive0 : (s.rq 0).active with
        | none => simp [hactive0] at hrunning
        | some a =>
            simp only [hactive0] at hrunning
            split_ifs at hrunning with hr
            · rw [Multiset.mem_singleton.mp hrunning]
            · simp at hrunning
      have hcountReady : (readyAt s 0).count p = 1 :=
        Multiset.count_eq_one_of_mem (Multiset.nodup_add.mp hnodup).1 hmem
      exact .inr (.inl ⟨ha, hcountReady, hcount⟩)

/-! ## Runs -/

/-- A call that the scheduler provides for, with its result. -/
def CarefulStep (s : Mts) (call : MtsCall × MtsRet) (s' : Mts) : Prop :=
  MtsStep s call s' ∧ Careful s call.1

section Runs

variable {ncpu : Nat} {idle : Nat → Nat} {garbage : Nat → Elem Nat} {st : Nat → SchedTask}
  {cpu : Nat → Nat} {calls : List (MtsCall × MtsRet)}

theorem mtsStart_tracked (ncpu : Nat) (idle : Nat → Nat) (garbage : Nat → Elem Nat)
    (st : Nat → SchedTask) (cpu : Nat → Nat) :
    Tracked (mtsStart ncpu idle garbage st cpu) [] [] := by
  refine ⟨mtsStart_placed .., fun task ht => ?_, fun task ht => ?_⟩
  · simp [scheduledBy] at ht
  · simp [blockedBy] at ht

/-- In every run of careful calls, the tasks of the history are in their places. -/
theorem run_tracked (hrun : Run CarefulStep (mtsStart ncpu idle garbage st cpu) calls s) :
    (∃ W, Tracked s W calls) ∧ s.ncpu = ncpu ∧ ∀ c, (s.rq c).idle = idle c := by
  induction hrun with
  | nil => exact ⟨⟨[], mtsStart_tracked ..⟩, rfl, fun _ => rfl⟩
  | snoc _ hlast ih =>
      obtain ⟨⟨W, h⟩, hncpu, hidle⟩ := ih
      obtain ⟨hncpu', hidle'⟩ := careful_fixed h.placed hlast.2 hlast.1
      exact ⟨h.step hlast.2 hlast.1, hncpu'.trans hncpu, fun c => (hidle' c).trans (hidle c)⟩

/-- `mts_get_next` returns the idle task, or the new active task, which is not blocked. -/
theorem run_getNext {before : List (MtsCall × MtsRet)} {me t : Nat} {fl : Floats}
    (hrun : Run CarefulStep (mtsStart ncpu idle garbage st cpu)
      (before ++ [(.getNext me fl, .task t)]) s) :
    (s.rq me).active = none ∧ t = idle me ∨
      (∃ a, (s.rq me).active = some a ∧ (s.st a).task = t ∧ (s.st a).state.runs = true) ∧
        blockedBy t before = false := by
  obtain ⟨s₀, hbefore, hstep, hcare⟩ := hrun.of_concat
  obtain ⟨⟨W, h⟩, -, hidle⟩ := run_tracked hbefore
  obtain ⟨t', hret, htask⟩ := hstep.getNext
  obtain rfl := MtsRet.task.inj htask
  have hs := mtsGetNext_spec h.placed hcare hret
  rcases hs.ret with ⟨hnone, rfl⟩ | ⟨p, hactive, rfl, hmem⟩
  · exact .inl ⟨hnone, hidle me⟩
  · have hruns : (s.st p).state.runs = true := by
      have hafter : p ∈ runnable s me := by rwa [hs.kept]
      exact (hs.placed.places.home me p hafter).2.2
    refine .inr ⟨⟨p, hactive, rfl, hruns⟩, Bool.eq_false_iff.mpr fun hblocked => ?_⟩
    have htasks := (SameButLocks.acquire s₀ (.rq me)).sameTasks.trans
      (mtsGetNext_path h.placed hcare hret).sameTasks
    obtain ⟨q, hw, hq⟩ := h.blocked _ hblocked
    have hlive := (h.placed.places.home me p hmem).1
    have hsame := h.placed.places.single q p (h.placed.places.waiting q hw).1 hlive
      (hq.trans (htasks.task p))
    exact (h.placed.places.runs_not_blocked hmem).1 (hsame ▸ hw)

/-- With one processor, in every run of careful calls, every task that is scheduled and not
unscheduled is in one place, or was blocked while it was active and is on the wait list and still
`q->active`, which the next `mts_get_next` ends.  A task that is blocked is on the wait list and not in
the heap, and is not returned by `mts_get_next`. -/
theorem mts_one_place (hrun : Run CarefulStep (mtsStart 1 idle garbage st cpu) calls s) :
    (∃ W : List Nat, ListRing s.links (.waitList 0) (W.map .entry) ∧
      ∀ task, scheduledBy task calls = true →
        (OnePlace s W task ∨
          StillActive s W task ∧
            ∀ before fl t, calls ≠ before ++ [(.getNext 0 fl, .task t)]) ∧
        (blockedBy task calls = true →
          taskCount s (readyAt s 0) task = 0 ∧ taskCount s W task = 1)) ∧
      ∀ before fl t, calls = before ++ [(.getNext 0 fl, .task t)] →
        (s.rq 0).active = none ∧ t = idle 0 ∨ IsActive s t ∧ blockedBy t before = false := by
  obtain ⟨⟨W, h⟩, hncpu, -⟩ := run_tracked hrun
  refine ⟨⟨W, h.placed.places.ring, fun task hscheduled => ⟨?_, fun hblocked => ?_⟩⟩, ?_⟩
  · obtain ⟨p, hpresent, htask⟩ := h.scheduled task hscheduled
    rcases (h.placed.onePlace hncpu hpresent htask).1 with hone | hstill
    · exact .inl hone
    · refine .inr ⟨hstill, ?_⟩
      rintro before fl t rfl
      obtain ⟨⟨a, hactive, -, hstate⟩, -⟩ := hstill
      rcases run_getNext hrun with ⟨hnone, -⟩ | ⟨⟨b, hb, -, hruns⟩, -⟩
      · simp [hactive] at hnone
      · obtain rfl := Option.some.inj (hactive.symm.trans hb)
        rw [hstate] at hruns
        exact absurd hruns (by decide)
  · obtain ⟨p, hw, htask⟩ := h.blocked task hblocked
    exact (h.placed.onePlace hncpu (.inr hw) htask).2 hw
  · rintro before fl t rfl
    rcases run_getNext hrun with hnone | ⟨⟨a, hactive, htask, -⟩, hblocked⟩
    · exact .inl hnone
    · exact .inr ⟨⟨a, hactive, htask⟩, hblocked⟩

end Runs

theorem oneBlocked_careful :
    Run CarefulStep oneCpu
      [(.schedule 0 1 0 (some 4096) 0, .status (.unspecified 0)), (.getNext 0 calm, .task 1),
        (.block 1, .status .switch)]
      oneBlocked := by
  have hfirst : Run CarefulStep oneCpu _ oneActive :=
    (Run.nil.snoc ⟨oneReady_step, oneCpu_careful⟩).snoc ⟨oneActive_step, oneReady_careful⟩
  refine hfirst.snoc ⟨oneBlocked_step, ⟨rfl, fun a ha _ => ?_⟩⟩
  have hactive : (oneActive.rq 0).active = some 4096 := rfl
  obtain rfl := Option.some.inj (hactive.symm.trans ha)
  rfl

/-- After it was blocked while it was active, the task waits and is not ready. -/
theorem oneBlocked_waits :
    ∃ W : List Nat, ListRing oneBlocked.links (.waitList 0) (W.map .entry) ∧
      taskCount oneBlocked (readyAt oneBlocked 0) 1 = 0 ∧ taskCount oneBlocked W 1 = 1 := by
  obtain ⟨⟨W, hring, hplaces⟩, -⟩ := mts_one_place oneBlocked_careful
  exact ⟨W, hring, (hplaces 1 rfl).2 rfl⟩

/-- The active task is in two places after it was blocked. -/
theorem blocked_active_in_two_places :
    (∃ calls, Run MtsStep oneCpu calls oneBlocked ∧ scheduledBy 1 calls = true) ∧
      ∀ W : List Nat, ListRing oneBlocked.links (.waitList 0) (W.map .entry) →
        IsActive oneBlocked 1 ∧ 0 < taskCount oneBlocked W 1 ∧ ¬ OnePlace oneBlocked W 1 := by
  have hrun := ((Run.nil.snoc oneReady_step).snoc oneActive_step).snoc oneBlocked_step
  refine ⟨⟨_, hrun, rfl⟩, fun W hring => ?_⟩
  have hactive : IsActive oneBlocked 1 := ⟨4096, rfl, rfl⟩
  have hfirst : (oneBlocked.links (.waitList 0)).next = some (.entry 4096) := rfl
  have hcount : 0 < taskCount oneBlocked W 1 := by
    rw [hring.next_head] at hfirst
    cases W with
    | nil => simp at hfirst
    | cons p W =>
        obtain rfl : p = 4096 := by simpa using hfirst
        refine Multiset.count_pos.mpr (Multiset.mem_map.mpr ⟨4096, by simp, rfl⟩)
  refine ⟨hactive, hcount, ?_⟩
  rintro (⟨-, -, hzero⟩ | ⟨hnot, -⟩ | ⟨hnot, -⟩)
  · omega
  · exact hnot hactive
  · exact hnot hactive

end Sched
end Micael
