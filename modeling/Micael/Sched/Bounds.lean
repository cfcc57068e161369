import Micael.Sched.OnePlace

/-!
# The parameters of the scheduled tasks stay in range

On one processor, the priority of every entry lies between 1 and 17, its scheduling priority is at
most 17, its timeslice at least 5 and the ticks it was allocated at least 10, in every state of every
run and whatever the floating-point decisions of `__adjust_priority` are.  The calls need not be
careful: an entry may be in two places, or stay the active one after it was freed.

A penalised task gets a priority below the lowest one of the run queue.  That one starts as `INT_MAX`
and is lowered by the first task that is scheduled, so that the bounds are one invariant of the
entries and the run queue.

Freed entries keep their contents, because the slab cache keeps its free list elsewhere.  The set `K`
below is that of the entries that were ever allocated.

Main results:

- Theorem {lit}`newPriority_inRange`: `__adjust_priority` keeps an entry in range.
- Theorem {lit}`Ranged.step`: so does every call, for every entry that was ever allocated.
- Theorem {lit}`mts_parameters_in_range`: in every run the entries that are allocated, active, ready or
  linked are in range, and no key of a heap reaches `INT_MAX`.
-/

namespace Micael
namespace Sched

open Foundation Lib

/-! ## Entries -/

/-- The parameters of an entry are in range. -/
structure InRange (t : SchedTask) : Prop where
  nice : t.nice.natAbs ≤ 4
  prio_pos : 1 ≤ t.prio
  prio_le : t.prio ≤ 17
  sprio_le : t.sprio ≤ 17
  timeslice : 5 ≤ t.timeslice
  totalAlloc : 10 ≤ t.totalAlloc

theorem newEntry_inRange {task : Nat} {nice : Int} (hnice : nice.natAbs ≤ 4) (birth : UInt64) :
    InRange (newEntry task nice birth) := by
  refine ⟨hnice, ?_, ?_, ?_, ?_, ?_⟩ <;> simp only [newEntry, spBase, spbBirth, stsBase] <;> omega

theorem InRange.charged {t : SchedTask} (ht : InRange t) : InRange t.charged := by
  unfold SchedTask.charged
  split_ifs
  · exact ⟨ht.nice, ht.prio_pos, ht.prio_le, ht.sprio_le, ht.timeslice, ht.totalAlloc⟩
  · exact ht

theorem batchPriority_inRange {t : SchedTask} (ht : InRange t) {lowest : Int} (hlow : lowest ≤ 18)
    (fl : Floats) : InRange (batchPriority t lowest fl) := by
  have hnice := ht.nice
  have hsprio := ht.sprio_le
  have htime := ht.timeslice
  unfold batchPriority
  cases fl.usage with
  | overuse =>
      refine ⟨hnice, ?_, ?_, ?_, ?_, ht.totalAlloc⟩ <;> simp only [spBatch, stsBatch] <;> omega
  | underuse =>
      refine ⟨hnice, ?_, ?_, ?_, ?_, ht.totalAlloc⟩ <;> simp only [spBatch, stsBatch] <;> omega
  | fair =>
      refine ⟨hnice, ?_, ?_, hsprio, htime, ht.totalAlloc⟩ <;> simp only [spBatch] <;> omega

/-- `__adjust_priority` keeps an entry in range when the lowest priority is at most 18. -/
theorem newPriority_inRange {q : RunQueue} {t : SchedTask} (ht : InRange t) (hlow : q.lowest ≤ 18)
    (fl : Floats) : InRange (newPriority q t fl).1 := by
  have hnice := ht.nice
  obtain ⟨sleep, hpos, hle, heq | heq | heq | heq⟩ := newPriority_cases q t fl
  · rw [heq]
    refine ⟨hnice, ?_, ?_, ?_, ht.timeslice, ht.totalAlloc⟩ <;> simp only [spBase] <;> omega
  · rw [heq]
    refine ⟨hnice, ?_, ?_, ?_, ?_, ht.totalAlloc⟩ <;> simp only [spInteractive, stsNormal] <;> omega
  · rw [heq]
    exact batchPriority_inRange ht hlow fl
  · rw [heq]
    refine ⟨hnice, ?_, ?_, ?_, ?_, ht.totalAlloc⟩ <;> simp only [spBase, stsBase] <;> omega

theorem rescheduled_inRange {q : RunQueue} {t : SchedTask} (ht : InRange t) (hlow : q.lowest ≤ 18)
    (fl : Floats) : InRange (rescheduled q t fl) := by
  have hnew := newPriority_inRange ht.charged hlow fl
  refine ⟨hnew.nice, hnew.prio_pos, hnew.prio_le, hnew.sprio_le, hnew.timeslice, ?_⟩
  have halloc := hnew.totalAlloc
  unfold rescheduled SchedTask.restart
  simp only
  split_ifs <;> omega

/-! ## Heaps -/

/-- The keys of a heap are at most 17 and its entries are in `K`. -/
structure HeapRange (K : Set Nat) (h : Bheap Nat) : Prop where
  holds : HoldsPairs 256 h h.pairs
  keys : ∀ x ∈ h.pairs, x.key ≤ 17
  known : ∀ x ∈ h.pairs, x.payload ∈ K

variable {K : Set Nat} {h h' : Bheap Nat}

theorem HeapRange.mono {K' : Set Nat} (hh : HeapRange K h) (hsub : K ⊆ K') : HeapRange K' h :=
  ⟨hh.holds, hh.keys, fun x hx => hsub (hh.known x hx)⟩

/-- An insertion, which a full heap refuses. -/
theorem HeapRange.insert (hh : HeapRange K h) {key : Int} (hkey : key ≤ 17) {p : Nat} (hp : p ∈ K) :
    HeapRange K (bhInsert h key (some p)).2 := by
  have hbelow : key < intMax := lt_of_le_of_lt hkey (by simp [intMax])
  by_cases hfull : h.size = h.capacity
  · have hret : bhInsert h key (some p) = (.error .enospc, h) := if_pos hfull
    rw [hret]
    exact hh
  · obtain ⟨t, hret, -, -, hpairs⟩ := bhInsert_spec hh.holds.ordered hfull key p
    obtain ⟨m, -, hm⟩ := hh.holds.insert_step (ω := Unit) hbelow hret
    obtain rfl := hm.pairs
    rw [hret]
    refine ⟨hm, fun x hx => ?_, fun x hx => ?_⟩
    · rw [hpairs] at hx
      rcases Multiset.mem_cons.mp hx with rfl | hx
      · exact hkey
      · exact hh.keys x hx
    · rw [hpairs] at hx
      rcases Multiset.mem_cons.mp hx with rfl | hx
      · exact hp
      · exact hh.known x hx

theorem HeapRange.took (hh : HeapRange K h) {x : Elem Nat} (htook : Took h h' x) :
    HeapRange K h' ∧ x.payload ∈ K := by
  obtain ⟨m, hm, hholds⟩ := hh.holds.took htook
  obtain rfl := hholds.pairs
  refine ⟨⟨hholds, fun y hy => hh.keys y ?_, fun y hy => hh.known y ?_⟩, hh.known x ?_⟩
  · rw [hm]
    exact Multiset.mem_cons_of_mem hy
  · rw [hm]
    exact Multiset.mem_cons_of_mem hy
  · rw [hm]
    exact Multiset.mem_cons_self x _

theorem HeapRange.removeMax (hh : HeapRange K h) {p : Nat} (hret : bhRemoveMax h = (.ok p, h')) :
    HeapRange K h' ∧ p ∈ K := by
  rcases Nat.eq_zero_or_pos h.size with hzero | hpos
  · have hnone : bhRemoveMax h = (.error .enoent, h) := if_pos hzero
    exact absurd (hnone.symm.trans hret) (by simp)
  · obtain ⟨t, hfound, htook⟩ := bhRemoveMax_spec hh.holds.ordered hpos
    obtain ⟨hp, rfl⟩ := Prod.mk.inj (hfound.symm.trans hret)
    obtain rfl := Except.ok.inj hp
    exact hh.took htook

theorem HeapRange.removePld (hh : HeapRange K h) {arg p : Nat} {cc : Nat → Nat → Bool}
    (hret : bhRemovePld h (some arg) (some cc) = (.ok p, h')) : HeapRange K h' ∧ p ∈ K := by
  rcases removeFirst_spec (fun x => cc arg x.payload) hh.holds.ordered hh.holds.below
    with ⟨x, t, hfound, -, htook⟩ | ⟨hnone, -⟩
  · obtain ⟨hp, rfl⟩ := Prod.mk.inj (hfound.symm.trans hret)
    obtain rfl := Except.ok.inj hp
    exact hh.took htook
  · exact absurd (hnone.symm.trans hret) (by simp)

/-! ## Links -/

/-- A pointer to an entry is to one of `K`. -/
def NodeIn (K : Set Nat) : Option WaitNode → Prop
  | some (.entry p) => p ∈ K
  | _ => True

/-- All links to entries are to entries of `K`. -/
structure LinksIn (K : Set Nat) (l : Links WaitNode) : Prop where
  next : ∀ u, NodeIn K (l u).next
  prev : ∀ u, NodeIn K (l u).prev

theorem NodeIn.mono {K' : Set Nat} (hsub : K ⊆ K') {x : Option WaitNode} (hx : NodeIn K x) :
    NodeIn K' x := by
  match x, hx with
  | none, _ => trivial
  | some (.waitList _), _ => trivial
  | some (.entry _), hp => exact hsub hp

theorem LinksIn.mono {K' : Set Nat} (hsub : K ⊆ K') {l : Links WaitNode} (hl : LinksIn K l) :
    LinksIn K' l :=
  ⟨fun u => (hl.next u).mono hsub, fun u => (hl.prev u).mono hsub⟩

section Links

variable {l : Links WaitNode} {x : Option WaitNode}

theorem LinksIn.setNext (hl : LinksIn K l) (hx : NodeIn K x) (u : WaitNode) :
    LinksIn K (l.setNext u x) := by
  refine ⟨fun v => ?_, fun v => ?_⟩
  · rw [Links.setNext_next]
    split_ifs
    · exact hx
    · exact hl.next v
  · rw [Links.setNext_prev]
    exact hl.prev v

theorem LinksIn.setPrev (hl : LinksIn K l) (hx : NodeIn K x) (u : WaitNode) :
    LinksIn K (l.setPrev u x) := by
  refine ⟨fun v => ?_, fun v => ?_⟩
  · rw [Links.setPrev_next]
    exact hl.next v
  · rw [Links.setPrev_prev]
    split_ifs
    · exact hx
    · exact hl.prev v

theorem LinksIn.setNextPrev (hl : LinksIn K l) (hx : NodeIn K x) (u : WaitNode) :
    LinksIn K (l.setNextPrev u x) := by
  unfold Links.setNextPrev
  cases (l u).next with
  | none => exact hl
  | some n => exact hl.setPrev hx n

theorem LinksIn.setPrevNext (hl : LinksIn K l) (hx : NodeIn K x) (u : WaitNode) :
    LinksIn K (l.setPrevNext u x) := by
  unfold Links.setPrevNext
  cases (l u).prev with
  | none => exact hl
  | some n => exact hl.setNext hx n

theorem LinksIn.listInit {u : WaitNode} (hl : LinksIn K l) (hu : NodeIn K (some u)) :
    LinksIn K (listInit l u) :=
  (hl.setNext hu u).setPrev hu u

theorem LinksIn.listRemove (hl : LinksIn K l) (u : WaitNode) : LinksIn K (listRemove l u) := by
  have hfirst := hl.setNextPrev (hl.prev u) u
  exact hfirst.setPrevNext (hfirst.next u) u

theorem LinksIn.listAppend {u v : WaitNode} (hl : LinksIn K l) (hu : NodeIn K (some u))
    (hv : NodeIn K (some v)) : LinksIn K (listAppend l u v) := by
  have hnode := (hl.setNext (hl.next u) v).setPrev hu v
  exact (hnode.setNextPrev hv u).setNext hv u

end Links

/-- A walk along the links ends at an entry of `K`. -/
theorem findWaiter_known {s : Mts} (hl : LinksIn K s.links) {c task turns p : Nat}
    {iter : Option WaitNode} (hiter : NodeIn K iter)
    (hfound : findWaiter s c task turns iter = some (some p)) : p ∈ K := by
  induction turns generalizing iter with
  | zero => exact absurd hfound (by simp [findWaiter])
  | succ turns ih =>
      cases iter with
      | none => exact absurd hfound (by simp [findWaiter])
      | some node =>
          cases node with
          | waitList c' =>
              unfold findWaiter at hfound
              split_ifs at hfound
              exact absurd hfound (by simp)
          | entry q =>
              unfold findWaiter at hfound
              split_ifs at hfound
              · obtain rfl := Option.some.inj (Option.some.inj hfound)
                exact hiter
              · exact ih (hl.next _) hfound

/-! ## The scheduler -/

/-- The entries of `K` are in range and nothing refers to another entry; the lowest priority of the
first run queue is that of a task as soon as there is one. -/
structure Ranged (K : Set Nat) (s : Mts) : Prop where
  ncpu : s.ncpu = 1
  range : ∀ p ∈ K, InRange (s.st p)
  alive : ∀ p, s.live p = true → p ∈ K
  heap : ∀ c, HeapRange K (s.rq c).pqueue
  active : ∀ c a, (s.rq c).active = some a → a ∈ K
  links : LinksIn K s.links
  lowest : K.Nonempty → (s.rq 0).lowest ≤ 18

variable {s s' : Mts}

theorem Ranged.locks (hr : Ranged K s) (h : SameButLocks s s') : Ranged K s' where
  ncpu := h.ncpu.trans hr.ncpu
  range := by
    rw [h.st]
    exact hr.range
  alive := by
    rw [h.live]
    exact hr.alive
  heap := by
    rw [h.rq]
    exact hr.heap
  active := by
    rw [h.rq]
    exact hr.active
  links := by
    rw [h.links]
    exact hr.links
  lowest := by
    rw [h.rq]
    exact hr.lowest

theorem Ranged.acquire (hr : Ranged K s) (l : LockId) : Ranged K (s.spinAcquire l) :=
  hr.locks (.acquire s l)

theorem Ranged.release (hr : Ranged K s) (l : LockId) : Ranged K (s.spinRelease l) :=
  hr.locks (.release s l)

theorem Ranged.setSt (hr : Ranged K s) (p : Nat) {t : SchedTask} (ht : InRange t) :
    Ranged K (s.setSt p t) := by
  refine ⟨hr.ncpu, fun k hk => ?_, hr.alive, hr.heap, hr.active, hr.links, hr.lowest⟩
  by_cases hkp : k = p
  · subst hkp
    rw [Mts.setSt_st, Function.update_self]
    exact ht
  · rw [Mts.setSt_st, Function.update_of_ne hkp]
    exact hr.range k hk

theorem Ranged.setRq (hr : Ranged K s) {c : Nat} {q : RunQueue} (hheap : HeapRange K q.pqueue)
    (hactive : ∀ a, q.active = some a → a ∈ K) (hlow : q.lowest ≤ (s.rq c).lowest) :
    Ranged K (s.setRq c q) := by
  refine ⟨hr.ncpu, hr.range, hr.alive, fun c' => ?_, fun c' => ?_, hr.links, fun hK => ?_⟩
  · by_cases hc : c' = c
    · subst hc
      rw [Mts.setRq_rq, Function.update_self]
      exact hheap
    · rw [Mts.setRq_rq, Function.update_of_ne hc]
      exact hr.heap c'
  · by_cases hc : c' = c
    · subst hc
      rw [Mts.setRq_rq, Function.update_self]
      exact hactive
    · rw [Mts.setRq_rq, Function.update_of_ne hc]
      exact hr.active c'
  · have hbound := hr.lowest hK
    by_cases hc : 0 = c
    · subst hc
      rw [Mts.setRq_rq, Function.update_self]
      exact le_trans hlow hbound
    · rw [Mts.setRq_rq, Function.update_of_ne hc]
      exact hbound

theorem Ranged.setLinks (hr : Ranged K s) {l : Links WaitNode} (hl : LinksIn K l) :
    Ranged K { s with links := l } :=
  ⟨hr.ncpu, hr.range, hr.alive, hr.heap, hr.active, hl, hr.lowest⟩

theorem Ranged.freeEntry (hr : Ranged K s) (p : Nat) : Ranged K (s.freeEntry p) := by
  have hin := hr.acquire .mts
  apply Ranged.release
  refine ⟨hin.ncpu, hin.range, fun k hk => ?_, hin.heap, hin.active, hin.links.listRemove _,
    hin.lowest⟩
  by_cases hkp : k = p
  · subst hkp
    exact absurd hk (by simp)
  · simp only [Function.update_of_ne hkp] at hk
    exact hin.alive k hk

theorem Ranged.scheduleTask (hr : Ranged K s) {p : Nat} (hp : p ∈ K) (switchTask : Bool)
    (fl : Floats) : Ranged K (scheduleTask s 0 p switchTask fl).1 := by
  by_cases hstate : (s.st p).state = .plain .ready
  · rw [Sched.scheduleTask, if_pos hstate]
    exact hr
  have hlow := hr.lowest ⟨p, hp⟩
  have hnew := rescheduled_inRange (hr.range p hp) hlow fl
  obtain ⟨hlive, hlinks, -, hncpu⟩ := scheduleTask_frame s 0 p switchTask fl
  constructor
  case ncpu => exact hncpu.trans hr.ncpu
  case range =>
    intro k hk
    rw [scheduleTask_st hstate]
    by_cases hkp : k = p
    · rw [hkp, Function.update_self]
      exact hnew
    · rw [Function.update_of_ne hkp]
      exact hr.range k hk
  case alive =>
    rw [hlive]
    exact hr.alive
  case heap =>
    intro c
    rw [scheduleTask_rq hstate]
    unfold rescheduledQueue
    simp only
    split_ifs
    · exact (hr.heap c).insert hnew.sprio_le hp
    · exact hr.heap c
  case active =>
    intro c a
    rw [scheduleTask_active]
    exact hr.active c a
  case links =>
    rw [hlinks]
    exact hr.links
  case lowest =>
    intro _
    rw [scheduleTask_rq hstate]
    have hnotAbove := newPriority_lowest_le (s.rq 0) (s.st p).charged fl
    simp only [rescheduledQueue, decide_true, if_true]
    omega

theorem Ranged.requeueActive (hr : Ranged K s) (fl : Floats) : Ranged K (requeueActive s 0 fl) := by
  unfold Sched.requeueActive
  cases hactive : (s.rq 0).active with
  | none => exact hr
  | some a => exact hr.scheduleTask (hr.active 0 a hactive) true fl

theorem Ranged.dropActive (hr : Ranged K s) (me : Nat) : Ranged K (s.dropActive me) :=
  hr.setRq (hr.heap me) (fun _ ha => absurd ha (by simp)) (le_refl _)

theorem Ranged.preempt (hr : Ranged K s) {p : Nat} (hp : p ∈ K) : Ranged K (s.preempt p) := by
  have ht := hr.range p hp
  exact hr.setSt p ⟨ht.nice, ht.prio_pos, ht.prio_le, ht.sprio_le, ht.timeslice, ht.totalAlloc⟩

/-- A new state, or another tick of its timeslice, keeps an entry in range. -/
theorem Ranged.setState (hr : Ranged K s) {p : Nat} (hp : p ∈ K) (state : SchedState)
    (execRt : Nat) : Ranged K (s.setSt p { s.st p with state := state, execRt := execRt }) := by
  have ht := hr.range p hp
  exact hr.setSt p ⟨ht.nice, ht.prio_pos, ht.prio_le, ht.sprio_le, ht.timeslice, ht.totalAlloc⟩

/-! ## The calls -/

theorem Ranged.setupActive (hr : Ranged K s) {prio : Int} {fl : Floats} {t : Nat}
    (hret : setupActive s 0 prio fl = some (t, s')) : Ranged K s' := by
  unfold Sched.setupActive at hret
  by_cases hidle : prio = intMin
  · rw [if_pos hidle] at hret
    obtain ⟨-, rfl⟩ := Prod.mk.inj (Option.some.inj hret)
    apply Ranged.release
    exact hr.setRq (hr.heap 0) (fun _ ha => absurd ha (by simp)) (le_refl _)
  rw [if_neg hidle] at hret
  cases hpop : bhRemoveMax (s.rq 0).pqueue with
  | mk r pqueue =>
      rw [hpop] at hret
      cases r with
      | error e => exact absurd hret (by simp)
      | ok p =>
          obtain ⟨-, rfl⟩ := Prod.mk.inj (Option.some.inj hret)
          obtain ⟨hheap, hp⟩ := (hr.heap 0).removeMax hpop
          have hpopped : Ranged K (s.setRq 0 { s.rq 0 with pqueue := pqueue }) :=
            hr.setRq hheap (hr.active 0) (le_refl _)
          have hqueued := hpopped.requeueActive fl
          generalize Sched.requeueActive (s.setRq 0 { s.rq 0 with pqueue := pqueue }) 0 fl = s₁
            at hqueued
          have hset := hqueued.setState hp (.plain .active) (s₁.st p).execRt
          apply Ranged.release
          refine hset.setRq (hset.heap 0) (fun a ha => ?_) (le_refl _)
          obtain rfl := Option.some.inj ha
          exact hp

theorem Ranged.getNext (hr : Ranged K s) {fl : Floats} {t : Nat}
    (hret : mtsGetNext s 0 fl = some (t, s')) : Ranged K s' := by
  have hin := hr.acquire (.rq 0)
  unfold mtsGetNext at hret
  generalize s.spinAcquire (.rq 0) = s₁ at hin hret
  simp only at hret
  cases hactive : (s₁.rq 0).active with
  | none =>
      simp only [hactive] at hret
      exact hin.setupActive hret
  | some a =>
      simp only [hactive] at hret
      have ha := hin.active 0 a hactive
      split at hret
      · exact ((hin.freeEntry a).dropActive 0).setupActive hret
      split at hret
      · exact (hin.preempt ha).setupActive hret
      split at hret
      · exact (hin.dropActive 0).setupActive hret
      split at hret
      · obtain ⟨-, rfl⟩ := Prod.mk.inj (Option.some.inj hret)
        exact hin
      split at hret
      · have hafter := hin.scheduleTask ha false fl
        split at hret
        next s₂ hok =>
          obtain ⟨-, rfl⟩ := Prod.mk.inj (Option.some.inj hret)
          rw [hok] at hafter
          exact hafter.release _
        next s₂ r hne hswitch =>
          rw [hswitch] at hafter
          exact hafter.setupActive hret
      · exact hin.setupActive hret

theorem Ranged.tick (hr : Ranged K s) : Ranged K (mtsTick s 0).2 := by
  unfold mtsTick
  cases hactive : (s.rq 0).active with
  | none =>
      simp only
      split_ifs <;> exact hr
  | some a =>
      have ha := hr.active 0 a hactive
      have hticked : Ranged K (s.setRq 0 { s.rq 0 with tick := (s.rq 0).tick + 1 }) :=
        hr.setRq (hr.heap 0) (hr.active 0) (le_refl _)
      have hran := hticked.setState ha (s.st a).state ((s.st a).execRt + 1)
      unfold tickActive
      simp only
      split_ifs
      · exact hran.preempt ha
      · exact hran
      · exact hran.setState ha _ _
      · exact hran

theorem Ranged.unschedule (hr : Ranged K s) {task : Nat} {r : Status}
    (hret : mtsUnschedule s task = some (r, s')) : Ranged K s' := by
  unfold mtsUnschedule at hret
  simp only at hret
  split at hret
  · obtain ⟨-, rfl⟩ := Prod.mk.inj (Option.some.inj hret)
    exact hr
  split at hret
  · exact absurd hret (by simp)
  next a hactive =>
    split at hret
    · obtain ⟨-, rfl⟩ := Prod.mk.inj (Option.some.inj hret)
      have hset := hr.setState (hr.active _ a hactive) (.plain .unscheduled) (s.st a).execRt
      exact hset.setRq (hr.heap _) (hr.active _) (le_refl _)
    · split at hret
      · exact absurd hret (by simp)
      next p pqueue hfound =>
        obtain ⟨-, rfl⟩ := Prod.mk.inj (Option.some.inj hret)
        obtain ⟨hheap, hp⟩ := (hr.heap _).removePld hfound
        have hin := hr.acquire (.rq (s.cpu task))
        have htaken : Ranged K ((s.spinAcquire (.rq (s.cpu task))).setRq (s.cpu task)
            { s.rq (s.cpu task) with
              pqueue := pqueue
              ntasks := (s.rq (s.cpu task)).ntasks - 1
              nready := (s.rq (s.cpu task)).nready - 1 }) := by
          refine hin.setRq hheap (hr.active _) ?_
          rw [Mts.spinAcquire_rq]
        exact (htaken.freeEntry p).release _

theorem Ranged.moveToWaitList (hr : Ranged K s) {p : Nat} (hp : p ∈ K) (c task : Nat) :
    Ranged K (moveToWaitList s c task p) := by
  unfold Sched.moveToWaitList
  have hcounted : Ranged K (s.setRq 0 { s.rq 0 with nblocked := (s.rq 0).nblocked + 1 }) :=
    hr.setRq (hr.heap 0) (hr.active 0) (le_refl _)
  generalize s.setRq 0 { s.rq 0 with nblocked := (s.rq 0).nblocked + 1 } = s₁ at hcounted
  simp only
  have hleft : Ranged K (s₁.setRq c
      { s₁.rq c with
        nready := (s₁.rq c).nready - 1
        rprio := (s₁.rq c).rprio - (s₁.st p).prio }) :=
    hcounted.setRq (hcounted.heap c) (hcounted.active c) (le_refl _)
  generalize s₁.setRq c
    { s₁.rq c with
      nready := (s₁.rq c).nready - 1
      rprio := (s₁.rq c).rprio - (s₁.st p).prio } = s₂ at hleft
  have hset := hleft.setState hp (.plain .blocked) (s₂.st p).execRt
  have hlinks := LinksIn.listAppend (u := .waitList 0) (v := .entry p)
    (LinksIn.listInit (u := .entry p) hset.links hp) trivial hp
  have hmoved := hset.setLinks hlinks
  have hparked : Ranged K
      { s₂.setSt p { s₂.st p with state := .plain .blocked } with
        cpu := Function.update s₂.cpu task 0
        links := listAppend (listInit s₂.links (.entry p)) (.waitList 0) (.entry p) } :=
    ⟨hmoved.ncpu, hmoved.range, hmoved.alive, hmoved.heap, hmoved.active, hmoved.links,
      hmoved.lowest⟩
  apply Ranged.release
  split_ifs
  · exact hparked.release _
  · exact hparked

theorem Ranged.block (hr : Ranged K s) {task : Nat} {r : Status}
    (hret : mtsBlock s task = some (r, s')) : Ranged K s' := by
  unfold mtsBlock at hret
  simp only at hret
  have hin := hr.acquire (.rq 0)
  generalize s.spinAcquire (.rq 0) = s₁ at hin hret
  have hboth : Ranged K (if s₁.cpu task ≠ 0 then s₁.spinAcquire (.rq (s₁.cpu task)) else s₁) := by
    split_ifs
    · exact hin.acquire _
    · exact hin
  generalize (if s₁.cpu task ≠ 0 then s₁.spinAcquire (.rq (s₁.cpu task)) else s₁) = s₂
    at hboth hret
  split at hret
  next a hrunning =>
    obtain ⟨-, rfl⟩ := Prod.mk.inj (Option.some.inj hret)
    obtain ⟨hactive, -⟩ := Option.filter_eq_some_iff.mp hrunning
    exact hboth.moveToWaitList (hboth.active _ a hactive) _ task
  next hrunning =>
    split at hret
    · exact absurd hret (by simp)
    next p pqueue hfound =>
      obtain ⟨-, rfl⟩ := Prod.mk.inj (Option.some.inj hret)
      obtain ⟨hheap, hp⟩ := (hboth.heap _).removePld hfound
      have htaken : Ranged K (s₂.setRq (s₁.cpu task) { s₂.rq (s₁.cpu task) with pqueue := pqueue }) :=
        hboth.setRq hheap (hboth.active _) (le_refl _)
      exact htaken.moveToWaitList hp _ task

theorem Ranged.unblock (hr : Ranged K s) {turns task : Nat} {fl : Floats} {r : Status}
    (hret : mtsUnblock turns s 0 task fl = some (r, s')) : Ranged K s' := by
  unfold mtsUnblock at hret
  simp only at hret
  have hin := hr.acquire (.rq (s.cpu task))
  generalize s.spinAcquire (.rq (s.cpu task)) = s₁ at hin hret
  split at hret
  · obtain ⟨-, rfl⟩ := Prod.mk.inj (Option.some.inj hret)
    exact hin.release _
  split at hret
  · exact absurd hret (by simp)
  · obtain ⟨-, rfl⟩ := Prod.mk.inj (Option.some.inj hret)
    exact hin.release _
  next p hfound =>
    obtain ⟨-, rfl⟩ := Prod.mk.inj (Option.some.inj hret)
    have hp := findWaiter_known hin.links (hin.links.next _) hfound
    have hunlinked := hin.setLinks (hin.links.listRemove (.entry p))
    have hqueued := hunlinked.scheduleTask hp true fl
    apply Ranged.release
    exact hqueued

/-- A new entry `p` on the first processor, whose run queue becomes `q`. -/
theorem Ranged.add (hr : Ranged K s) {p : Nat} {t : SchedTask} {q : RunQueue} (ht : InRange t)
    (hncpu : s'.ncpu = s.ncpu) (hrq : s'.rq = Function.update s.rq 0 q)
    (hheap : HeapRange (Insert.insert p K) q.pqueue) (hactive : q.active = (s.rq 0).active)
    (hlow : q.lowest ≤ 18) (hst : s'.st = Function.update s.st p t)
    (hlive : s'.live = Function.update s.live p true)
    (hlinks : s'.links = listInit s.links (.entry p)) : Ranged (Insert.insert p K) s' := by
  have hsub : K ⊆ Insert.insert p K := Set.subset_insert p K
  have hp : p ∈ Insert.insert p K := Set.mem_insert p K
  constructor
  case ncpu => exact hncpu.trans hr.ncpu
  case range =>
    intro k hk
    rw [hst]
    by_cases hkp : k = p
    · rw [hkp, Function.update_self]
      exact ht
    · rw [Function.update_of_ne hkp]
      exact hr.range k (Set.mem_of_mem_insert_of_ne hk hkp)
  case alive =>
    intro k hk
    rw [hlive] at hk
    by_cases hkp : k = p
    · rw [hkp]
      exact hp
    · rw [Function.update_of_ne hkp] at hk
      exact hsub (hr.alive k hk)
  case heap =>
    intro c
    rw [hrq]
    by_cases hc : c = 0
    · rw [hc, Function.update_self]
      exact hheap
    · rw [Function.update_of_ne hc]
      exact (hr.heap c).mono hsub
  case active =>
    intro c a ha
    rw [hrq] at ha
    by_cases hc : c = 0
    · rw [hc, Function.update_self, hactive] at ha
      exact hsub (hr.active 0 a ha)
    · rw [Function.update_of_ne hc] at ha
      exact hsub (hr.active c a ha)
  case links =>
    rw [hlinks]
    exact (hr.links.mono hsub).listInit hp
  case lowest =>
    intro _
    rw [hrq, Function.update_self]
    exact hlow

/-- `mts_schedule` adds an entry, also when the heap is full. -/
theorem Ranged.schedule (hr : Ranged K s) (me task : Nat) (nice : Int) (mem : Option Nat)
    (garbage : Int) : ∃ K', Ranged K' (mtsSchedule s me task nice mem garbage).2 := by
  by_cases hbad : s.ncpu = 0 ∨ nice.natAbs > 4
  · unfold mtsSchedule
    rw [if_pos hbad]
    exact ⟨K, hr⟩
  cases mem with
  | none =>
      unfold mtsSchedule
      rw [if_neg hbad]
      have hin := hr.acquire .mts
      refine ⟨K, Ranged.release ?_ .mts⟩
      exact ⟨hin.ncpu, hin.range, hin.alive, hin.heap, hin.active, hin.links, hin.lowest⟩
  | some p =>
      have hfirst : leastLoaded s s.ncpu = 0 := by
        have hbound := leastLoaded_lt s (n := s.ncpu) (by rw [hr.ncpu]; exact Nat.one_pos)
        rw [hr.ncpu] at hbound ⊢
        omega
      obtain ⟨s₁, hmade, hcall⟩ := mtsSchedule_insert me task p garbage hbad hfirst
      have ht := @newEntry_inRange task nice (not_lt.mp (not_or.mp hbad).2) (s.rq 0).tick
      have hst := hmade.st
      generalize newEntry task nice (s.rq 0).tick = t at *
      have hadds : ∀ q : RunQueue, HeapRange (Insert.insert p K) q.pqueue →
          q.active = (s.rq 0).active → q.lowest ≤ 18 →
          Ranged (Insert.insert p K) (s₁.setRq 0 q) := by
        intro q hheap hactive hlow
        refine hr.add ht hmade.ncpu ?_ hheap hactive hlow hst hmade.live hmade.links
        rw [Mts.setRq_rq, hmade.rq]
      have hheap : HeapRange (Insert.insert p K) (s.rq 0).pqueue :=
        (hr.heap 0).mono (Set.subset_insert p K)
      have hinserted := hheap.insert ht.sprio_le (Set.mem_insert p K)
      have hlow : ((s.rq 0).count t).lowest ≤ 18 := by
        have hsprio := ht.sprio_le
        simp only [RunQueue.count]
        split_ifs <;> omega
      refine ⟨Insert.insert p K, ?_⟩
      cases hinsert : bhInsert (s.rq 0).pqueue t.sprio (some p) with
      | mk r pqueue =>
          rw [hinsert] at hinserted hcall
          cases r with
          | error e =>
              rw [hcall.2]
              exact ((hadds ((s.rq 0).count t) hheap rfl hlow).release _).release _
          | ok u =>
              rw [hcall.2]
              exact ((hadds { (s.rq 0).count t with pqueue := pqueue } hinserted rfl
                hlow).release _).release _

/-! ## Runs -/

/-- A call that the first processor makes. -/
def MtsCall.onFirst : MtsCall → Prop
  | .schedule me _ _ _ _ => me = 0
  | .tick me => me = 0
  | .getNext me _ => me = 0
  | .unblock _ me _ _ => me = 0
  | .block _ => True
  | .unschedule _ => True

theorem Ranged.step (hr : Ranged K s) {call : MtsCall × MtsRet} (hfirst : call.1.onFirst)
    (hstep : MtsStep s call s') : ∃ K', Ranged K' s' := by
  obtain ⟨call, ret⟩ := call
  cases call with
  | schedule me task nice mem garbage =>
      obtain ⟨-, rfl⟩ := Prod.mk.inj (Option.some.inj hstep)
      exact hr.schedule me task nice mem garbage
  | tick me =>
      obtain rfl : me = 0 := hfirst
      obtain ⟨-, rfl⟩ := Prod.mk.inj (Option.some.inj hstep)
      exact ⟨K, hr.tick⟩
  | getNext me fl =>
      obtain rfl : me = 0 := hfirst
      obtain ⟨t, hret, -⟩ := hstep.getNext
      exact ⟨K, hr.getNext hret⟩
  | block task =>
      obtain ⟨t, hret, -⟩ := hstep.block
      exact ⟨K, hr.block hret⟩
  | unblock turns me task fl =>
      obtain rfl : me = 0 := hfirst
      obtain ⟨t, hret, -⟩ := hstep.unblock
      exact ⟨K, hr.unblock hret⟩
  | unschedule task =>
      obtain ⟨t, hret, -⟩ := hstep.unschedule
      exact ⟨K, hr.unschedule hret⟩

theorem mtsStart_ranged (idle : Nat → Nat) (garbage : Nat → Elem Nat) (st : Nat → SchedTask)
    (cpu : Nat → Nat) : Ranged ∅ (mtsStart 1 idle garbage st cpu) where
  ncpu := rfl
  range p hp := absurd hp (Set.notMem_empty p)
  alive p hp := absurd hp (by simp [mtsStart])
  heap c := by
    have hempty : (bhInit 256 garbage).pairs = 0 := rfl
    refine ⟨(bhInit_queueOk garbage).holds, fun x hx => ?_, fun x hx => ?_⟩
    · exact absurd (hempty ▸ hx) (Multiset.notMem_zero x)
    · exact absurd (hempty ▸ hx) (Multiset.notMem_zero x)
  active c a ha := absurd ha (by simp [mtsStart])
  links := by
    refine ⟨fun u => ?_, fun u => ?_⟩
    · cases u <;> trivial
    · cases u <;> trivial
  lowest hK := absurd hK Set.not_nonempty_empty

/-- An entry is allocated, or active, or ready, or some node links to it.  `__schedule_task` is called
for entries that are active, or reached through links. -/
def InUse (s : Mts) (p : Nat) : Prop :=
  s.live p = true ∨ (∃ c, (s.rq c).active = some p) ∨ (∃ c, p ∈ readyAt s c) ∨
    ∃ u, (s.links u).next = some (.entry p)

theorem Ranged.inUse (hr : Ranged K s) {p : Nat} (hp : InUse s p) : p ∈ K := by
  rcases hp with hlive | ⟨c, hactive⟩ | ⟨c, hready⟩ | ⟨u, hlink⟩
  · exact hr.alive p hlive
  · exact hr.active c p hactive
  · rw [readyAt, payloads] at hready
    obtain ⟨x, hx, rfl⟩ := Multiset.mem_map.mp hready
    exact (hr.heap c).known x hx
  · have hnode := hr.links.next u
    rw [hlink] at hnode
    exact hnode

/-- On one processor, in every state of every run all entries in use are in range and no key of the
heap reaches `INT_MAX`. -/
theorem mts_parameters_in_range {idle : Nat → Nat} {garbage : Nat → Elem Nat}
    {st : Nat → SchedTask} {cpu : Nat → Nat} {calls : List (MtsCall × MtsRet)}
    (hfirst : ∀ call ∈ calls, call.1.onFirst)
    (hrun : Run MtsStep (mtsStart 1 idle garbage st cpu) calls s) :
    (∀ p, InUse s p → InRange (s.st p)) ∧
      ∀ c, ∀ x ∈ (s.rq c).pqueue.pairs, x.key ≤ 17 ∧ x.key < intMax := by
  have hranged : ∃ K, Ranged K s := by
    apply Run.invariant (fun s => ∃ K, Ranged K s) ?_ (hrun.restrict hfirst)
    · exact ⟨∅, mtsStart_ranged idle garbage st cpu⟩
    · rintro u call v ⟨K, hr⟩ ⟨hstep, hcall⟩
      exact hr.step hcall hstep
  obtain ⟨K, hr⟩ := hranged
  refine ⟨fun p hp => hr.range p (hr.inUse hp), fun c x hx => ?_⟩
  exact ⟨(hr.heap c).keys x hx, (hr.heap c).holds.below x hx⟩

/-- The first task runs, and a second one has been scheduled. -/
def twoReady : Mts := oneActive.after (.schedule 0 2 4 (some 8192) 0)

/-- A task that uses most of its time and more than its share. -/
def overdue : Floats := ⟨95, .overuse, 0⟩

/-- The first task was overdue when its turn ended, and the second one runs. -/
def twoSwitched : Mts := (twoReady.after (.tick 0)).after (.getNext 0 overdue)

theorem twoSwitched_in_range :
    InRange (twoSwitched.st 4096) ∧ InRange (twoSwitched.st 8192) ∧
      ∀ x ∈ (twoSwitched.rq 0).pqueue.pairs, x.key ≤ 17 ∧ x.key < intMax := by
  have hready : MtsStep oneActive (.schedule 0 2 4 (some 8192) 0, .status (.unspecified 0)) twoReady := rfl
  have hticked : MtsStep twoReady (.tick 0, .status (mtsTick twoReady 0).1) (twoReady.after (.tick 0)) := rfl
  have hswitched : MtsStep (twoReady.after (.tick 0)) (.getNext 0 overdue, .task 2) twoSwitched := rfl
  have hrun : Run MtsStep oneCpu _ twoSwitched :=
    ((((Run.nil.snoc oneReady_step).snoc oneActive_step).snoc hready).snoc hticked).snoc hswitched
  obtain ⟨hrange, hkeys⟩ := mts_parameters_in_range (by simp [MtsCall.onFirst]) hrun
  exact ⟨hrange 4096 (.inl rfl), hrange 8192 (.inl rfl), hkeys 0⟩

end Sched
end Micael
