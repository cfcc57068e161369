import Micael.Sched.Moves

/-!
# The counters of the run queues

Every run queue counts its ready, its blocked and all its tasks, and keeps the sum of the priorities of
the ready ones.  `mts_get_next` and `mts_tick` keep the counters right.  The other calls do so when the
task they move is counted where they look for it: `mts_block` counts a task as ready that may be the
active one, `mts_block` does not move the count of a task to the processor whose wait list it uses,
`mts_unschedule` leaves the priority of a ready task in the sum, and `__schedule_task` adds a priority
to the sum of the executing processor.

Main results:

- Theorem {lit}`SetupReady.books`: switching the active task keeps the counters of the heap.
- Theorem {lit}`mts_counters_right`: the counters are right in every state that careful calls reach.
- Theorem {lit}`blocking_active_wraps_nready`: blocking the active task makes `nready` wrap around.
-/

namespace Micael
namespace Sched

open Foundation Lib

variable {s s' : Mts} {run : Nat → Multiset Nat} {W : List Nat}

/-! ## Sums of priorities -/

/-- The sum of the priorities of entries. -/
def prioSum (s : Mts) (m : Multiset Nat) : Int := (m.map fun p => (s.st p).prio).sum

@[simp] theorem prioSum_zero (s : Mts) : prioSum s 0 = 0 := by simp [prioSum]

@[simp] theorem prioSum_cons (s : Mts) (p : Nat) (m : Multiset Nat) :
    prioSum s (p ::ₘ m) = (s.st p).prio + prioSum s m := by
  simp [prioSum]

@[simp] theorem prioSum_add (s : Mts) (m m' : Multiset Nat) :
    prioSum s (m + m') = prioSum s m + prioSum s m' := by
  simp [prioSum]

theorem prioSum_congr {m : Multiset Nat} (h : ∀ p ∈ m, (s'.st p).prio = (s.st p).prio) :
    prioSum s' m = prioSum s m := by
  unfold prioSum
  rw [Multiset.map_congr rfl h]

/-! ## The counters of a heap -/

/-- The counters of the heap of a processor are right. -/
structure Tally (s : Mts) (c : Nat) : Prop where
  nready : (s.rq c).nready = .ofNat (Multiset.card (readyAt s c))
  rprio : (s.rq c).rprio = prioSum s (readyAt s c)

theorem Tally.congr {c : Nat} (h : Tally s c) (hnready : (s'.rq c).nready = (s.rq c).nready)
    (hrprio : (s'.rq c).rprio = (s.rq c).rprio) (hready : readyAt s' c = readyAt s c)
    (hprio : ∀ p ∈ readyAt s c, (s'.st p).prio = (s.st p).prio) : Tally s' c := by
  constructor
  · rw [hnready, hready, h.nready]
  · rw [hrprio, hready, prioSum_congr hprio, h.rprio]

/-- The counters of the heaps stay right, and the other two stay. -/
structure Books (s s' : Mts) : Prop where
  tally : (∀ c, Tally s c) → ∀ c, Tally s' c
  nblocked : ∀ c, (s'.rq c).nblocked = (s.rq c).nblocked
  ntasks : ∀ c, (s'.rq c).ntasks = (s.rq c).ntasks

theorem Books.trans {s'' : Mts} (h : Books s s') (h' : Books s' s'') : Books s s'' where
  tally ht := h'.tally (h.tally ht)
  nblocked c := (h'.nblocked c).trans (h.nblocked c)
  ntasks c := (h'.ntasks c).trans (h.ntasks c)

/-- The parts of a run queue that are counted, and the counters. -/
structure SameCounts (q q' : RunQueue) : Prop where
  pqueue : q'.pqueue = q.pqueue
  nready : q'.nready = q.nready
  rprio : q'.rprio = q.rprio
  nblocked : q'.nblocked = q.nblocked
  ntasks : q'.ntasks = q.ntasks

theorem SameCounts.refl (q : RunQueue) : SameCounts q q := ⟨rfl, rfl, rfl, rfl, rfl⟩

theorem SameCounts.readyAt {c : Nat} (h : SameCounts (s.rq c) (s'.rq c)) :
    readyAt s' c = readyAt s c := by
  rw [Sched.readyAt, h.pqueue, Sched.readyAt]

/-- A change that neither counts nor is counted. -/
theorem Books.of_same (hrq : ∀ c, SameCounts (s.rq c) (s'.rq c))
    (hprio : ∀ p, (s'.st p).prio = (s.st p).prio) : Books s s' where
  tally ht c := (ht c).congr (hrq c).nready (hrq c).rprio (hrq c).readyAt fun p _ => hprio p
  nblocked c := (hrq c).nblocked
  ntasks c := (hrq c).ntasks

theorem SameButLocks.books (h : SameButLocks s s') : Books s s' :=
  .of_same (fun c => by rw [h.rq]; exact .refl _) fun p => by rw [h.st]

theorem Books.release (h : Books s s') (l : LockId) : Books s (s'.spinRelease l) :=
  h.trans (SameButLocks.release s' l).books

/-! ## `mts_get_next` -/

section Setup

variable {me t : Nat} {prio : Int} {fl : Floats}

/-- What the active entry adds to the counters when it goes into the heap. -/
theorem requeueActive_counts (s : Mts) (me : Nat) (fl : Floats)
    (hhand : ∀ a ∈ hand s me, s.cpu (s.st a).task = me ∧ (s.st a).state ≠ .plain .blocked) :
    ((requeueActive s me fl).rq me).nready =
        (s.rq me).nready + .ofNat (Multiset.card (hand s me)) ∧
      ((requeueActive s me fl).rq me).rprio =
        (s.rq me).rprio + prioSum (requeueActive s me fl) (hand s me) ∧
      ((requeueActive s me fl).rq me).nblocked = (s.rq me).nblocked ∧
      ((requeueActive s me fl).rq me).ntasks = (s.rq me).ntasks := by
  unfold requeueActive
  cases hactive : (s.rq me).active with
  | none => simp [hand, hactive]
  | some a =>
      by_cases hstate : (s.st a).state = .plain .ready
      · have hkeep : scheduleTask s me a true fl = (s, .ok) := if_pos hstate
        simp [hand, hactive, hstate, hkeep]
      · have hsome : hand s me = {a} := by simp [hand, hactive, hstate]
        obtain ⟨hcpu, hblocked⟩ := hhand a (by simp [hsome])
        have hrq := scheduleTask_rq hstate me true fl me
        have hst := congrFun (scheduleTask_st hstate me true fl) a
        rw [Function.update_self] at hst
        simp only
        rw [hsome, hrq]
        simp [rescheduledQueue, hcpu, inserts, hblocked, prioSum, hst]

theorem SetupReady.hand_runs (h : SetupReady s run W me prio) {a : Nat} (ha : a ∈ hand s me) :
    s.cpu (s.st a).task = me ∧ (s.st a).state ≠ .plain .blocked := by
  have hmem : a ∈ run me := by
    rw [h.mine]
    exact Multiset.mem_add.mpr (.inr ha)
  obtain ⟨-, hcpu, hruns⟩ := h.places.home me a hmem
  refine ⟨hcpu, fun hstate => ?_⟩
  rw [hstate] at hruns
  exact absurd hruns (by decide)

/-- The entry that becomes active leaves the counters of the heap, after the one that was active
entered them. -/
theorem SetupReady.popped_books (h : SetupReady s run W me prio) (hprio : prio ≠ intMin) {p : Nat}
    {pqueue : Bheap Nat} (hpop : bhRemoveMax (s.rq me).pqueue = (.ok p, pqueue)) {s₂ : Mts}
    (hs₂ : s₂ = requeueActive (s.setRq me { s.rq me with pqueue := pqueue }) me fl) {q : RunQueue}
    (hpqueue : q.pqueue = (s₂.rq me).pqueue) (hnready : q.nready = (s₂.rq me).nready - 1)
    (hrprio : q.rprio = (s₂.rq me).rprio - (s₂.st p).prio)
    (hnblocked : q.nblocked = (s₂.rq me).nblocked) (hntasks : q.ntasks = (s₂.rq me).ntasks) :
    Books s ((s₂.setSt p { s₂.st p with state := .plain .active }).setRq me q) := by
  obtain ⟨hpay, hhand, hreq⟩ := popped_requeued h.places h.mine h.lowest (h.busy hprio) hpop fl
  have hcounts := requeueActive_counts (s.setRq me { s.rq me with pqueue := pqueue }) me fl
    fun a ha => h.hand_runs (hhand ▸ ha)
  rw [← hs₂] at hreq hcounts
  simp only [hhand, Mts.setRq_rq, Function.update_self] at hcounts
  obtain ⟨hnready₂, hrprio₂, hnblocked₂, hntasks₂⟩ := hcounts
  have hready : payloads (s₂.rq me).pqueue = payloads pqueue + hand s me := by
    have heq := hreq.ready
    rw [hhand] at heq
    simpa [readyAt] using heq
  -- No entry is in the heap and active at once, so that the new priority of the active one is
  -- counted once.
  have hnodup := h.places.nodup me
  rw [h.mine, hpay, Multiset.cons_add, Multiset.nodup_cons, Multiset.nodup_add] at hnodup
  obtain ⟨hpnot, -, -, hdisjoint⟩ := hnodup
  have hkeep : ∀ k, k ∉ hand s me → s₂.st k = s.st k := by
    intro k hk
    rcases hreq.st k with hsame | ⟨hmem, -⟩
    · exact hsame
    · exact absurd (hhand ▸ hmem) hk
  have hp₂ : s₂.st p = s.st p := hkeep p fun hmem => hpnot (Multiset.mem_add.mpr (.inr hmem))
  have hprios : ∀ k, (((s₂.setSt p { s₂.st p with state := .plain .active }).setRq me q).st k).prio =
      (s₂.st k).prio := by
    intro k
    by_cases hk : k = p
    · subst hk
      simp
    · simp [hk]
  have hother : ∀ c, c ≠ me → s₂.rq c = s.rq c := by
    intro c hc
    rw [hreq.other c hc, Mts.setRq_rq, Function.update_of_ne hc]
  constructor
  · intro ht c
    by_cases hc : c = me
    · subst hc
      have hself : readyAt ((s₂.setSt p { s₂.st p with state := .plain .active }).setRq c q) c =
          payloads pqueue + hand s c := by
        simp only [readyAt, Mts.setRq_rq, Function.update_self, hpqueue, hready]
      constructor
      · rw [hself, Mts.setRq_rq, Function.update_self, hnready, hnready₂, (ht c).nready, hpay,
          Multiset.card_cons, Multiset.card_add, UInt64.ofNat_add, UInt64.ofNat_add]
        grind
      · rw [hself, prioSum_congr fun k _ => hprios k, Mts.setRq_rq, Function.update_self, hrprio,
          hrprio₂, (ht c).rprio, hpay, hp₂, prioSum_cons, prioSum_add]
        have hqueue : prioSum s₂ (payloads pqueue) = prioSum s (payloads pqueue) := by
          refine prioSum_congr fun k hk => ?_
          rw [hkeep k fun hmem => Multiset.disjoint_left.mp hdisjoint hk hmem]
        rw [hqueue]
        ring
    · have hrq : ((s₂.setSt p { s₂.st p with state := .plain .active }).setRq me q).rq c =
          s.rq c := by
        simp only [Mts.setRq_rq, Mts.setSt_rq, Function.update_of_ne hc, hother c hc]
      refine (ht c).congr (by rw [hrq]) (by rw [hrq]) (by rw [readyAt, hrq, readyAt]) fun k hk => ?_
      rw [hprios k, hkeep k fun hmem => ?_]
      have hkc : k ∈ run c := by
        rw [h.other c hc]
        exact Multiset.mem_add.mpr (.inl hk)
      have hkme : k ∈ run me := by
        rw [h.mine]
        exact Multiset.mem_add.mpr (.inr hmem)
      exact hc ((h.places.home c k hkc).2.1.symm.trans (h.places.home me k hkme).2.1)
  · intro c
    by_cases hc : c = me
    · subst hc
      simp only [Mts.setRq_rq, Function.update_self, hnblocked, hnblocked₂]
    · simp only [Mts.setRq_rq, Mts.setSt_rq, Function.update_of_ne hc, hother c hc]
  · intro c
    by_cases hc : c = me
    · subst hc
      simp only [Mts.setRq_rq, Function.update_self, hntasks, hntasks₂]
    · simp only [Mts.setRq_rq, Mts.setSt_rq, Function.update_of_ne hc, hother c hc]

/-- Switching the active task keeps the counters of the heap. -/
theorem SetupReady.books (h : SetupReady s run W me prio)
    (hret : setupActive s me prio fl = some (t, s')) : Books s s' := by
  unfold setupActive at hret
  by_cases hprio : prio = intMin
  · rw [if_pos hprio] at hret
    obtain ⟨-, rfl⟩ := Prod.mk.inj (Option.some.inj hret)
    refine Books.release ?_ _
    refine .of_same (fun c => ?_) fun p => rfl
    by_cases hc : c = me
    · subst hc
      simp only [Mts.setRq_rq, Function.update_self]
      exact ⟨rfl, rfl, rfl, rfl, rfl⟩
    · simp only [Mts.setRq_rq, Function.update_of_ne hc]
      exact .refl _
  · rw [if_neg hprio] at hret
    obtain ⟨p, pqueue, hpop, -⟩ := (h.places.queue me).removeMax (h.busy hprio)
    rw [hpop] at hret
    obtain ⟨-, rfl⟩ := Prod.mk.inj (Option.some.inj hret)
    refine Books.release ?_ _
    apply h.popped_books hprio hpop rfl
    · rfl
    · rfl
    · simp
    · rfl
    · rfl

end Setup

section GetNext

variable {me a t : Nat} {fl : Floats}

/-- Rescheduling the active entry keeps the counters, in place or when it goes into the heap. -/
theorem reschedule_books (hp : Placed s W) (hactive : (s.rq me).active = some a)
    (hruns : (s.st a).state.runs = true) (hneed : (s.st a).state.needResched = true) {ins : Bool}
    (hins : inserts (s.rq me) (s.st a) false fl = ins)
    (hready : readyAt (scheduleTask s me a false fl).1 me =
      (if ins then {a} else 0) + readyAt s me) :
    Books s (scheduleTask s me a false fl).1 := by
  have hstate : (s.st a).state ≠ .plain .ready := SchedState.ne_plain_of_needResched hneed _
  have hblocked : (s.st a).state ≠ .plain .blocked := SchedState.ne_plain_of_needResched hneed _
  have hrq := scheduleTask_rq hstate me false fl me
  simp only [rescheduledQueue, (hp.active me a hactive).cpu, hins, decide_true, true_and, hblocked,
    and_false, if_false, if_true] at hrq
  have hother : ∀ c, c ≠ me → (scheduleTask s me a false fl).1.rq c = s.rq c :=
    fun c hc => scheduleTask_active_other hp hactive hstate false hc
  have hst := scheduleTask_st hstate me false fl
  generalize (scheduleTask s me a false fl).1 = s₁ at *
  have hself : s₁.st a = rescheduled (s.rq me) (s.st a) fl := by rw [hst, Function.update_self]
  have hkeep : ∀ c, ∀ k ∈ readyAt s c, (s₁.st k).prio = (s.st k).prio := by
    intro c k hk
    have hka : k ≠ a := fun heq => hp.active_not_ready hactive hruns c (heq ▸ hk)
    rw [hst, Function.update_of_ne hka]
  constructor
  · intro ht c
    by_cases hc : c = me
    · subst hc
      cases ins with
      | false =>
          refine (ht c).congr ?_ ?_ (by simpa using hready) (hkeep c)
          · simp [hrq]
          · simp [hrq]
      | true =>
          simp only [if_true, Multiset.singleton_add] at hready
          constructor
          · rw [hready, Multiset.card_cons, UInt64.ofNat_add, hrq]
            simp [(ht c).nready]
          · rw [hready, prioSum_cons, prioSum_congr (hkeep c), hself, hrq]
            simp [(ht c).rprio, add_comm]
    · refine (ht c).congr ?_ ?_ ?_ (hkeep c)
      · rw [hother c hc]
      · rw [hother c hc]
      · rw [readyAt, hother c hc, readyAt]
  · intro c
    by_cases hc : c = me
    · rw [hc, hrq]
    · rw [hother c hc]
  · intro c
    by_cases hc : c = me
    · rw [hc, hrq]
    · rw [hother c hc]

theorem dropActive_books (s : Mts) (me : Nat) : Books s (s.dropActive me) := by
  refine .of_same (fun c => ?_) fun p => rfl
  by_cases hc : c = me
  · subst hc
    simp only [Mts.dropActive, Mts.setRq_rq, Function.update_self]
    exact ⟨rfl, rfl, rfl, rfl, rfl⟩
  · simp only [Mts.dropActive, Mts.setRq_rq, Function.update_of_ne hc]
    exact .refl _

theorem freeEntry_books (s : Mts) (p : Nat) : Books s (s.freeEntry p) := by
  obtain ⟨-, hrq, hst, -⟩ := freeEntry_fields s p
  refine .of_same (fun c => ?_) fun k => ?_
  · rw [hrq]
    exact .refl _
  · rw [hst]

theorem preempt_books (s : Mts) (p : Nat) : Books s (s.preempt p) := by
  refine .of_same (fun c => .refl _) fun k => ?_
  by_cases hk : k = p
  · subst hk
    simp [Mts.preempt]
  · simp [Mts.preempt, hk]

/-- `mts_get_next` keeps the counters right. -/
theorem NextPath.books (h : NextPath s me fl t s') (hp : Placed s W)
    (hcare : CarefulGetNext s me fl) : Books s s' := by
  cases h with
  | none hactive hret => exact (getNext_none hp hactive).books hret
  | free a hactive hstate hret =>
      have hfree := (freeEntry_books s a).trans (dropActive_books _ me)
      exact hfree.trans ((getNext_free hp hactive hstate).books hret)
  | drop a hactive hstate hret =>
      have hruns : (s.st a).state.runs = false := by rw [hstate]; rfl
      have hready := getNext_drop hp hactive hruns hp.places rfl rfl hp.hactive_other
      exact (dropActive_books s me).trans (hready.books hret)
  | requeue a s₁ hactive hruns hs₁ hstate hprio hret =>
      have hready := getNext_requeue hp hactive hruns hcare.lowest hs₁ hstate hprio
      rcases hs₁ with rfl | rfl
      · exact hready.books hret
      · exact (preempt_books s a).trans (hready.books hret)
  | stay a hactive hruns htask hsame =>
      rw [hsame]
      exact .of_same (fun c => .refl _) fun p => rfl
  | inPlace a hactive hruns hneed hins htask hret =>
      rw [hret]
      refine (reschedule_books hp hactive hruns hneed hins ?_).release _
      have hstate : (s.st a).state ≠ .plain .ready := SchedState.ne_plain_of_needResched hneed _
      rw [readyAt, scheduleTask_rq hstate]
      simp [rescheduledQueue, hins, readyAt]
  | penalised a hactive hruns hneed hins hret =>
      have hready := getNext_penalised hp hactive hruns hneed hcare.lowest
        (hcare.room a hactive hneed hins) hins
      refine (reschedule_books hp hactive hruns hneed hins ?_).trans (hready.books hret)
      have hstate : (s.st a).state ≠ .plain .ready := SchedState.ne_plain_of_needResched hneed _
      have hself := congrFun (scheduleTask_st hstate me false fl) a
      rw [Function.update_self] at hself
      have hhand : hand (scheduleTask s me a false fl).1 me = 0 := by
        simp [hand, scheduleTask_active, hactive, hself, rescheduled_state]
      have hmine := hready.mine
      rw [hhand, add_zero, runnable, runningAt_of_runs hactive hruns, add_comm] at hmine
      exact hmine.symm

theorem mtsGetNext_books (hp : Placed s W) (hcare : CarefulGetNext s me fl)
    (hret : mtsGetNext s me fl = some (t, s')) : Books s s' := by
  have hsame := SameButLocks.acquire s (.rq me)
  have hpath := mtsGetNext_path hp hcare hret
  exact hsame.books.trans (hpath.books (hsame.placed hp).1 (hsame.careful hcare))

end GetNext

/-- `mts_tick` counts ticks only. -/
theorem mtsTick_books (s : Mts) (me : Nat) : Books s (mtsTick s me).2 := by
  unfold mtsTick
  cases (s.rq me).active with
  | none =>
      simp only
      split_ifs <;> exact .of_same (fun c => .refl _) fun p => rfl
  | some a =>
      simp only
      rw [tickActive_eq]
      refine .of_same (fun c => ?_) fun k => ?_
      · by_cases hc : c = me
        · subst hc
          simp only [Mts.setSt_rq, Mts.setRq_rq, Function.update_self]
          exact ⟨rfl, rfl, rfl, rfl, rfl⟩
        · simp only [Mts.setSt_rq, Mts.setRq_rq, Function.update_of_ne hc]
          exact .refl _
      · by_cases hk : k = a
        · subst hk
          simp
        · simp [hk]

/-! ## All counters -/

/-- The wait list of a processor, when only that of the first one is used. -/
def waitingAt (W : List Nat) (c : Nat) : List Nat := if c = 0 then W else []

/-- Every entry is in its place and is counted there. -/
structure Booked (s : Mts) (W : List Nat) : Prop where
  placed : Placed s W
  tally : ∀ c, Tally s c
  nblocked : ∀ c, (s.rq c).nblocked = .ofNat (waitingAt W c).length
  ntasks : ∀ c, (s.rq c).ntasks =
    .ofNat (Multiset.card (runnable s c) + (waitingAt W c).length)

theorem Booked.of_books (hb : Booked s W) (h : Books s s') (hp : Placed s' W)
    (hrun : runnable s' = runnable s) : Booked s' W where
  placed := hp
  tally := h.tally hb.tally
  nblocked c := (h.nblocked c).trans (hb.nblocked c)
  ntasks c := by rw [h.ntasks, hrun, hb.ntasks]

theorem Booked.locks (hb : Booked s W) (h : SameButLocks s s') : Booked s' W := by
  obtain ⟨hp, hrun⟩ := h.placed hb.placed
  exact hb.of_books h.books hp hrun

theorem Scheduled.booked {task c p : Nat} {nice : Int} {mem : Option Nat}
    (hs : Scheduled s s' task nice c p) (hb : Booked s W) (hcare : CarefulSchedule s task mem)
    (hmem : mem = some p) : Booked s' W := by
  obtain ⟨hplaced, hrun⟩ := hs.placed hb.placed hcare hmem
  have hkeep : ∀ c', ∀ k ∈ readyAt s c', (s'.st k).prio = (s.st k).prio := by
    intro c' k hk
    have hlive := (hb.placed.places.home c' k (Multiset.mem_add.mpr (.inl hk))).1
    have hkp : k ≠ p := fun heq => by simp [heq, hcare.fresh p hmem] at hlive
    rw [hs.st, Function.update_of_ne hkp]
  have hself : (s'.st p).prio = (newEntry task nice (s.rq c).tick).prio := by
    rw [hs.st, Function.update_self]
  refine ⟨hplaced, fun c' => ?_, fun c' => ?_, fun c' => ?_⟩
  · by_cases hc : c' = c
    · subst hc
      constructor
      · rw [hs.ready, Multiset.card_cons, UInt64.ofNat_add, hs.rq_self]
        simp [RunQueue.count, (hb.tally c').nready]
      · rw [hs.ready, prioSum_cons, prioSum_congr (hkeep c'), hself, hs.rq_self]
        simp [RunQueue.count, (hb.tally c').rprio, add_comm]
    · have hrq := hs.rq_other hc
      exact (hb.tally c').congr (by rw [hrq]) (by rw [hrq]) (by rw [readyAt, hrq, readyAt])
        (hkeep c')
  · by_cases hc : c' = c
    · rw [hc, hs.rq_self]
      exact hb.nblocked c
    · rw [hs.rq_other hc]
      exact hb.nblocked c'
  · rw [hrun]
    by_cases hc : c' = c
    · subst hc
      rw [Function.update_self, Multiset.card_cons, Nat.add_right_comm, UInt64.ofNat_add, hs.rq_self,
        ← hb.ntasks c']
      rfl
    · rw [Function.update_of_ne hc, hs.rq_other hc]
      exact hb.ntasks c'

theorem ScheduleFailed.booked {task : Nat} (hs : ScheduleFailed s s' task) (hb : Booked s W)
    (hsingle : ∀ q, s.live q = true → (s.st q).task ≠ task) : Booked s' W := by
  obtain ⟨hp, hrun⟩ := hs.placed hb.placed hsingle
  refine hb.of_books (.of_same (fun c => ?_) fun p => ?_) hp hrun
  · rw [hs.rq]
    exact .refl _
  · rw [hs.st]

/-- A task that is blocked while it is ready moves from one counter to another. -/
theorem block_booked {task : Nat} {r : Status} (hb : Booked s W) (hcpu : s.cpu task = 0)
    (hother : ∀ a, (s.rq 0).active = some a → (s.st a).task ≠ task)
    (hret : mtsBlock s task = some (r, s')) : ∃ p, Booked s' (p :: W) := by
  have hcare : CarefulBlock s task := ⟨hcpu, fun a ha htask => absurd htask (hother a ha)⟩
  obtain ⟨p, pqueue, rest, htaken, hsame, hrest, hplaced, hrun⟩ :=
    mtsBlock_spec hb.placed hcare hret
  have hready : readyAt s 0 = p ::ₘ payloads pqueue := by
    obtain ⟨-, -, -, ⟨hself, -⟩ | ⟨-, -, hpay⟩⟩ := htaken.runnable hb.placed hcare.runs
    · exact absurd htaken.1 (hother p hself)
    · exact hpay
  have hfirst : s'.rq 0 = (s.park pqueue p).rq 0 := by rw [hsame.rq]
  simp only [Mts.park, Function.update_self] at hfirst
  have hrest' : ∀ c, c ≠ 0 → s'.rq c = s.rq c := by
    intro c hc
    rw [hsame.rq]
    exact Function.update_of_ne hc ..
  have hprio : ∀ k, (s'.st k).prio = (s.st k).prio := by
    intro k
    rw [hsame.st]
    by_cases hk : k = p
    · subst hk
      simp [Mts.park]
    · simp [Mts.park, hk]
  refine ⟨p, hplaced, fun c => ?_, fun c => ?_, fun c => ?_⟩
  · by_cases hc : c = 0
    · subst hc
      have htally := hb.tally 0
      have hpay : readyAt s' 0 = payloads pqueue := by rw [readyAt, hfirst]
      constructor
      · rw [hpay, hfirst]
        simp only [htally.nready, hready, Multiset.card_cons, UInt64.ofNat_add]
        grind
      · rw [hpay, prioSum_congr fun k _ => hprio k, hfirst]
        simp only [htally.rprio, hready, prioSum_cons]
        ring
    · have hrq := hrest' c hc
      exact (hb.tally c).congr (by rw [hrq]) (by rw [hrq]) (by rw [readyAt, hrq, readyAt])
        fun k _ => hprio k
  · by_cases hc : c = 0
    · subst hc
      rw [hfirst]
      simp [hb.nblocked 0, waitingAt, UInt64.ofNat_add]
    · rw [hrest' c hc, hb.nblocked c]
      simp [waitingAt, hc]
  · rw [hrun]
    by_cases hc : c = 0
    · subst hc
      rw [Function.update_self, hfirst]
      simp only [hb.ntasks 0, hrest, waitingAt, Multiset.card_cons, List.length_cons, if_true]
      congr 1
      omega
    · rw [Function.update_of_ne hc, hrest' c hc, hb.ntasks c]
      simp [waitingAt, hc]

/-- A task that is woken by the processor it belongs to moves back. -/
theorem unblock_booked {turns task : Nat} {fl : Floats} {r : Status} (hb : Booked s W)
    (hcare : CarefulUnblock s 0 task) (hret : mtsUnblock turns s 0 task fl = some (r, s')) :
    ∃ W', Booked s' W' := by
  rcases mtsUnblock_spec hb.placed hcare hret with
    hsame | ⟨p, as, bs, htask, rfl, hplaced, hwoken, hrun⟩
  · exact ⟨W, hb.locks hsame⟩
  have hblocked : (s.st p).state = .plain .blocked :=
    (hb.placed.places.waiting p (by simp)).2.2
  have hkeep : ∀ c, ∀ k ∈ readyAt s c, (s'.st k).prio = (s.st k).prio := by
    intro c k hk
    have hkc : k ∈ runnable s c := Multiset.mem_add.mpr (.inl hk)
    have hkp : k ≠ p := by
      rintro rfl
      exact (hb.placed.places.runs_not_blocked hkc).1 (by simp)
    rw [hwoken.st, Function.update_of_ne hkp]
  have hself : (s'.st p).prio = (rescheduled (s.rq 0) (s.st p) fl).prio := by
    rw [hwoken.st, Function.update_self]
  have hrq : ∀ c, c ≠ 0 → s'.rq c = s.rq c := by
    intro c hc
    rw [hwoken.rq c]
    simp only [hc, decide_false]
    exact rescheduledQueue_other ..
  have hfirst := hwoken.rq 0
  simp only [rescheduledQueue, decide_true, hblocked, and_self, if_true] at hfirst
  refine ⟨as ++ bs, hplaced, fun c => ?_, fun c => ?_, fun c => ?_⟩
  · by_cases hc : c = 0
    · subst hc
      have hready : readyAt s' 0 = p ::ₘ readyAt s 0 := by rw [hwoken.ready, Function.update_self]
      constructor
      · rw [hready, Multiset.card_cons, UInt64.ofNat_add, hfirst]
        simp [(hb.tally 0).nready]
      · rw [hready, prioSum_cons, prioSum_congr (hkeep 0), hself, hfirst]
        simp [(hb.tally 0).rprio, add_comm]
    · refine (hb.tally c).congr (by rw [hrq c hc]) (by rw [hrq c hc]) ?_ (hkeep c)
      rw [readyAt, hrq c hc, readyAt]
  · by_cases hc : c = 0
    · subst hc
      rw [hfirst]
      simp only [hb.nblocked 0, waitingAt, if_true, List.length_append, List.length_cons,
        UInt64.ofNat_add]
      grind
    · rw [hrq c hc, hb.nblocked c]
      simp [waitingAt, hc]
  · rw [hrun]
    by_cases hc : c = 0
    · subst hc
      rw [Function.update_self, hfirst]
      simp only [hb.ntasks 0, waitingAt, if_true, Multiset.card_cons, List.length_append,
        List.length_cons]
      congr 1
      omega
    · rw [Function.update_of_ne hc, hrq c hc, hb.ntasks c]
      simp [waitingAt, hc]

/-- A task that is unscheduled while it is active is not counted any more. -/
theorem unschedule_booked {task : Nat} {r : Status} (hb : Booked s W)
    (hcare : CarefulUnschedule s task)
    (hself : ∀ a, (s.rq (s.cpu task)).active = some a → (s.st a).task = task)
    (hret : mtsUnschedule s task = some (r, s')) : Booked s' W := by
  rcases mtsUnschedule_cases hb.placed.places hret with
    ⟨-, -, rfl⟩ | ⟨a, hactive, htask, rfl⟩ | ⟨a, -, -, -, hactive, htask, -⟩
  · exact hb
  · generalize s.cpu task = c at *
    obtain ⟨hlinked, hruns⟩ := hcare a (hb.placed.active c a hactive).live htask
    obtain ⟨-, hplaced, rest, hrest, hrun⟩ :=
      leave_unscheduled hb.placed hactive htask hlinked hruns
    have hother : ∀ c', c' ≠ c → (s.leave c a).rq c' = s.rq c' := by
      intro c' hc
      simp [Mts.leave, hc]
    have hfirst : (s.leave c a).rq c = { s.rq c with ntasks := (s.rq c).ntasks - 1 } := by
      simp [Mts.leave]
    refine ⟨hplaced, fun c' => ?_, fun c' => ?_, fun c' => ?_⟩
    · refine (hb.tally c').congr ?_ ?_ ?_ fun k _ => ?_
      · by_cases hc : c' = c
        · rw [hc, hfirst]
        · rw [hother c' hc]
      · by_cases hc : c' = c
        · rw [hc, hfirst]
        · rw [hother c' hc]
      · by_cases hc : c' = c
        · rw [hc, readyAt, hfirst, readyAt]
        · rw [readyAt, hother c' hc, readyAt]
      · by_cases hk : k = a
        · subst hk
          simp [Mts.leave]
        · simp [Mts.leave, hk]
    · by_cases hc : c' = c
      · rw [hc, hfirst]
        exact hb.nblocked c
      · rw [hother c' hc]
        exact hb.nblocked c'
    · rw [hrun]
      by_cases hc : c' = c
      · subst hc
        rw [Function.update_self, hfirst]
        simp only [hb.ntasks c', hrest, Multiset.card_cons, UInt64.ofNat_add]
        grind
      · rw [Function.update_of_ne hc, hother c' hc]
        exact hb.ntasks c'
  · exact absurd (hself a hactive) htask

/-! ## Runs -/

/-- The heap of the processor that a new task goes to is not full. -/
def RoomFor (s : Mts) (nice : Int) (mem : Option Nat) : Prop :=
  ∀ p, mem = some p → nice.natAbs ≤ 4 → (s.rq (leastLoaded s s.ncpu)).pqueue.size < 256

/-- The calls that keep the counters right. -/
def CountsRight (s : Mts) : MtsCall → Prop
  | .schedule _ task nice mem _ => CarefulSchedule s task mem ∧ RoomFor s nice mem
  | .tick me => CarefulTick s me
  | .getNext me fl => CarefulGetNext s me fl
  | .block task => s.cpu task = 0 ∧ ∀ a, (s.rq 0).active = some a → (s.st a).task ≠ task
  | .unblock _ me task _ => me = 0 ∧ CarefulUnblock s me task
  | .unschedule task =>
      CarefulUnschedule s task ∧
        ∀ a, (s.rq (s.cpu task)).active = some a → (s.st a).task = task

theorem Booked.step {call : MtsCall} {r : MtsRet} (hb : Booked s W) (hcare : CountsRight s call)
    (hstep : MtsStep s (call, r) s') : ∃ W', Booked s' W' := by
  cases call with
  | schedule me task nice mem garbage =>
      obtain ⟨-, rfl⟩ := Prod.mk.inj (Option.some.inj hstep)
      obtain ⟨hcare, hroom⟩ := hcare
      rcases mtsSchedule_cases me garbage hb.placed.places.queue with
        ⟨-, hfailed⟩ | ⟨c, p, hmem, -, hs⟩ | ⟨c, p, hmem, -, hs⟩
      · exact ⟨W, hfailed.booked hb hcare.single⟩
      · have hlt := hroom p hmem hs.accepted
        rw [← hs.least, hs.full] at hlt
        exact absurd hlt (lt_irrefl 256)
      · exact ⟨W, hs.booked hb hcare hmem⟩
  | tick me =>
      obtain ⟨-, rfl⟩ := Prod.mk.inj (Option.some.inj hstep)
      obtain ⟨hp, hrun⟩ := mtsTick_spec hb.placed hcare
      exact ⟨W, hb.of_books (mtsTick_books s me) hp hrun⟩
  | getNext me fl =>
      obtain ⟨t, hret, -⟩ := hstep.getNext
      have hs := mtsGetNext_spec hb.placed hcare hret
      exact ⟨W, hb.of_books (mtsGetNext_books hb.placed hcare hret) hs.placed hs.kept⟩
  | block task =>
      obtain ⟨t, hret, -⟩ := hstep.block
      obtain ⟨p, hp⟩ := block_booked hb hcare.1 hcare.2 hret
      exact ⟨_, hp⟩
  | unblock turns me task fl =>
      obtain ⟨t, hret, -⟩ := hstep.unblock
      obtain ⟨rfl, hcare⟩ := hcare
      exact unblock_booked hb hcare hret
  | unschedule task =>
      obtain ⟨t, hret, -⟩ := hstep.unschedule
      exact ⟨W, unschedule_booked hb hcare.1 hcare.2 hret⟩

theorem mtsStart_booked (ncpu : Nat) (idle : Nat → Nat) (garbage : Nat → Elem Nat)
    (st : Nat → SchedTask) (cpu : Nat → Nat) : Booked (mtsStart ncpu idle garbage st cpu) [] := by
  have hready := readyAt_mtsStart ncpu idle garbage st cpu
  have hrunning : ∀ c, runningAt (mtsStart ncpu idle garbage st cpu) c = 0 :=
    fun c => runningAt_of_none rfl
  refine ⟨mtsStart_placed .., fun c => ⟨?_, ?_⟩, fun c => ?_, fun c => ?_⟩
  · rw [hready]
    rfl
  · rw [hready]
    rfl
  · simp [waitingAt, mtsStart]
  · rw [runnable, hready, hrunning]
    simp [waitingAt, mtsStart]

/-- The counters of a run queue with the wait list `waiting` say what it holds: the ready tasks, the
blocked ones, the sum of the priorities of the ready ones, and all its tasks. -/
structure Accounted (s : Mts) (c : Nat) (waiting : List Nat) : Prop where
  waits : ListRing s.links (.waitList c) (waiting.map .entry)
  nready : (s.rq c).nready = .ofNat (Multiset.card (readyAt s c))
  nblocked : (s.rq c).nblocked = .ofNat waiting.length
  rprio : (s.rq c).rprio = prioSum s (readyAt s c)
  ntasks : (s.rq c).ntasks =
    .ofNat (Multiset.card (readyAt s c) + Multiset.card (runningAt s c) + waiting.length)

theorem Booked.accounted (hb : Booked s W) (c : Nat) : Accounted s c (waitingAt W c) := by
  refine ⟨?_, (hb.tally c).nready, hb.nblocked c, (hb.tally c).rprio, ?_⟩
  · by_cases hc : c = 0
    · subst hc
      exact hb.placed.places.ring
    · simpa [waitingAt, hc] using hb.placed.places.rings c hc
  · rw [hb.ntasks c, runnable, Multiset.card_add]

/-- In every run whose calls count right, the counters of every run queue say what it holds. -/
theorem mts_counters_right {ncpu : Nat} {idle : Nat → Nat} {garbage : Nat → Elem Nat}
    {st : Nat → SchedTask} {cpu : Nat → Nat} {calls : List (MtsCall × MtsRet)}
    (hrun : Run (fun s call s' => MtsStep s call s' ∧ CountsRight s call.1)
      (mtsStart ncpu idle garbage st cpu) calls s) (c : Nat) :
    ∃ waiting, Accounted s c waiting := by
  have hbooked : ∃ W, Booked s W := by
    refine hrun.invariant (fun s => ∃ W, Booked s W) ?_ ⟨[], mtsStart_booked ..⟩
    rintro s call s' ⟨W, hb⟩ ⟨hstep, hcare⟩
    exact hb.step hcare hstep
  obtain ⟨W, hb⟩ := hbooked
  exact ⟨_, hb.accounted c⟩

theorem oneActive_counts :
    Run (fun s call s' => MtsStep s call s' ∧ CountsRight s call.1) oneCpu
      [(.schedule 0 1 0 (some 4096) 0, .status (.unspecified 0)), (.getNext 0 calm, .task 1)]
      oneActive :=
  (Run.nil.snoc ⟨oneReady_step, oneCpu_careful, fun _ _ _ => (by decide : (0 : Nat) < 256)⟩).snoc ⟨oneActive_step, oneReady_careful⟩

/-- The run queue holds its active task and nothing else. -/
theorem oneActive_accounted : ∃ waiting, Accounted oneActive 0 waiting :=
  mts_counters_right oneActive_counts 0

/-- Blocking the active task makes `nready` wrap around, with the heap empty. -/
theorem blocking_active_wraps_nready :
    (∃ calls, Run MtsStep oneCpu calls oneBlocked) ∧
      (oneBlocked.rq 0).nready.toNat = 2 ^ 64 - 1 ∧ readyAt oneBlocked 0 = 0 ∧
      ∀ waiting, ¬ Accounted oneBlocked 0 waiting := by
  have hempty : readyAt oneBlocked 0 = 0 :=
    Multiset.card_eq_zero.mp (card_payloads (oneBlocked.rq 0).pqueue)
  have hnready : (oneBlocked.rq 0).nready = 0 + 1 - 1 - 1 := rfl
  have hrun := ((Run.nil.snoc oneReady_step).snoc oneActive_step).snoc oneBlocked_step
  refine ⟨⟨_, hrun⟩, ?_, hempty, fun waiting hacc => ?_⟩
  · rw [hnready]
    decide
  · have hcount := hacc.nready
    rw [hempty, hnready] at hcount
    exact absurd hcount (by decide)

end Sched
end Micael
