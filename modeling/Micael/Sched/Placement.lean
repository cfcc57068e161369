import Micael.Sched.Reschedule

/-!
# Where the entries of the scheduler are

The value of an entry's state says where the entry is: an entry that runs is the active task of its
processor or in the heap, an entry that is blocked is on the wait list, and an entry that is
unscheduled stays the active task until the next `mts_get_next` frees it.  A task that is blocked
while it is active stays the active task until then, too.

`mts_tick` and `mts_get_next` keep the runnable entries of every processor.  This needs the care that
{lit}`CarefulTick` and {lit}`CarefulGetNext` spell out.

Main results:

- Theorem {lit}`setupActive_spec`: switching the active task keeps the runnable entries.
- Theorem {lit}`mtsGetNext_spec` and {lit}`mtsTick_spec`: a careful call keeps every entry in the place its
  state says.
-/

namespace Micael
namespace Sched

open Foundation Lib

/-! ## The heap of a run queue -/

/-- The entries in a heap. -/
def payloads (h : Bheap Nat) : Multiset Nat := h.pairs.map Elem.payload

theorem card_payloads (h : Bheap Nat) : Multiset.card (payloads h) = h.size := by
  rw [payloads, Multiset.card_map, h.card_pairs]

/-- A heap of a run queue, in order and with keys strictly between the ends of an `int`. -/
structure QueueOk (h : Bheap Nat) : Prop where
  holds : HoldsPairs 256 h h.pairs
  above : ∀ x ∈ h.pairs, intMin < x.key

theorem QueueOk.insert {h : Bheap Nat} (hq : QueueOk h) (hroom : h.size < 256) {key : Int}
    (hlow : intMin < key) (hhigh : key < intMax) (p : Nat) :
    ∃ h', bhInsert h key (some p) = (.ok (), h') ∧ QueueOk h' ∧ payloads h' = p ::ₘ payloads h := by
  have hcap := hq.holds.capacity
  obtain ⟨h', hret, -, -, hpairs⟩ := bhInsert_spec hq.holds.ordered (by omega) key p
  obtain ⟨m, -, hm⟩ := hq.holds.insert_step (ω := Unit) hhigh hret
  obtain rfl := hm.pairs
  refine ⟨h', hret, ⟨hm, fun x hx => ?_⟩, ?_⟩
  · rw [hpairs] at hx
    rcases Multiset.mem_cons.mp hx with rfl | hx
    · exact hlow
    · exact hq.above x hx
  · rw [payloads, hpairs, Multiset.map_cons, payloads]

/-- Taking a pair out keeps the rest of the heap. -/
theorem QueueOk.took {h h' : Bheap Nat} {x : Elem Nat} (hq : QueueOk h) (htook : Took h h' x) :
    QueueOk h' ∧ payloads h = x.payload ::ₘ payloads h' := by
  obtain ⟨m, hm, hholds⟩ := hq.holds.took htook
  obtain rfl := hholds.pairs
  refine ⟨⟨hholds, fun y hy => hq.above y ?_⟩, ?_⟩
  · rw [hm]
    exact Multiset.mem_cons_of_mem hy
  · rw [payloads, hm, Multiset.map_cons, payloads]

theorem QueueOk.removeMax {h : Bheap Nat} (hq : QueueOk h) (hsize : 0 < h.size) :
    ∃ p h', bhRemoveMax h = (.ok p, h') ∧ QueueOk h' ∧ payloads h = p ::ₘ payloads h' := by
  obtain ⟨h', hret, htook⟩ := bhRemoveMax_spec hq.holds.ordered hsize
  obtain ⟨hok, hpayloads⟩ := hq.took htook
  exact ⟨_, h', hret, hok, hpayloads⟩

theorem QueueOk.removePld {h h' : Bheap Nat} {arg p : Nat} {cc : Nat → Nat → Bool}
    (hq : QueueOk h) (hret : bhRemovePld h (some arg) (some cc) = (.ok p, h')) :
    cc arg p = true ∧ QueueOk h' ∧ payloads h = p ::ₘ payloads h' := by
  rcases removeFirst_spec (fun x => cc arg x.payload) hq.holds.ordered hq.holds.below
    with ⟨x, t, hfound, hx, htook⟩ | ⟨hnone, -⟩
  · obtain ⟨hp, rfl⟩ := Prod.mk.inj (hfound.symm.trans hret)
    obtain rfl := Except.ok.inj hp
    exact ⟨hx, hq.took htook⟩
  · exact absurd (hnone.symm.trans hret) (by simp)

/-- The largest key is `INT_MIN` just when the heap is empty. -/
theorem QueueOk.peek_eq_intMin {h : Bheap Nat} (hq : QueueOk h) :
    bhPeekMax h = intMin ↔ h.size = 0 := by
  unfold bhPeekMax
  constructor
  · intro hpeek
    by_contra hsize
    rw [if_neg hsize] at hpeek
    have hroot := (hq.holds.root (Nat.pos_of_ne_zero hsize)).1
    have habove := hq.above _ hroot
    exact absurd hpeek habove.ne'
  · intro hsize
    rw [if_pos hsize]

/-! ## Places -/

/-- A state of an entry that is active or ready. -/
def SchedState.runs (state : SchedState) : Bool := state.value = .active ∨ state.value = .ready

/-- The entries in the heap of a processor. -/
def readyAt (s : Mts) (c : Nat) : Multiset Nat := payloads (s.rq c).pqueue

/-- The active entry of a processor, when it runs. -/
def runningAt (s : Mts) (c : Nat) : Multiset Nat :=
  match (s.rq c).active with
  | some a => if (s.st a).state.runs then {a} else 0
  | none => 0

/-- The runnable entries of a processor. -/
def runnable (s : Mts) (c : Nat) : Multiset Nat := readyAt s c + runningAt s c

/-- The list node of an entry points at itself: the entry was never on a list. -/
def Unlinked (s : Mts) (p : Nat) : Prop := s.links (.entry p) = ⟨some (.entry p), some (.entry p)⟩

/-- The entries are in the places their states say: runnable on their processor, on the wait list `W`, or about
to be freed.  An entry that the heap refused is in no place. -/
structure Places (s : Mts) (run : Nat → Multiset Nat) (W : List Nat) : Prop where
  queue : ∀ c, QueueOk (s.rq c).pqueue
  lowest : ∀ c, (s.rq c).lowest ≤ intMax
  ring : ListRing s.links (.waitList 0) (W.map .entry)
  rings : ∀ c, c ≠ 0 → ListRing s.links (.waitList c) []
  nodup : ∀ c, (run c).Nodup
  home : ∀ c, ∀ p ∈ run c,
    s.live p = true ∧ s.cpu (s.st p).task = c ∧ (s.st p).state.runs = true
  waiting : ∀ p ∈ W, s.live p = true ∧ s.cpu (s.st p).task = 0 ∧ (s.st p).state = .plain .blocked
  leaving : ∀ p, s.live p = true → (s.st p).state.value = .unscheduled →
    (s.st p).state = .plain .unscheduled ∧ Unlinked s p
  single : ∀ p p', s.live p = true → s.live p' = true → (s.st p).task = (s.st p').task → p = p'
  cpus : ∀ p, s.live p = true → s.cpu (s.st p).task < s.ncpu
  sound : ∀ p, s.live p = true → (s.st p).Sound

/-- The active entry of a processor belongs to it; when it is blocked it is on the wait list, and when
it was rescheduled in place it has time left. -/
structure ActiveOk (s : Mts) (W : List Nat) (c a : Nat) : Prop where
  live : s.live a = true
  cpu : s.cpu (s.st a).task = c
  parked : (s.st a).state.value = .blocked → a ∈ W
  fresh : (s.st a).state = .plain .ready → (s.st a).execRt < (s.st a).timeslice

/-- The invariant of the scheduler. -/
structure Placed (s : Mts) (W : List Nat) : Prop where
  places : Places s (runnable s) W
  active : ∀ c a, (s.rq c).active = some a → ActiveOk s W c a

/-- The state `s'` has the entries of `s` in the same places: only runnable ones have another state,
in which they are runnable, too. -/
structure Touches (s s' : Mts) (run : Nat → Multiset Nat) : Prop where
  live : s'.live = s.live
  links : s'.links = s.links
  cpu : ∀ p, s.live p = true → s'.cpu (s.st p).task = s.cpu (s.st p).task
  ncpu : s'.ncpu = s.ncpu
  task : ∀ p, (s'.st p).task = (s.st p).task
  state : ∀ p, (s'.st p).state = (s.st p).state ∨
    (∃ c, p ∈ run c) ∧ (s'.st p).state.runs = true
  sound : ∀ p, s.live p = true → (s'.st p).Sound
  queue : ∀ c, QueueOk (s'.rq c).pqueue
  lowest : ∀ c, (s'.rq c).lowest ≤ intMax

variable {s s' : Mts} {run : Nat → Multiset Nat} {W : List Nat}

/-- A runnable entry is on no wait list and is not about to be freed. -/
theorem Places.runs_not_blocked (hp : Places s run W) {c p : Nat} (hrun : p ∈ run c) :
    p ∉ W ∧ (s.st p).state.value ≠ .unscheduled := by
  have hruns := (hp.home c p hrun).2.2
  constructor
  · intro hw
    rw [(hp.waiting p hw).2.2] at hruns
    exact absurd hruns (by decide)
  · intro hvalue
    simp [SchedState.runs, hvalue] at hruns

theorem Places.touch (hp : Places s run W) (ht : Touches s s' run) : Places s' run W where
  queue := ht.queue
  lowest := ht.lowest
  ring := ht.links ▸ hp.ring
  rings := ht.links ▸ hp.rings
  nodup := hp.nodup
  home := by
    intro c p hrun
    obtain ⟨hlive, hcpu, hruns⟩ := hp.home c p hrun
    refine ⟨ht.live ▸ hlive, by rw [ht.task, ht.cpu p hlive, hcpu], ?_⟩
    rcases ht.state p with hsame | ⟨-, hruns'⟩
    · rw [hsame, hruns]
    · exact hruns'
  waiting := by
    intro p hw
    obtain ⟨hlive, hcpu, hstate⟩ := hp.waiting p hw
    refine ⟨ht.live ▸ hlive, by rw [ht.task, ht.cpu p hlive, hcpu], ?_⟩
    rcases ht.state p with hsame | ⟨⟨c, hrun⟩, -⟩
    · rw [hsame, hstate]
    · exact absurd hw (hp.runs_not_blocked hrun).1
  leaving := by
    intro p hlive hvalue
    rw [ht.live] at hlive
    rcases ht.state p with hsame | ⟨-, hruns'⟩
    · rw [hsame] at hvalue ⊢
      obtain ⟨hstate, hlinks⟩ := hp.leaving p hlive hvalue
      exact ⟨hstate, by unfold Unlinked; rw [ht.links]; exact hlinks⟩
    · simp [SchedState.runs, hvalue] at hruns'
  single := by
    intro p p' hlive hlive' htask
    rw [ht.live] at hlive hlive'
    rw [ht.task, ht.task] at htask
    exact hp.single p p' hlive hlive' htask
  cpus := by
    intro p hlive
    rw [ht.live] at hlive
    rw [ht.task, ht.cpu p hlive, ht.ncpu]
    exact hp.cpus p hlive
  sound := by
    intro p hlive
    exact ht.sound p (ht.live ▸ hlive)

theorem runningAt_congr {c : Nat} (hactive : (s'.rq c).active = (s.rq c).active)
    (hruns : ∀ a, (s.rq c).active = some a → (s'.st a).state.runs = (s.st a).state.runs) :
    runningAt s' c = runningAt s c := by
  unfold runningAt
  rw [hactive]
  cases ha : (s.rq c).active with
  | none => rfl
  | some a => simp only [hruns a ha]

theorem runnable_congr {c : Nat} (hrq : s'.rq c = s.rq c)
    (hruns : ∀ a, (s.rq c).active = some a → (s'.st a).state.runs = (s.st a).state.runs) :
    runnable s' c = runnable s c := by
  unfold runnable readyAt
  rw [hrq, runningAt_congr (congrArg RunQueue.active hrq) hruns]

/-- The active entry, when it runs, is runnable. -/
theorem mem_runnable_of_active {c a : Nat} (hactive : (s.rq c).active = some a)
    (hruns : (s.st a).state.runs = true) : a ∈ runnable s c := by
  simp [runnable, runningAt, hactive, hruns]

theorem Placed.of_places (hp : Places s run W) (hrun : ∀ c, runnable s c = run c)
    (hactive : ∀ c a, (s.rq c).active = some a → ActiveOk s W c a) : Placed s W :=
  ⟨(funext hrun : runnable s = run) ▸ hp, hactive⟩

/-- The locks play no part in the invariant. -/
theorem SameButLocks.placed (h : SameButLocks s s') (hp : Placed s W) :
    Placed s' W ∧ runnable s' = runnable s := by
  have hkept : ∀ c, runnable s' c = runnable s c := by
    intro c
    simp only [runnable, readyAt, runningAt, h.rq, h.st]
  refine ⟨.of_places (hp.places.touch ?_) hkept fun c a hactive => ?_, funext hkept⟩
  · refine ⟨h.live, h.links, fun p _ => by rw [h.cpu], h.ncpu, ?_, ?_, ?_, ?_, ?_⟩
    · simp [h.st]
    · simp [h.st]
    · rw [h.st]
      exact hp.places.sound
    · rw [h.rq]
      exact hp.places.queue
    · rw [h.rq]
      exact hp.places.lowest
  · rw [h.rq] at hactive
    obtain ⟨hlive, hcpu, hparked, hfresh⟩ := hp.active c a hactive
    exact ⟨h.live ▸ hlive, by rw [h.cpu, h.st, hcpu], h.st ▸ hparked, h.st ▸ hfresh⟩

/-! ## Switching the active task -/

/-- The active entry, when `__schedule_task` puts it into the heap. -/
def hand (s : Mts) (me : Nat) : Multiset Nat :=
  match (s.rq me).active with
  | some a => if (s.st a).state = .plain .ready then 0 else {a}
  | none => 0

theorem hand_congr {me : Nat} (hactive : (s'.rq me).active = (s.rq me).active)
    (hst : s'.st = s.st) : hand s' me = hand s me := by
  unfold hand
  rw [hactive, hst]

/-- The scheduler after the active entry was put into the heap. -/
structure Requeued (s s' : Mts) (me : Nat) : Prop where
  live : s'.live = s.live
  links : s'.links = s.links
  cpu : s'.cpu = s.cpu
  ncpu : s'.ncpu = s.ncpu
  other : ∀ c, c ≠ me → s'.rq c = s.rq c
  queue : QueueOk (s'.rq me).pqueue
  ready : readyAt s' me = readyAt s me + hand s me
  lowest : (s'.rq me).lowest ≤ intMax
  st : ∀ q, s'.st q = s.st q ∨
    q ∈ hand s me ∧ (s'.st q).task = (s.st q).task ∧ (s'.st q).state = .plain .ready ∧
      (s'.st q).Sound

theorem Requeued.refl {me : Nat} (hqueue : QueueOk (s.rq me).pqueue)
    (hlowest : (s.rq me).lowest ≤ intMax) (hhand : hand s me = 0) : Requeued s s me where
  live := rfl
  links := rfl
  cpu := rfl
  ncpu := rfl
  other _ _ := rfl
  queue := hqueue
  ready := by rw [hhand, add_zero]
  lowest := hlowest
  st _ := .inl rfl

/-- A run queue that is neither that of the executing processor nor that of the task stays. -/
theorem rescheduledQueue_other (q : RunQueue) (t t' : SchedTask) (lowest : Int) (p : Nat)
    (inserted : Bool) : rescheduledQueue q t t' lowest p false false inserted = q := by
  simp [rescheduledQueue]

theorem requeueActive_spec {me : Nat} {fl : Floats} (hqueue : QueueOk (s.rq me).pqueue)
    (hroom : (s.rq me).pqueue.size < 256) (hhigh : (s.rq me).lowest ≤ intMax)
    (hhand : ∀ a ∈ hand s me,
      s.cpu (s.st a).task = me ∧ (s.st a).Sound ∧ intMin + 1 < (s.rq me).lowest) :
    Requeued s (requeueActive s me fl) me := by
  unfold requeueActive
  cases hactive : (s.rq me).active with
  | none => exact .refl hqueue hhigh (by simp [hand, hactive])
  | some a =>
      by_cases hstate : (s.st a).state = .plain .ready
      · have hnone : hand s me = 0 := by simp [hand, hactive, hstate]
        have hkeep : scheduleTask s me a true fl = (s, .ok) := if_pos hstate
        simp only [hkeep]
        exact .refl hqueue hhigh hnone
      · have hsome : hand s me = {a} := by simp [hand, hactive, hstate]
        obtain ⟨hcpu, hsound, hlow⟩ := hhand a (by simp [hsome])
        have hsound' := rescheduled_sound hsound hlow hhigh fl
        obtain ⟨h', hins, hok, hpay⟩ := hqueue.insert hroom hsound'.above hsound'.below a
        have hrq := scheduleTask_rq hstate me true fl
        obtain ⟨hlive, hlinks, hcpus, hncpu⟩ := scheduleTask_frame s me a true fl
        have hme : ((scheduleTask s me a true fl).1.rq me).pqueue = h' := by
          rw [hrq me]
          simp [rescheduledQueue, hcpu, inserts, hins]
        refine ⟨hlive, hlinks, hcpus, hncpu, ?_, ?_, ?_, ?_, ?_⟩
        · intro c hc
          have hhome : c ≠ s.cpu (s.st a).task := by rwa [hcpu]
          rw [hrq c]
          simp only [hc, hhome, decide_false]
          exact rescheduledQueue_other ..
        · rw [hme]
          exact hok
        · rw [readyAt, hme, hpay, hsome, readyAt, ← Multiset.singleton_add, add_comm]
        · rw [hrq me]
          simp only [rescheduledQueue, decide_true, if_true]
          exact (newPriority_lowest_le _ _ fl).trans hhigh
        · intro q
          rw [scheduleTask_st hstate]
          by_cases hq : q = a
          · subst hq
            rw [Function.update_self]
            exact .inr ⟨by simp [hsome], rescheduled_task .., rfl, hsound'⟩
          · exact .inl (Function.update_of_ne hq ..)

/-- The outcome of switching the active task of `me`: the runnable entries are `run`, and the idle task
or a runnable one is returned. -/
structure Switched (s' : Mts) (run : Nat → Multiset Nat) (W : List Nat) (me idle t : Nat) : Prop where
  placed : Placed s' W
  kept : runnable s' = run
  ret : (s'.rq me).active = none ∧ t = idle ∨
    ∃ p, (s'.rq me).active = some p ∧ t = (s'.st p).task ∧ p ∈ run me

theorem SameButLocks.switched {me idle t : Nat} (h : SameButLocks s s')
    (hs : Switched s run W me idle t) : Switched s' run W me idle t := by
  obtain ⟨hplaced, hkept⟩ := h.placed hs.placed
  refine ⟨hplaced, hkept.trans hs.kept, ?_⟩
  rw [h.rq, h.st]
  exact hs.ret

section Setup

variable {me t : Nat} {prio : Int} {fl : Floats}

/-- A processor with nothing to run switches to its idle task. -/
theorem setupIdle_spec (hp : Places s run W) (hother : ∀ c, c ≠ me → run c = runnable s c)
    (hactive : ∀ c a, c ≠ me → (s.rq c).active = some a → ActiveOk s W c a)
    (hme : run me = readyAt s me) :
    Switched (s.setRq me { s.rq me with active := none, iactive := true }) run W me
      (s.rq me).idle (s.rq me).idle := by
  have hkept : ∀ c,
      runnable (s.setRq me { s.rq me with active := none, iactive := true }) c = run c := by
    intro c
    by_cases hc : c = me
    · subst hc
      simp [runnable, readyAt, runningAt, hme]
    · rw [hother c hc]
      exact runnable_congr (Function.update_of_ne hc ..) fun _ _ => rfl
  refine ⟨.of_places (hp.touch ?_) hkept fun c a ha => ?_, funext hkept, .inl ?_⟩
  · refine ⟨rfl, rfl, fun _ _ => rfl, rfl, fun _ => rfl, fun _ => .inl rfl, hp.sound, fun c => ?_,
      fun c => ?_⟩
    · by_cases hc : c = me
      · subst hc
        simpa using hp.queue c
      · simpa [hc] using hp.queue c
    · by_cases hc : c = me
      · subst hc
        simpa using hp.lowest c
      · simpa [hc] using hp.lowest c
  · by_cases hc : c = me
    · subst hc
      simp at ha
    · simp only [Mts.setRq_rq, Function.update_of_ne hc] at ha
      obtain ⟨hlive, hcpu, hparked, hfresh⟩ := hactive c a hc ha
      exact ⟨hlive, hcpu, hparked, hfresh⟩
  · simp

/-- The entry `p` is the active task of `me` in `s'`, and only runnable entries of `me` have changed. -/
structure SwitchTo (s s' : Mts) (run : Nat → Multiset Nat) (me p : Nat) : Prop where
  live : s'.live = s.live
  links : s'.links = s.links
  cpu : s'.cpu = s.cpu
  ncpu : s'.ncpu = s.ncpu
  other : ∀ c, c ≠ me → s'.rq c = s.rq c
  queue : QueueOk (s'.rq me).pqueue
  lowest : (s'.rq me).lowest ≤ intMax
  active : (s'.rq me).active = some p
  runs : (s'.st p).state.runs = true
  fresh : (s'.st p).state = .plain .ready → (s'.st p).execRt < (s'.st p).timeslice
  ready : run me = p ::ₘ readyAt s' me
  task : ∀ k, (s'.st k).task = (s.st k).task
  st : ∀ k, s'.st k = s.st k ∨ k ∈ run me ∧ (s'.st k).state.runs = true ∧ (s'.st k).Sound

theorem SwitchTo.touches {p : Nat} (h : SwitchTo s s' run me p) (hp : Places s run W) :
    Touches s s' run where
  live := h.live
  links := h.links
  cpu := by simp [h.cpu]
  ncpu := h.ncpu
  task := h.task
  state := by
    intro k
    rcases h.st k with hsame | ⟨hk, hruns, -⟩
    · exact .inl (congrArg SchedTask.state hsame)
    · exact .inr ⟨⟨me, hk⟩, hruns⟩
  sound := by
    intro k hlive
    rcases h.st k with hsame | ⟨-, -, hsound⟩
    · rw [hsame]
      exact hp.sound k hlive
    · exact hsound
  queue := by
    intro c
    by_cases hc : c = me
    · exact hc ▸ h.queue
    · rw [h.other c hc]
      exact hp.queue c
  lowest := by
    intro c
    by_cases hc : c = me
    · exact hc ▸ h.lowest
    · rw [h.other c hc]
      exact hp.lowest c

/-- The active entry of another processor is not touched. -/
theorem SwitchTo.same {p c a : Nat} (h : SwitchTo s s' run me p) (hp : Places s run W)
    (hc : c ≠ me) (ha : ActiveOk s W c a) : s'.st a = s.st a := by
  rcases h.st a with hsame | ⟨hk, -⟩
  · exact hsame
  · exact absurd (ha.cpu.symm.trans (hp.home me a hk).2.1) hc

theorem SwitchTo.switched {p : Nat} (h : SwitchTo s s' run me p) (hp : Places s run W)
    (hother : ∀ c, c ≠ me → run c = runnable s c)
    (hactive : ∀ c a, c ≠ me → (s.rq c).active = some a → ActiveOk s W c a) (idle : Nat) :
    Switched s' run W me idle (s'.st p).task := by
  have hpmem : p ∈ run me := by
    rw [h.ready]
    exact Multiset.mem_cons_self p _
  have hkept : ∀ c, runnable s' c = run c := by
    intro c
    by_cases hc : c = me
    · subst hc
      rw [h.ready, runnable, runningAt, h.active]
      simp only [h.runs, if_true]
      rw [add_comm, Multiset.singleton_add]
    · rw [hother c hc]
      refine runnable_congr (h.other c hc) fun a ha => ?_
      rw [h.same hp hc (hactive c a hc ha)]
  refine ⟨.of_places (hp.touch (h.touches hp)) hkept fun c a ha => ?_, funext hkept,
    .inr ⟨p, h.active, rfl, hpmem⟩⟩
  by_cases hc : c = me
  · subst hc
    obtain rfl := Option.some.inj (h.active.symm.trans ha)
    obtain ⟨hlive, hcpu, -⟩ := hp.home c p hpmem
    refine ⟨h.live ▸ hlive, by rw [h.cpu, h.task, hcpu], fun hblocked => ?_, h.fresh⟩
    have hruns := h.runs
    simp [SchedState.runs, hblocked] at hruns
  · rw [h.other c hc] at ha
    obtain ⟨hlive, hcpu, hparked, hfresh⟩ := hactive c a hc ha
    have hsame := h.same hp hc (hactive c a hc ha)
    exact ⟨h.live ▸ hlive, by rw [h.cpu, h.task, hcpu], hsame ▸ hparked, hsame ▸ hfresh⟩

/-- The first entry of the heap is taken, and then the active one goes into it. -/
theorem popped_requeued (hp : Places s run W) (hme : run me = readyAt s me + hand s me)
    (hlow : hand s me ≠ 0 → intMin + 1 < (s.rq me).lowest)
    (hsize : 0 < (s.rq me).pqueue.size) {p : Nat} {pqueue : Bheap Nat}
    (hpop : bhRemoveMax (s.rq me).pqueue = (.ok p, pqueue)) (fl : Floats) :
    readyAt s me = p ::ₘ payloads pqueue ∧
      hand (s.setRq me { s.rq me with pqueue := pqueue }) me = hand s me ∧
      Requeued (s.setRq me { s.rq me with pqueue := pqueue })
        (requeueActive (s.setRq me { s.rq me with pqueue := pqueue }) me fl) me := by
  obtain ⟨p', h', hret, hok, hpay⟩ := (hp.queue me).removeMax hsize
  obtain ⟨hp', rfl⟩ := Prod.mk.inj (hret.symm.trans hpop)
  obtain rfl := Except.ok.inj hp'
  have hroom : h'.size < 256 := by
    have hcard := congrArg Multiset.card hpay
    have hfits := (hp.queue me).holds.fits
    rw [Multiset.card_cons, card_payloads, card_payloads] at hcard
    rw [Bheap.card_pairs] at hfits
    omega
  have hsamehand : hand (s.setRq me { s.rq me with pqueue := h' }) me = hand s me :=
    hand_congr (by simp) rfl
  refine ⟨hpay, hsamehand, ?_⟩
  refine requeueActive_spec (by simpa using hok) (by simpa using hroom)
    (by simpa using hp.lowest me) fun a ha => ?_
  rw [hsamehand] at ha
  have hmem : a ∈ run me := by
    rw [hme]
    exact Multiset.mem_add.mpr (.inr ha)
  obtain ⟨hlive, hcpu, -⟩ := hp.home me a hmem
  have hsome : hand s me ≠ 0 := fun hzero => by simp [hzero] at ha
  exact ⟨hcpu, hp.sound a hlive, by simpa using hlow hsome⟩

/-- A processor takes the first entry of its heap, after the active one went into it. -/
theorem setupPop_switchTo (hp : Places s run W) (hme : run me = readyAt s me + hand s me)
    (hlow : hand s me ≠ 0 → intMin + 1 < (s.rq me).lowest)
    (hsize : 0 < (s.rq me).pqueue.size) {p' : Nat}
    {pqueue : Bheap Nat} (hpop : bhRemoveMax (s.rq me).pqueue = (.ok p', pqueue)) {s₂ : Mts}
    (hs₂ : s₂ = requeueActive (s.setRq me { s.rq me with pqueue := pqueue }) me fl) {q : RunQueue}
    (hpqueue : q.pqueue = (s₂.rq me).pqueue) (hq : q.active = some p')
    (hlowest : q.lowest = (s₂.rq me).lowest) :
    SwitchTo s ((s₂.setSt p' { s₂.st p' with state := .plain .active }).setRq me q) run me p' := by
  obtain ⟨hpay, hsamehand, hreq⟩ := popped_requeued hp hme hlow hsize hpop fl
  rw [← hs₂] at hreq
  have hmem : ∀ k ∈ hand s me, k ∈ run me := by
    intro k hk
    rw [hme]
    exact Multiset.mem_add.mpr (.inr hk)
  have hpmem : p' ∈ run me := by
    rw [hme, hpay]
    simp
  have hst : ∀ k, s₂.st k = s.st k ∨ k ∈ run me ∧ (s₂.st k).task = (s.st k).task ∧
      (s₂.st k).state.runs = true ∧ (s₂.st k).Sound := by
    intro k
    rcases hreq.st k with hsame | ⟨hk, htask, hstate, hsound⟩
    · exact .inl hsame
    · rw [hsamehand] at hk
      exact .inr ⟨hmem k hk, htask, by rw [hstate]; decide, hsound⟩
  have hsound : (s₂.st p').Sound := by
    rcases hst p' with hsame | ⟨-, -, -, hsound⟩
    · rw [hsame]
      exact hp.sound p' (hp.home me p' hpmem).1
    · exact hsound
  constructor
  case live => exact hreq.live
  case links => exact hreq.links
  case cpu => exact hreq.cpu
  case ncpu => exact hreq.ncpu
  case other =>
    intro c hc
    have hother := hreq.other c hc
    simp only [Mts.setRq_rq, Mts.setSt_rq, Function.update_of_ne hc] at hother ⊢
    exact hother
  case queue => simpa [hpqueue] using hreq.queue
  case lowest => simpa [hlowest] using hreq.lowest
  case active => simpa using hq
  case runs => simp [SchedState.runs, SchedState.plain]
  case fresh => simp [SchedState.plain]
  case ready =>
    have hready := hreq.ready
    rw [hsamehand, readyAt, readyAt] at hready
    rw [hme, hpay, readyAt]
    simp only [Mts.setRq_rq, Function.update_self, hpqueue, hready, Multiset.cons_add]
  case task =>
    intro k
    by_cases hk : k = p'
    · subst hk
      rcases hst k with hsame | ⟨-, htask, -⟩
      · simp [hsame]
      · simpa using htask
    · rcases hst k with hsame | ⟨-, htask, -⟩
      · simp [hk, hsame]
      · simpa [hk] using htask
  case st =>
    intro k
    by_cases hk : k = p'
    · subst hk
      refine .inr ⟨hpmem, by simp [SchedState.runs, SchedState.plain], ?_⟩
      simp only [Mts.setRq_st, Mts.setSt_st, Function.update_self]
      exact ⟨hsound.nice, hsound.timeslice, hsound.above, hsound.below⟩
    · rcases hst k with hsame | ⟨hmemk, -, hruns, hsoundk⟩
      · exact .inl (by simp [hk, hsame])
      · exact .inr ⟨hmemk, by simpa [hk] using hruns, by simpa [hk] using hsoundk⟩

/-- What holds at the label `setup_active`: the runnable entries of `me` are those in its heap and the
active one that goes back into it, for which there is another one to run. -/
structure SetupReady (s : Mts) (run : Nat → Multiset Nat) (W : List Nat) (me : Nat) (prio : Int) :
    Prop where
  places : Places s run W
  other : ∀ c, c ≠ me → run c = runnable s c
  active : ∀ c a, c ≠ me → (s.rq c).active = some a → ActiveOk s W c a
  mine : run me = readyAt s me + hand s me
  lowest : hand s me ≠ 0 → intMin + 1 < (s.rq me).lowest
  busy : prio ≠ intMin → 0 < (s.rq me).pqueue.size
  idle : prio = intMin → hand s me = 0

/-- Switching the active task keeps the runnable entries. -/
theorem setupActive_spec (h : SetupReady s run W me prio)
    (hret : setupActive s me prio fl = some (t, s')) : Switched s' run W me (s.rq me).idle t := by
  unfold setupActive at hret
  by_cases hprio : prio = intMin
  · rw [if_pos hprio] at hret
    obtain ⟨rfl, rfl⟩ := Prod.mk.inj (Option.some.inj hret)
    have hmine := h.mine
    rw [h.idle hprio, add_zero] at hmine
    exact (SameButLocks.release _ _).switched (setupIdle_spec h.places h.other h.active hmine)
  · rw [if_neg hprio] at hret
    obtain ⟨p, pqueue, hpop, -⟩ := (h.places.queue me).removeMax (h.busy hprio)
    rw [hpop] at hret
    obtain ⟨rfl, rfl⟩ := Prod.mk.inj (Option.some.inj hret)
    refine (SameButLocks.release _ _).switched (SwitchTo.switched ?_ h.places h.other h.active _)
    exact setupPop_switchTo h.places h.mine h.lowest (h.busy hprio) hpop rfl rfl rfl rfl

end Setup

/-! ## `mts_get_next` -/

/-- What `mts_get_next` needs: the priority of a penalty does not leave the range of an `int`; no task
of a higher priority waits for an active task that is blocked; an active task that used its time
without the tick noticing has another task to make room for; and a task that is penalised in place
finds room in the heap. -/
structure CarefulGetNext (s : Mts) (me : Nat) (fl : Floats) : Prop where
  lowest : intMin + 1 < (s.rq me).lowest
  blocked : ∀ a, (s.rq me).active = some a → (s.st a).state.value = .blocked →
    bhPeekMax (s.rq me).pqueue ≤ (s.st a).sprio
  unnoticed : ∀ a, (s.rq me).active = some a → (s.st a).state.runs = true →
    (s.st a).timeslice ≤ (s.st a).execRt → (s.st a).state.needResched = false →
    bhPeekMax (s.rq me).pqueue ≠ intMin
  room : ∀ a, (s.rq me).active = some a → (s.st a).state.needResched = true →
    inserts (s.rq me) (s.st a) false fl = true → (s.rq me).pqueue.size < 256

theorem SameButLocks.careful {me : Nat} {fl : Floats} (h : SameButLocks s s')
    (hcare : CarefulGetNext s me fl) : CarefulGetNext s' me fl := by
  obtain ⟨hlowest, hblocked, hunnoticed, hroom⟩ := hcare
  constructor
  · rwa [h.rq]
  · rwa [h.rq, h.st]
  · rwa [h.rq, h.st]
  · rwa [h.rq, h.st]

/-- An entry runs, is blocked or is about to be freed. -/
theorem SchedState.cases (state : SchedState) :
    state.runs = true ∨ state.runs = false ∧ state.value = .blocked ∨
      state.runs = false ∧ state.value = .unscheduled := by
  cases hvalue : state.value <;> simp [SchedState.runs, hvalue]

theorem hand_of_none {me : Nat} (hactive : (s.rq me).active = none) : hand s me = 0 := by
  simp [hand, hactive]

theorem runningAt_of_none {me : Nat} (hactive : (s.rq me).active = none) : runningAt s me = 0 := by
  simp [runningAt, hactive]

theorem runningAt_of_not_runs {me a : Nat} (hactive : (s.rq me).active = some a)
    (hruns : (s.st a).state.runs = false) : runningAt s me = 0 := by
  simp [runningAt, hactive, hruns]

theorem runningAt_of_runs {me a : Nat} (hactive : (s.rq me).active = some a)
    (hruns : (s.st a).state.runs = true) : runningAt s me = {a} := by
  simp [runningAt, hactive, hruns]

/-- A heap whose largest key is not `INT_MIN` is not empty. -/
theorem QueueOk.size_pos {h : Bheap Nat} (hq : QueueOk h) (hpeek : bhPeekMax h ≠ intMin) :
    0 < h.size :=
  Nat.pos_of_ne_zero fun hzero => hpeek (hq.peek_eq_intMin.mpr hzero)

theorem freeEntry_fields (s : Mts) (p : Nat) :
    (s.freeEntry p).ncpu = s.ncpu ∧ (s.freeEntry p).rq = s.rq ∧ (s.freeEntry p).st = s.st ∧
      (s.freeEntry p).live = Function.update s.live p false ∧
      (s.freeEntry p).links = listRemove s.links (.entry p) ∧ (s.freeEntry p).cpu = s.cpu := by
  have hin := SameButLocks.acquire s .mts
  have hout := SameButLocks.release
    { s.spinAcquire .mts with
      links := listRemove (s.spinAcquire .mts).links (.entry p)
      live := Function.update (s.spinAcquire .mts).live p false } .mts
  refine ⟨hout.ncpu.trans hin.ncpu, hout.rq.trans hin.rq, hout.st.trans hin.st,
    hout.live.trans ?_, hout.links.trans ?_, hout.cpu.trans hin.cpu⟩
  · rw [hin.live]
  · rw [hin.links]

/-- Freeing an entry that was never on a list, and that is taken out of the runnable ones. -/
theorem Places.free {run' : Nat → Multiset Nat} (hp : Places s run W) {a : Nat}
    (hlinked : Unlinked s a) (hwait : a ∉ W) (hnodup : ∀ c, (run' c).Nodup)
    (hrun : ∀ c p, p ∈ run' c ↔ p ∈ run c ∧ p ≠ a) : Places (s.freeEntry a) run' W := by
  obtain ⟨hncpu, hrq, hst, hlive, hlinks, hcpu⟩ := freeEntry_fields s a
  rw [listRemove_unlinked hlinked] at hlinks
  have hback : ∀ p, (s.freeEntry a).live p = true → s.live p = true ∧ p ≠ a := by
    intro p hp'
    rw [hlive] at hp'
    by_cases hpa : p = a
    · subst hpa
      simp at hp'
    · exact ⟨by simpa [hpa] using hp', hpa⟩
  have hkeep : ∀ p, s.live p = true → p ≠ a → (s.freeEntry a).live p = true := by
    intro p hp' hpa
    rw [hlive]
    simpa [hpa] using hp'
  constructor
  · rw [hrq]
    exact hp.queue
  · rw [hrq]
    exact hp.lowest
  · rw [hlinks]
    exact hp.ring
  · rw [hlinks]
    exact hp.rings
  · exact hnodup
  · intro c p hpc
    obtain ⟨hold, hpa⟩ := (hrun c p).mp hpc
    obtain ⟨hp', hhome, hruns⟩ := hp.home c p hold
    rw [hcpu, hst]
    exact ⟨hkeep p hp' hpa, hhome, hruns⟩
  · intro p hpw
    obtain ⟨hp', hhome, hstate⟩ := hp.waiting p hpw
    rw [hcpu, hst]
    exact ⟨hkeep p hp' fun heq => hwait (heq ▸ hpw), hhome, hstate⟩
  · intro p hp' hvalue
    rw [hst] at hvalue ⊢
    obtain ⟨hstate, hself⟩ := hp.leaving p (hback p hp').1 hvalue
    exact ⟨hstate, by unfold Unlinked; rw [hlinks]; exact hself⟩
  · intro p p' hlivep hlivep' htask
    rw [hst] at htask
    exact hp.single p p' (hback p hlivep).1 (hback p' hlivep').1 htask
  · intro p hp'
    rw [hcpu, hst, hncpu]
    exact hp.cpus p (hback p hp').1
  · intro p hp'
    rw [hst]
    exact hp.sound p (hback p hp').1

/-- Nothing but the active pointer of one processor is changed. -/
theorem Places.dropActive (hp : Places s run W) (me : Nat) : Places (s.dropActive me) run W := by
  refine hp.touch
    ⟨rfl, rfl, fun _ _ => rfl, rfl, fun _ => rfl, fun _ => .inl rfl, hp.sound, ?_, ?_⟩
  · intro c
    by_cases hc : c = me
    · subst hc
      simpa [Mts.dropActive] using hp.queue c
    · simpa [Mts.dropActive, hc] using hp.queue c
  · intro c
    by_cases hc : c = me
    · subst hc
      simpa [Mts.dropActive] using hp.lowest c
    · simpa [Mts.dropActive, hc] using hp.lowest c

section GetNext

variable {me a t : Nat} {fl : Floats}

theorem Placed.hactive_other (hp : Placed s W) :
    ∀ c a, c ≠ me → (s.rq c).active = some a → ActiveOk s W c a :=
  fun c a _ ha => hp.active c a ha

/-- An active entry that runs is in no heap. -/
theorem Placed.active_not_ready (hp : Placed s W) (hactive : (s.rq me).active = some a)
    (hruns : (s.st a).state.runs = true) (c : Nat) : a ∉ readyAt s c := by
  intro hmem
  have hac : a ∈ runnable s c := Multiset.mem_add.mpr (.inl hmem)
  have hcpu := (hp.places.home c a hac).2.1
  obtain rfl : c = me := hcpu.symm.trans (hp.active me a hactive).cpu
  have hnodup := hp.places.nodup c
  rw [runnable, runningAt_of_runs hactive hruns, Multiset.nodup_add] at hnodup
  exact Multiset.disjoint_left.mp hnodup.2.2 hmem (Multiset.mem_singleton_self a)

/-- Without an active task. -/
theorem getNext_none (hp : Placed s W) (hactive : (s.rq me).active = none) :
    SetupReady s (runnable s) W me (bhPeekMax (s.rq me).pqueue) := by
  have hhand := hand_of_none hactive
  refine ⟨hp.places, fun _ _ => rfl, hp.hactive_other, ?_, fun hsome => absurd hhand hsome,
    (hp.places.queue me).size_pos, fun _ => hhand⟩
  rw [runnable, runningAt_of_none hactive, hhand]

/-- With an active task that was blocked, or unscheduled and freed: it is dropped. -/
theorem getNext_drop {s₁ : Mts} (hp : Placed s W) (hactive : (s.rq me).active = some a)
    (hruns : (s.st a).state.runs = false) (hplaces : Places s₁ (runnable s) W)
    (hrq : s₁.rq = s.rq) (hst : s₁.st = s.st)
    (hother : ∀ c b, c ≠ me → (s.rq c).active = some b → ActiveOk s₁ W c b) :
    SetupReady (s₁.dropActive me) (runnable s) W me (bhPeekMax (s.rq me).pqueue) := by
  have hnone : ((s₁.dropActive me).rq me).active = none := by simp [Mts.dropActive]
  have hqueue : ((s₁.dropActive me).rq me).pqueue = (s.rq me).pqueue := by
    simp [Mts.dropActive, hrq]
  have hsame : ∀ c, c ≠ me → (s₁.dropActive me).rq c = s.rq c := by
    intro c hc
    simp [Mts.dropActive, hc, hrq]
  have hhand := hand_of_none hnone
  refine ⟨hplaces.dropActive me, ?_, ?_, ?_, fun hsome => absurd hhand hsome, ?_, fun _ => hhand⟩
  · intro c hc
    refine (runnable_congr (hsame c hc) fun b _ => ?_).symm
    show (s₁.st b).state.runs = _
    rw [hst]
  · intro c b hc hb
    rw [hsame c hc] at hb
    obtain ⟨hlive, hcpu, hparked, hfresh⟩ := hother c b hc hb
    exact ⟨hlive, hcpu, hparked, hfresh⟩
  · rw [runnable, runningAt_of_not_runs hactive hruns, hhand, readyAt, readyAt, hqueue]
  · rw [hqueue]
    exact (hp.places.queue me).size_pos

/-- With an active task that was unscheduled: it is freed. -/
theorem getNext_free (hp : Placed s W) (hactive : (s.rq me).active = some a)
    (hstate : (s.st a).state = .plain .unscheduled) :
    SetupReady ((s.freeEntry a).dropActive me) (runnable s) W me (bhPeekMax (s.rq me).pqueue) := by
  have hok := hp.active me a hactive
  have hvalue : (s.st a).state.value = .unscheduled := by rw [hstate]; rfl
  have hruns : (s.st a).state.runs = false := by rw [hstate]; rfl
  have hnot : a ∉ W := by
    intro hw
    rw [(hp.places.waiting a hw).2.2] at hvalue
    exact absurd hvalue (by decide)
  have hfree : Places (s.freeEntry a) (runnable s) W := by
    refine hp.places.free (hp.places.leaving a hok.live hvalue).2 hnot hp.places.nodup ?_
    intro c p
    refine ⟨fun hc => ⟨hc, ?_⟩, And.left⟩
    rintro rfl
    exact (hp.places.runs_not_blocked hc).2 hvalue
  obtain ⟨-, hrq, hst, hlive, -, hcpu⟩ := freeEntry_fields s a
  refine getNext_drop hp hactive hruns hfree hrq hst fun c b hc hb => ?_
  obtain ⟨hblive, hbcpu, hparked, hfresh⟩ := hp.active c b hb
  have hba : b ≠ a := by
    rintro rfl
    exact hc (hbcpu.symm.trans hok.cpu)
  refine ⟨?_, by rw [hcpu, hst, hbcpu], by rwa [hst], by rwa [hst]⟩
  rw [hlive, Function.update_of_ne hba, hblive]

/-- Only the active entry of `me`, which runs, and the run queue of `me` are changed. -/
structure ChangesActive (s s₁ : Mts) (me a : Nat) : Prop where
  live : s₁.live = s.live
  links : s₁.links = s.links
  cpu : s₁.cpu = s.cpu
  ncpu : s₁.ncpu = s.ncpu
  other : ∀ c, c ≠ me → s₁.rq c = s.rq c
  queue : QueueOk (s₁.rq me).pqueue
  lowest : (s₁.rq me).lowest ≤ intMax
  keep : ∀ b, b ≠ a → s₁.st b = s.st b
  task : (s₁.st a).task = (s.st a).task
  runs : (s₁.st a).state.runs = true
  sound : (s₁.st a).Sound

theorem ChangesActive.touches {s₁ : Mts} (h : ChangesActive s s₁ me a) (hp : Placed s W)
    (hactive : (s.rq me).active = some a) (hruns : (s.st a).state.runs = true) :
    Touches s s₁ (runnable s) := by
  constructor
  case live => exact h.live
  case links => exact h.links
  case ncpu => exact h.ncpu
  case cpu =>
    intro _ _
    rw [h.cpu]
  case task =>
    intro k
    by_cases hk : k = a
    · rw [hk, h.task]
    · rw [h.keep k hk]
  case state =>
    intro k
    by_cases hk : k = a
    · rw [hk]
      exact .inr ⟨⟨me, mem_runnable_of_active hactive hruns⟩, h.runs⟩
    · rw [h.keep k hk]
      exact .inl rfl
  case sound =>
    intro k hlive
    by_cases hk : k = a
    · rw [hk]
      exact h.sound
    · rw [h.keep k hk]
      exact hp.places.sound k hlive
  case queue =>
    intro c
    by_cases hc : c = me
    · rw [hc]
      exact h.queue
    · rw [h.other c hc]
      exact hp.places.queue c
  case lowest =>
    intro c
    by_cases hc : c = me
    · rw [hc]
      exact h.lowest
    · rw [h.other c hc]
      exact hp.places.lowest c

/-- With a change of the active entry before it makes room for another one. -/
theorem ChangesActive.setupReady {s₁ : Mts} {prio : Int} (h : ChangesActive s s₁ me a)
    (hp : Placed s W) (hactive : (s.rq me).active = some a) (hruns : (s.st a).state.runs = true)
    (hmine : runnable s me = readyAt s₁ me + hand s₁ me)
    (hlow : hand s₁ me ≠ 0 → intMin + 1 < (s₁.rq me).lowest)
    (hbusy : prio ≠ intMin → 0 < (s₁.rq me).pqueue.size)
    (hidle : prio = intMin → hand s₁ me = 0) : SetupReady s₁ (runnable s) W me prio := by
  have hnot : ∀ c b, c ≠ me → (s.rq c).active = some b → b ≠ a := by
    rintro c b hc hb rfl
    exact hc ((hp.active c b hb).cpu.symm.trans (hp.active me b hactive).cpu)
  refine ⟨hp.places.touch (h.touches hp hactive hruns), ?_, ?_, hmine, hlow, hbusy, hidle⟩
  · intro c hc
    refine (runnable_congr (h.other c hc) fun b hb => ?_).symm
    rw [h.keep b (hnot c b hc hb)]
  · intro c b hc hb
    rw [h.other c hc] at hb
    obtain ⟨hblive, hbcpu, hparked, hfresh⟩ := hp.active c b hb
    have hsame := h.keep b (hnot c b hc hb)
    exact ⟨h.live ▸ hblive, by rw [h.cpu, hsame, hbcpu], hsame ▸ hparked, hsame ▸ hfresh⟩

theorem ChangesActive.refl (hp : Placed s W) (hactive : (s.rq me).active = some a)
    (hruns : (s.st a).state.runs = true) : ChangesActive s s me a :=
  ⟨rfl, rfl, rfl, rfl, fun _ _ => rfl, hp.places.queue me, hp.places.lowest me, fun _ _ => rfl, rfl,
    hruns, hp.places.sound a (hp.active me a hactive).live⟩

theorem ChangesActive.preempt (hp : Placed s W) (hactive : (s.rq me).active = some a)
    (hruns : (s.st a).state.runs = true) : ChangesActive s (s.preempt a) me a := by
  have hsound := hp.places.sound a (hp.active me a hactive).live
  refine ⟨rfl, rfl, rfl, rfl, fun _ _ => rfl, hp.places.queue me, hp.places.lowest me, ?_, ?_, ?_, ?_⟩
  · intro b hb
    simp [Mts.preempt, hb]
  · simp [Mts.preempt]
  · simpa [Mts.preempt, SchedState.runs] using hruns
  · simp only [Mts.preempt, Mts.setSt_st, Function.update_self]
    exact ⟨hsound.nice, hsound.timeslice, hsound.above, hsound.below⟩

/-- With an active task that goes into the heap, possibly after it was marked as preempted. -/
theorem getNext_requeue {s₁ : Mts} (hp : Placed s W) (hactive : (s.rq me).active = some a)
    (hruns : (s.st a).state.runs = true) (hlow : intMin + 1 < (s.rq me).lowest)
    (hs₁ : s₁ = s ∨ s₁ = s.preempt a) (hstate : (s₁.st a).state ≠ .plain .ready)
    (hprio : bhPeekMax (s.rq me).pqueue ≠ intMin) :
    SetupReady s₁ (runnable s) W me (bhPeekMax (s.rq me).pqueue) := by
  have hrq : s₁.rq = s.rq := by
    rcases hs₁ with rfl | rfl <;> rfl
  have hchange : ChangesActive s s₁ me a := by
    rcases hs₁ with rfl | rfl
    · exact .refl hp hactive hruns
    · exact .preempt hp hactive hruns
  have hhand : hand s₁ me = {a} := by
    simp [hand, hrq, hactive, hstate]
  refine hchange.setupReady hp hactive hruns ?_ ?_ ?_ ?_
  · rw [runnable, runningAt_of_runs hactive hruns, hhand, readyAt, readyAt, hrq]
  · rw [hrq]
    exact fun _ => hlow
  · rw [hrq]
    exact (hp.places.queue me).size_pos
  · exact fun heq => absurd heq hprio

/-- What `__schedule_task` of the active task changes besides its own run queue: nothing. -/
theorem scheduleTask_active_other (hp : Placed s W) (hactive : (s.rq me).active = some a)
    (hstate : (s.st a).state ≠ .plain .ready) (switchTask : Bool) {c : Nat} (hc : c ≠ me) :
    (scheduleTask s me a switchTask fl).1.rq c = s.rq c := by
  have hhome : c ≠ s.cpu (s.st a).task := by rwa [(hp.active me a hactive).cpu]
  rw [scheduleTask_rq hstate]
  simp only [hc, hhome, decide_false]
  exact rescheduledQueue_other ..

theorem SchedState.ne_plain_of_needResched {state : SchedState} (h : state.needResched = true)
    (value : StateValue) : state ≠ .plain value := by
  intro heq
  rw [heq] at h
  exact Bool.false_ne_true h

/-- The active task is rescheduled and stays active. -/
theorem getNext_inPlace (hp : Placed s W) (hactive : (s.rq me).active = some a)
    (hruns : (s.st a).state.runs = true) (hneed : (s.st a).state.needResched = true)
    (hlow : intMin + 1 < (s.rq me).lowest)
    (hins : inserts (s.rq me) (s.st a) false fl = false) (idle : Nat) :
    Switched (scheduleTask s me a false fl).1 (runnable s) W me idle (s.st a).task := by
  have hstate : (s.st a).state ≠ .plain .ready := SchedState.ne_plain_of_needResched hneed _
  have hok := hp.active me a hactive
  have hsound := rescheduled_sound (hp.places.sound a hok.live) hlow (hp.places.lowest me) fl
  have hrq := scheduleTask_rq hstate me false fl me
  simp only [rescheduledQueue, hok.cpu, hins, decide_true, true_and, Bool.false_eq_true,
    and_false, if_false, if_true] at hrq
  obtain ⟨hlive, hlinks, hcpu, hncpu⟩ := scheduleTask_frame s me a false fl
  have hst := scheduleTask_st hstate me false fl
  have hself : (scheduleTask s me a false fl).1.st a = rescheduled (s.rq me) (s.st a) fl := by
    rw [hst, Function.update_self]
  have htask : (rescheduled (s.rq me) (s.st a) fl).task = (s.st a).task := rescheduled_task ..
  rw [← htask, ← hself]
  refine SwitchTo.switched (s := s) ?_ hp.places (fun _ _ => rfl) hp.hactive_other idle
  constructor
  case live => exact hlive
  case links => exact hlinks
  case cpu => exact hcpu
  case ncpu => exact hncpu
  case other => exact fun c hc => scheduleTask_active_other hp hactive hstate false hc
  case queue =>
    rw [hrq]
    exact hp.places.queue me
  case lowest =>
    rw [hrq]
    exact (newPriority_lowest_le _ _ fl).trans (hp.places.lowest me)
  case active =>
    rw [hrq]
    exact hactive
  case runs =>
    rw [hself, rescheduled_state]
    decide
  case fresh =>
    intro _
    rw [hself, rescheduled_execRt (by simp [SchedState.restarts, hneed])]
    exact hsound.timeslice
  case ready =>
    rw [runnable, runningAt_of_runs hactive hruns, readyAt, readyAt, hrq, add_comm,
      Multiset.singleton_add]
  case task =>
    intro k
    rw [hst]
    by_cases hk : k = a
    · rw [hk, Function.update_self, htask]
    · rw [Function.update_of_ne hk]
  case st =>
    intro k
    rw [hst]
    by_cases hk : k = a
    · rw [hk, Function.update_self]
      exact .inr ⟨mem_runnable_of_active hactive hruns, by rw [rescheduled_state]; decide, hsound⟩
    · exact .inl (Function.update_of_ne hk ..)

/-- The active task is penalised: it goes into the heap and another one is taken. -/
theorem getNext_penalised (hp : Placed s W) (hactive : (s.rq me).active = some a)
    (hruns : (s.st a).state.runs = true) (hneed : (s.st a).state.needResched = true)
    (hlow : intMin + 1 < (s.rq me).lowest) (hroom : (s.rq me).pqueue.size < 256)
    (hins : inserts (s.rq me) (s.st a) false fl = true) :
    SetupReady (scheduleTask s me a false fl).1 (runnable s) W me (bhPeekMax (s.rq me).pqueue) := by
  have hstate : (s.st a).state ≠ .plain .ready := SchedState.ne_plain_of_needResched hneed _
  have hok := hp.active me a hactive
  have hsound := rescheduled_sound (hp.places.sound a hok.live) hlow (hp.places.lowest me) fl
  obtain ⟨h', hinsert, hqueue, hpay⟩ :=
    (hp.places.queue me).insert hroom hsound.above hsound.below a
  have hrq := scheduleTask_rq hstate me false fl me
  simp only [rescheduledQueue, hok.cpu, hins, decide_true, and_self, if_true, hinsert] at hrq
  obtain ⟨hlive, hlinks, hcpu, hncpu⟩ := scheduleTask_frame s me a false fl
  have hst := scheduleTask_st hstate me false fl
  have hother : ∀ c, c ≠ me → (scheduleTask s me a false fl).1.rq c = s.rq c :=
    fun c hc => scheduleTask_active_other hp hactive hstate false hc
  generalize (scheduleTask s me a false fl).1 = s₁ at *
  have hself : s₁.st a = rescheduled (s.rq me) (s.st a) fl := by
    rw [hst, Function.update_self]
  have hchange : ChangesActive s s₁ me a := by
    constructor
    case live => exact hlive
    case links => exact hlinks
    case cpu => exact hcpu
    case ncpu => exact hncpu
    case other => exact hother
    case queue =>
      rw [hrq]
      exact hqueue
    case lowest =>
      rw [hrq]
      exact (newPriority_lowest_le _ _ fl).trans (hp.places.lowest me)
    case keep =>
      intro b hb
      rw [hst, Function.update_of_ne hb]
    case task => rw [hself, rescheduled_task]
    case runs =>
      rw [hself, rescheduled_state]
      rfl
    case sound =>
      rw [hself]
      exact hsound
  have hhand : hand s₁ me = 0 := by
    simp [hand, hrq, hactive, hself, rescheduled_state]
  refine hchange.setupReady hp hactive hruns ?_ (fun hsome => absurd hhand hsome) ?_ fun _ => hhand
  · rw [runnable, runningAt_of_runs hactive hruns, hhand, readyAt, readyAt, hrq, hpay, add_comm,
      Multiset.singleton_add, add_zero]
  · intro _
    have hcard := congrArg Multiset.card hpay
    rw [Multiset.card_cons, card_payloads, card_payloads] at hcard
    rw [hrq]
    simp only
    omega

/-- The way that `mts_get_next` takes with the lock held, and the task it returns. -/
inductive NextPath (s : Mts) (me : Nat) (fl : Floats) (t : Nat) (s' : Mts) : Prop
  | none (hactive : (s.rq me).active = none)
      (hret : setupActive s me (bhPeekMax (s.rq me).pqueue) fl = some (t, s'))
  | free (a : Nat) (hactive : (s.rq me).active = some a)
      (hstate : (s.st a).state = .plain .unscheduled)
      (hret : setupActive ((s.freeEntry a).dropActive me) me (bhPeekMax (s.rq me).pqueue) fl =
        some (t, s'))
  | drop (a : Nat) (hactive : (s.rq me).active = some a) (hstate : (s.st a).state = .plain .blocked)
      (hret : setupActive (s.dropActive me) me (bhPeekMax (s.rq me).pqueue) fl = some (t, s'))
  | requeue (a : Nat) (s₁ : Mts) (hactive : (s.rq me).active = some a)
      (hruns : (s.st a).state.runs = true) (hs₁ : s₁ = s ∨ s₁ = s.preempt a)
      (hstate : (s₁.st a).state ≠ .plain .ready) (hprio : bhPeekMax (s.rq me).pqueue ≠ intMin)
      (hret : setupActive s₁ me (bhPeekMax (s.rq me).pqueue) fl = some (t, s'))
  | stay (a : Nat) (hactive : (s.rq me).active = some a) (hruns : (s.st a).state.runs = true)
      (htask : t = (s.st a).task) (hsame : s' = s)
  | inPlace (a : Nat) (hactive : (s.rq me).active = some a) (hruns : (s.st a).state.runs = true)
      (hneed : (s.st a).state.needResched = true)
      (hins : inserts (s.rq me) (s.st a) false fl = false) (htask : t = (s.st a).task)
      (hret : s' = (scheduleTask s me a false fl).1.spinRelease (.rq me))
  | penalised (a : Nat) (hactive : (s.rq me).active = some a)
      (hruns : (s.st a).state.runs = true) (hneed : (s.st a).state.needResched = true)
      (hins : inserts (s.rq me) (s.st a) false fl = true)
      (hret : setupActive (scheduleTask s me a false fl).1 me (bhPeekMax (s.rq me).pqueue) fl =
        some (t, s'))

/-- An active entry that is neither blocked nor about to be freed runs. -/
theorem Placed.active_runs (hp : Placed s W) (hactive : (s.rq me).active = some a)
    (hblocked : (s.st a).state.value ≠ .blocked)
    (hsched : (s.st a).state ≠ .plain .unscheduled) : (s.st a).state.runs = true := by
  rcases (s.st a).state.cases with hruns | ⟨-, hvalue⟩ | ⟨-, hvalue⟩
  · exact hruns
  · exact absurd hvalue hblocked
  · exact absurd (hp.places.leaving a (hp.active me a hactive).live hvalue).1 hsched

theorem mtsGetNext_path (hplaced : Placed s W) (hcareful : CarefulGetNext s me fl)
    (hret : mtsGetNext s me fl = some (t, s')) : NextPath (s.spinAcquire (.rq me)) me fl t s' := by
  have hsame := SameButLocks.acquire s (.rq me)
  obtain ⟨hp, -⟩ := hsame.placed hplaced
  have hcare := hsame.careful hcareful
  unfold mtsGetNext at hret
  generalize s.spinAcquire (.rq me) = s₀ at hp hcare hret
  simp only at hret
  cases hactive : (s₀.rq me).active with
  | none =>
      simp only [hactive] at hret
      exact .none hactive hret
  | some a =>
      simp only [hactive] at hret
      have hok := hp.active me a hactive
      by_cases hsched : (s₀.st a).state = .plain .unscheduled
      · rw [if_pos hsched] at hret
        exact .free a hactive hsched hret
      rw [if_neg hsched] at hret
      by_cases hprio : bhPeekMax (s₀.rq me).pqueue > (s₀.st a).sprio
      · rw [if_pos hprio] at hret
        have hruns := hp.active_runs hactive
          (fun hvalue => absurd (hcare.blocked a hactive hvalue) (not_le.mpr hprio)) hsched
        refine .requeue a _ hactive hruns (.inr rfl) ?_ ?_ hret
        · simp [Mts.preempt, SchedState.plain]
        · exact ((hp.places.sound a hok.live).above.trans hprio).ne'
      rw [if_neg hprio] at hret
      by_cases hblocked : (s₀.st a).state = .plain .blocked
      · rw [if_pos hblocked] at hret
        exact .drop a hactive hblocked hret
      rw [if_neg hblocked] at hret
      have hruns := hp.active_runs hactive
        (fun hvalue => hblocked (hp.places.waiting a (hok.parked hvalue)).2.2) hsched
      by_cases htime : (s₀.st a).execRt < (s₀.st a).timeslice
      · rw [if_pos htime] at hret
        obtain ⟨rfl, rfl⟩ := Prod.mk.inj (Option.some.inj hret)
        exact .stay a hactive hruns rfl rfl
      rw [if_neg htime] at hret
      have hstate : (s₀.st a).state ≠ .plain .ready := fun heq => htime (hok.fresh heq)
      by_cases hneed : (s₀.st a).state.needResched = true ∧
          bhPeekMax (s₀.rq me).pqueue < (s₀.st a).sprio
      · rw [if_pos hneed] at hret
        have hstatus := scheduleTask_status hstate me false fl
        generalize hins : inserts (s₀.rq me) (s₀.st a) false fl = ins at hstatus
        have hpair : scheduleTask s₀ me a false fl =
            ((scheduleTask s₀ me a false fl).1, if ins then .switch else .ok) :=
          Prod.ext rfl hstatus
        rw [hpair] at hret
        cases ins with
        | false =>
            obtain ⟨rfl, rfl⟩ := Prod.mk.inj (Option.some.inj hret)
            exact .inPlace a hactive hruns hneed.1 hins rfl rfl
        | true => exact .penalised a hactive hruns hneed.1 hins hret
      · rw [if_neg hneed] at hret
        refine .requeue a _ hactive hruns (.inl rfl) hstate ?_ hret
        by_cases hflag : (s₀.st a).state.needResched = true
        · have hequal : bhPeekMax (s₀.rq me).pqueue = (s₀.st a).sprio := by
            have hle := not_lt.mp hprio
            have hge := not_lt.mp fun hlt => hneed ⟨hflag, hlt⟩
            exact le_antisymm hle hge
          rw [hequal]
          exact (hp.places.sound a hok.live).above.ne'
        · exact hcare.unnoticed a hactive hruns (not_lt.mp htime) (Bool.eq_false_iff.mpr hflag)

theorem NextPath.switched (h : NextPath s me fl t s') (hp : Placed s W)
    (hcare : CarefulGetNext s me fl) : Switched s' (runnable s) W me (s.rq me).idle t := by
  cases h with
  | none hactive hret => exact setupActive_spec (getNext_none hp hactive) hret
  | free a hactive hstate hret =>
      have hidle : (((s.freeEntry a).dropActive me).rq me).idle = (s.rq me).idle := by
        simp [Mts.dropActive, (freeEntry_fields s a).2.1]
      rw [← hidle]
      exact setupActive_spec (getNext_free hp hactive hstate) hret
  | drop a hactive hstate hret =>
      have hruns : (s.st a).state.runs = false := by rw [hstate]; rfl
      have hidle : ((s.dropActive me).rq me).idle = (s.rq me).idle := by simp [Mts.dropActive]
      rw [← hidle]
      exact setupActive_spec
        (getNext_drop hp hactive hruns hp.places rfl rfl hp.hactive_other) hret
  | requeue a s₁ hactive hruns hs₁ hstate hprio hret =>
      have hidle : (s₁.rq me).idle = (s.rq me).idle := by rcases hs₁ with rfl | rfl <;> rfl
      rw [← hidle]
      exact setupActive_spec (getNext_requeue hp hactive hruns hcare.lowest hs₁ hstate hprio) hret
  | stay a hactive hruns htask hsame =>
      subst htask hsame
      exact ⟨hp, rfl, .inr ⟨a, hactive, rfl, mem_runnable_of_active hactive hruns⟩⟩
  | inPlace a hactive hruns hneed hins htask hret =>
      subst htask hret
      exact (SameButLocks.release _ _).switched
        (getNext_inPlace hp hactive hruns hneed hcare.lowest hins _)
  | penalised a hactive hruns hneed hins hret =>
      rw [← scheduleTask_idle s me a false fl]
      exact setupActive_spec (getNext_penalised hp hactive hruns hneed hcare.lowest
        (hcare.room a hactive hneed hins) hins) hret

/-- A careful `mts_get_next` keeps the runnable entries, and returns the idle task or a runnable one. -/
theorem mtsGetNext_spec (hplaced : Placed s W) (hcareful : CarefulGetNext s me fl)
    (hret : mtsGetNext s me fl = some (t, s')) :
    Switched s' (runnable s) W me (s.rq me).idle t := by
  have hsame := SameButLocks.acquire s (.rq me)
  obtain ⟨hp, hkept⟩ := hsame.placed hplaced
  rw [← hkept, ← hsame.rq]
  exact (mtsGetNext_path hplaced hcareful hret).switched hp (hsame.careful hcareful)

end GetNext

/-! ## `mts_tick` -/

/-- What `mts_tick` needs: it sets no flag of an active task that is blocked or about to be freed. -/
def CarefulTick (s : Mts) (me : Nat) : Prop :=
  ∀ a, (s.rq me).active = some a →
    ((s.st a).state.value = .blocked → bhPeekMax (s.rq me).pqueue ≤ (s.st a).sprio) ∧
    ((s.st a).state.value = .unscheduled → bhPeekMax (s.rq me).pqueue ≤ (s.st a).sprio ∧
      (s.st a).execRt + 1 < (s.st a).timeslice)

/-- The flags that `mts_tick` sets. -/
def tickState (prio : Int) (t : SchedTask) : SchedState :=
  if prio > t.sprio then { t.state with preempted := true }
  else if t.state = .plain .blocked then t.state
  else if t.execRt + 1 ≥ t.timeslice then { t.state with needResched := true }
  else t.state

theorem tickActive_eq (s : Mts) (me a : Nat) :
    (tickActive s me a).2 =
      (s.setRq me { s.rq me with tick := (s.rq me).tick + 1 }).setSt a
        { s.st a with
          execRt := (s.st a).execRt + 1
          state := tickState (bhPeekMax (s.rq me).pqueue) (s.st a) } := by
  unfold tickActive tickState
  simp only [Mts.setSt_st, Mts.setRq_st, Mts.setSt_rq, Mts.setRq_rq, Function.update_self]
  split_ifs
  · simp [Mts.preempt, Mts.setSt, Mts.setRq]
  · rfl
  · simp [Mts.setSt, Mts.setRq]
  · rfl

/-- A tick that leaves a state without flags leaves time. -/
theorem tickState_ready {prio : Int} {t : SchedTask} (hstate : tickState prio t = .plain .ready) :
    t.execRt + 1 < t.timeslice := by
  unfold tickState at hstate
  split_ifs at hstate with hprio hblocked htime
  · exact absurd (congrArg SchedState.preempted hstate) (by simp [SchedState.plain])
  · rw [hblocked] at hstate
    exact absurd hstate (by decide)
  · exact absurd (congrArg SchedState.needResched hstate) (by simp [SchedState.plain])
  · exact not_le.mp htime

theorem tickState_value (prio : Int) (t : SchedTask) : (tickState prio t).value = t.state.value := by
  unfold tickState
  split_ifs <;> rfl

/-- A careful tick leaves the state of an active entry that does not run as it is. -/
theorem tickState_stays {me a : Nat} (hp : Placed s W) (hcare : CarefulTick s me)
    (hactive : (s.rq me).active = some a) (hnot : (s.st a).state.runs = false) :
    tickState (bhPeekMax (s.rq me).pqueue) (s.st a) = (s.st a).state := by
  obtain ⟨hblocked, hleaving⟩ := hcare a hactive
  rcases (s.st a).state.cases with hyes | ⟨-, hval⟩ | ⟨-, hval⟩
  · exact absurd (hyes.symm.trans hnot) (by simp)
  · have hplain := (hp.places.waiting a ((hp.active me a hactive).parked hval)).2.2
    rw [tickState, if_neg (not_lt.mpr (hblocked hval)), if_pos hplain]
  · obtain ⟨hprio, htime⟩ := hleaving hval
    have hnb : (s.st a).state ≠ .plain .blocked := by
      intro heq
      rw [heq] at hval
      exact absurd hval (by decide)
    rw [tickState, if_neg (not_lt.mpr hprio), if_neg hnb, if_neg (not_le.mpr htime)]

/-- The state `s'` is the state `s` after a tick that found the entry `a` active. -/
structure Ticked (s : Mts) (me a : Nat) (s' : Mts) : Prop where
  active : (s.rq me).active = some a
  live : s'.live = s.live
  links : s'.links = s.links
  cpu : s'.cpu = s.cpu
  ncpu : s'.ncpu = s.ncpu
  self : s'.st a = { s.st a with
    execRt := (s.st a).execRt + 1
    state := tickState (bhPeekMax (s.rq me).pqueue) (s.st a) }
  other : ∀ k, k ≠ a → s'.st k = s.st k
  rq : ∀ c, (s'.rq c).active = (s.rq c).active ∧ (s'.rq c).pqueue = (s.rq c).pqueue ∧
    (s'.rq c).lowest = (s.rq c).lowest

theorem tickActive_ticked {me a : Nat} (hactive : (s.rq me).active = some a) :
    Ticked s me a (tickActive s me a).2 := by
  rw [tickActive_eq]
  refine ⟨hactive, rfl, rfl, rfl, rfl, ?_, ?_, ?_⟩
  · simp
  · intro k hk
    simp [hk]
  · intro c
    by_cases hc : c = me
    · subst hc
      simp
    · simp [hc]

section Ticked

variable {me a : Nat}

/-- A tick keeps the value of every state, and with it who is runnable. -/
theorem Ticked.value (h : Ticked s me a s') (k : Nat) :
    (s'.st k).state.value = (s.st k).state.value := by
  by_cases hk : k = a
  · rw [hk, h.self]
    exact tickState_value _ _
  · rw [h.other k hk]

theorem Ticked.runs (h : Ticked s me a s') (k : Nat) :
    (s'.st k).state.runs = (s.st k).state.runs := by
  simp only [SchedState.runs, h.value k]

theorem Ticked.runnable (h : Ticked s me a s') (c : Nat) : runnable s' c = runnable s c := by
  unfold Sched.runnable readyAt
  rw [(h.rq c).2.1, runningAt_congr (h.rq c).1 fun b _ => h.runs b]

theorem Ticked.touches (h : Ticked s me a s') (hp : Placed s W) (hcare : CarefulTick s me) :
    Touches s s' (Sched.runnable s) := by
  refine ⟨h.live, h.links, fun _ _ => congrFun h.cpu _, h.ncpu, ?_, ?_, ?_, ?_, ?_⟩
  · intro k
    by_cases hk : k = a
    · rw [hk, h.self]
    · rw [h.other k hk]
  · intro k
    by_cases hk : k = a
    · by_cases hr : (s.st a).state.runs = true
      · rw [hk]
        exact .inr ⟨⟨me, mem_runnable_of_active h.active hr⟩, (h.runs a).trans hr⟩
      · rw [hk, h.self]
        exact .inl (tickState_stays hp hcare h.active (Bool.eq_false_iff.mpr hr))
    · rw [h.other k hk]
      exact .inl rfl
  · intro k hlive
    have hsound := hp.places.sound k hlive
    by_cases hk : k = a
    · subst hk
      rw [h.self]
      exact ⟨hsound.nice, hsound.timeslice, hsound.above, hsound.below⟩
    · rw [h.other k hk]
      exact hsound
  · intro c
    rw [(h.rq c).2.1]
    exact hp.places.queue c
  · intro c
    rw [(h.rq c).2.2]
    exact hp.places.lowest c

theorem Ticked.activeOk (h : Ticked s me a s') (hp : Placed s W) {c b : Nat}
    (hb : (s'.rq c).active = some b) : ActiveOk s' W c b := by
  rw [(h.rq c).1] at hb
  obtain ⟨hlive, hcpu, hparked, hfresh⟩ := hp.active c b hb
  have htask : (s'.st b).task = (s.st b).task := by
    by_cases hba : b = a
    · rw [hba, h.self]
    · rw [h.other b hba]
  refine ⟨h.live ▸ hlive, by rw [htask, h.cpu, hcpu], ?_, ?_⟩
  · intro hval
    exact hparked ((h.value b).symm.trans hval)
  · intro hready
    by_cases hba : b = a
    · subst hba
      rw [h.self] at hready ⊢
      exact tickState_ready hready
    · rw [h.other b hba] at hready ⊢
      exact hfresh hready

end Ticked

/-- A careful tick keeps every entry in its place. -/
theorem mtsTick_spec {me : Nat} (hp : Placed s W) (hcare : CarefulTick s me) :
    Placed (mtsTick s me).2 W ∧ runnable (mtsTick s me).2 = runnable s := by
  unfold mtsTick
  cases hactive : (s.rq me).active with
  | none =>
      simp only
      split_ifs <;> exact ⟨hp, rfl⟩
  | some a =>
      simp only
      have htick := tickActive_ticked hactive
      refine ⟨.of_places (hp.places.touch (htick.touches hp hcare)) htick.runnable fun c b hb => ?_,
        funext htick.runnable⟩
      exact htick.activeOk hp hb

end Sched
end Micael
