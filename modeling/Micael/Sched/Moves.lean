import Micael.Sched.Placement

/-!
# The calls that move an entry

`mts_schedule` puts a new entry into a heap, `mts_block` and `mts_unblock` move one between the
runnable ones and the wait list, and `mts_unschedule` takes one out.  Every one of them keeps all other
entries in their places.

Main results:

- Theorem {lit}`mtsSchedule_cases`, {lit}`mtsBlock_spec`, {lit}`mtsUnblock_spec` and
  {lit}`mtsUnschedule_spec`: where each call leaves the entries.
- Theorem {lit}`mtsStart_placed`: every entry is in its place at the start.
-/

namespace Micael
namespace Sched

open Foundation Lib

variable {s s' : Mts} {run : Nat → Multiset Nat} {W : List Nat}

/-! ## `mts_schedule` -/

theorem leastLoaded_lt (s : Mts) {n : Nat} (hn : 0 < n) : leastLoaded s n < n := by
  induction n with
  | zero => exact absurd hn (lt_irrefl 0)
  | succ n ih =>
      rw [leastLoaded]
      rcases Nat.eq_zero_or_pos n with rfl | hpos
      · simp [leastLoaded]
      · have hlt := ih hpos
        split_ifs <;> omega

theorem leastLoaded_congr {s s' : Mts} (hrq : s'.rq = s.rq) (n : Nat) :
    leastLoaded s' n = leastLoaded s n := by
  induction n with
  | zero => rfl
  | succ n ih => simp only [leastLoaded, ih, hrq]

/-- A new entry for processor `c`. -/
structure Adds (s s' : Mts) (c p : Nat) : Prop where
  fresh : s.live p = false
  live : s'.live = Function.update s.live p true
  links : s'.links = listInit s.links (.entry p)
  cpu : ∀ q, s.live q = true → s'.cpu (s.st q).task = s.cpu (s.st q).task
  ncpu : s'.ncpu = s.ncpu
  st : ∀ q, q ≠ p → s'.st q = s.st q
  runs : (s'.st p).state.runs = true
  sound : (s'.st p).Sound
  single : ∀ q, s.live q = true → (s.st q).task ≠ (s'.st p).task
  home : s'.cpu (s'.st p).task = c
  bound : c < s.ncpu
  queue : ∀ c', QueueOk (s'.rq c').pqueue
  lowest : ∀ c', (s'.rq c').lowest ≤ intMax

theorem Adds.ne {c p q : Nat} (h : Adds s s' c p) (hq : s.live q = true) : q ≠ p := by
  rintro rfl
  rw [h.fresh] at hq
  exact absurd hq (by simp)

theorem Adds.keeps {c p q : Nat} (h : Adds s s' c p) (hq : s.live q = true) :
    s'.live q = true ∧ s'.st q = s.st q ∧ s'.cpu (s'.st q).task = s.cpu (s.st q).task := by
  have hne := h.ne hq
  refine ⟨by rw [h.live, Function.update_of_ne hne, hq], h.st q hne, ?_⟩
  rw [h.st q hne, h.cpu q hq]

theorem Adds.live_cases {c p q : Nat} (h : Adds s s' c p) (hq : s'.live q = true) :
    q = p ∨ s.live q = true := by
  by_cases hqp : q = p
  · exact .inl hqp
  · rw [h.live, Function.update_of_ne hqp] at hq
    exact .inr hq

/-- The node of a new entry is on no list. -/
theorem ring_init_entry {l : Links WaitNode} {c p : Nat} {xs : List Nat}
    (hring : ListRing l (.waitList c) (xs.map .entry)) (hp : p ∉ xs) :
    ListRing (listInit l (.entry p)) (.waitList c) (xs.map .entry) := by
  refine hring.congr fun n hn => listInit_other l ?_
  rintro rfl
  simp only [List.mem_cons, List.mem_map, reduceCtorEq, false_or] at hn
  obtain ⟨q, hq, heq⟩ := hn
  exact hp (WaitNode.entry.inj heq ▸ hq)

/-- The runnable entries stay distinct when an entry comes to those of `c`. -/
theorem nodup_update_cons {c p : Nat} (hnodup : ∀ c, (run c).Nodup) (hout : p ∉ run c) (c' : Nat) :
    (Function.update run c (p ::ₘ run c) c').Nodup := by
  by_cases hc : c' = c
  · subst hc
    rw [Function.update_self]
    exact Multiset.nodup_cons.mpr ⟨hout, hnodup c'⟩
  · rw [Function.update_of_ne hc]
    exact hnodup c'

theorem mem_update_cons {c c' p k : Nat} (hk : k ≠ p) :
    k ∈ Function.update run c (p ::ₘ run c) c' ↔ k ∈ run c' := by
  by_cases hc : c' = c
  · subst hc
    rw [Function.update_self, Multiset.mem_cons, or_iff_right hk]
  · rw [Function.update_of_ne hc]

/-- The runnable entries stay distinct when an entry leaves those of `c`. -/
theorem nodup_update_rest {c p : Nat} {rest : Multiset Nat} (hnodup : ∀ c, (run c).Nodup)
    (hrun : run c = p ::ₘ rest) (c' : Nat) : (Function.update run c rest c').Nodup := by
  by_cases hc : c' = c
  · subst hc
    have hcons := hnodup c'
    rw [hrun, Multiset.nodup_cons] at hcons
    rw [Function.update_self]
    exact hcons.2
  · rw [Function.update_of_ne hc]
    exact hnodup c'

theorem mem_update_rest {c c' p k : Nat} {rest : Multiset Nat} (hrun : run c = p ::ₘ rest) (hk : k ≠ p) :
    k ∈ Function.update run c rest c' ↔ k ∈ run c' := by
  by_cases hc : c' = c
  · subst hc
    rw [Function.update_self, hrun, Multiset.mem_cons, or_iff_right hk]
  · rw [Function.update_of_ne hc]

/-- An entry that has left is runnable nowhere. -/
theorem Places.not_mem_rest {c p : Nat} {rest : Multiset Nat} (hp : Places s run W)
    (hrun : run c = p ::ₘ rest) (c' : Nat) : p ∉ Function.update run c rest c' := by
  have hmem : p ∈ run c := hrun ▸ Multiset.mem_cons_self p rest
  intro hpc
  by_cases hc : c' = c
  · subst hc
    have hnodup := hp.nodup c'
    rw [hrun, Multiset.nodup_cons] at hnodup
    rw [Function.update_self] at hpc
    exact hnodup.1 hpc
  · rw [Function.update_of_ne hc] at hpc
    exact hc ((hp.home c' p hpc).2.1.symm.trans (hp.home c p hmem).2.1)

/-- A new entry that is in no place. -/
theorem Adds.places_out {c p : Nat} (h : Adds s s' c p) (hp : Places s run W) : Places s' run W := by
  have hwait : ∀ q ∈ W, s.live q = true := fun q hq => (hp.waiting q hq).1
  have hpW : p ∉ W := fun hpw => h.ne (hwait p hpw) rfl
  constructor
  case queue => exact h.queue
  case lowest => exact h.lowest
  case ring =>
    rw [h.links]
    exact ring_init_entry hp.ring hpW
  case rings =>
    intro c' hc'
    have hempty : ListRing s.links (.waitList c') (([] : List Nat).map .entry) := hp.rings c' hc'
    rw [h.links]
    exact ring_init_entry hempty (by simp)
  case nodup => exact hp.nodup
  case home =>
    intro c' q hq
    obtain ⟨hlive, hcpu, hruns⟩ := hp.home c' q hq
    obtain ⟨hlive', hst, hcpu'⟩ := h.keeps hlive
    exact ⟨hlive', hcpu'.trans hcpu, by rw [hst, hruns]⟩
  case waiting =>
    intro q hq
    obtain ⟨hlive, hcpu, hstate⟩ := hp.waiting q hq
    obtain ⟨hlive', hst, hcpu'⟩ := h.keeps hlive
    exact ⟨hlive', hcpu'.trans hcpu, by rw [hst, hstate]⟩
  case leaving =>
    intro q hq hvalue
    rcases h.live_cases hq with rfl | hlive
    · have hruns := h.runs
      simp [SchedState.runs, hvalue] at hruns
    · obtain ⟨-, hst, -⟩ := h.keeps hlive
      rw [hst] at hvalue ⊢
      obtain ⟨hstate, hself⟩ := hp.leaving q hlive hvalue
      refine ⟨hstate, ?_⟩
      unfold Unlinked
      rw [h.links, listInit_other _ (by simpa using h.ne hlive)]
      exact hself
  case single =>
    intro q q' hq hq' htask
    rcases h.live_cases hq with rfl | hlive
    · rcases h.live_cases hq' with rfl | hlive'
      · rfl
      · rw [(h.keeps hlive').2.1] at htask
        exact absurd htask.symm (h.single q' hlive')
    · rcases h.live_cases hq' with rfl | hlive'
      · rw [(h.keeps hlive).2.1] at htask
        exact absurd htask (h.single q hlive)
      · rw [(h.keeps hlive).2.1, (h.keeps hlive').2.1] at htask
        exact hp.single q q' hlive hlive' htask
  case cpus =>
    intro q hq
    rw [h.ncpu]
    rcases h.live_cases hq with rfl | hlive
    · rw [h.home]
      exact h.bound
    · rw [(h.keeps hlive).2.2]
      exact hp.cpus q hlive
  case sound =>
    intro q hq
    rcases h.live_cases hq with rfl | hlive
    · exact h.sound
    · rw [(h.keeps hlive).2.1]
      exact hp.sound q hlive

/-- An entry that is in no place becomes runnable. -/
theorem Places.enter {c p : Nat} (hp : Places s run W) (hlive : s.live p = true)
    (hcpu : s.cpu (s.st p).task = c) (hruns : (s.st p).state.runs = true) (hout : ∀ c', p ∉ run c') :
    Places s (Function.update run c (p ::ₘ run c)) W := by
  refine { hp with nodup := nodup_update_cons hp.nodup (hout c), home := fun c' q hq => ?_ }
  by_cases hqp : q = p
  · subst hqp
    have hc : c' = c := by
      by_contra hne
      rw [Function.update_of_ne hne] at hq
      exact hout c' hq
    exact ⟨hlive, hcpu.trans hc.symm, hruns⟩
  · exact hp.home c' q ((mem_update_cons hqp).mp hq)

theorem Adds.places {c p : Nat} (h : Adds s s' c p) (hp : Places s run W) :
    Places s' (Function.update run c (p ::ₘ run c)) W := by
  have hlive : s'.live p = true := by rw [h.live, Function.update_self]
  exact (h.places_out hp).enter hlive h.home h.runs fun c' hmem => h.ne (hp.home c' p hmem).1 rfl

/-- What `mts_schedule` needs: the slab cache serves an entry that is not allocated, and the task is not
scheduled. -/
structure CarefulSchedule (s : Mts) (task : Nat) (mem : Option Nat) : Prop where
  fresh : ∀ p, mem = some p → s.live p = false
  single : ∀ q, s.live q = true → (s.st q).task ≠ task

/-- `mts_schedule` made the entry `p` for a task on processor `c`, which may have another heap. -/
structure Entered (s s' : Mts) (task : Nat) (nice : Int) (c p : Nat) : Prop where
  accepted : nice.natAbs ≤ 4
  least : c = leastLoaded s s.ncpu
  bound : c < s.ncpu
  rq : s'.rq = Function.update s.rq c
    { (s.rq c).count (newEntry task nice (s.rq c).tick) with pqueue := (s'.rq c).pqueue }
  st : s'.st = Function.update s.st p (newEntry task nice (s.rq c).tick)
  live : s'.live = Function.update s.live p true
  links : s'.links = listInit s.links (.entry p)
  cpu : s'.cpu = Function.update s.cpu task c
  ncpu : s'.ncpu = s.ncpu

/-- The scheduler after `mts_schedule` gave a task the entry `p` on processor `c`. -/
structure Scheduled (s s' : Mts) (task : Nat) (nice : Int) (c p : Nat) : Prop extends
    Entered s s' task nice c p where
  queue : QueueOk (s'.rq c).pqueue
  ready : readyAt s' c = p ::ₘ readyAt s c

/-- The scheduler after a full heap refused the entry that `mts_schedule` made. -/
structure Refused (s s' : Mts) (task : Nat) (nice : Int) (c p : Nat) : Prop extends
    Entered s s' task nice c p where
  full : (s.rq c).pqueue.size = 256
  kept : (s'.rq c).pqueue = (s.rq c).pqueue

theorem Entered.locks {s'' : Mts} {task c p : Nat} {nice : Int} (h : SameButLocks s' s'')
    (hs : Entered s s' task nice c p) : Entered s s'' task nice c p where
  accepted := hs.accepted
  least := hs.least
  bound := hs.bound
  rq := h.rq ▸ hs.rq
  st := h.st.trans hs.st
  live := h.live.trans hs.live
  links := h.links.trans hs.links
  cpu := h.cpu.trans hs.cpu
  ncpu := h.ncpu.trans hs.ncpu

theorem Scheduled.locks {s'' : Mts} {task c p : Nat} {nice : Int} (h : SameButLocks s' s'')
    (hs : Scheduled s s' task nice c p) : Scheduled s s'' task nice c p where
  toEntered := hs.toEntered.locks h
  queue := h.rq ▸ hs.queue
  ready := by
    rw [readyAt, h.rq]
    exact hs.ready

theorem Refused.locks {s'' : Mts} {task c p : Nat} {nice : Int} (h : SameButLocks s' s'')
    (hs : Refused s s' task nice c p) : Refused s s'' task nice c p where
  toEntered := hs.toEntered.locks h
  full := hs.full
  kept := by rw [h.rq, hs.kept]

theorem SameButLocks.trans {s s' s'' : Mts} (h : SameButLocks s s') (h' : SameButLocks s' s'') :
    SameButLocks s s'' :=
  ⟨h'.ncpu.trans h.ncpu, h'.rq.trans h.rq, h'.st.trans h.st, h'.live.trans h.live,
    h'.links.trans h.links, h'.cpu.trans h.cpu⟩

/-- A `mts_schedule` that fails changes `task->cpu` at most. -/
structure ScheduleFailed (s s' : Mts) (task : Nat) : Prop where
  rq : s'.rq = s.rq
  st : s'.st = s.st
  live : s'.live = s.live
  links : s'.links = s.links
  ncpu : s'.ncpu = s.ncpu
  cpu : ∀ t, t ≠ task → s'.cpu t = s.cpu t

theorem newEntry_sound {task : Nat} {nice : Int} (hnice : nice.natAbs ≤ 4) (birth : UInt64) :
    (newEntry task nice birth).Sound := by
  refine ⟨hnice, by simp [newEntry, stsBase], ?_, ?_⟩
  · simp only [newEntry, intMin, spBase, spbBirth]
    omega
  · simp only [newEntry, intMax, spBase, spbBirth]
    omega

/-- The state in which `mts_schedule` puts the entry `p` into the heap of `c`. -/
structure EntryMade (s s' : Mts) (task : Nat) (nice : Int) (c p : Nat) : Prop where
  rq : s'.rq = s.rq
  st : s'.st = Function.update s.st p (newEntry task nice (s.rq c).tick)
  live : s'.live = Function.update s.live p true
  links : s'.links = listInit s.links (.entry p)
  cpu : s'.cpu = Function.update s.cpu task c
  ncpu : s'.ncpu = s.ncpu

/-- The entry counts for its processor. -/
theorem EntryMade.entered {task c p : Nat} {nice : Int} (h : EntryMade s s' task nice c p)
    (hnice : nice.natAbs ≤ 4) (hleast : c = leastLoaded s s.ncpu) (hbound : c < s.ncpu) (pqueue : Bheap Nat) :
    Entered s (s'.setRq c { (s.rq c).count (newEntry task nice (s.rq c).tick) with pqueue := pqueue })
      task nice c p where
  accepted := hnice
  least := hleast
  bound := hbound
  rq := by simp [h.rq]
  st := h.st
  live := h.live
  links := h.links
  cpu := h.cpu
  ncpu := h.ncpu

/-- With proper arguments and memory, the outcome of `mts_schedule` is that of the insertion. -/
theorem mtsSchedule_insert (me task : Nat) {nice : Int} (p : Nat) (garbage : Int) {c : Nat}
    (hgood : ¬ (s.ncpu = 0 ∨ nice.natAbs > 4)) (hc : leastLoaded s s.ncpu = c) :
    ∃ s₁, EntryMade s s₁ task nice c p ∧
      match bhInsert (s.rq c).pqueue (newEntry task nice (s.rq c).tick).sprio (some p) with
      | (.error e, _) =>
          (mtsSchedule s me task nice (some p) garbage).1 = .error e ∧
          (mtsSchedule s me task nice (some p) garbage).2 =
            ((s₁.setRq c ((s.rq c).count (newEntry task nice (s.rq c).tick))).spinRelease
              .mts).spinRelease (.rq c)
      | (.ok _, pqueue) =>
          (∀ e, (mtsSchedule s me task nice (some p) garbage).1 ≠ .error e) ∧
          (mtsSchedule s me task nice (some p) garbage).2 =
            ((s₁.setRq c { (s.rq c).count (newEntry task nice (s.rq c).tick) with
              pqueue := pqueue }).spinRelease .mts).spinRelease (.rq c) := by
  have hin := SameButLocks.acquire s .mts
  have hleast : leastLoaded (s.spinAcquire .mts) (s.spinAcquire .mts).ncpu = c := by
    rw [hin.ncpu, leastLoaded_congr hin.rq, hc]
  have htick : ((s.spinAcquire .mts).rq c).tick = (s.rq c).tick := by rw [hin.rq]
  have hqueue : ((s.rq c).count (newEntry task nice (s.rq c).tick)).pqueue = (s.rq c).pqueue := rfl
  unfold mtsSchedule
  rw [if_neg hgood]
  simp only [hleast, htick]
  generalize hs₂ : ({ s.spinAcquire .mts with
    cpu := Function.update (s.spinAcquire .mts).cpu task c
    live := Function.update (s.spinAcquire .mts).live p true
    links := listInit (s.spinAcquire .mts).links (.entry p)
    st := Function.update (s.spinAcquire .mts).st p
      (newEntry task nice (s.rq c).tick) } : Mts) = s₂
  have hlocked := SameButLocks.acquire s₂ (.rq c)
  have hmade : EntryMade s (s₂.spinAcquire (.rq c)) task nice c p := by
    constructor
    case rq => rw [hlocked.rq, ← hs₂]; exact hin.rq
    case st => rw [hlocked.st, ← hs₂]; simp only [hin.st]
    case live => rw [hlocked.live, ← hs₂]; simp only [hin.live]
    case links => rw [hlocked.links, ← hs₂]; simp only [hin.links]
    case cpu => rw [hlocked.cpu, ← hs₂]; simp only [hin.cpu]
    case ncpu => rw [hlocked.ncpu, ← hs₂]; exact hin.ncpu
  refine ⟨s₂.spinAcquire (.rq c), hmade, ?_⟩
  rw [hmade.rq, hqueue]
  cases hinsert : bhInsert (s.rq c).pqueue (newEntry task nice (s.rq c).tick).sprio (some p) with
  | mk r pqueue =>
      cases r with
      | error e => exact ⟨rfl, rfl⟩
      | ok u =>
          refine ⟨fun e => ?_, rfl⟩
          simp only
          split_ifs <;> simp

/-- `mts_schedule` fails for its arguments or for want of memory, or the heap of the processor is full, or the
task gets an entry there. -/
theorem mtsSchedule_cases {task : Nat} {nice : Int} {mem : Option Nat} (me : Nat) (garbage : Int)
    (hqueue : ∀ c, QueueOk (s.rq c).pqueue) :
    (∃ e, (mtsSchedule s me task nice mem garbage).1 = .error e) ∧
        ScheduleFailed s (mtsSchedule s me task nice mem garbage).2 task ∨
      (∃ c p, mem = some p ∧ (∃ e, (mtsSchedule s me task nice mem garbage).1 = .error e) ∧
        Refused s (mtsSchedule s me task nice mem garbage).2 task nice c p) ∨
      ∃ c p, mem = some p ∧ (∀ e, (mtsSchedule s me task nice mem garbage).1 ≠ .error e) ∧
        Scheduled s (mtsSchedule s me task nice mem garbage).2 task nice c p := by
  by_cases hbad : s.ncpu = 0 ∨ nice.natAbs > 4
  · unfold mtsSchedule
    rw [if_pos hbad]
    exact .inl ⟨⟨_, rfl⟩, rfl, rfl, rfl, rfl, rfl, fun _ _ => rfl⟩
  cases mem with
  | none =>
      unfold mtsSchedule
      rw [if_neg hbad]
      have hin := SameButLocks.acquire s .mts
      have hout := SameButLocks.release { s.spinAcquire .mts with
        cpu := Function.update (s.spinAcquire .mts).cpu task
          (leastLoaded (s.spinAcquire .mts) (s.spinAcquire .mts).ncpu) } .mts
      refine .inl ⟨⟨_, rfl⟩, hout.rq.trans hin.rq, hout.st.trans hin.st, hout.live.trans hin.live,
        hout.links.trans hin.links, hout.ncpu.trans hin.ncpu, fun t ht => ?_⟩
      simp only
      rw [hout.cpu]
      simp only [Function.update_of_ne ht, hin.cpu]
  | some p =>
      have hnice : nice.natAbs ≤ 4 := not_lt.mp (not_or.mp hbad).2
      have hbound : leastLoaded s s.ncpu < s.ncpu := leastLoaded_lt s (by omega)
      generalize hc : leastLoaded s s.ncpu = c at *
      have hsound : (newEntry task nice (s.rq c).tick).Sound := newEntry_sound hnice _
      have hcapacity := (hqueue c).holds.capacity
      obtain ⟨s₁, hmade, hcall⟩ := mtsSchedule_insert me task p garbage hbad hc
      have hentered := hmade.entered hnice hc.symm hbound
      by_cases hfull : (s.rq c).pqueue.size = 256
      · rw [bhInsert, if_pos (by omega)] at hcall
        obtain ⟨hrefused, hs'⟩ := hcall
        refine .inr (.inl ⟨c, p, rfl, ⟨_, hrefused⟩, ?_⟩)
        rw [hs']
        refine .locks (.release _ _) (.locks (.release _ _) ?_)
        exact ⟨hentered (s.rq c).pqueue, hfull, by simp [RunQueue.count]⟩
      · have hsize := (hqueue c).holds.card
        have hfits := (hqueue c).holds.fits
        obtain ⟨h', hinsert, hok, hpay⟩ := (hqueue c).insert (by omega) hsound.above hsound.below p
        rw [hinsert] at hcall
        obtain ⟨haccepted, hs'⟩ := hcall
        refine .inr (.inr ⟨c, p, rfl, haccepted, ?_⟩)
        rw [hs']
        refine .locks (.release _ _) (.locks (.release _ _) ?_)
        exact ⟨hentered h', by simpa using hok, by simpa [readyAt] using hpay⟩

theorem Entered.rq_other {task c p c' : Nat} {nice : Int} (hs : Entered s s' task nice c p)
    (hc : c' ≠ c) : s'.rq c' = s.rq c' := by
  rw [hs.rq, Function.update_of_ne hc]

theorem Entered.rq_self {task c p : Nat} {nice : Int} (hs : Entered s s' task nice c p) :
    s'.rq c =
      { (s.rq c).count (newEntry task nice (s.rq c).tick) with pqueue := (s'.rq c).pqueue } := by
  conv_lhs => rw [hs.rq, Function.update_self]

theorem Entered.adds {task c p : Nat} {nice : Int} {mem : Option Nat}
    (hs : Entered s s' task nice c p) (hp : Places s run W) (hcare : CarefulSchedule s task mem)
    (hmem : mem = some p) (hqueue : QueueOk (s'.rq c).pqueue) : Adds s s' c p := by
  have hself : s'.st p = newEntry task nice (s.rq c).tick := by
    rw [hs.st, Function.update_self]
  constructor
  case fresh => exact hcare.fresh p hmem
  case live => exact hs.live
  case links => exact hs.links
  case ncpu => exact hs.ncpu
  case bound => exact hs.bound
  case cpu =>
    intro q hq
    rw [hs.cpu, Function.update_of_ne (hcare.single q hq)]
  case st =>
    intro q hq
    rw [hs.st, Function.update_of_ne hq]
  case runs =>
    rw [hself]
    rfl
  case sound =>
    rw [hself]
    exact newEntry_sound hs.accepted _
  case single =>
    intro q hq
    rw [hself]
    exact hcare.single q hq
  case home =>
    rw [hself, hs.cpu]
    exact Function.update_self ..
  case queue =>
    intro c'
    by_cases hc : c' = c
    · rw [hc]
      exact hqueue
    · rw [hs.rq_other hc]
      exact hp.queue c'
  case lowest =>
    intro c'
    have hlow := hp.lowest c'
    by_cases hc : c' = c
    · subst hc
      rw [hs.rq_self]
      simp only [RunQueue.count]
      split_ifs <;> omega
    · rw [hs.rq_other hc]
      exact hlow

theorem Entered.active {task c p : Nat} {nice : Int} (hs : Entered s s' task nice c p) (c' : Nat) :
    (s'.rq c').active = (s.rq c').active := by
  by_cases hc : c' = c
  · subst hc
    rw [hs.rq_self]
    rfl
  · rw [hs.rq_other hc]

/-- The new entry is not the active one of a processor. -/
theorem Adds.running {c p : Nat} (hadds : Adds s s' c p) (hp : Placed s W)
    (hactive : ∀ c', (s'.rq c').active = (s.rq c').active) :
    (∀ c', runningAt s' c' = runningAt s c') ∧
      ∀ c' a, (s'.rq c').active = some a → ActiveOk s' W c' a := by
  refine ⟨fun c' => runningAt_congr (hactive c') fun a ha => ?_, fun c' a ha => ?_⟩
  · rw [hadds.st a (hadds.ne (hp.active c' a ha).live)]
  · rw [hactive] at ha
    obtain ⟨hlive, hcpu, hparked, hfresh⟩ := hp.active c' a ha
    obtain ⟨hlive', hst, hcpu'⟩ := hadds.keeps hlive
    exact ⟨hlive', hcpu'.trans hcpu, by rwa [hst], by rwa [hst]⟩

/-- A task that is scheduled is runnable on its processor, and all else is kept. -/
theorem Scheduled.placed {task c p : Nat} {nice : Int} {mem : Option Nat}
    (hs : Scheduled s s' task nice c p) (hp : Placed s W) (hcare : CarefulSchedule s task mem)
    (hmem : mem = some p) :
    Placed s' W ∧ runnable s' = Function.update (runnable s) c (p ::ₘ runnable s c) := by
  have hadds := hs.adds hp.places hcare hmem hs.queue
  obtain ⟨hrunning, hactive⟩ := hadds.running hp hs.active
  have hkept : ∀ c', runnable s' c' = Function.update (runnable s) c (p ::ₘ runnable s c) c' := by
    intro c'
    by_cases hc : c' = c
    · subst hc
      rw [Function.update_self, runnable, hrunning, hs.ready, runnable, Multiset.cons_add]
    · rw [Function.update_of_ne hc, runnable, hrunning, readyAt, hs.rq_other hc]
      rfl
  exact ⟨.of_places (hadds.places hp.places) hkept hactive, funext hkept⟩

/-- A task that a full heap refused is in no place, and all else is kept. -/
theorem Refused.placed {task c p : Nat} {nice : Int} {mem : Option Nat}
    (hs : Refused s s' task nice c p) (hp : Placed s W) (hcare : CarefulSchedule s task mem)
    (hmem : mem = some p) : Placed s' W ∧ runnable s' = runnable s := by
  have hqueue : QueueOk (s'.rq c).pqueue := hs.kept ▸ hp.places.queue c
  have hadds := hs.adds hp.places hcare hmem hqueue
  obtain ⟨hrunning, hactive⟩ := hadds.running hp hs.active
  have hkept : ∀ c', runnable s' c' = runnable s c' := by
    intro c'
    rw [runnable, hrunning, runnable, readyAt, readyAt]
    by_cases hc : c' = c
    · subst hc
      rw [hs.kept]
    · rw [hs.rq_other hc]
  exact ⟨.of_places (hadds.places_out hp.places) hkept hactive, funext hkept⟩

theorem ScheduleFailed.placed {task : Nat} (hs : ScheduleFailed s s' task) (hp : Placed s W)
    (hsingle : ∀ q, s.live q = true → (s.st q).task ≠ task) :
    Placed s' W ∧ runnable s' = runnable s := by
  have hkept : ∀ c, runnable s' c = runnable s c := fun c =>
    runnable_congr (by rw [hs.rq]) fun a _ => by rw [hs.st]
  have hcpu : ∀ q, s.live q = true → s'.cpu (s.st q).task = s.cpu (s.st q).task :=
    fun q hq => hs.cpu _ (hsingle q hq)
  refine ⟨.of_places (hp.places.touch ?_) hkept fun c a ha => ?_, funext hkept⟩
  · refine ⟨hs.live, hs.links, hcpu, hs.ncpu, ?_, ?_, ?_, ?_, ?_⟩
    · simp [hs.st]
    · simp [hs.st]
    · rw [hs.st]
      exact hp.places.sound
    · rw [hs.rq]
      exact hp.places.queue
    · rw [hs.rq]
      exact hp.places.lowest
  · rw [hs.rq] at ha
    obtain ⟨hlive, hhome, hparked, hfresh⟩ := hp.active c a ha
    exact ⟨hs.live ▸ hlive, by rw [hs.st, hcpu a hlive, hhome], by rwa [hs.st], by rwa [hs.st]⟩

/-! ## One entry moves -/

/-- The entry `p` gets another state and another place, and all other entries keep theirs. -/
structure MovesEntry (s s' : Mts) (run run' : Nat → Multiset Nat) (W W' : List Nat) (p : Nat) :
    Prop where
  owned : s.live p = true
  live : s'.live = s.live
  cpu : s'.cpu = s.cpu
  ncpu : s'.ncpu = s.ncpu
  st : ∀ k, k ≠ p → s'.st k = s.st k
  task : (s'.st p).task = (s.st p).task
  sound : (s'.st p).Sound
  queue : ∀ c, QueueOk (s'.rq c).pqueue
  lowest : ∀ c, (s'.rq c).lowest ≤ intMax
  ring : ListRing s'.links (.waitList 0) (W'.map .entry)
  rings : ∀ c, c ≠ 0 → ListRing s'.links (.waitList c) []
  links : ∀ k, k ≠ p → k ∉ W → s'.links (.entry k) = s.links (.entry k)
  nodup : ∀ c, (run' c).Nodup
  run : ∀ c k, k ≠ p → (k ∈ run' c ↔ k ∈ run c)
  wait : ∀ k, k ≠ p → (k ∈ W' ↔ k ∈ W)
  home : ∀ c, p ∈ run' c → s.cpu (s.st p).task = c ∧ (s'.st p).state.runs = true
  waiting : p ∈ W' → s.cpu (s.st p).task = 0 ∧ (s'.st p).state = .plain .blocked
  leaving : (s'.st p).state.value = .unscheduled →
    (s'.st p).state = .plain .unscheduled ∧ Unlinked s' p

section Moves

variable {run' : Nat → Multiset Nat} {W' : List Nat} {p : Nat}

theorem MovesEntry.task_eq (h : MovesEntry s s' run run' W W' p) (k : Nat) :
    (s'.st k).task = (s.st k).task := by
  by_cases hk : k = p
  · rw [hk, h.task]
  · rw [h.st k hk]

theorem MovesEntry.cpu_eq (h : MovesEntry s s' run run' W W' p) (k : Nat) :
    s'.cpu (s'.st k).task = s.cpu (s.st k).task := by
  rw [h.task_eq, h.cpu]

theorem Places.move (hp : Places s run W) (h : MovesEntry s s' run run' W W' p) :
    Places s' run' W' where
  queue := h.queue
  lowest := h.lowest
  ring := h.ring
  rings := h.rings
  nodup := h.nodup
  home := by
    intro c k hk
    rw [h.live, h.cpu_eq]
    by_cases hkp : k = p
    · subst hkp
      exact ⟨h.owned, h.home c hk⟩
    · rw [h.st k hkp]
      exact hp.home c k ((h.run c k hkp).mp hk)
  waiting := by
    intro k hk
    rw [h.live, h.cpu_eq]
    by_cases hkp : k = p
    · subst hkp
      exact ⟨h.owned, h.waiting hk⟩
    · rw [h.st k hkp]
      exact hp.waiting k ((h.wait k hkp).mp hk)
  leaving := by
    intro k hlive hvalue
    by_cases hkp : k = p
    · subst hkp
      exact h.leaving hvalue
    · rw [h.live] at hlive
      rw [h.st k hkp] at hvalue ⊢
      obtain ⟨hstate, hself⟩ := hp.leaving k hlive hvalue
      refine ⟨hstate, ?_⟩
      have hout : k ∉ W := fun hw => by
        rw [(hp.waiting k hw).2.2] at hvalue
        exact absurd hvalue (by decide)
      unfold Unlinked
      rw [h.links k hkp hout]
      exact hself
  single := by
    intro k k' hlive hlive' htask
    rw [h.live] at hlive hlive'
    rw [h.task_eq, h.task_eq] at htask
    exact hp.single k k' hlive hlive' htask
  cpus := by
    intro k hlive
    rw [h.live] at hlive
    rw [h.cpu_eq, h.ncpu]
    exact hp.cpus k hlive
  sound := by
    intro k hlive
    by_cases hkp : k = p
    · rw [hkp]
      exact h.sound
    · rw [h.live] at hlive
      rw [h.st k hkp]
      exact hp.sound k hlive

/-- The active entries that do not move. -/
theorem MovesEntry.activeOk {c a : Nat} (h : MovesEntry s s' run run' W W' p) (hap : a ≠ p)
    (ha : ActiveOk s W c a) : ActiveOk s' W' c a := by
  refine ⟨h.live ▸ ha.live, (h.cpu_eq a).trans ha.cpu, ?_, ?_⟩
  · rw [h.st a hap, h.wait a hap]
    exact ha.parked
  · rw [h.st a hap]
    exact ha.fresh

end Moves

/-! ## `mts_block` -/

/-- What `mts_block` needs: the task belongs to the processor whose wait list is used, and it is not
the active one that was blocked or unscheduled before. -/
structure CarefulBlock (s : Mts) (task : Nat) : Prop where
  home : s.cpu task = 0
  runs : ∀ a, (s.rq 0).active = some a → (s.st a).task = task → (s.st a).state.runs = true

/-- Entry `p` is moved from the first processor, which keeps the heap `pqueue`, to the wait list. -/
def Mts.park (s : Mts) (pqueue : Bheap Nat) (p : Nat) : Mts :=
  { s with
    rq := Function.update s.rq 0
      { s.rq 0 with
        pqueue := pqueue
        nblocked := (s.rq 0).nblocked + 1
        nready := (s.rq 0).nready - 1
        rprio := (s.rq 0).rprio - (s.st p).prio }
    st := Function.update s.st p { s.st p with state := .plain .blocked }
    links := listAppend (listInit s.links (.entry p)) (.waitList 0) (.entry p) }

/-- What `mts_block` took the entry from: the processor that executes it, or the heap. -/
def TakenFrom (s : Mts) (c task p : Nat) (pqueue : Bheap Nat) : Prop :=
  (s.st p).task = task ∧
    ((s.rq c).active = some p ∧ pqueue = (s.rq c).pqueue ∨
      (∀ a, (s.rq c).active = some a → (s.st a).task ≠ task) ∧
        bhRemovePld (s.rq c).pqueue (some task) (some (cmpPld s)) = (.ok p, pqueue))

theorem cmpPld_spinAcquire (s : Mts) (l : LockId) : cmpPld (s.spinAcquire l) = cmpPld s := by
  funext t k
  rw [cmpPld, (SameButLocks.acquire s l).st, cmpPld]

theorem moveToWaitList_park {s₁ : Mts} (h : SameButLocks s s₁) {task : Nat}
    (hcpu : s.cpu task = 0) (pqueue : Bheap Nat) (p : Nat) :
    SameButLocks (s.park pqueue p)
      (moveToWaitList (s₁.setRq 0 { s₁.rq 0 with pqueue := pqueue }) 0 task p) := by
  have hrelease := fun s₂ : Mts => SameButLocks.release s₂ (.rq 0)
  have hstay : Function.update s.cpu task 0 = s.cpu := by rw [← hcpu, Function.update_eq_self]
  unfold moveToWaitList Mts.park
  refine ⟨(hrelease _).ncpu.trans h.ncpu, (hrelease _).rq.trans ?_, (hrelease _).st.trans ?_,
    (hrelease _).live.trans h.live, (hrelease _).links.trans ?_, (hrelease _).cpu.trans ?_⟩
  · simp [h.rq, h.st]
  · simp [h.st]
  · simp [h.links]
  · simp [h.cpu, hstay]

theorem mtsBlock_cases {task : Nat} {r : Status} (hp : Places s run W) (hcare : CarefulBlock s task)
    (hret : mtsBlock s task = some (r, s')) :
    ∃ p pqueue, TakenFrom s 0 task p pqueue ∧ SameButLocks (s.park pqueue p) s' := by
  have hsame := SameButLocks.acquire s (.rq 0)
  unfold mtsBlock at hret
  simp only [hsame.cpu, hcare.home, ne_eq, not_true_eq_false, if_false, hsame.rq, hsame.st,
    cmpPld_spinAcquire] at hret
  cases hrunning : (s.rq 0).active.filter fun a => (s.st a).task = task with
  | some a =>
      rw [hrunning] at hret
      obtain ⟨-, rfl⟩ := Prod.mk.inj (Option.some.inj hret)
      obtain ⟨hactive, htask⟩ := Option.filter_eq_some_iff.mp hrunning
      refine ⟨a, (s.rq 0).pqueue, ⟨by simpa using htask, .inl ⟨hactive, rfl⟩⟩, ?_⟩
      have hmove := moveToWaitList_park hsame hcare.home (s.rq 0).pqueue a
      have hstay : (s.spinAcquire (.rq 0)).setRq 0
          { (s.spinAcquire (.rq 0)).rq 0 with pqueue := (s.rq 0).pqueue } =
            s.spinAcquire (.rq 0) := by
        rw [← hsame.rq]
        exact Mts.setRq_self ..
      rwa [hstay] at hmove
  | none =>
      rw [hrunning] at hret
      simp only at hret
      generalize hremove : bhRemovePld (s.rq 0).pqueue (some task) (some (cmpPld s)) = taken at hret
      obtain ⟨found, pqueue⟩ := taken
      cases found with
      | error e => exact absurd hret (by simp)
      | ok p =>
          obtain ⟨-, rfl⟩ := Prod.mk.inj (Option.some.inj hret)
          have hfound := ((hp.queue 0).removePld hremove).1
          refine ⟨p, pqueue, ⟨?_, .inr ⟨fun a ha htask => ?_, hremove⟩⟩, ?_⟩
          · simpa [cmpPld, eq_comm] using hfound
          · rw [ha] at hrunning
            simp [Option.filter, htask] at hrunning
          · have hmove := moveToWaitList_park hsame hcare.home pqueue p
            rwa [hsame.rq] at hmove

/-- An entry that is taken from the processor or from its heap was runnable there. -/
theorem TakenFrom.runnable {c task p : Nat} {pqueue : Bheap Nat} (h : TakenFrom s c task p pqueue)
    (hp : Placed s W)
    (hruns : ∀ a, (s.rq c).active = some a → (s.st a).task = task → (s.st a).state.runs = true) :
    QueueOk pqueue ∧ ∃ rest, runnable s c = p ::ₘ rest ∧
      ((s.rq c).active = some p ∧ rest = payloads pqueue ∧ payloads pqueue = readyAt s c ∨
        (∀ a, (s.rq c).active = some a → a ≠ p) ∧ rest = payloads pqueue + runningAt s c ∧
          readyAt s c = p ::ₘ payloads pqueue) := by
  obtain ⟨htask, ⟨hactive, rfl⟩ | ⟨hother, hremove⟩⟩ := h
  · refine ⟨hp.places.queue c, readyAt s c, ?_, .inl ⟨hactive, rfl, rfl⟩⟩
    rw [Sched.runnable, runningAt_of_runs hactive (hruns p hactive htask), add_comm,
      Multiset.singleton_add]
  · obtain ⟨-, hok, hpay⟩ := (hp.places.queue c).removePld hremove
    refine ⟨hok, payloads pqueue + runningAt s c, ?_, .inr ⟨?_, rfl, hpay⟩⟩
    · rw [Sched.runnable, readyAt, hpay, Multiset.cons_add]
    · rintro a ha rfl
      exact hother a ha htask

/-- The wait list with a new first entry. -/
theorem ring_append_entry {l : Links WaitNode} {p : Nat} {xs : List Nat}
    (hring : ListRing l (.waitList 0) (xs.map .entry)) (hp : p ∉ xs) :
    ListRing (listAppend (listInit l (.entry p)) (.waitList 0) (.entry p)) (.waitList 0)
      ((p :: xs).map .entry) := by
  rw [List.map_cons]
  refine (ring_init_entry hring hp).append ?_
  simpa using hp

/-- The nodes that are neither the head, nor on the wait list, nor put on it, keep their links. -/
theorem append_entry_other {l : Links WaitNode} {p : Nat} {xs : List Nat} {u : WaitNode}
    (hring : ListRing l (.waitList 0) (xs.map .entry)) (hp : p ∉ xs) (hhead : u ≠ .waitList 0)
    (hself : u ≠ .entry p) (hu : u ∉ xs.map .entry) :
    listAppend (listInit l (.entry p)) (.waitList 0) (.entry p) u = l u := by
  rw [(ring_init_entry hring hp).append_other (by simpa using hp) (by simp [hhead, hself, hu]),
    listInit_other l hself]

theorem park_moves {p : Nat} {pqueue : Bheap Nat} {rest : Multiset Nat} (hp : Places s run W)
    (hqueue : QueueOk pqueue) (hrun : run 0 = p ::ₘ rest) :
    MovesEntry s (s.park pqueue p) run (Function.update run 0 rest) W (p :: W) p := by
  have hmem : p ∈ run 0 := by
    rw [hrun]
    exact Multiset.mem_cons_self p rest
  obtain ⟨hlive, hcpu, -⟩ := hp.home 0 p hmem
  have hout : p ∉ W := (hp.runs_not_blocked hmem).1
  constructor
  case owned => exact hlive
  case live => rfl
  case cpu => rfl
  case ncpu => rfl
  case st =>
    intro k hk
    exact Function.update_of_ne hk ..
  case task => simp [Mts.park]
  case sound =>
    have hsound := hp.sound p hlive
    simp only [Mts.park, Function.update_self]
    exact ⟨hsound.nice, hsound.timeslice, hsound.above, hsound.below⟩
  case queue =>
    intro c
    by_cases hc : c = 0
    · subst hc
      simpa [Mts.park] using hqueue
    · simpa [Mts.park, hc] using hp.queue c
  case lowest =>
    intro c
    by_cases hc : c = 0
    · subst hc
      simpa [Mts.park] using hp.lowest 0
    · simpa [Mts.park, hc] using hp.lowest c
  case ring => exact ring_append_entry hp.ring hout
  case rings =>
    intro c hc
    refine (hp.rings c hc).congr fun u hu => ?_
    obtain rfl : u = .waitList c := by simpa using hu
    exact append_entry_other hp.ring hout (by simpa using hc) (by simp) (by simp)
  case links =>
    intro k hk hw
    exact append_entry_other (u := .entry k) hp.ring hout (by simp) (by simpa using hk)
      (by simpa using hw)
  case nodup => exact nodup_update_rest hp.nodup hrun
  case run => exact fun c k hk => mem_update_rest hrun hk
  case wait =>
    intro k hk
    rw [List.mem_cons, or_iff_right hk]
  case home => exact fun c hpc => absurd hpc (hp.not_mem_rest hrun c)
  case waiting =>
    intro _
    exact ⟨hcpu, by simp [Mts.park]⟩
  case leaving =>
    intro hvalue
    simp [Mts.park, SchedState.plain] at hvalue

/-- A careful `mts_block` moves an entry of the task from the runnable ones to the wait list. -/
theorem mtsBlock_spec {task : Nat} {r : Status} (hp : Placed s W) (hcare : CarefulBlock s task)
    (hret : mtsBlock s task = some (r, s')) :
    ∃ p pqueue rest, TakenFrom s 0 task p pqueue ∧ SameButLocks (s.park pqueue p) s' ∧
      runnable s 0 = p ::ₘ rest ∧ Placed s' (p :: W) ∧
      runnable s' = Function.update (runnable s) 0 rest := by
  obtain ⟨p, pqueue, htaken, hsame⟩ := mtsBlock_cases hp.places hcare hret
  obtain ⟨hqueue, rest, hrun, hcases⟩ := htaken.runnable hp hcare.runs
  have hmove := park_moves hp.places hqueue hrun
  have hactive : ∀ c, ((s.park pqueue p).rq c).active = (s.rq c).active := by
    intro c
    by_cases hc : c = 0
    · subst hc
      simp [Mts.park]
    · simp [Mts.park, hc]
  have hfirst : readyAt (s.park pqueue p) 0 = payloads pqueue := by simp [readyAt, Mts.park]
  have hstate : ((s.park pqueue p).st p).state = .plain .blocked := by simp [Mts.park]
  have hother : ∀ c a, c ≠ 0 → (s.rq c).active = some a → a ≠ p := by
    rintro c a hc ha rfl
    have hmem : a ∈ runnable s 0 := hrun ▸ Multiset.mem_cons_self a rest
    exact hc ((hp.active c a ha).cpu.symm.trans (hp.places.home 0 a hmem).2.1)
  have hkept : ∀ c, runnable (s.park pqueue p) c = Function.update (runnable s) 0 rest c := by
    intro c
    by_cases hc : c = 0
    · subst hc
      rw [Function.update_self, runnable, hfirst]
      rcases hcases with ⟨hself, rfl, -⟩ | ⟨hnot, rfl, -⟩
      · rw [runningAt_of_not_runs ((hactive 0).trans hself) (by rw [hstate]; rfl), add_zero]
      · rw [runningAt_congr (hactive 0) fun a ha => by rw [hmove.st a (hnot a ha)]]
    · rw [Function.update_of_ne hc]
      refine runnable_congr (Function.update_of_ne hc ..) fun a ha => ?_
      rw [hmove.st a (hother c a hc ha)]
  have hplaced : Placed (s.park pqueue p) (p :: W) := by
    refine .of_places (hp.places.move hmove) hkept fun c a ha => ?_
    rw [hactive] at ha
    by_cases hap : a = p
    · subst hap
      obtain ⟨hlive, hcpu, -⟩ := hp.active c a ha
      refine ⟨hlive, (hmove.cpu_eq a).trans hcpu, fun _ => List.mem_cons_self, fun hready => ?_⟩
      rw [hstate] at hready
      exact absurd hready (by decide)
    · exact hmove.activeOk hap (hp.active c a ha)
  obtain ⟨hplaced', hkept'⟩ := hsame.placed hplaced
  exact ⟨p, pqueue, rest, htaken, hsame, hrun, hplaced', hkept'.trans (funext hkept)⟩

/-! ## `mts_unblock` -/

/-- What `mts_unblock` needs: the task belongs to the processor whose wait list is used and is not its
active task any more, a place in its heap is free, and the priority of a penalty does not leave the
range of an `int`. -/
structure CarefulUnblock (s : Mts) (me task : Nat) : Prop where
  home : s.cpu task = 0
  switched : ∀ a, (s.rq 0).active = some a → (s.st a).task ≠ task
  room : (s.rq 0).pqueue.size < 256
  lowest : intMin + 1 < (s.rq me).lowest

/-- The search along the wait list finds an entry of the task that is on the list. -/
theorem findWaiter_mem {task turns p : Nat} {xs : List Nat} {iter : WaitNode}
    (hring : ListRing s.links (.waitList 0) (xs.map .entry))
    (hiter : iter = .waitList 0 ∨ ∃ k ∈ xs, iter = .entry k)
    (hfound : findWaiter s 0 task turns (some iter) = some (some p)) :
    p ∈ xs ∧ (s.st p).task = task := by
  induction turns generalizing iter with
  | zero => exact absurd hfound (by simp [findWaiter])
  | succ turns ih =>
      rcases hiter with rfl | ⟨k, hk, rfl⟩
      · exact absurd hfound (by simp [findWaiter])
      · rw [findWaiter] at hfound
        by_cases htask : (s.st k).task = task
        · rw [if_pos htask] at hfound
          obtain rfl := Option.some.inj (Option.some.inj hfound)
          exact ⟨hk, htask⟩
        · rw [if_neg htask] at hfound
          obtain ⟨as, bs, rfl⟩ := List.append_of_mem hk
          have hsplit : ListRing s.links (.waitList 0) (as.map .entry ++ .entry k :: bs.map .entry) := by
            simpa using hring
          obtain ⟨-, n, hnext, -, -, -, hn⟩ := hsplit.neighbours
          rw [hnext] at hfound
          refine ih ?_ hfound
          rcases List.mem_append.mp hn with hb | hh
          · obtain ⟨b, hbs, rfl⟩ := List.mem_map.mp hb
            exact .inr ⟨b, by simp [hbs], rfl⟩
          · exact .inl (List.mem_singleton.mp hh)

/-- The scheduler before `__schedule_task` of an entry that leaves the wait list. -/
def Mts.unlink (s : Mts) (p : Nat) : Mts := { s with links := listRemove s.links (.entry p) }

theorem mtsUnblock_cases {turns me task : Nat} {fl : Floats} {r : Status} (hp : Places s run W)
    (hcare : CarefulUnblock s me task) (hret : mtsUnblock turns s me task fl = some (r, s')) :
    SameButLocks s s' ∨ ∃ p s₁, p ∈ W ∧ (s.st p).task = task ∧ SameButLocks (s.unlink p) s₁ ∧
      SameButLocks (scheduleTask s₁ me p true fl).1 s' := by
  have hsame := SameButLocks.acquire s (.rq 0)
  unfold mtsUnblock at hret
  simp only [hcare.home] at hret
  generalize s.spinAcquire (.rq 0) = s₀ at hsame hret
  by_cases hidle : (s₀.rq 0).active = none ∧ (s₀.rq 0).iactive = false
  · rw [if_pos hidle] at hret
    obtain ⟨-, rfl⟩ := Prod.mk.inj (Option.some.inj hret)
    exact .inl (hsame.trans (.release _ _))
  rw [if_neg hidle] at hret
  generalize hfind : findWaiter s₀ 0 task turns (s₀.links (.waitList 0)).next = found at hret
  cases found with
  | none => exact absurd hret (by simp)
  | some found =>
      cases found with
      | none =>
          obtain ⟨-, rfl⟩ := Prod.mk.inj (Option.some.inj hret)
          exact .inl (hsame.trans (.release _ _))
      | some p =>
          obtain ⟨-, rfl⟩ := Prod.mk.inj (Option.some.inj hret)
          have hring : ListRing s₀.links (.waitList 0) (W.map .entry) := hsame.links ▸ hp.ring
          rw [hring.next_head] at hfind
          obtain ⟨hmem, htask⟩ := findWaiter_mem hring (by cases W <;> simp) hfind
          refine .inr ⟨p, { s₀ with links := listRemove s₀.links (.entry p) }, hmem,
            by rwa [hsame.st] at htask, ?_, .release _ _⟩
          exact ⟨hsame.ncpu, hsame.rq, hsame.st, hsame.live, by simp [Mts.unlink, hsame.links],
            hsame.cpu⟩

/-- The wait list without one of its entries. -/
theorem ring_remove_entry {l : Links WaitNode} {p : Nat} {as bs : List Nat}
    (hring : ListRing l (.waitList 0) ((as ++ p :: bs).map .entry)) :
    ListRing (listRemove l (.entry p)) (.waitList 0) ((as ++ bs).map .entry) := by
  have hsplit : ListRing l (.waitList 0) (as.map .entry ++ .entry p :: bs.map .entry) := by
    simpa using hring
  simpa using hsplit.remove

/-- The nodes that are neither the head nor left on the wait list keep their links. -/
theorem remove_entry_other {l : Links WaitNode} {p : Nat} {as bs : List Nat} {u : WaitNode}
    (hring : ListRing l (.waitList 0) ((as ++ p :: bs).map .entry)) (hhead : u ≠ .waitList 0)
    (hu : u ∉ (as ++ bs).map .entry) : listRemove l (.entry p) u = l u := by
  have hsplit : ListRing l (.waitList 0) (as.map .entry ++ .entry p :: bs.map .entry) := by
    simpa using hring
  refine hsplit.remove_other ?_
  rw [← List.map_append]
  simpa [hhead] using hu

/-- Entry `p` was taken from the wait list and scheduled. -/
structure Woken (s s' : Mts) (me p : Nat) (fl : Floats) : Prop where
  ready : readyAt s' = Function.update (readyAt s) 0 (p ::ₘ readyAt s 0)
  st : s'.st = Function.update s.st p (rescheduled (s.rq me) (s.st p) fl)
  rq : ∀ c, s'.rq c =
    rescheduledQueue (s.rq c) (s.st p) (rescheduled (s.rq me) (s.st p) fl)
      (newPriority (s.rq me) (s.st p).charged fl).2.1 p (c = me) (c = 0) true

theorem SameButLocks.woken {s'' : Mts} {me p : Nat} {fl : Floats} (h : SameButLocks s' s'')
    (hs : Woken s s' me p fl) : Woken s s'' me p fl := by
  refine ⟨?_, h.st.trans hs.st, ?_⟩
  · rw [← hs.ready]
    funext c
    rw [readyAt, h.rq, readyAt]
  · rw [h.rq]
    exact hs.rq

/-- `__schedule_task` of an entry that leaves the wait list. -/
theorem wake_moves {me p : Nat} {as bs : List Nat} {s₁ : Mts}
    (hp : Places s run (as ++ p :: bs)) (hsame : SameButLocks (s.unlink p) s₁)
    (hroom : (s.rq 0).pqueue.size < 256) (hlow : intMin + 1 < (s.rq me).lowest) (fl : Floats) :
    MovesEntry s (scheduleTask s₁ me p true fl).1 run (Function.update run 0 (p ::ₘ run 0))
        (as ++ p :: bs) (as ++ bs) p ∧
      Woken s (scheduleTask s₁ me p true fl).1 me p fl := by
  have hmem : p ∈ as ++ p :: bs := by simp
  obtain ⟨hlive, hcpu, hblocked⟩ := hp.waiting p hmem
  have hgone : ∀ c, p ∉ run c := fun c hpc => (hp.runs_not_blocked hpc).1 hmem
  have hout : p ∉ as ++ bs := by
    have hnodup := (List.nodup_cons.mp hp.ring.nodup).2.of_map
    have hperm : (p :: (as ++ bs)).Nodup := List.perm_middle.nodup_iff.mp hnodup
    exact (List.nodup_cons.mp hperm).1
  have hst₁ : s₁.st = s.st := hsame.st
  have hrq₁ : s₁.rq = s.rq := hsame.rq
  have hstate : (s₁.st p).state ≠ .plain .ready := by
    rw [hst₁, hblocked]
    decide
  have hst := scheduleTask_st hstate me true fl
  have hrq := scheduleTask_rq hstate me true fl
  obtain ⟨hlive', hlinks', hcpu', hncpu'⟩ := scheduleTask_frame s₁ me p true fl
  have hsound := rescheduled_sound (hp.sound p hlive) hlow (hp.lowest me) fl
  rw [hst₁, hrq₁] at hst
  simp only [hst₁, hrq₁, hsame.cpu, show (s.unlink p).cpu = s.cpu from rfl, hcpu, inserts,
    Bool.true_or] at hrq
  obtain ⟨h', hinsert, hok, hpay⟩ := (hp.queue 0).insert hroom hsound.above hsound.below p
  have hfirst : ((scheduleTask s₁ me p true fl).1.rq 0).pqueue = h' := by
    rw [hrq 0]
    simp [rescheduledQueue, hinsert]
  generalize (scheduleTask s₁ me p true fl).1 = s₂ at *
  have hself : s₂.st p = rescheduled (s.rq me) (s.st p) fl := by rw [hst, Function.update_self]
  have hlinks : s₂.links = listRemove s.links (.entry p) := hlinks'.trans hsame.links
  constructor
  · constructor
    case owned => exact hlive
    case live => exact hlive'.trans hsame.live
    case cpu => exact hcpu'.trans hsame.cpu
    case ncpu => exact hncpu'.trans hsame.ncpu
    case st =>
      intro k hk
      rw [hst, Function.update_of_ne hk]
    case task =>
      rw [hself]
      exact rescheduled_task ..
    case sound =>
      rw [hself]
      exact hsound
    case queue =>
      intro c
      by_cases hc : c = 0
      · rw [hc, hfirst]
        exact hok
      · rw [hrq c]
        simpa [rescheduledQueue, hc] using hp.queue c
    case lowest =>
      intro c
      rw [hrq c]
      by_cases hc : c = me
      · subst hc
        simp only [rescheduledQueue, decide_true, if_true]
        exact (newPriority_lowest_le _ _ fl).trans (hp.lowest c)
      · simpa [rescheduledQueue, hc] using hp.lowest c
    case ring =>
      rw [hlinks]
      exact ring_remove_entry hp.ring
    case rings =>
      intro c hc
      rw [hlinks]
      refine (hp.rings c hc).congr fun u hu => ?_
      obtain rfl : u = .waitList c := by simpa using hu
      exact remove_entry_other hp.ring (by simpa using hc) (by simp)
    case links =>
      intro k hk hw
      rw [hlinks]
      refine remove_entry_other (u := .entry k) hp.ring (by simp) ?_
      simp only [List.mem_append, List.mem_cons, not_or] at hw
      simp [hw.1, hw.2.2]
    case nodup => exact nodup_update_cons hp.nodup (hgone 0)
    case run => exact fun c k hk => mem_update_cons hk
    case wait =>
      intro k hk
      simp [hk]
    case home =>
      intro c hpc
      by_cases hc : c = 0
      · exact ⟨hcpu.trans hc.symm, by rw [hself, rescheduled_state]; rfl⟩
      · rw [Function.update_of_ne hc] at hpc
        exact absurd hpc (hgone c)
    case waiting => exact fun hw => absurd hw hout
    case leaving =>
      intro hvalue
      rw [hself, rescheduled_state] at hvalue
      exact absurd hvalue (by decide)
  · refine ⟨?_, hst, hrq⟩
    funext c
    by_cases hc : c = 0
    · subst hc
      rw [Function.update_self, readyAt, hfirst, hpay, readyAt]
    · rw [Function.update_of_ne hc, readyAt, hrq c]
      simp [rescheduledQueue, hc, readyAt]

/-- A careful `mts_unblock` changes nothing, or moves an entry of the task from the wait list to the
heap. -/
theorem mtsUnblock_spec {turns me task : Nat} {fl : Floats} {r : Status} (hp : Placed s W)
    (hcare : CarefulUnblock s me task) (hret : mtsUnblock turns s me task fl = some (r, s')) :
    SameButLocks s s' ∨ ∃ p as bs, (s.st p).task = task ∧ W = as ++ p :: bs ∧
      Placed s' (as ++ bs) ∧ Woken s s' me p fl ∧
      runnable s' = Function.update (runnable s) 0 (p ::ₘ runnable s 0) := by
  rcases mtsUnblock_cases hp.places hcare hret with hsame | ⟨p, s₁, hmem, htask, hunlink, hsame⟩
  · exact .inl hsame
  obtain ⟨as, bs, rfl⟩ := List.append_of_mem hmem
  obtain ⟨hmove, hwoken⟩ := wake_moves hp.places hunlink hcare.room hcare.lowest fl
  have hactive : ∀ c, ((scheduleTask s₁ me p true fl).1.rq c).active = (s.rq c).active := by
    intro c
    rw [scheduleTask_active, hunlink.rq]
    rfl
  generalize (scheduleTask s₁ me p true fl).1 = s₂ at *
  have hnot : ∀ c a, (s.rq c).active = some a → a ≠ p := by
    rintro c a ha rfl
    have hcpu := (hp.active c a ha).cpu.symm.trans (hp.places.waiting a hmem).2.1
    exact hcare.switched a (hcpu ▸ ha) htask
  have hkept : ∀ c, runnable s₂ c = Function.update (runnable s) 0 (p ::ₘ runnable s 0) c := by
    intro c
    have hrunning : runningAt s₂ c = runningAt s c :=
      runningAt_congr (hactive c) fun a ha => by rw [hmove.st a (hnot c a ha)]
    rw [runnable, hrunning, hwoken.ready]
    by_cases hc : c = 0
    · subst hc
      rw [Function.update_self, Function.update_self, runnable, Multiset.cons_add]
    · rw [Function.update_of_ne hc, Function.update_of_ne hc, runnable]
  have hplaced : Placed s₂ (as ++ bs) := by
    refine .of_places (hp.places.move hmove) hkept fun c a ha => ?_
    rw [hactive] at ha
    exact hmove.activeOk (hnot c a ha) (hp.active c a ha)
  obtain ⟨hplaced', hkept'⟩ := hsame.placed hplaced
  exact .inr ⟨p, as, bs, htask, rfl, hplaced', hsame.woken hwoken, hkept'.trans (funext hkept)⟩

/-! ## `mts_unschedule` -/

/-- What `mts_unschedule` needs: an entry of the task runs and was never on a wait list. -/
def CarefulUnschedule (s : Mts) (task : Nat) : Prop :=
  ∀ p, s.live p = true → (s.st p).task = task → Unlinked s p ∧ (s.st p).state.runs = true

/-- The active entry `p` of `c` is about to be freed. -/
def Mts.leave (s : Mts) (c p : Nat) : Mts :=
  (s.setSt p { s.st p with state := .plain .unscheduled }).setRq c
    { s.rq c with ntasks := (s.rq c).ntasks - 1 }

theorem leave_moves {c p : Nat} {rest : Multiset Nat} (hp : Places s run W)
    (hrun : run c = p ::ₘ rest) (hlinked : Unlinked s p) :
    MovesEntry s (s.leave c p) run (Function.update run c rest) W W p := by
  have hmem : p ∈ run c := by
    rw [hrun]
    exact Multiset.mem_cons_self p rest
  obtain ⟨hlive, -⟩ := hp.home c p hmem
  constructor
  case owned => exact hlive
  case live => rfl
  case cpu => rfl
  case ncpu => rfl
  case st =>
    intro k hk
    exact Function.update_of_ne hk ..
  case task => simp [Mts.leave]
  case sound =>
    have hsound := hp.sound p hlive
    simp only [Mts.leave, Mts.setRq_st, Mts.setSt_st, Function.update_self]
    exact ⟨hsound.nice, hsound.timeslice, hsound.above, hsound.below⟩
  case queue =>
    intro c'
    by_cases hc : c' = c
    · subst hc
      simpa [Mts.leave] using hp.queue c'
    · simpa [Mts.leave, hc] using hp.queue c'
  case lowest =>
    intro c'
    by_cases hc : c' = c
    · subst hc
      simpa [Mts.leave] using hp.lowest c'
    · simpa [Mts.leave, hc] using hp.lowest c'
  case ring => exact hp.ring
  case rings => exact hp.rings
  case links => exact fun _ _ _ => rfl
  case nodup => exact nodup_update_rest hp.nodup hrun
  case run => exact fun c' k hk => mem_update_rest hrun hk
  case wait => exact fun _ _ => Iff.rfl
  case home => exact fun c' hpc => absurd hpc (hp.not_mem_rest hrun c')
  case waiting => exact fun hw => absurd hw (hp.runs_not_blocked hmem).1
  case leaving =>
    intro _
    exact ⟨by simp [Mts.leave], hlinked⟩

/-- The run queue of `c` without an entry that was ready. -/
def Mts.unqueue (s : Mts) (c : Nat) (pqueue : Bheap Nat) : Mts :=
  s.setRq c
    { s.rq c with
      pqueue := pqueue
      ntasks := (s.rq c).ntasks - 1
      nready := (s.rq c).nready - 1 }

@[simp] theorem Mts.unqueue_active (s : Mts) (c c' : Nat) (pqueue : Bheap Nat) :
    ((s.unqueue c pqueue).rq c').active = (s.rq c').active := by
  by_cases hc : c' = c
  · subst hc
    simp [Mts.unqueue]
  · simp [Mts.unqueue, hc]

@[simp] theorem Mts.unqueue_lowest (s : Mts) (c c' : Nat) (pqueue : Bheap Nat) :
    ((s.unqueue c pqueue).rq c').lowest = (s.rq c').lowest := by
  by_cases hc : c' = c
  · subst hc
    simp [Mts.unqueue]
  · simp [Mts.unqueue, hc]

theorem Mts.unqueue_pqueue (s : Mts) (c c' : Nat) (pqueue : Bheap Nat) :
    ((s.unqueue c pqueue).rq c').pqueue = if c' = c then pqueue else (s.rq c').pqueue := by
  by_cases hc : c' = c
  · subst hc
    simp [Mts.unqueue]
  · simp [Mts.unqueue, hc]

/-- `mts_unschedule` of the active task. -/
theorem mtsUnschedule_active {task a : Nat} (hactive : (s.rq (s.cpu task)).active = some a)
    (htask : (s.st a).task = task) :
    mtsUnschedule s task = some (.switch, s.leave (s.cpu task) a) := by
  unfold mtsUnschedule
  simp only [hactive, reduceCtorEq, false_and, if_false]
  rw [if_pos htask]
  simp [Mts.leave, hactive]

/-- `mts_unschedule` of a task that is ready. -/
theorem mtsUnschedule_ready {task a p : Nat} {pqueue : Bheap Nat}
    (hactive : (s.rq (s.cpu task)).active = some a) (hother : (s.st a).task ≠ task)
    (hfound : bhRemovePld (s.rq (s.cpu task)).pqueue (some task) (some (cmpPld s)) = (.ok p, pqueue)) :
    ∃ s₁ s', mtsUnschedule s task = some (.ok, s') ∧
      SameButLocks (s.unqueue (s.cpu task) pqueue) s₁ ∧ SameButLocks (s₁.freeEntry p) s' := by
  have hsame := SameButLocks.acquire s (.rq (s.cpu task))
  unfold mtsUnschedule
  simp only [hactive, hother, cmpPld_spinAcquire, hfound, reduceCtorEq, false_and, if_false]
  refine ⟨_, _, rfl, ?_, .release _ _⟩
  refine ⟨hsame.ncpu, ?_, hsame.st, hsame.live, hsame.links, hsame.cpu⟩
  simp [Mts.unqueue, hsame.rq, hactive]

/-- The three ways in which `mts_unschedule` returns. -/
theorem mtsUnschedule_cases {task : Nat} {r : Status} (hp : Places s run W)
    (hret : mtsUnschedule s task = some (r, s')) :
    (s.rq (s.cpu task)).active = none ∧ (s.rq (s.cpu task)).iactive = false ∧ s' = s ∨
      (∃ a, (s.rq (s.cpu task)).active = some a ∧ (s.st a).task = task ∧
        s' = s.leave (s.cpu task) a) ∨
      ∃ a p pqueue s₁, (s.rq (s.cpu task)).active = some a ∧ (s.st a).task ≠ task ∧
        TakenFrom s (s.cpu task) task p pqueue ∧
        SameButLocks (s.unqueue (s.cpu task) pqueue) s₁ ∧ SameButLocks (s₁.freeEntry p) s' := by
  by_cases hidle : (s.rq (s.cpu task)).active = none ∧ (s.rq (s.cpu task)).iactive = false
  · rw [mtsUnschedule, if_pos hidle] at hret
    obtain ⟨-, rfl⟩ := Prod.mk.inj (Option.some.inj hret)
    exact .inl ⟨hidle.1, hidle.2, rfl⟩
  cases hactive : (s.rq (s.cpu task)).active with
  | none =>
      rw [mtsUnschedule, if_neg hidle] at hret
      simp [hactive] at hret
  | some a =>
      by_cases htask : (s.st a).task = task
      · rw [mtsUnschedule_active hactive htask] at hret
        obtain ⟨-, rfl⟩ := Prod.mk.inj (Option.some.inj hret)
        exact .inr (.inl ⟨a, rfl, htask, rfl⟩)
      generalize hremove : bhRemovePld (s.rq (s.cpu task)).pqueue (some task) (some (cmpPld s)) = taken
      obtain ⟨found, pqueue⟩ := taken
      cases found with
      | error e =>
          unfold mtsUnschedule at hret
          simp [hactive, htask, cmpPld_spinAcquire, hremove] at hret
      | ok p =>
          obtain ⟨s₁, s₂, hready, hsame, hfree⟩ := mtsUnschedule_ready hactive htask hremove
          obtain ⟨-, rfl⟩ := Prod.mk.inj (Option.some.inj (hready.symm.trans hret))
          have hfound := ((hp.queue (s.cpu task)).removePld hremove).1
          refine .inr (.inr ⟨a, p, pqueue, s₁, rfl, htask,
            ⟨by simpa [cmpPld, eq_comm] using hfound, .inr ⟨fun b hb => ?_, hremove⟩⟩, hsame, hfree⟩)
          obtain rfl := Option.some.inj (hactive.symm.trans hb)
          exact htask

/-- Entry `p` of the task, which was runnable on processor `c`, has left it. -/
structure Unscheduled (s s' : Mts) (W : List Nat) (c task p : Nat) : Prop where
  owner : (s.st p).task = task
  placed : Placed s' W
  run : ∃ rest, runnable s c = p ::ₘ rest ∧ runnable s' = Function.update (runnable s) c rest

theorem SameButLocks.unscheduled {s'' : Mts} {c task p : Nat} (h : SameButLocks s' s'')
    (hs : Unscheduled s s' W c task p) : Unscheduled s s'' W c task p := by
  obtain ⟨hplaced, hkept⟩ := h.placed hs.placed
  obtain ⟨rest, hrun, hrest⟩ := hs.run
  exact ⟨hs.owner, hplaced, rest, hrun, hkept.trans hrest⟩

/-- The task is active and stays so until it is freed. -/
theorem leave_unscheduled {c task a : Nat} (hp : Placed s W)
    (hactive : (s.rq c).active = some a) (htask : (s.st a).task = task)
    (hlinked : Unlinked s a) (hruns : (s.st a).state.runs = true) :
    Unscheduled s (s.leave c a) W c task a := by
  have hrun : runnable s c = a ::ₘ readyAt s c := by
    rw [runnable, runningAt_of_runs hactive hruns, add_comm, Multiset.singleton_add]
  have hmove := leave_moves hp.places hrun hlinked
  have hstays : ∀ c', ((s.leave c a).rq c').active = (s.rq c').active := by
    intro c'
    by_cases hc : c' = c
    · subst hc
      simp [Mts.leave]
    · simp [Mts.leave, hc]
  have hstate : ((s.leave c a).st a).state = .plain .unscheduled := by simp [Mts.leave]
  have hother : ∀ c' b, c' ≠ c → (s.rq c').active = some b → b ≠ a := by
    rintro c' b hc hb rfl
    exact hc ((hp.active c' b hb).cpu.symm.trans (hp.active c b hactive).cpu)
  have hkept : ∀ c', runnable (s.leave c a) c' = Function.update (runnable s) c (readyAt s c) c' := by
    intro c'
    by_cases hc : c' = c
    · subst hc
      rw [Function.update_self, runnable,
        runningAt_of_not_runs ((hstays c').trans hactive) (by rw [hstate]; rfl), add_zero]
      simp [readyAt, Mts.leave]
    · rw [Function.update_of_ne hc]
      refine runnable_congr (Function.update_of_ne hc ..) fun b hb => ?_
      rw [hmove.st b (hother c' b hc hb)]
  refine ⟨htask, .of_places (hp.places.move hmove) hkept fun c' b hb => ?_,
    readyAt s c, hrun, funext hkept⟩
  rw [hstays] at hb
  by_cases hba : b = a
  · subst hba
    obtain ⟨hlive, hcpu, -⟩ := hp.active c' b hb
    refine ⟨hlive, (hmove.cpu_eq b).trans hcpu, fun hvalue => ?_, fun hready => ?_⟩
    · rw [hstate] at hvalue
      exact absurd hvalue (by decide)
    · rw [hstate] at hready
      exact absurd hready (by decide)
  · exact hmove.activeOk hba (hp.active c' b hb)

/-- Taking an entry out of a heap moves no entry while it is allocated. -/
theorem Places.unqueue {c : Nat} {pqueue : Bheap Nat} {s₁ : Mts} (hp : Places s run W)
    (hqueue : QueueOk pqueue) (hsame : SameButLocks (s.unqueue c pqueue) s₁) :
    Places s₁ run W := by
  refine hp.touch ⟨hsame.live, hsame.links, fun _ _ => by rw [hsame.cpu]; rfl, hsame.ncpu,
    fun k => by rw [hsame.st]; rfl, fun k => .inl (by rw [hsame.st]; rfl), ?_, ?_, ?_⟩
  · rw [hsame.st]
    exact hp.sound
  · intro c'
    rw [hsame.rq, Mts.unqueue_pqueue]
    split
    · exact hqueue
    · exact hp.queue c'
  · intro c'
    rw [hsame.rq, Mts.unqueue_lowest]
    exact hp.lowest c'

/-- An entry that is freed leaves the runnable ones of its processor. -/
theorem Places.free_runnable {c p : Nat} {rest : Multiset Nat} (hp : Places s run W)
    (hlinked : Unlinked s p) (hrun : run c = p ::ₘ rest) :
    Places (s.freeEntry p) (Function.update run c rest) W := by
  have hmem : p ∈ run c := hrun ▸ Multiset.mem_cons_self p rest
  refine hp.free hlinked (hp.runs_not_blocked hmem).1 (nodup_update_rest hp.nodup hrun) fun c' k => ?_
  by_cases hk : k = p
  · subst hk
    exact iff_of_false (hp.not_mem_rest hrun c') fun hand => hand.2 rfl
  · rw [mem_update_rest hrun hk, and_iff_left hk]

/-- The task is ready and its entry is freed. -/
theorem free_unscheduled {c task a p : Nat} {pqueue : Bheap Nat} {s₁ : Mts} (hp : Placed s W)
    (hactive : (s.rq c).active = some a) (htask : (s.st a).task ≠ task)
    (htaken : TakenFrom s c task p pqueue)
    (hsame : SameButLocks (s.unqueue c pqueue) s₁) (hlinked : Unlinked s p) :
    Unscheduled s (s₁.freeEntry p) W c task p := by
  have howner := htaken.1
  obtain ⟨hqueue, rest, hrun, hcases⟩ := htaken.runnable hp fun b hb hbt =>
    absurd (Option.some.inj (hactive.symm.trans hb) ▸ hbt) htask
  have hmem : p ∈ runnable s c := hrun ▸ Multiset.mem_cons_self p rest
  obtain ⟨hlive, hcpu, -⟩ := hp.places.home c p hmem
  have hactive₁ : ∀ c', (s₁.rq c').active = (s.rq c').active := by
    intro c'
    rw [hsame.rq, Mts.unqueue_active]
  have hother : ∀ c' b, (s.rq c').active = some b → b ≠ p := by
    rintro c' b hb rfl
    obtain rfl : c' = c := (hp.active c' b hb).cpu.symm.trans hcpu
    exact htask (Option.some.inj (hactive.symm.trans hb) ▸ howner)
  have hfree : Places (s₁.freeEntry p) (Function.update (runnable s) c rest) W := by
    refine (hp.places.unqueue hqueue hsame).free_runnable ?_ hrun
    unfold Unlinked
    rw [hsame.links]
    exact hlinked
  obtain ⟨-, hrq', hst', hlive', -, hcpu'⟩ := freeEntry_fields s₁ p
  have hst : (s₁.freeEntry p).st = s.st := hst'.trans hsame.st
  have hrunning : ∀ c', runningAt (s₁.freeEntry p) c' = runningAt s c' := fun c' =>
    runningAt_congr (by rw [hrq', hactive₁]) fun b _ => by rw [hst]
  have hkept : ∀ c', runnable (s₁.freeEntry p) c' = Function.update (runnable s) c rest c' := by
    intro c'
    rw [runnable, hrunning, readyAt, hrq', hsame.rq, Mts.unqueue_pqueue]
    by_cases hc : c' = c
    · subst hc
      rcases hcases with ⟨hself, -⟩ | ⟨-, rfl, -⟩
      · exact absurd rfl (hother c' p hself)
      · rw [if_pos rfl, Function.update_self]
    · rw [if_neg hc, Function.update_of_ne hc, runnable, readyAt]
  refine ⟨howner, .of_places hfree hkept fun c' b hb => ?_, rest, hrun, funext hkept⟩
  rw [hrq', hactive₁] at hb
  obtain ⟨hblive, hbcpu, hparked, hfresh⟩ := hp.active c' b hb
  refine ⟨?_, ?_, by rwa [hst], by rwa [hst]⟩
  · rw [hlive', Function.update_of_ne (hother c' b hb), hsame.live]
    exact hblive
  · rw [hcpu', hst, hsame.cpu]
    exact hbcpu

/-- A careful `mts_unschedule` changes nothing, or takes an entry of the task from its processor. -/
theorem mtsUnschedule_spec {task : Nat} {r : Status} (hp : Placed s W)
    (hcare : CarefulUnschedule s task) (hret : mtsUnschedule s task = some (r, s')) :
    (s.rq (s.cpu task)).active = none ∧ (s.rq (s.cpu task)).iactive = false ∧ s' = s ∨
      ∃ p, Unscheduled s s' W (s.cpu task) task p := by
  rcases mtsUnschedule_cases hp.places hret with
    hidle | ⟨a, hactive, htask, rfl⟩ | ⟨a, p, pqueue, s₁, hactive, htask, htaken, hsame, hout⟩
  · exact .inl hidle
  · obtain ⟨hlinked, hruns⟩ := hcare a (hp.active _ a hactive).live htask
    exact .inr ⟨a, leave_unscheduled hp hactive htask hlinked hruns⟩
  · refine .inr ⟨p, hout.unscheduled (free_unscheduled hp hactive htask htaken hsame ?_)⟩
    obtain ⟨-, rest, hrun, -⟩ := htaken.runnable hp fun b hb hbt =>
      absurd (Option.some.inj (hactive.symm.trans hb) ▸ hbt) htask
    have hmem : p ∈ runnable s (s.cpu task) := hrun ▸ Multiset.mem_cons_self p rest
    exact (hcare p (hp.places.home _ p hmem).1 htaken.1).1

/-! ## The start -/

theorem bhInit_queueOk (garbage : Nat → Elem Nat) : QueueOk (bhInit 256 garbage) := by
  have hpairs : (bhInit 256 garbage).pairs = 0 := by
    unfold Bheap.pairs
    exact BinaryHeap.contents_zero _
  refine ⟨⟨fun k _ hk => ?_, rfl, rfl, ?_, ?_⟩, ?_⟩
  · exact absurd hk (Nat.not_lt_zero k)
  · simp [hpairs]
  · simp [hpairs]
  · simp [hpairs]

theorem readyAt_mtsStart (ncpu : Nat) (idle : Nat → Nat) (garbage : Nat → Elem Nat)
    (st : Nat → SchedTask) (cpu : Nat → Nat) (c : Nat) :
    readyAt (mtsStart ncpu idle garbage st cpu) c = 0 := by
  have hcard := card_payloads (bhInit 256 garbage)
  exact Multiset.card_eq_zero.mp hcard

/-- Nothing is scheduled at the start. -/
theorem mtsStart_placed (ncpu : Nat) (idle : Nat → Nat) (garbage : Nat → Elem Nat)
    (st : Nat → SchedTask) (cpu : Nat → Nat) : Placed (mtsStart ncpu idle garbage st cpu) [] := by
  have hnone : ∀ c, runnable (mtsStart ncpu idle garbage st cpu) c = 0 := by
    intro c
    rw [runnable, readyAt_mtsStart, runningAt_of_none rfl, add_zero]
  have hring : ∀ c, ListRing (mtsStart ncpu idle garbage st cpu).links (.waitList c) [] := fun c =>
    ⟨List.nodup_singleton _, List.isChain_pair.mpr ⟨rfl, rfl⟩⟩
  refine ⟨⟨fun _ => bhInit_queueOk garbage, fun _ => le_refl intMax, hring 0, fun c _ => hring c,
    ?_, ?_, ?_, ?_, ?_, ?_, ?_⟩, ?_⟩
  · simp [hnone]
  · simp [hnone]
  · simp
  · simp [mtsStart]
  · simp [mtsStart]
  · simp [mtsStart]
  · simp [mtsStart]
  · simp [mtsStart]

/-- The first call on a fresh processor is careful. -/
theorem oneCpu_careful : CarefulSchedule oneCpu 1 (some 4096) := by
  exact ⟨fun p _ => rfl, fun q hq => absurd hq (by simp [oneCpu, mtsStart])⟩

theorem oneReady_careful : CarefulGetNext oneReady 0 calm := by
  have hnone : (oneReady.rq 0).active = none := rfl
  refine ⟨?_, ?_, ?_, ?_⟩
  · show intMin + 1 < 9
    decide
  · simp [hnone]
  · simp [hnone]
  · simp [hnone]

end Sched
end Micael
