import Micael.Foundation.Run
import Micael.Sched.Threads

/-!
# The rings of threads over a run

The calls that make threads, link them into the rings of tasks and return them to `thread_cache`, in any order.  An
entry that is returned keeps its bytes, and so its links.

`sched_free_threads` returns all threads of a task but one and sets the count, but it leaves the links of the one
that stays: they still point to threads in the cache.

A run keeps account of the tasks and threads that are in use and of the task that a thread was given to.  The
callers give a thread to a task once, and the caches return entries that are not in use.

Main results:

- Theorem {lit}`schedFreeThreads_spec`: every thread of a ring but the first one is returned, each once.
- Theorem {lit}`RingsInv.grow`: threads that come into a ring keep all rings.
- Theorem {lit}`thread_rings_iff`: the rings are right in a run exactly if no task with several threads frees them
  and no thread of a ring is destroyed.
-/

namespace Micael
namespace Sched

open Foundation Lib

/-! ## Creation and destruction -/

/-- The stores of `sched_thread_create` to the new state: `rip`, `eflags`, `ss`, `cs` and `rsp`. -/
def initExecState (mem : Memory) (execState func : Nat) : Memory :=
  let mem := mem.fill execState execStateSize 0
  let mem := mem.store (execState + 136) 8 func
  let mem := mem.store (execState + 152) 8 (2 ^ 9)
  let mem := mem.store (execState + 168) 8 0x10
  let mem := mem.store (execState + 144) 8 0x08
  mem.store (execState + 160) 8 (execState + 4)

/-- `sched_thread_create`, which gets the entry at `c` and a page. -/
def schedThreadCreate (s : ThreadMem) (c page func : Nat) : ThreadMem where
  links := listInit s.links c
  thread := Function.update s.thread c (newThread page)
  task := s.task
  mem := initExecState s.mem (newThread page).execState func

/-- `sched_thread_destroy` of a thread that is not null. -/
def schedThreadDestroy (s : ThreadMem) (t : Nat) : ThreadMem where
  links := Function.update (listRemove s.links t) t ⟨none, none⟩
  thread := Function.update s.thread t ⟨.ready, 0, 0, 0⟩
  task := s.task
  mem := s.mem.fill (s.thread t).kstackTop kstackSize 0

/-- The loop of `sched_free_threads` with a number of turns to go: what it returns to the cache. -/
def freeLoop (l : Links Nat) : Nat → Option Nat → Except Halt (List Nat)
  | 0, _ => .ok []
  | turns + 1, some iter => (freeLoop l turns (l iter).next).map (iter :: ·)
  | _ + 1, none => .error .fault

/-- The turns of the loop.  The count goes down to one, from zero by way of the largest `size_t`. -/
def freeTurns (nthreads : Nat) : Nat := if nthreads = 0 then 2 ^ 64 - 1 else nthreads - 1

/-- `sched_free_threads`, with the threads that are returned to the cache. -/
def schedFreeThreads (s : ThreadMem) (k : Nat) : Except Halt (ThreadMem × List Nat) :=
  let t := s.task k
  if t.nthreads = 1 then .ok (s, [])
  else
    match t.threads with
    | none => .error .fault
    | some first =>
        (freeLoop s.links (freeTurns t.nthreads) (s.links first).next).map fun freed =>
          (s.setTask k { t with nthreads := 1 }, freed)

/-- The part of `sched_task_destroy` that concerns the threads, with the thread that is returned. -/
def schedTaskDestroy (s : ThreadMem) (k : Nat) : Except Halt (ThreadMem × List Nat) :=
  if (s.task k).nthreads = 1 then
    match (s.task k).threads with
    | none => .ok (s, [])
    | some t => .ok (schedThreadDestroy s t, [t])
  else .error .kassert

/-! ## Runs -/

/-- The threads and tasks; the entries that are in use, and the task that each thread was given to. -/
structure RingState where
  sys : ThreadMem
  tasks : Finset Nat
  live : Finset Nat
  owner : Nat → Option Nat

/-- A call, with the entries and pages that it gets from the allocators. -/
inductive ThreadCall where
  | createTask (k : Nat)
  | createThread (c page func : Nat)
  | add (k c : Nat)
  | fork (parent child : Nat) (allocs : List (Nat × Nat))
  | destroy (c : Nat)
  | free (k : Nat)
  | destroyTask (k : Nat)

/-- Threads are given to a task. -/
def RingState.give (s : RingState) (sys : ThreadMem) (k : Nat) (new : List Nat) : RingState :=
  { s with sys := sys, live := s.live ∪ new.toFinset, owner := fun u => if u ∈ new then some k else s.owner u }

/-- Threads go back to the cache. -/
def RingState.drop (s : RingState) (sys : ThreadMem) (freed : List Nat) : RingState :=
  { s with sys := sys, live := s.live \ freed.toFinset, owner := fun u => if u ∈ freed then none else s.owner u }

/-- A task that is created. -/
def RingState.addTask (s : RingState) (k : Nat) : RingState :=
  { s with sys := s.sys.setTask k ⟨0, none⟩, tasks := insert k s.tasks }

/-- A thread that is created. -/
def RingState.addThread (s : RingState) (c page func : Nat) : RingState :=
  { s with sys := schedThreadCreate s.sys c page func, live := insert c s.live }

/-- The state after a call, and the threads that the call returns to the cache. -/
def runCall (s : RingState) : ThreadCall → Except Halt (RingState × List Nat)
  | .createTask k => .ok (s.addTask k, [])
  | .createThread c page func => .ok (s.addThread c page func, [])
  | .add k c => (schedTaskAddThread s.sys k c).map fun sys => (s.give sys k [c], [])
  | .fork parent child allocs =>
      (forkThreads s.sys parent child allocs).map fun sys =>
        ((s.addTask child).give sys child (allocs.map Prod.fst), [])
  | .destroy c => .ok (s.drop (schedThreadDestroy s.sys c) [c], [c])
  | .free k => (schedFreeThreads s.sys k).map fun r => (s.drop r.1 r.2, r.2)
  | .destroyTask k =>
      (schedTaskDestroy s.sys k).map fun r => ({ s.drop r.1 r.2 with tasks := s.tasks.erase k }, r.2)

/-- What the callers and the allocators keep to. -/
def Allowed (s : RingState) : ThreadCall → Prop
  | .createTask k => k ∉ s.tasks
  | .createThread c _ _ => c ∉ s.live
  | .add k c => k ∈ s.tasks ∧ c ∈ s.live ∧ s.owner c = none
  | .fork parent child allocs =>
      parent ∈ s.tasks ∧ child ∉ s.tasks ∧ allocs.length = (s.sys.task parent).nthreads ∧
        (allocs.map Prod.fst).Nodup ∧ ∀ c ∈ allocs.map Prod.fst, c ∉ s.live
  | .destroy c => c ∈ s.live
  | .free k => k ∈ s.tasks
  | .destroyTask k => k ∈ s.tasks ∧ (s.sys.task k).nthreads = 1

/-- One call; one that does not return leaves the state. -/
def ThreadStep (s : RingState) (call : ThreadCall) (s' : RingState) : Prop :=
  Allowed s call ∧
    s' = match runCall s call with
      | .ok (t, _) => t
      | .error _ => s

/-- Every task has a ring of `nthreads` threads, and all of them are in use. -/
def RingsOk (s : RingState) : Prop :=
  ∀ k ∈ s.tasks, ∃ ts, (s.sys.task k).Holds s.sys.links ts ∧ ∀ c ∈ ts, c ∈ s.live

/-- The call returns and leaves right rings, and `sched_free_threads` returns all threads of the ring but the first
one to the cache, each once. -/
def ThreadsRight (s : RingState) (call : ThreadCall) : Prop :=
  ∃ s' freed, runCall s call = .ok (s', freed) ∧ RingsOk s' ∧
    ∀ k, call = .free k →
      ∃ first rest, (s.sys.task k).Holds s.sys.links (first :: rest) ∧ freed.Perm rest

/-- Only a task with one thread frees its threads, and only a thread that was not given to a task is destroyed. -/
def FreesNone (s : RingState) : ThreadCall → Prop
  | .destroy c => s.owner c = none
  | .free k => (s.sys.task k).nthreads = 1
  | _ => True

/-- Before the first task and the first thread. -/
def noTasks (sys : ThreadMem) : RingState := ⟨sys, ∅, ∅, fun _ => none⟩

/-! ## What the calls return -/

variable {s s' : RingState} {rings : Nat → List Nat} {call : ThreadCall} {k c : Nat}

/-- The loop returns the threads from `iter` on, until it comes to `h`. -/
theorem freeLoop_spec {l : Links Nat} {xs : List Nat} {h : Nat} (hchain : l.Linked (xs ++ [h])) :
    freeLoop l xs.length (xs ++ [h]).head? = .ok xs := by
  induction xs with
  | nil => rfl
  | cons x xs ih =>
      have hnext : (l x).next = (xs ++ [h]).head? := by
        cases xs with
        | nil => exact (List.isChain_cons_cons.mp hchain).1.1
        | cons y ys => exact (List.isChain_cons_cons.mp hchain).1.1
      rw [List.length_cons, List.cons_append, List.head?_cons, freeLoop, hnext, ih hchain.tail]
      rfl

/-- `sched_free_threads` returns every thread of the ring but the first one, each once, and leaves the links. -/
theorem schedFreeThreads_spec {sys : ThreadMem} {first : Nat} {rest : List Nat}
    (hholds : (sys.task k).Holds sys.links (first :: rest)) :
    schedFreeThreads sys k = .ok (sys.setTask k ⟨1, some first⟩, rest) := by
  have hcount := hholds.nthreads
  have htask : sys.task k = ⟨rest.length + 1, some first⟩ := by
    rw [← hholds.threads, ← List.length_cons, ← hcount]
  cases rest with
  | nil =>
      have hsame : sys.setTask k ⟨1, some first⟩ = sys := by
        have hupdate : Function.update sys.task k ⟨1, some first⟩ = sys.task :=
          Function.update_eq_iff.mpr ⟨htask.symm, fun j _ => rfl⟩
        rw [ThreadMem.setTask, hupdate]
      have hone : (sys.task k).nthreads = 1 := hcount
      rw [schedFreeThreads, if_pos hone, hsame]
  | cons x xs =>
      have hnext : (sys.links first).next = (x :: xs ++ [first]).head? := hholds.ring.next_head
      have hchain : sys.links.Linked (x :: xs ++ [first]) := hholds.ring.linked.tail
      have hturns : freeTurns (sys.task k).nthreads = (x :: xs).length := by
        simp [freeTurns, hcount]
      rw [schedFreeThreads, if_neg (by simp [hcount]), hholds.threads]
      dsimp only
      rw [hturns, hnext, freeLoop_spec hchain]
      rfl

/-- A thread that points at itself can be destroyed without a change to the links of others. -/
theorem schedThreadDestroy_links {sys : ThreadMem} {u : Nat} (hself : ListRing sys.links c []) (hu : u ≠ c) :
    (schedThreadDestroy sys c).links u = sys.links u := by
  have hpair := List.isChain_pair.mp hself.linked
  have hunlinked : sys.links c = ⟨some c, some c⟩ := by
    change ListHead.mk (sys.links c).next (sys.links c).prev = _
    rw [hpair.1, hpair.2]
  rw [schedThreadDestroy, listRemove_unlinked hunlinked]
  exact Function.update_of_ne hu _ _

/-! ## The invariant -/

/-- The threads of each task are `rings`, they are in use and in no other ring, and a thread that was not given to
a task points at itself. -/
structure RingsInv (s : RingState) (rings : Nat → List Nat) : Prop where
  holds : ∀ k ∈ s.tasks, (s.sys.task k).Holds s.sys.links (rings k)
  owner : ∀ k c, c ∈ rings k ↔ s.owner c = some k
  tasks : ∀ k, k ∉ s.tasks → rings k = []
  live : ∀ k, ∀ c ∈ rings k, c ∈ s.live
  loose : ∀ c ∈ s.live, s.owner c = none → ListRing s.sys.links c []

theorem RingsInv.ok (h : RingsInv s rings) : RingsOk s :=
  fun k hk => ⟨rings k, h.holds k hk, h.live k⟩

/-- An entry that is not in use was given to nobody. -/
theorem RingsInv.fresh (h : RingsInv s rings) (hc : c ∉ s.live) : s.owner c = none := by
  cases howner : s.owner c with
  | none => rfl
  | some k => exact absurd (h.live k c ((h.owner k c).mpr howner)) hc

/-- A thread of a ring is not loose. -/
theorem RingsInv.owner_ne_none (h : RingsInv s rings) (hc : c ∈ rings k) : s.owner c ≠ none := by
  rw [(h.owner k c).mp hc]
  exact Option.some_ne_none k

/-- A thread is in one ring. -/
theorem RingsInv.apart {j : Nat} (h : RingsInv s rings) (hk : c ∈ rings k) (hj : c ∈ rings j) : j = k :=
  Option.some.inj (((h.owner j c).mp hj).symm.trans ((h.owner k c).mp hk))

theorem RingsInv.start (sys : ThreadMem) : RingsInv (noTasks sys) fun _ => [] := by
  constructor
  case holds => simp [noTasks]
  case owner => simp [noTasks]
  case tasks => simp
  case live => simp
  case loose => simp [noTasks]

/-- A new task has no threads. -/
theorem RingsInv.addTask (h : RingsInv s rings) (hk : k ∉ s.tasks) : RingsInv (s.addTask k) rings := by
  constructor
  case holds =>
    intro j hj
    by_cases heq : j = k
    · subst heq
      rw [h.tasks j hk]
      exact Function.update_self j _ _
    · have hold : (s.addTask k).sys.task j = s.sys.task j := Function.update_of_ne heq _ _
      rw [hold]
      exact h.holds j ((Finset.mem_insert.mp hj).resolve_left heq)
  case owner => exact h.owner
  case tasks => exact fun j hj => h.tasks j fun hmem => hj (Finset.mem_insert_of_mem hmem)
  case live => exact h.live
  case loose => exact h.loose

/-- A new thread points at itself. -/
theorem RingsInv.addThread (h : RingsInv s rings) (hc : c ∉ s.live) (page func : Nat) :
    RingsInv (s.addThread c page func) rings := by
  have hkept : ∀ u, u ≠ c → (s.addThread c page func).sys.links u = s.sys.links u :=
    fun u hu => listInit_other s.sys.links hu
  constructor
  case holds =>
    intro k hk
    refine (h.holds k hk).congr fun u hu => hkept u ?_
    exact fun heq => hc (heq ▸ h.live k u hu)
  case owner => exact h.owner
  case tasks => exact h.tasks
  case live => exact fun k u hu => Finset.mem_insert_of_mem (h.live k u hu)
  case loose =>
    intro u hu hnone
    by_cases heq : u = c
    · subst heq
      exact ListRing.init s.sys.links u
    · refine (h.loose u ((Finset.mem_insert.mp hu).resolve_left heq) hnone).congr fun v hv => hkept v ?_
      rwa [List.mem_singleton.mp hv]

/-- Threads that were given to nobody come into a ring. -/
theorem RingsInv.grow {sys : ThreadMem} {new : List Nat} (h : RingsInv s rings) (hk : k ∈ s.tasks)
    (hgrows : Grows s.sys sys k (rings k) new) (hnew : ∀ u ∈ new, s.owner u = none) :
    RingsInv (s.give sys k new) (Function.update rings k (rings k ++ new)) := by
  have hkept : ∀ j, j ≠ k → ∀ u ∈ rings j, sys.links u = s.sys.links u := by
    intro j hj u hu
    apply hgrows.links
    intro hmem
    rcases List.mem_append.mp hmem with hin | hin
    · exact hj (h.apart hin hu)
    · exact h.owner_ne_none hu (hnew u hin)
  constructor
  case holds =>
    intro j hj
    by_cases heq : j = k
    · subst heq
      rw [Function.update_self]
      exact hgrows.holds
    · rw [Function.update_of_ne heq]
      have hold : (s.give sys k new).sys.task j = s.sys.task j := hgrows.task j heq
      rw [hold]
      exact (h.holds j hj).congr (hkept j heq)
  case owner =>
    intro j u
    have howner := h.owner j u
    by_cases hu : u ∈ new
    · by_cases heq : j = k
      · subst heq
        simp [RingState.give, hu]
      · simp [RingState.give, hu, heq, howner, hnew u hu, Ne.symm heq]
    · by_cases heq : j = k
      · subst heq
        simp [RingState.give, hu, howner]
      · simp [RingState.give, hu, heq, howner]
  case tasks =>
    intro j hj
    have hne : j ≠ k := fun heq => hj (heq ▸ hk)
    rw [Function.update_of_ne hne]
    exact h.tasks j hj
  case live =>
    intro j u hu
    by_cases heq : j = k
    · subst heq
      rw [Function.update_self] at hu
      apply Finset.mem_union.mpr
      exact (List.mem_append.mp hu).imp (h.live j u) List.mem_toFinset.mpr
    · rw [Function.update_of_ne heq] at hu
      exact Finset.mem_union_left _ (h.live j u hu)
  case loose =>
    intro u hu hnone
    have hout : u ∉ new := by
      intro hmem
      simp [RingState.give, hmem] at hnone
    have hnone' : s.owner u = none := by simpa [RingState.give, hout] using hnone
    have hlive : u ∈ s.live := by simpa [RingState.give, hout] using hu
    refine (h.loose u hlive hnone').congr fun v hv => hgrows.links v ?_
    rw [List.mem_singleton.mp hv]
    intro hmem
    rcases List.mem_append.mp hmem with hin | hin
    · exact h.owner_ne_none hin hnone'
    · exact hout hin

/-- A thread that is added. -/
theorem RingsInv.add (h : RingsInv s rings) (hk : k ∈ s.tasks) (hc : c ∈ s.live) (hnone : s.owner c = none) :
    ∃ sys, schedTaskAddThread s.sys k c = .ok sys ∧
      RingsInv (s.give sys k [c]) (Function.update rings k (rings k ++ [c])) := by
  have hout : c ∉ rings k := fun hmem => h.owner_ne_none hmem hnone
  obtain ⟨sys, hadd, hgrows, -⟩ := schedTaskAddThread_spec (h.holds k hk) (h.loose c hc hnone) hout
  refine ⟨sys, hadd, h.grow hk hgrows ?_⟩
  simpa using hnone

theorem RingState.drop_live {sys : ThreadMem} {u : Nat} :
    u ∈ (s.drop sys [c]).live ↔ u ∈ s.live ∧ u ≠ c := by
  simp [RingState.drop]

theorem RingState.drop_owner {sys : ThreadMem} (u : Nat) :
    (s.drop sys [c]).owner u = if u = c then none else s.owner u := by
  simp [RingState.drop]

/-- The threads that were given to nobody stay alone when another one is returned. -/
theorem RingsInv.drop_loose {sys : ThreadMem} {u : Nat} (h : RingsInv s rings)
    (hkept : ∀ v, v ≠ c → sys.links v = s.sys.links v) (hu : u ∈ (s.drop sys [c]).live)
    (hnone : (s.drop sys [c]).owner u = none) : ListRing sys.links u [] := by
  obtain ⟨hlive, huc⟩ := RingState.drop_live.mp hu
  rw [RingState.drop_owner, if_neg huc] at hnone
  apply (h.loose u hlive hnone).congr
  intro v hv
  rw [List.mem_singleton.mp hv]
  exact hkept u huc

/-- A thread that was not given to a task is destroyed. -/
theorem RingsInv.destroy (h : RingsInv s rings) (hc : c ∈ s.live) (hnone : s.owner c = none) :
    RingsInv (s.drop (schedThreadDestroy s.sys c) [c]) rings := by
  have hkept : ∀ u, u ≠ c → (schedThreadDestroy s.sys c).links u = s.sys.links u :=
    fun u hu => schedThreadDestroy_links (h.loose c hc hnone) hu
  have hne : ∀ k, ∀ u ∈ rings k, u ≠ c := fun k u hu heq => h.owner_ne_none (heq ▸ hu) hnone
  constructor
  case holds => exact fun k hk => (h.holds k hk).congr fun u hu => hkept u (hne k u hu)
  case owner =>
    intro k u
    rw [h.owner k u, RingState.drop_owner]
    by_cases heq : u = c
    · rw [heq, if_pos rfl, hnone]
    · rw [if_neg heq]
  case tasks => exact h.tasks
  case live => exact fun k u hu => RingState.drop_live.mpr ⟨h.live k u hu, hne k u hu⟩
  case loose => exact fun u hu hnone' => h.drop_loose hkept hu hnone'

/-- A task with one thread is destroyed. -/
theorem RingsInv.destroyTask (h : RingsInv s rings) (hk : k ∈ s.tasks) (hring : rings k = [c]) :
    RingsInv { s.drop (schedThreadDestroy s.sys c) [c] with tasks := s.tasks.erase k }
      (Function.update rings k []) := by
  have hself : ListRing s.sys.links c [] := by
    have hholds := h.holds k hk
    rw [hring] at hholds
    exact hholds.ring
  have hkept : ∀ u, u ≠ c → (schedThreadDestroy s.sys c).links u = s.sys.links u :=
    fun u hu => schedThreadDestroy_links hself hu
  have hck : c ∈ rings k := by
    rw [hring]
    exact List.mem_singleton.mpr rfl
  have hne : ∀ j, j ≠ k → ∀ u ∈ rings j, u ≠ c := fun j hj u hu heq => hj (h.apart hck (heq ▸ hu))
  constructor
  case holds =>
    intro j hj
    obtain ⟨hjk, hj⟩ := Finset.mem_erase.mp hj
    rw [Function.update_of_ne hjk]
    exact (h.holds j hj).congr fun u hu => hkept u (hne j hjk u hu)
  case owner =>
    intro j u
    rw [RingState.drop_owner]
    by_cases hjk : j = k
    · subst hjk
      rw [Function.update_self]
      by_cases huc : u = c
      · simp [huc]
      · have hout : u ∉ rings j := by simpa [hring] using huc
        simpa [huc] using fun howner => hout ((h.owner j u).mpr howner)
    · rw [Function.update_of_ne hjk, h.owner j u]
      by_cases huc : u = c
      · have howner := (h.owner k c).mp hck
        simp [huc, howner, Ne.symm hjk]
      · rw [if_neg huc]
  case tasks =>
    intro j hj
    by_cases hjk : j = k
    · rw [hjk, Function.update_self]
    · rw [Function.update_of_ne hjk]
      exact h.tasks j fun hmem => hj (Finset.mem_erase.mpr ⟨hjk, hmem⟩)
  case live =>
    intro j u hu
    by_cases hjk : j = k
    · rw [hjk, Function.update_self] at hu
      cases hu
    · rw [Function.update_of_ne hjk] at hu
      have hdrop : u ∈ (s.drop (schedThreadDestroy s.sys c) [c]).live :=
        RingState.drop_live.mpr ⟨h.live j u hu, hne j hjk u hu⟩
      exact hdrop
  case loose => exact fun u hu hnone' => h.drop_loose hkept hu hnone'

/-! ## Single calls -/

theorem runCall_add {sys : ThreadMem} (hadd : schedTaskAddThread s.sys k c = .ok sys) :
    runCall s (.add k c) = .ok (s.give sys k [c], []) := by
  rw [runCall, hadd]
  rfl

/-- The ring of a task with one thread. -/
theorem RingsInv.one (h : RingsInv s rings) (hk : k ∈ s.tasks) (hone : (s.sys.task k).nthreads = 1) :
    ∃ c, rings k = [c] := by
  have hlength := (h.holds k hk).nthreads
  rw [hone] at hlength
  exact List.length_eq_one_iff.mp hlength.symm

/-- A call that meets the condition returns, and keeps the rings. -/
theorem RingsInv.runCall (h : RingsInv s rings) (hallowed : Allowed s call) (hgood : FreesNone s call) :
    ∃ s' freed rings', runCall s call = .ok (s', freed) ∧ RingsInv s' rings' ∧
      ∀ k, call = .free k → freed = [] := by
  cases call with
  | createTask k => exact ⟨_, _, rings, rfl, h.addTask hallowed, by simp⟩
  | createThread c page func => exact ⟨_, _, rings, rfl, h.addThread hallowed page func, by simp⟩
  | add k c =>
      obtain ⟨hk, hc, hnone⟩ := hallowed
      obtain ⟨sys, hadd, hinv⟩ := h.add hk hc hnone
      exact ⟨_, _, _, runCall_add hadd, hinv, by simp⟩
  | fork parent child allocs =>
      obtain ⟨hparent, hchild, hlength, hnodup, hfresh⟩ := hallowed
      have hnew := h.addTask hchild
      have hne : parent ≠ child := fun heq => hchild (heq ▸ hparent)
      have hother : ∀ u ∈ allocs.map Prod.fst, u ∉ rings parent :=
        fun u hu hmem => hfresh u hu (h.live parent u hmem)
      obtain ⟨sys, hfork, hgrows, -⟩ := forkThreads_spec (h.holds parent hparent) hne
        (hlength.trans (h.holds parent hparent).nthreads) hnodup hother
      rw [← h.tasks child hchild] at hgrows
      refine ⟨_, _, _, Halt.map_eq_ok.mpr ⟨sys, hfork, rfl⟩,
        hnew.grow (Finset.mem_insert_self child s.tasks) hgrows ?_, by simp⟩
      exact fun u hu => h.fresh (hfresh u hu)
  | destroy c => exact ⟨_, _, rings, rfl, h.destroy hallowed hgood, by simp⟩
  | free k =>
      have hone : (s.sys.task k).nthreads = 1 := hgood
      have hfree : schedFreeThreads s.sys k = .ok (s.sys, []) := by
        rw [schedFreeThreads, if_pos hone]
      have hdrop : s.drop s.sys [] = s := by simp [RingState.drop]
      refine ⟨s, [], rings, Halt.map_eq_ok.mpr ⟨_, hfree, ?_⟩, h, fun _ _ => rfl⟩
      rw [hdrop]
  | destroyTask k =>
      obtain ⟨hk, hone⟩ := hallowed
      obtain ⟨c, hring⟩ := h.one hk hone
      have hholds := h.holds k hk
      rw [hring] at hholds
      have hdestroy : schedTaskDestroy s.sys k = .ok (schedThreadDestroy s.sys c, [c]) := by
        rw [schedTaskDestroy, if_pos hone, hholds.threads]
      exact ⟨_, _, _, Halt.map_eq_ok.mpr ⟨_, hdestroy, rfl⟩, h.destroyTask hk hring, by simp⟩

/-- The rings are wrong after a thread of a ring is destroyed: the count is too large, or `t->threads` points to a
thread in the cache. -/
theorem RingsInv.destroy_wrong (h : RingsInv s rings) (hc : c ∈ rings k) :
    ¬ RingsOk (s.drop (schedThreadDestroy s.sys c) [c]) := by
  intro hok
  have hk : k ∈ s.tasks := by
    by_contra hout
    rw [h.tasks k hout] at hc
    cases hc
  obtain ⟨ts, hholds', hlive'⟩ := hok k hk
  have hholds' : (s.sys.task k).Holds (schedThreadDestroy s.sys c).links ts := hholds'
  have hholds := h.holds k hk
  have hlength : ts.length = (rings k).length := hholds'.nthreads.symm.trans hholds.nthreads
  have hout : c ∉ ts := fun hmem => (RingState.drop_live.mp (hlive' c hmem)).2 rfl
  cases hring : rings k with
  | nil =>
      rw [hring] at hc
      cases hc
  | cons first rest =>
      rw [hring] at hholds hlength hc
      cases ts with
      | nil => exact absurd hlength (Nat.succ_ne_zero _).symm
      | cons first' rest' =>
          obtain rfl := Option.some.inj (hholds.threads.symm.trans hholds'.threads)
          have hcrest : c ∈ rest := (List.mem_cons.mp hc).resolve_left fun heq => hout (heq ▸ List.mem_cons_self)
          obtain ⟨as, bs, rfl⟩ := List.append_of_mem hcrest
          -- the nodes that are left form a shorter ring
          have hshort : ListRing (schedThreadDestroy s.sys c).links first (as ++ bs) := by
            refine hholds.ring.remove.congr fun u hu => Function.update_of_ne ?_ _ _
            have hnodup := hholds.ring.nodup
            grind
          rw [hholds'.ring.unique hshort] at hlength
          simp at hlength

/-- The thread that stays is still linked to those that are returned. -/
theorem RingsInv.stale {first x : Nat} {rest : List Nat} (h : RingsInv s rings) (hk : k ∈ s.tasks)
    (hring : rings k = first :: x :: rest) :
    ¬ RingsOk (s.drop (s.sys.setTask k ⟨1, some first⟩) (x :: rest)) := by
  intro hok
  have hholds := h.holds k hk
  rw [hring] at hholds
  obtain ⟨ts, hone, -⟩ := hok k hk
  have hone : ((s.sys.setTask k ⟨1, some first⟩).task k).Holds s.sys.links ts := hone
  have htask : (s.sys.setTask k ⟨1, some first⟩).task k = ⟨1, some first⟩ := Function.update_self k _ _
  rw [htask] at hone
  obtain ⟨c, rfl⟩ := List.length_eq_one_iff.mp hone.nthreads.symm
  obtain rfl := Option.some.inj hone.threads
  cases hholds.ring.unique hone.ring

/-- The call of a task with no thread faults, and one with several leaves links to what it returned. -/
theorem RingsInv.free_wrong (h : RingsInv s rings) (hk : k ∈ s.tasks) (hmany : (s.sys.task k).nthreads ≠ 1) :
    ¬ ThreadsRight s (.free k) := by
  rintro ⟨s', freed, hcall, hok, -⟩
  obtain ⟨r, hfree, hr⟩ := Halt.map_eq_ok.mp hcall
  obtain ⟨rfl, rfl⟩ := Prod.mk.inj hr
  have hholds := h.holds k hk
  cases hring : rings k with
  | nil =>
      rw [hring] at hholds
      have hempty : s.sys.task k = ⟨0, none⟩ := hholds
      rw [schedFreeThreads, hempty] at hfree
      cases hfree
  | cons first rest =>
      rw [hring] at hholds
      rw [schedFreeThreads_spec hholds] at hfree
      obtain rfl := Except.ok.inj hfree
      cases rest with
      | nil => exact hmany hholds.nthreads
      | cons x rest => exact h.stale hk hring hok

/-- A call is right exactly if it meets the condition. -/
theorem RingsInv.right_iff (h : RingsInv s rings) (hallowed : Allowed s call) :
    ThreadsRight s call ↔ FreesNone s call := by
  constructor
  · intro hright
    cases call with
    | destroy c =>
        by_contra hgiven
        obtain ⟨k, hk⟩ := Option.ne_none_iff_exists'.mp hgiven
        obtain ⟨s', freed, hcall, hok, -⟩ := hright
        obtain ⟨rfl, rfl⟩ := Prod.mk.inj (Except.ok.inj hcall)
        exact h.destroy_wrong ((h.owner k c).mpr hk) hok
    | free k =>
        by_contra hmany
        exact h.free_wrong hallowed hmany hright
    | createTask k => trivial
    | createThread c page func => trivial
    | add k c => trivial
    | fork parent child allocs => trivial
    | destroyTask k => trivial
  · intro hgood
    obtain ⟨s', freed, rings', hcall, hinv, hfreed⟩ := h.runCall hallowed hgood
    refine ⟨s', freed, hcall, hinv.ok, ?_⟩
    rintro k rfl
    obtain ⟨c, hring⟩ := h.one hallowed hgood
    refine ⟨c, [], hring ▸ h.holds k hallowed, ?_⟩
    rw [hfreed k rfl]

/-- A step that meets the condition keeps the rings. -/
theorem RingsInv.step (h : ∃ rings, RingsInv s rings) (hstep : ThreadStep s call s')
    (hgood : FreesNone s call) : ∃ rings, RingsInv s' rings := by
  obtain ⟨rings, hinv⟩ := h
  obtain ⟨hallowed, rfl⟩ := hstep
  obtain ⟨t, freed, rings', hcall, hinv', -⟩ := hinv.runCall hallowed hgood
  rw [hcall]
  exact ⟨rings', hinv'⟩

/-! ## Runs -/

/-- In every run, the rings are right after every call exactly if no task with several threads frees them and no
thread of a ring is destroyed. -/
theorem thread_rings_iff (sys : ThreadMem) (calls : List ThreadCall) :
    (∀ pre call s s', pre ++ [call] <+: calls → Run ThreadStep (noTasks sys) pre s → ThreadStep s call s' →
        ThreadsRight s call) ↔
      ∀ pre call s s', pre ++ [call] <+: calls → Run ThreadStep (noTasks sys) pre s → ThreadStep s call s' →
        FreesNone s call := by
  have hkeep : ∀ s call s', (∃ rings, RingsInv s rings) → ThreadStep s call s' → FreesNone s call →
      ∃ rings, RingsInv s' rings :=
    fun _ _ _ => RingsInv.step
  have hiff : ∀ s call s', (∃ rings, RingsInv s rings) → ThreadStep s call s' →
      (ThreadsRight s call ↔ FreesNone s call) := by
    rintro s call s' ⟨rings, hinv⟩ ⟨hallowed, -⟩
    exact hinv.right_iff hallowed
  exact Run.steps_iff hkeep hiff ⟨_, RingsInv.start sys⟩ calls

/-- A call that returns is a step. -/
theorem ThreadStep.of_ok {freed : List Nat} (hallowed : Allowed s call) (hcall : runCall s call = .ok (s', freed)) :
    ThreadStep s call s' := by
  refine ⟨hallowed, ?_⟩
  rw [hcall]

/-- A task and two threads. -/
def twoThreads : RingState := (((noTasks pairTask).addTask 0).addThread 1 4096 0).addThread 2 8192 0

theorem twoThreads_run :
    Run ThreadStep (noTasks pairTask) [.createTask 0, .createThread 1 4096 0, .createThread 2 8192 0] twoThreads := by
  have hrun₁ : Run ThreadStep (noTasks pairTask) ([] ++ [.createTask 0]) ((noTasks pairTask).addTask 0) :=
    .snoc .nil (ThreadStep.of_ok (by simp [Allowed, noTasks]) rfl)
  have hrun₂ : Run ThreadStep (noTasks pairTask) ([.createTask 0] ++ [.createThread 1 4096 0])
      (((noTasks pairTask).addTask 0).addThread 1 4096 0) :=
    .snoc hrun₁ (ThreadStep.of_ok (by simp [Allowed, noTasks, RingState.addTask]) rfl)
  have hrun₃ : Run ThreadStep (noTasks pairTask)
      ([.createTask 0, .createThread 1 4096 0] ++ [.createThread 2 8192 0]) twoThreads :=
    .snoc hrun₂ (ThreadStep.of_ok (by simp [Allowed, noTasks, RingState.addTask, RingState.addThread]) rfl)
  exact hrun₃

theorem twoThreads_inv : RingsInv twoThreads fun _ => [] :=
  (((RingsInv.start pairTask).addTask (by simp [noTasks])).addThread
    (by simp [noTasks, RingState.addTask]) 4096 0).addThread
    (by simp [noTasks, RingState.addTask, RingState.addThread]) 8192 0

/-- A task with two threads frees them: the second one is returned to the cache, and the first one still points
to it. -/
theorem freed_thread_stays_linked :
    ∃ s s', Run ThreadStep (noTasks pairTask)
        [.createTask 0, .createThread 1 4096 0, .createThread 2 8192 0, .add 0 1, .add 0 2] s ∧
      Allowed s (.free 0) ∧ runCall s (.free 0) = .ok (s', [2]) ∧ ¬ RingsOk s' := by
  have hk : 0 ∈ twoThreads.tasks := by decide
  obtain ⟨sys₁, hadd₁, hinv₁⟩ := twoThreads_inv.add hk (by decide : 1 ∈ twoThreads.live) rfl
  have hlive : 2 ∈ (twoThreads.give sys₁ 0 [1]).live := Finset.mem_union_left _ (by decide)
  have hnone : (twoThreads.give sys₁ 0 [1]).owner 2 = none := rfl
  obtain ⟨sys₂, hadd₂, hinv₂⟩ := hinv₁.add hk hlive hnone
  have hholds : (sys₂.task 0).Holds sys₂.links [1, 2] := hinv₂.holds 0 hk
  have hrun₁ : Run ThreadStep (noTasks pairTask)
      ([.createTask 0, .createThread 1 4096 0, .createThread 2 8192 0] ++ [.add 0 1])
      (twoThreads.give sys₁ 0 [1]) :=
    .snoc twoThreads_run (ThreadStep.of_ok ⟨hk, by decide, rfl⟩ (runCall_add hadd₁))
  have hrun₂ : Run ThreadStep (noTasks pairTask)
      ([.createTask 0, .createThread 1 4096 0, .createThread 2 8192 0, .add 0 1] ++ [.add 0 2])
      ((twoThreads.give sys₁ 0 [1]).give sys₂ 0 [2]) :=
    .snoc hrun₁ (ThreadStep.of_ok ⟨hk, hlive, hnone⟩ (runCall_add hadd₂))
  refine ⟨_, _, hrun₂, hk, ?_, hinv₂.stale hk rfl⟩
  exact Halt.map_eq_ok.mpr ⟨_, schedFreeThreads_spec hholds, rfl⟩

end Sched
end Micael
