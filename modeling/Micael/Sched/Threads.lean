import Micael.Kernel.Machine
import Micael.Kernel.Util
import Micael.Lib.ListFamily
import Micael.Sync.Wait

/-!
# The threads of a task

The threads of a task are linked into a ring without a head of its own: `t->threads` points to one of them, and a
new thread comes last, before that one.  A fork walks the ring of the parent and gives every thread of it a copy
with a stack of its own.

A thread is named by the address of its structure, which stands for its list node as well.  The kernel stacks lie
in byte memory.  The lists of children, the contexts and the page directory of a fork are left to other models.

Main results:

- Theorem {lit}`schedTaskAddThread_spec`: a thread that is added comes last in the ring.
- Theorem {lit}`forkLoop_spec`: what the loop of a fork makes of the threads it comes by.
- Theorem {lit}`fork_copies_threads`: a fork copies every thread, in order, and leaves the parent.
-/

namespace Micael
namespace Sched

open Foundation Kernel Lib
open Sync (TaskState)

/-! ## Threads and tasks -/

/-- `KSTACK_SIZE`. -/
def kstackSize : Nat := 4096

/-- `sizeof(exec_state_t)`: 22 registers. -/
def execStateSize : Nat := 176

/-- `thread_t` but for its list node, with the fields that are set. -/
structure ThreadT where
  state : TaskState
  kstackTop : Nat
  kstackBottom : Nat
  execState : Nat
deriving DecidableEq, Repr

/-- `nthreads` and `threads` of `task_t`. -/
structure TaskT where
  nthreads : Nat
  threads : Option Nat
deriving DecidableEq, Repr

/-- The threads with their list nodes, the tasks, and the bytes of the kernel stacks. -/
structure ThreadMem where
  links : Links Nat
  thread : Nat → ThreadT
  task : Nat → TaskT
  mem : Memory

/-- A thread that has not been started, with its stack in a page. -/
def newThread (page : Nat) : ThreadT where
  state := .unstarted
  kstackTop := page
  kstackBottom := page + kstackSize
  execState := page + kstackSize - execStateSize

/-- A store to a task. -/
def ThreadMem.setTask (s : ThreadMem) (k : Nat) (t : TaskT) : ThreadMem :=
  { s with task := Function.update s.task k t }

/-- `sched_task_add_thread` before the count goes up. -/
def linkThread (s : ThreadMem) (parent child : Nat) : Except Halt ThreadMem :=
  if (s.task parent).nthreads = 0 then
    .ok (s.setTask parent { s.task parent with threads := some child })
  else
    match (s.task parent).threads with
    | none => .error .fault
    | some first =>
        match (s.links first).prev with
        | none => .error .fault
        | some last => .ok { s with links := listAppend s.links last child }

/-- `sched_task_add_thread`. -/
def schedTaskAddThread (s : ThreadMem) (parent child : Nat) : Except Halt ThreadMem :=
  (linkThread s parent child).map fun s =>
    s.setTask parent { s.task parent with nthreads := (s.task parent).nthreads + 1 }

/-! ## The loop of a fork -/

/-- `child_t`, the entry at `c` with its stack in a page, before it is added to the child. -/
def copyThread (s : ThreadMem) (parentT c page : Nat) : ThreadMem :=
  let s := { s with thread := Function.update s.thread c (newThread page), links := listInit s.links c }
  { s with mem := kmemcpy s.mem (s.thread c).execState s.mem (s.thread parentT).execState execStateSize }

/-- The loop of `sched_task_fork` with a number of turns to go.  The allocators return the entries and the pages
in the list, in order; null is not checked for. -/
def forkLoop (child : Nat) : Nat → Option Nat → List (Nat × Nat) → ThreadMem → Except Halt ThreadMem
  | 0, _, _, s => .ok s
  | turns + 1, some parentT, (c, page) :: allocs, s => do
      let s ← schedTaskAddThread (copyThread s parentT c page) child c
      forkLoop child turns (s.links parentT).next allocs s
  | _ + 1, _, _, _ => .error .fault

/-- The part of `sched_task_fork` that concerns the threads.  The entry of the child is zeroed, and the loop
leaves `parent->nthreads`. -/
def forkThreads (s : ThreadMem) (parent child : Nat) (allocs : List (Nat × Nat)) : Except Halt ThreadMem :=
  let s := s.setTask child ⟨0, none⟩
  forkLoop child (s.task parent).nthreads (s.task parent).threads allocs s

/-! ## Rings of threads -/

/-- The threads of a task are `ts`, from `t->threads` on, and `nthreads` counts them. -/
def TaskT.Holds (t : TaskT) (l : Links Nat) : List Nat → Prop
  | [] => t = ⟨0, none⟩
  | first :: rest => t.threads = some first ∧ t.nthreads = rest.length + 1 ∧ ListRing l first rest

/-- The task `k` with the threads `ts` gets the threads `new` too, and nothing else happens to the lists and
the tasks. -/
structure Grows (s s' : ThreadMem) (k : Nat) (ts new : List Nat) : Prop where
  holds : (s'.task k).Holds s'.links (ts ++ new)
  links : ∀ u, u ∉ ts ++ new → s'.links u = s.links u
  task : ∀ j, j ≠ k → s'.task j = s.task j

variable {s s' s'' : ThreadMem} {k c child : Nat} {ts new : List Nat}

theorem TaskT.Holds.nthreads {t : TaskT} {l : Links Nat} (h : t.Holds l ts) : t.nthreads = ts.length := by
  cases ts with
  | nil =>
      have hempty : t = ⟨0, none⟩ := h
      rw [hempty]
      rfl
  | cons first rest => exact h.2.1

theorem TaskT.Holds.threads {t : TaskT} {l : Links Nat} {first : Nat} (h : t.Holds l (first :: ts)) :
    t.threads = some first :=
  h.1

theorem TaskT.Holds.ring {t : TaskT} {l : Links Nat} {first : Nat} (h : t.Holds l (first :: ts)) :
    ListRing l first ts :=
  h.2.2

/-- The threads of a task depend on their own links only. -/
theorem TaskT.Holds.congr {t : TaskT} {l l' : Links Nat} (h : t.Holds l ts) (hsame : ∀ u ∈ ts, l' u = l u) :
    t.Holds l' ts := by
  cases ts with
  | nil => exact h
  | cons first rest => exact ⟨h.threads, h.nthreads, h.ring.congr hsame⟩

/-- The links tell which threads a task has. -/
theorem TaskT.Holds.unique {t : TaskT} {l : Links Nat} (h : t.Holds l ts) (h' : t.Holds l new) : ts = new := by
  have hlength : ts.length = new.length := h.nthreads.symm.trans h'.nthreads
  cases ts with
  | nil => exact (List.length_eq_zero_iff.mp hlength.symm).symm
  | cons first rest =>
      cases new with
      | nil => exact absurd hlength (Nat.succ_ne_zero _)
      | cons first' rest' =>
          obtain rfl := Option.some.inj (h.threads.symm.trans h'.threads)
          rw [h.ring.unique h'.ring]

theorem Grows.trans {new' : List Nat} (h : Grows s s' k ts new) (h' : Grows s' s'' k (ts ++ new) new') :
    Grows s s'' k ts (new ++ new') := by
  constructor
  case holds =>
    rw [← List.append_assoc]
    exact h'.holds
  case links =>
    intro u hu
    rw [h'.links u (by simpa using hu), h.links u (by grind)]
  case task =>
    intro j hj
    rw [h'.task j hj, h.task j hj]

/-- The first thread of a task. -/
theorem schedTaskAddThread_first (hzero : (s.task k).nthreads = 0) :
    schedTaskAddThread s k c = .ok (s.setTask k ⟨1, some c⟩) := by
  rw [schedTaskAddThread, linkThread, if_pos hzero]
  simp [Except.map, ThreadMem.setTask, hzero]

/-- A further thread of a task. -/
theorem schedTaskAddThread_next {first last : Nat} (hcount : (s.task k).nthreads ≠ 0)
    (hfirst : (s.task k).threads = some first) (hlast : (s.links first).prev = some last) :
    schedTaskAddThread s k c = .ok { s with
      links := listAppend s.links last c
      task := Function.update s.task k ⟨(s.task k).nthreads + 1, some first⟩ } := by
  rw [schedTaskAddThread, linkThread, if_neg hcount, hfirst]
  simp [Except.map, ThreadMem.setTask, hlast, hfirst]

/-- A thread that is added comes last in the ring. -/
theorem schedTaskAddThread_spec (hholds : (s.task k).Holds s.links ts) (hself : ListRing s.links c [])
    (hc : c ∉ ts) :
    ∃ s', schedTaskAddThread s k c = .ok s' ∧ Grows s s' k ts [c] ∧ s'.thread = s.thread ∧
      s'.mem = s.mem := by
  cases ts with
  | nil =>
      refine ⟨_, schedTaskAddThread_first hholds.nthreads, ?_, rfl, rfl⟩
      constructor
      case holds => simpa [TaskT.Holds, ThreadMem.setTask] using hself
      case links =>
        intro u hu
        rfl
      case task =>
        intro j hj
        exact Function.update_of_ne hj _ _
  | cons first rest =>
      have hcount : (s.task k).nthreads = rest.length + 1 := hholds.nthreads
      have hring := hholds.ring
      refine ⟨_, schedTaskAddThread_next (by omega) hholds.threads hring.prev_head, ?_, rfl, rfl⟩
      constructor
      case holds =>
        have happend := hring.append_last hc
        simpa [TaskT.Holds, hcount] using happend
      case links =>
        intro u hu
        exact hring.append_last_other hc hu
      case task =>
        intro j hj
        exact Function.update_of_ne hj _ _

/-! ## Copies -/

/-- The bytes of `t->exec_state`. -/
def ThreadMem.execBytes (s : ThreadMem) (t : Nat) : List UInt8 :=
  s.mem.bytes (s.thread t).execState execStateSize

/-- The pages of a fork share no byte with each other and with the states of the threads `ps`. -/
structure PagesApart (s : ThreadMem) (ps : List Nat) (allocs : List (Nat × Nat)) : Prop where
  pages : allocs.Pairwise fun a b => a.2 + kstackSize ≤ b.2 ∨ b.2 + kstackSize ≤ a.2
  states : ∀ a ∈ allocs, ∀ p ∈ ps,
    (s.thread p).execState + execStateSize ≤ a.2 ∨ a.2 + kstackSize ≤ (s.thread p).execState

/-- The entries are copies of the threads `ps`, with their stacks in the pages, and all other threads and bytes
are as they were. -/
structure Copies (s s' : ThreadMem) (ps : List Nat) (allocs : List (Nat × Nat)) : Prop where
  new : ∀ a ∈ allocs, s'.thread a.1 = newThread a.2
  state : PagesApart s ps allocs → List.Forall₂ (fun p a => s'.execBytes a.1 = s.execBytes p) ps allocs
  thread : ∀ u, u ∉ allocs.map Prod.fst → s'.thread u = s.thread u
  mem : ∀ x, (∀ a ∈ allocs, x < a.2 ∨ a.2 + kstackSize ≤ x) → s'.mem x = s.mem x

variable {page p h : Nat} {ps : List Nat} {allocs : List (Nat × Nat)}

/-- The state of a thread outside of the pages is kept. -/
theorem execBytes_eq {t : Nat} (hthread : s'.thread t = s.thread t)
    (hmem : ∀ x, (∀ a ∈ allocs, x < a.2 ∨ a.2 + kstackSize ≤ x) → s'.mem x = s.mem x)
    (hapart : ∀ a ∈ allocs,
      (s.thread t).execState + execStateSize ≤ a.2 ∨ a.2 + kstackSize ≤ (s.thread t).execState) :
    s'.execBytes t = s.execBytes t := by
  rw [ThreadMem.execBytes, ThreadMem.execBytes, hthread]
  apply Memory.bytes_eq_of_apply
  intro i hi
  apply hmem
  intro a ha
  have hregion := hapart a ha
  omega

/-- The stack of a new thread holds its state. -/
theorem newThread_execState (page : Nat) : (newThread page).execState = page + 3920 := by
  change page + kstackSize - execStateSize = page + 3920
  rw [kstackSize, execStateSize]
  omega

/-- The bytes after the copy. -/
theorem copyThread_mem (hp : p ≠ c) :
    (copyThread s p c page).mem =
      kmemcpy s.mem (newThread page).execState s.mem (s.thread p).execState execStateSize := by
  simp [copyThread, hp]

/-- One turn of the loop: the copy comes last in the ring of the child. -/
theorem forkTurn_spec (hholds : (s.task child).Holds s.links ts) (hc : c ∉ ts) (hp : p ≠ c) :
    ∃ s', schedTaskAddThread (copyThread s p c page) child c = .ok s' ∧ Grows s s' child ts [c] ∧
      Copies s s' [p] [(c, page)] := by
  have hkept : ∀ u, u ≠ c → (copyThread s p c page).links u = s.links u :=
    fun u hu => listInit_other s.links hu
  have hholds' : ((copyThread s p c page).task child).Holds (copyThread s p c page).links ts :=
    hholds.congr fun u hu => hkept u fun heq => hc (heq ▸ hu)
  obtain ⟨s', hadd, hgrows, hthread, hmem⟩ :=
    schedTaskAddThread_spec hholds' (ListRing.init s.links c) hc
  have hnew : s'.thread c = newThread page := by
    rw [hthread]
    exact Function.update_self c _ _
  refine ⟨s', hadd, ⟨hgrows.holds, ?_, hgrows.task⟩, ?_⟩
  · intro u hu
    rw [hgrows.links u hu, hkept u (by grind)]
  · constructor
    case new => simpa using hnew
    case state =>
      intro _
      have hbytes : s'.execBytes c = s.execBytes p := by
        rw [ThreadMem.execBytes, hnew, hmem, copyThread_mem hp]
        exact bytes_kmemcpy s.mem _ s.mem _ execStateSize
      exact .cons hbytes .nil
    case thread =>
      intro u hu
      rw [hthread]
      exact Function.update_of_ne (by simpa using hu) _ _
    case mem =>
      intro x hx
      have hpage := hx (c, page) (List.mem_singleton.mpr rfl)
      rw [hmem, copyThread_mem hp, kmemcpy_apply, if_neg]
      rw [newThread_execState, execStateSize]
      rw [kstackSize] at hpage
      omega

theorem PagesApart.first {a : Nat × Nat} (h : PagesApart s (p :: ps) (a :: allocs)) :
    PagesApart s [p] [a] := by
  constructor
  case pages => exact List.pairwise_singleton _ _
  case states =>
    intro b hb q hq
    rw [List.mem_singleton.mp hb, List.mem_singleton.mp hq]
    exact h.states a List.mem_cons_self p List.mem_cons_self

/-- A copy before the others. -/
theorem Copies.cons (hfirst : Copies s s' [p] [(c, page)]) (hrest : Copies s' s'' ps allocs)
    (hps : c ∉ ps) (hc : c ∉ allocs.map Prod.fst) : Copies s s'' (p :: ps) ((c, page) :: allocs) := by
  have hpage : s'.thread c = newThread page := hfirst.new (c, page) (List.mem_singleton.mpr rfl)
  have hold : ∀ q ∈ ps, s'.thread q = s.thread q := by
    intro q hq
    apply hfirst.thread
    simpa using fun heq : q = c => hps (heq ▸ hq)
  constructor
  case new =>
    intro a ha
    rcases List.mem_cons.mp ha with rfl | hmem
    · rw [hrest.thread c hc, hpage]
    · exact hrest.new a hmem
  case state =>
    intro hapart
    obtain ⟨hpages, hpages'⟩ := List.pairwise_cons.mp hapart.pages
    have hp : s'.execBytes c = s.execBytes p := (List.forall₂_cons.mp (hfirst.state hapart.first)).1
    have hkept : s''.execBytes c = s'.execBytes c := by
      apply execBytes_eq (hrest.thread c hc) hrest.mem
      intro a ha
      have hdisj := hpages a ha
      rw [hpage, newThread_execState, execStateSize]
      rw [kstackSize] at hdisj ⊢
      omega
    have hsame : ∀ q ∈ ps, s'.execBytes q = s.execBytes q := by
      intro q hq
      apply execBytes_eq (hold q hq) hfirst.mem
      intro a ha
      obtain rfl := List.mem_singleton.mp ha
      exact hapart.states _ List.mem_cons_self q (List.mem_cons_of_mem p hq)
    have hapart' : PagesApart s' ps allocs := by
      refine ⟨hpages', fun a ha q hq => ?_⟩
      rw [hold q hq]
      exact hapart.states a (List.mem_cons_of_mem _ ha) q (List.mem_cons_of_mem p hq)
    refine .cons (hkept.trans hp) ?_
    apply ((List.forall₂_and_left ps allocs).mpr ⟨hsame, hrest.state hapart'⟩).imp
    intro q a hstate
    exact hstate.2.trans hstate.1
  case thread =>
    intro u hu
    rw [List.map_cons, List.mem_cons, not_or] at hu
    rw [hrest.thread u hu.2]
    exact hfirst.thread u (by simpa using hu.1)
  case mem =>
    intro x hx
    obtain ⟨hx, hx'⟩ := List.forall_mem_cons.mp hx
    rw [hrest.mem x hx']
    exact hfirst.mem x (by simpa using hx)

/-- Without turns nothing is copied. -/
theorem Copies.nil (s : ThreadMem) : Copies s s [] [] := by
  constructor
  case new => simp
  case state => exact fun _ => .nil
  case thread => exact fun u _ => rfl
  case mem => exact fun x _ => rfl

/-- The loop of a fork over the threads `ps`, which come to `h`, in a task with the threads `ts`. -/
theorem forkLoop_spec (hchain : s.links.Linked (ps ++ [h])) (hholds : (s.task child).Holds s.links ts)
    (hlength : allocs.length = ps.length) (hnodup : (ts ++ allocs.map Prod.fst).Nodup)
    (hother : ∀ u ∈ ts ++ allocs.map Prod.fst, u ∉ ps ++ [h]) :
    ∃ s', forkLoop child ps.length (ps ++ [h]).head? allocs s = .ok s' ∧
      Grows s s' child ts (allocs.map Prod.fst) ∧ Copies s s' ps allocs := by
  induction ps generalizing s ts allocs with
  | nil =>
      obtain rfl := List.length_eq_zero_iff.mp hlength
      refine ⟨s, rfl, ⟨?_, fun u _ => rfl, fun j _ => rfl⟩, Copies.nil s⟩
      simpa using hholds
  | cons p ps ih =>
      cases allocs with
      | nil => exact absurd hlength.symm (Nat.succ_ne_zero _)
      | cons a allocs =>
          obtain ⟨c, page⟩ := a
          rw [List.map_cons] at hnodup hother
          have hcp : c ∉ p :: ps ++ [h] := hother c (by simp)
          have hcts : c ∉ ts := fun hmem =>
            (List.nodup_append.mp hnodup).2.2 c hmem c List.mem_cons_self rfl
          have hca : c ∉ allocs.map Prod.fst :=
            (List.nodup_cons.mp (List.nodup_append.mp hnodup).2.1).1
          have hpc : p ≠ c := fun heq => hcp (heq ▸ List.mem_cons_self)
          obtain ⟨s₁, hturn, hgrows, hcopies⟩ := @forkTurn_spec s c child ts page p hholds hcts hpc
          -- the turn leaves the links of the parent
          have hkept : ∀ u ∈ p :: ps ++ [h], s₁.links u = s.links u := by
            intro u hu
            apply hgrows.links
            intro hmem
            refine hother u ?_ hu
            simpa using (List.mem_append.mp hmem).imp_right fun h => .inl (List.mem_singleton.mp h)
          have hlinked : s.links.Linked (ps ++ [h]) := hchain.tail
          have hchain' : s₁.links.Linked (ps ++ [h]) := by
            apply hlinked.congr
            · intro b hb
              rw [hkept b (List.mem_cons_of_mem p (List.dropLast_subset _ hb))]
            · intro b hb
              rw [hkept b (List.mem_cons_of_mem p (List.mem_of_mem_tail hb))]
          have hnext : (s₁.links p).next = (ps ++ [h]).head? := by
            rw [hkept p List.mem_cons_self]
            cases ps with
            | nil => exact (List.isChain_cons_cons.mp hchain).1.1
            | cons q qs => exact (List.isChain_cons_cons.mp hchain).1.1
          obtain ⟨s₂, hloop, hgrows', hcopies'⟩ := ih hchain' hgrows.holds (by simpa using hlength)
            (by simpa using hnodup) fun u hu hmem =>
              hother u (by simpa using hu) (List.mem_cons_of_mem p hmem)
          have hcps : c ∉ ps := fun hmem => hcp (by simp [hmem])
          refine ⟨s₂, ?_, hgrows.trans hgrows', hcopies.cons hcopies' hcps hca⟩
          rw [List.length_cons, List.cons_append, List.head?_cons, forkLoop, hturn, Halt.ok_bind, hnext]
          exact hloop

/-! ## The fork -/

/-- Entries and pages that a fork of a task with the threads `ts` gets: one of each for every thread, and none
of them is in use. -/
structure FreshAllocs (s : ThreadMem) (ts : List Nat) (allocs : List (Nat × Nat)) : Prop where
  length : allocs.length = ts.length
  nodup : (allocs.map Prod.fst).Nodup
  other : ∀ u ∈ allocs.map Prod.fst, u ∉ ts
  apart : PagesApart s ts allocs

variable {parent t : Nat}

/-- A fork makes a task with a copy of every thread. -/
theorem forkThreads_spec (hholds : (s.task parent).Holds s.links ts) (hchild : parent ≠ child)
    (hlength : allocs.length = ts.length) (hnodup : (allocs.map Prod.fst).Nodup)
    (hother : ∀ u ∈ allocs.map Prod.fst, u ∉ ts) :
    ∃ s', forkThreads s parent child allocs = .ok s' ∧
      Grows (s.setTask child ⟨0, none⟩) s' child [] (allocs.map Prod.fst) ∧ Copies s s' ts allocs := by
  have hparent : (s.setTask child ⟨0, none⟩).task parent = s.task parent :=
    Function.update_of_ne hchild _ _
  have hzero : ((s.setTask child ⟨0, none⟩).task child).Holds (s.setTask child ⟨0, none⟩).links [] := by
    simp [TaskT.Holds, ThreadMem.setTask]
  cases ts with
  | nil =>
      obtain rfl := List.length_eq_zero_iff.mp hlength
      have hcount : (s.task parent).nthreads = 0 := hholds.nthreads
      refine ⟨s.setTask child ⟨0, none⟩, ?_, ⟨hzero, fun u _ => rfl, fun j _ => rfl⟩, ?_⟩
      · rw [forkThreads, hparent, hcount]
        rfl
      · exact ⟨by simp, fun _ => .nil, fun u _ => rfl, fun x _ => rfl⟩
  | cons t ts =>
      have hring := hholds.ring
      have hchain : (s.setTask child ⟨0, none⟩).links.Linked (t :: ts ++ [t]) := hring.linked
      have hapart : ∀ u ∈ [] ++ allocs.map Prod.fst, u ∉ t :: ts ++ [t] := by
        intro u hu hmem
        refine hother u hu ?_
        rcases List.mem_append.mp hmem with hin | hlast
        · exact hin
        · exact List.mem_singleton.mp hlast ▸ List.mem_cons_self
      obtain ⟨s', hloop, hgrows, hcopies⟩ := forkLoop_spec hchain hzero hlength hnodup hapart
      refine ⟨s', ?_, hgrows, hcopies.new, ?_, hcopies.thread, hcopies.mem⟩
      · rw [forkThreads, hparent, hholds.nthreads, hholds.threads]
        exact hloop
      · exact fun hapart => hcopies.state ⟨hapart.pages, hapart.states⟩

/-- A fork copies every thread of the parent, in the order of the ring, and leaves the parent as it was. -/
theorem fork_copies_threads (hholds : (s.task parent).Holds s.links (t :: ts)) (hchild : parent ≠ child)
    (hfresh : FreshAllocs s (t :: ts) allocs) :
    ∃ s' c cs, forkThreads s parent child allocs = .ok s' ∧
      -- the child
      c :: cs = allocs.map Prod.fst ∧ (s'.task child).threads = some c ∧
      (s'.task child).nthreads = (s.task parent).nthreads ∧ cs.length = ts.length ∧ ListRing s'.links c cs ∧
      List.Forall₂ (fun p c => s'.execBytes c = s'.execBytes p) (t :: ts) (c :: cs) ∧
      (∀ a ∈ allocs, (s'.thread a.1).kstackTop = a.2 ∧ a.2 ≤ (s'.thread a.1).execState ∧
        (s'.thread a.1).execState + execStateSize ≤ a.2 + kstackSize) ∧
      -- the parent
      s'.task parent = s.task parent ∧ ListRing s'.links t ts ∧
      ∀ p ∈ t :: ts, s'.thread p = s.thread p ∧ s'.execBytes p = s.execBytes p := by
  obtain ⟨s', hfork, hgrows, hcopies⟩ :=
    forkThreads_spec hholds hchild hfresh.length hfresh.nodup hfresh.other
  obtain ⟨c, cs, hnew⟩ : ∃ c cs, allocs.map Prod.fst = c :: cs := by
    cases allocs with
    | nil => exact absurd hfresh.length.symm (Nat.succ_ne_zero _)
    | cons a allocs => exact ⟨a.1, allocs.map Prod.fst, rfl⟩
  have hother := hfresh.other
  rw [hnew] at hother
  have hheld : (s'.task child).Holds s'.links (c :: cs) := hnew ▸ hgrows.holds
  have hlength : cs.length = ts.length := by
    have hmap : (allocs.map Prod.fst).length = ts.length + 1 := by
      rw [List.length_map]
      exact hfresh.length
    rw [hnew] at hmap
    exact Nat.succ.inj hmap
  have hlinks : ∀ u ∈ t :: ts, s'.links u = s.links u := by
    intro u hu
    apply hgrows.links
    rw [List.nil_append, hnew]
    exact fun hmem => hother u hmem hu
  have hstates : ∀ p ∈ t :: ts, s'.thread p = s.thread p ∧ s'.execBytes p = s.execBytes p := by
    intro p hp
    have hthread : s'.thread p = s.thread p := by
      apply hcopies.thread
      rw [hnew]
      exact fun hmem => hother p hmem hp
    exact ⟨hthread, execBytes_eq hthread hcopies.mem fun a ha => hfresh.apart.states a ha p hp⟩
  refine ⟨s', c, cs, hfork, hnew.symm, hheld.threads, ?_, hlength, hheld.ring, ?_, ?_, ?_, ?_, hstates⟩
  · rw [hheld.nthreads, hholds.nthreads, List.length_cons, List.length_cons, hlength]
  · rw [← hnew, List.forall₂_map_right_iff]
    apply ((List.forall₂_and_left (t :: ts) allocs).mpr
      ⟨fun p hp => (hstates p hp).2, hcopies.state hfresh.apart⟩).imp
    intro p a hstate
    exact hstate.2.trans hstate.1.symm
  · intro a ha
    rw [hcopies.new a ha, newThread_execState, execStateSize, kstackSize]
    exact ⟨rfl, by omega, by omega⟩
  · rw [hgrows.task parent hchild]
    exact Function.update_of_ne hchild _ _
  · exact hholds.ring.congr hlinks

/-- A task with two threads. -/
def pairTask : ThreadMem where
  links u := if u = 1 then ⟨some 2, some 2⟩ else ⟨some 1, some 1⟩
  thread u := newThread (4096 * u)
  task _ := ⟨2, some 1⟩
  mem x := UInt8.ofNat (x / 4096)

/-- Its threads are copied, the first one first. -/
theorem pairTask_fork :
    ∃ s', forkThreads pairTask 0 9 [(3, 12288), (4, 16384)] = .ok s' ∧ (s'.task 9).threads = some 3 ∧
      ListRing s'.links 3 [4] ∧ s'.execBytes 3 = pairTask.execBytes 1 ∧ s'.execBytes 4 = pairTask.execBytes 2 := by
  have hring : ListRing pairTask.links 1 [2] := by
    refine ⟨by decide, ?_⟩
    exact List.isChain_cons_cons.mpr ⟨⟨rfl, rfl⟩, List.isChain_pair.mpr ⟨rfl, rfl⟩⟩
  have hfresh : FreshAllocs pairTask [1, 2] [(3, 12288), (4, 16384)] := by
    refine ⟨rfl, by decide, by decide, ⟨by decide, ?_⟩⟩
    simp only [pairTask, newThread_execState]
    decide
  obtain ⟨s', c, cs, hfork, hnew, hthreads, -, -, hcopy, hstates, -, -, -, hkept⟩ :=
    @fork_copies_threads pairTask 9 [2] _ 0 1 ⟨rfl, rfl, hring⟩ (by decide) hfresh
  obtain ⟨rfl, rfl⟩ : c = 3 ∧ cs = [4] := by simpa using hnew
  obtain ⟨hfirst, hrest⟩ := List.forall₂_cons.mp hstates
  obtain ⟨hsecond, -⟩ := List.forall₂_cons.mp hrest
  refine ⟨s', hfork, hthreads, hcopy, hfirst.trans (hkept 1 ?_).2, hsecond.trans (hkept 2 ?_).2⟩
  · simp
  · simp

end Sched
end Micael
