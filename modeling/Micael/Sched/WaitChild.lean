import Micael.Sched.ProcessTree
import Micael.Sync.Wait

/-!
# Waiting for children

A parent that calls `sys_wait` while it has living children goes to sleep until one of them exits,
and then destroys all its zombies; without living children it destroys them at once.  The decision
looks at the list of children only.  A child that has exited before the call is on the list of
zombies, so that the parent sleeps although there is something to reap, as long as another child
lives.

There is one processor, so that a child exits only while the parent is not running: it is asleep, or
was woken and not yet picked, or was interrupted outside the kernel.  The last case is not told apart
from running here.

Main results:

- Theorem {lit}`FamilyInv.reap`: a wait that completes leaves no zombie.
- Theorem {lit}`sys_wait_iff`: every state of a run is right exactly if the parent never waits while
  it has both children and zombies.
-/

namespace Micael
namespace Sched

open Foundation Lib Sync

/-- The parent is the first task.  With the tree and its wait queue go whether it is inside
`wq_wait_event`, and whether the last step has completed a `sys_wait`. -/
structure WaitState where
  tree : ProcTree
  queue : WaitQueue Nat
  inWait : Bool
  returned : Bool

/-- The steps of the parent and of its children. -/
inductive WaitCall where
  | fork
  | exit (child : Nat)
  | wait
  | resume
deriving DecidableEq, Repr

/-- `wq_init` of a new task. -/
def wqInit (queue : WaitQueue Nat) (child : Nat) : WaitQueue Nat where
  links := listInit queue.links (.task child)
  state := Function.update queue.state child .unstarted

/-- One step.  A `sys_wait` destroys the zombies at once, or sleeps and does so when it is resumed
after the wakeup. -/
inductive WaitStep : WaitState → WaitCall → WaitState → Prop
  | fork {s : WaitState} : s.inWait = false →
      WaitStep s .fork
        ⟨schedTaskFork s.tree 0, schedTaskSetState (wqInit s.queue s.tree.next) s.tree.next .ready,
          false, false⟩
  | exit {s : WaitState} {child turns : Nat} {tree : ProcTree} {queue : WaitQueue Nat}
      {woken : List Nat} : s.tree.Live child → child ≠ 0 → exitTree s.tree child = .ok tree →
      wqWakeup turns (schedTaskSetState s.queue child .zombie) = some (woken, queue) →
      WaitStep s (.exit child) ⟨tree, queue, s.inWait, false⟩
  | reapNow {s : WaitState} {turns : Nat} {tree : ProcTree} : s.inWait = false →
      listEmpty s.tree.links (.children 0) = true → reap turns s.tree 0 = .ok tree →
      WaitStep s .wait ⟨tree, s.queue, false, true⟩
  | sleep {s : WaitState} : s.inWait = false → listEmpty s.tree.links (.children 0) = false →
      WaitStep s .wait ⟨s.tree, wqWaitEvent s.queue 0, true, false⟩
  | resume {s : WaitState} {turns : Nat} {tree : ProcTree} : s.inWait = true →
      s.queue.state 0 = .ready → reap turns s.tree 0 = .ok tree →
      WaitStep s .resume
        ⟨tree, { s.queue with state := Function.update s.queue.state 0 .running }, false, true⟩

/-- The parent alone, running. -/
def waitInit : WaitState where
  tree := initTree
  queue := wqInitHead ⟨fun _ => ⟨none, none⟩, fun _ => .running⟩
  inWait := false
  returned := false

/-- The parent does not sleep while it has zombies, its zombies can be reaped, no child was passed to
`sched_task_destroy` twice, and when a `sys_wait` has just returned, every child that has exited was
passed to it and the list of zombies is empty. -/
structure WaitOk (s : WaitState) : Prop where
  sleep : s.queue.state 0 = .blocked → listEmpty s.tree.links (.zombies 0) = true
  reaps : ∃ turns tree, reap turns s.tree 0 = .ok tree
  once : s.tree.reaped.Nodup
  reaped : ∀ c ∈ s.tree.reaped, s.tree.life c = .destroyed
  returned : s.returned = true → listEmpty s.tree.links (.zombies 0) = true ∧
    ∀ c < s.tree.next, s.tree.life c ≠ .live → c ∈ s.tree.reaped

/-- The parent waits only when it has no children or no zombies. -/
def WaitsInTime (s : WaitState) (call : WaitCall) : Prop :=
  call = .wait → listEmpty s.tree.links (.children 0) = true ∨
    listEmpty s.tree.links (.zombies 0) = true

/-! ## The tree of one family -/

/-- The parent and its children, none of which has children of its own. -/
structure FamilyInv (s : ProcTree) : Prop where
  tree : ∃ kids zombs, TreeInv s kids zombs
  flat : ∀ t < s.next, t ≠ 0 → s.parent t = some 0
  once : s.reaped.Nodup
  reaped : ∀ c, c ∈ s.reaped ↔ c < s.next ∧ s.life c = .destroyed

variable {s s' : ProcTree} {kids zombs : Nat → List Nat} {t : Nat}

theorem FamilyInv.fork (h : FamilyInv s) : FamilyInv (schedTaskFork s 0) := by
  obtain ⟨kids, zombs, hinv⟩ := h.tree
  constructor
  case tree => exact ⟨_, _, hinv.fork hinv.init⟩
  case flat =>
    intro t ht ht0
    rw [schedTaskFork_parent]
    by_cases htn : t = s.next
    · rw [if_pos htn]
    · rw [if_neg htn]
      have hlt : t < s.next + 1 := ht
      exact h.flat t (by omega) ht0
  case once => exact h.once
  case reaped =>
    intro c
    change c ∈ s.reaped ↔ c < s.next + 1 ∧ Function.update s.life s.next .live c = .destroyed
    rw [h.reaped]
    by_cases hc : c = s.next
    · simp [hc]
    · have hlt : c < s.next + 1 ↔ c < s.next := by omega
      simp [hc, hlt]

/-- A child has neither children nor zombies. -/
theorem FamilyInv.leaf (h : FamilyInv s) (hinv : TreeInv s kids zombs) (ht : t < s.next)
    (ht0 : t ≠ 0) : kids t = [] ∧ zombs t = [] := by
  constructor
  · rw [List.eq_nil_iff_forall_not_mem]
    intro c hc
    obtain ⟨hlive, hc0, hparent⟩ := (hinv.kids_iff t ht c).mp hc
    exact ht0 (Option.some.inj (hparent.symm.trans (h.flat c hlive.1 hc0)))
  · rw [List.eq_nil_iff_forall_not_mem]
    intro z hz
    obtain ⟨hlt, hlife, hparent⟩ := (hinv.zombs_iff t ht z).mp hz
    have hz0 : z ≠ 0 := by
      rintro rfl
      cases hinv.init.2.symm.trans hlife
    exact ht0 (Option.some.inj (hparent.symm.trans (h.flat z hlt hz0)))

theorem FamilyInv.exit (h : FamilyInv s) (ht : s.Live t) (ht0 : t ≠ 0)
    (hcall : exitTree s t = .ok s') : FamilyInv s' := by
  obtain ⟨kids, zombs, hinv⟩ := h.tree
  obtain ⟨hkids, hzombs⟩ := h.leaf hinv ht.1 ht0
  obtain ⟨p, as, bs, -, -, -, hnext, hlife, hreaped, hparent, -⟩ := exitTree_family hinv ht ht0 hcall
  have hempty : listEmpty s.links (.children t) = true := by
    rw [listEmpty_iff (hinv.children ht.1), hkids, List.map_nil]
  rw [if_pos hempty] at hparent
  constructor
  case tree => exact hinv.exit ht ht0 hcall hkids hzombs
  case flat =>
    intro x hx hx0
    rw [hparent]
    exact h.flat x (hnext ▸ hx) hx0
  case once => exact hreaped ▸ h.once
  case reaped =>
    intro c
    rw [hreaped, h.reaped, hnext, hlife]
    by_cases hc : c = t
    · subst hc
      simp [ht.2]
    · rw [Function.update_of_ne hc]

/-- A wait that completes leaves no zombie. -/
theorem FamilyInv.reap (h : FamilyInv s) {turns : Nat} (hcall : reap turns s 0 = .ok s') :
    FamilyInv s' ∧ s'.next = s.next ∧ listEmpty s'.links (.zombies 0) = true ∧
      ∀ c < s'.next, s'.life c ≠ .zombie := by
  obtain ⟨kids, zombs, hinv⟩ := h.tree
  obtain ⟨u, hu, hnext, hparent, hlife, hreaped, hinv'⟩ := hinv.reap hinv.init
  obtain rfl := reap_unique hcall hu
  have hlt0 : 0 < s'.next := hinv'.init.1
  have hring := hinv.zombies hinv.init.1
  have hzombie : ∀ z ∈ zombs 0, s.life z = .zombie := fun z hz =>
    ((hinv.zombs_iff 0 hinv.init.1 z).mp hz).2.1
  refine ⟨?_, hnext, ?_, ?_⟩
  · constructor
    case tree => exact ⟨_, _, hinv'⟩
    case flat =>
      intro t ht ht0
      rw [hparent]
      exact h.flat t (hnext ▸ ht) ht0
    case once =>
      rw [hreaped, List.nodup_append]
      refine ⟨h.once, (List.nodup_cons.mp hring.nodup).2.of_map _, ?_⟩
      rintro c hc z hz rfl
      cases ((h.reaped c).mp hc).2.symm.trans (hzombie c hz)
    case reaped =>
      intro c
      rw [hreaped, List.mem_append, h.reaped, hlife, hnext]
      by_cases hc : c ∈ zombs 0
      · simp [hc, ((hinv.zombs_iff 0 hinv.init.1 c).mp hc).1]
      · simp [hc]
  · rw [listEmpty_iff (hinv'.zombies hlt0), Function.update_self, List.map_nil]
  · intro c hc hlife'
    have hc0 : c ≠ 0 := by
      rintro rfl
      cases hinv'.init.2.symm.trans hlife'
    have hparent' : s'.parent c = some 0 := by
      rw [hparent]
      exact h.flat c (hnext ▸ hc) hc0
    have hmem := (hinv'.zombs_iff 0 hlt0 c).mpr ⟨hc, hlife', hparent'⟩
    rw [Function.update_self] at hmem
    cases hmem

/-! ## The parent and its wait queue -/

/-- The task that waits on the queue of the parent. -/
def sleepers (queue : WaitQueue Nat) : List Nat :=
  if queue.state 0 = .blocked then [0] else []

/-- What every step keeps: the parent is on its wait queue just while it sleeps, and has no zombies
then. -/
structure WaitInv (s : WaitState) : Prop where
  family : FamilyInv s.tree
  holds : HoldsLatest (sleepers s.queue) s.queue
  awake : s.inWait = false → s.queue.state 0 = .running
  asleep : s.queue.state 0 = .blocked → listEmpty s.tree.links (.zombies 0) = true
  returned : s.returned = true → listEmpty s.tree.links (.zombies 0) = true ∧
    ∀ c < s.tree.next, s.tree.life c ≠ .zombie

theorem WaitInv.ok {s : WaitState} (h : WaitInv s) : WaitOk s := by
  constructor
  case sleep => exact h.asleep
  case reaps =>
    obtain ⟨kids, zombs, hinv⟩ := h.family.tree
    obtain ⟨tree, htree, -⟩ := hinv.reap hinv.init
    exact ⟨_, tree, htree⟩
  case once => exact h.family.once
  case reaped => exact fun c hc => ((h.family.reaped c).mp hc).2
  case returned =>
    intro hret
    obtain ⟨hempty, hnone⟩ := h.returned hret
    refine ⟨hempty, fun c hc hlive => ?_⟩
    rw [h.family.reaped]
    refine ⟨hc, ?_⟩
    cases hlife : s.tree.life c with
    | live => exact absurd hlife hlive
    | zombie => exact absurd hlife (hnone c hc)
    | destroyed => rfl

/-- A change of another task leaves the wait queue of the parent alone. -/
theorem HoldsLatest.other {ws : List Nat} {queue queue' : WaitQueue Nat} {c : Nat}
    (h : HoldsLatest ws queue) (hc : c ∉ ws)
    (hlinks : ∀ n, n ≠ .task c → queue'.links n = queue.links n)
    (hstate : ∀ t, t ≠ c → queue'.state t = queue.state t) : HoldsLatest ws queue' := by
  constructor
  case ring =>
    refine h.ring.congr fun n hn => hlinks n ?_
    rintro rfl
    rcases List.mem_cons.mp hn with heq | hmem
    · cases heq
    · obtain ⟨t, ht, heq⟩ := List.mem_map.mp hmem
      cases heq
      exact hc (List.mem_of_mem_take ht)
  case nodup => exact h.nodup
  case blocked =>
    intro t ht
    rw [hstate t fun heq => hc (heq ▸ ht)]
    exact h.blocked t ht

theorem schedTaskSetState_other {queue : WaitQueue Nat} {c t : Nat} (state : TaskState)
    (hne : t ≠ c) : (schedTaskSetState queue c state).state t = queue.state t := by
  unfold schedTaskSetState
  split
  · rfl
  · cases state with
    | blocked => exact Function.update_of_ne hne _ _
    | zombie => exact Function.update_of_ne hne _ _
    | running => rfl
    | unstarted => rfl
    | ready =>
        dsimp only
        split
        · exact Function.update_of_ne hne _ _
        · rfl

theorem not_mem_sleepers {queue : WaitQueue Nat} {c : Nat} (hc : c ≠ 0) : c ∉ sleepers queue := by
  unfold sleepers
  split
  · simp [hc]
  · simp

/-- The exit of a child wakes the parent up. -/
theorem WaitInv.wakeup {s : WaitState} (h : WaitInv s) {c turns : Nat} {woken : List Nat}
    {queue : WaitQueue Nat} (hc : c ≠ 0)
    (hwake : wqWakeup turns (schedTaskSetState s.queue c .zombie) = some (woken, queue)) :
    HoldsLatest [] queue ∧
      queue.state 0 = if s.queue.state 0 = .blocked then .ready else s.queue.state 0 := by
  have hholds : HoldsLatest (sleepers s.queue) (schedTaskSetState s.queue c .zombie) := by
    apply HoldsLatest.other h.holds (not_mem_sleepers hc)
    · intro n _
      rw [schedTaskSetState_links]
    · exact fun t ht => schedTaskSetState_other .zombie ht
  obtain ⟨queue', hmany, hring, hstate⟩ := hholds.wakeup
  obtain ⟨-, rfl⟩ := Prod.mk.inj (wqWakeup_two hmany hwake)
  refine ⟨⟨hring, List.nodup_nil, by simp⟩, ?_⟩
  rw [hstate 0, schedTaskSetState_other .zombie (Ne.symm hc)]
  by_cases hblocked : s.queue.state 0 = .blocked
  · simp [sleepers, hblocked]
  · simp [sleepers, hblocked]

theorem sleepers_awake {queue : WaitQueue Nat} (h : queue.state 0 ≠ .blocked) :
    sleepers queue = [] :=
  if_neg h

/-- A new child is put on no wait queue. -/
theorem WaitInv.fork {s : WaitState} (h : WaitInv s) (hout : s.inWait = false) :
    WaitInv ⟨schedTaskFork s.tree 0,
      schedTaskSetState (wqInit s.queue s.tree.next) s.tree.next .ready, false, false⟩ := by
  have hrunning := h.awake hout
  have hnext : s.tree.next ≠ 0 := by
    obtain ⟨kids, zombs, hinv⟩ := h.family.tree
    exact hinv.init.1.ne'
  have hstate : ∀ t, t ≠ s.tree.next →
      (schedTaskSetState (wqInit s.queue s.tree.next) s.tree.next .ready).state t =
        s.queue.state t := by
    intro t ht
    rw [schedTaskSetState_other .ready ht]
    exact Function.update_of_ne ht _ _
  have hparent := (hstate 0 (Ne.symm hnext)).trans hrunning
  constructor
  case family => exact h.family.fork
  case holds =>
    rw [sleepers_awake (by rw [hparent]; decide)]
    have hold := h.holds
    rw [sleepers_awake (by rw [hrunning]; decide)] at hold
    refine HoldsLatest.other hold (List.not_mem_nil (a := s.tree.next)) ?_ hstate
    intro n hn
    rw [schedTaskSetState_links]
    exact listInit_other _ hn
  case awake => exact fun _ => hparent
  case asleep =>
    intro hblocked
    cases hparent.symm.trans hblocked
  case returned =>
    intro hret
    cases hret

/-- The parent has been woken up when a child has exited. -/
theorem WaitInv.exit {s : WaitState} (h : WaitInv s) {c turns : Nat} {tree : ProcTree}
    {queue : WaitQueue Nat} {woken : List Nat} (hlive : s.tree.Live c) (hc : c ≠ 0)
    (hcall : exitTree s.tree c = .ok tree)
    (hwake : wqWakeup turns (schedTaskSetState s.queue c .zombie) = some (woken, queue)) :
    WaitInv ⟨tree, queue, s.inWait, false⟩ := by
  obtain ⟨hholds, hstate⟩ := h.wakeup hc hwake
  have hawake : queue.state 0 ≠ .blocked := by
    rw [hstate]
    split
    · decide
    · assumption
  constructor
  case family => exact h.family.exit hlive hc hcall
  case holds =>
    rw [sleepers_awake hawake]
    exact hholds
  case awake =>
    intro hout
    have hrunning := h.awake hout
    rw [hrunning] at hstate
    exact hstate
  case asleep => exact fun hblocked => absurd hblocked hawake
  case returned =>
    intro hret
    cases hret

/-- A wait that completes leaves a parent that runs and has no zombies. -/
theorem WaitInv.reaped {s : WaitState} (h : WaitInv s) {turns : Nat} {tree : ProcTree}
    {queue : WaitQueue Nat} (hcall : reap turns s.tree 0 = .ok tree)
    (hrunning : queue.state 0 = .running) (hholds : HoldsLatest (sleepers queue) queue) :
    WaitInv ⟨tree, queue, false, true⟩ := by
  obtain ⟨hfamily, -, hzombies, hnone⟩ := h.family.reap hcall
  constructor
  case family => exact hfamily
  case holds => exact hholds
  case awake => exact fun _ => hrunning
  case asleep => exact fun _ => hzombies
  case returned => exact fun _ => ⟨hzombies, hnone⟩

/-- The parent goes to sleep without zombies. -/
theorem WaitInv.sleep {s : WaitState} (h : WaitInv s) (hout : s.inWait = false)
    (hzombies : listEmpty s.tree.links (.zombies 0) = true) :
    WaitInv ⟨s.tree, wqWaitEvent s.queue 0, true, false⟩ := by
  have hrunning := h.awake hout
  have hold := h.holds
  rw [sleepers_awake (by rw [hrunning]; decide)] at hold
  have hstate : (wqWaitEvent s.queue 0).state 0 = .blocked := by
    have hset : (wqWaitEvent s.queue 0).state = Function.update s.queue.state 0 .blocked :=
      schedTaskSetState_blocked _ 0
    rw [hset, Function.update_self]
  constructor
  case family => exact h.family
  case holds =>
    rw [sleepers, if_pos hstate]
    exact hold.waitEvent hrunning
  case awake =>
    intro hin
    cases hin
  case asleep => exact fun _ => hzombies
  case returned =>
    intro hret
    cases hret

/-- What every step keeps when the parent waits in time. -/
theorem WaitInv.step {s s' : WaitState} {call : WaitCall} (h : WaitInv s)
    (hstep : WaitStep s call s') (htime : WaitsInTime s call) : WaitInv s' := by
  cases hstep with
  | fork hout => exact h.fork hout
  | exit hlive hc hcall hwake => exact h.exit hlive hc hcall hwake
  | reapNow hout hempty hcall => exact h.reaped hcall (h.awake hout) h.holds
  | sleep hout hchildren =>
      rcases htime rfl with hnone | hzombies
      · cases hchildren.symm.trans hnone
      · exact h.sleep hout hzombies
  | resume hin hready hcall =>
      have hold := h.holds
      rw [sleepers_awake (by rw [hready]; decide)] at hold
      let queue : WaitQueue Nat :=
        { s.queue with state := Function.update s.queue.state 0 .running }
      have hrunning : queue.state 0 = .running := Function.update_self 0 _ s.queue.state
      have hholds : HoldsLatest (sleepers queue) queue := by
        rw [sleepers_awake (by rw [hrunning]; decide)]
        exact ⟨hold.ring, List.nodup_nil, by simp⟩
      exact h.reaped hcall hrunning hholds

/-- A parent that waits with children and zombies sleeps over the zombies. -/
theorem waitsInTime_of_ok {s s' : WaitState} {call : WaitCall} (hstep : WaitStep s call s')
    (hok : WaitOk s') : WaitsInTime s call := by
  rintro rfl
  cases hstep with
  | reapNow hout hempty hcall => exact .inl hempty
  | sleep hout hchildren =>
      have hset : (wqWaitEvent s.queue 0).state = Function.update s.queue.state 0 .blocked :=
        schedTaskSetState_blocked _ 0
      exact .inr (hok.sleep (by rw [hset, Function.update_self]))

theorem waitInit_inv : WaitInv waitInit := by
  constructor
  case family =>
    refine ⟨⟨_, _, initTree_inv⟩, ?_, List.nodup_nil, ?_⟩
    · intro t ht ht0
      have hlt : t < 1 := ht
      omega
    · intro c
      simp [waitInit, initTree]
  case holds => exact ⟨ListRing.init _ _, List.nodup_nil, by simp [sleepers, waitInit, wqInitHead]⟩
  case awake => exact fun _ => rfl
  case asleep =>
    intro h
    cases h
  case returned =>
    intro h
    cases h

/-- For every order of forks, exits, waits and wakeups, every state is right exactly if the parent
never waits while it has both children and zombies. -/
theorem sys_wait_iff (calls : List WaitCall) :
    (∀ pre s, pre <+: calls → Run WaitStep waitInit pre s → WaitOk s) ↔
      ∀ pre call s s', pre ++ [call] <+: calls → Run WaitStep waitInit pre s →
        WaitStep s call s' → WaitsInTime s call := by
  have hok : ∀ s, WaitInv s → WaitOk s := fun s h => h.ok
  apply Run.safe_iff hok ?_ ?_ waitInit_inv calls
  · intro s call s' h hstep htime
    exact h.step hstep htime
  · intro s call s' _ hstep hok
    exact waitsInTime_of_ok hstep hok

/-- One child exits before the parent waits, and another one lives on: the parent goes to sleep. -/
theorem sys_wait_sleeps_over_zombie :
    ∃ s, Run WaitStep waitInit [.fork, .fork, .exit 1, .wait] s ∧ ¬ WaitOk s := by
  have hrun : Run WaitStep waitInit [.fork, .fork, .exit 1, .wait] _ :=
    .snoc (.snoc (.snoc (.snoc .nil (.fork rfl)) (.fork rfl))
      (@WaitStep.exit _ 1 2 _ _ _ ⟨by decide, rfl⟩ (by decide) rfl rfl)) (.sleep rfl rfl)
  exact ⟨_, hrun, fun hok => absurd (hok.sleep rfl) (by decide)⟩

end Sched
end Micael
