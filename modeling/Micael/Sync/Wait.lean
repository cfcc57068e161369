import Micael.Foundation.Run
import Micael.Lib.List

/-!
# Wait queues

A task that waits for an event links the list node in its task structure into the list of the wait
queue head and is blocked; a wakeup walks the list, makes every task ready and removes its node.
Each call holds the lock of the head, so that it is one step here, and the lock a waiting task hands
in is left out.  The calls of the scheduler that a change of state leads to succeed, as the source
asserts.  The pointers that the functions check are not null.

Adding a waiter initialises the node of the task and then the list of the head as well, so that the
head forgets the tasks that were waiting already.

Main results:

- Theorem {lit}`wakeLoop_ring`: the walk of `wq_wakeup` wakes the tasks of the list, each once and in
  order, and leaves the list empty.
- Theorem {lit}`wq_wakeup_exact_iff`: in every run, a wakeup wakes exactly the tasks that waited since
  the last one just when there is at most one.
-/

namespace Micael
namespace Sync

open Foundation Lib

variable {τ : Type} [DecidableEq τ]

/-! ## Tasks and wait queues -/

/-- `task->threads->state`. -/
inductive TaskState where
  | ready
  | running
  | blocked
  | zombie
  | unstarted
deriving DecidableEq, Repr

/-- The list nodes: `head->list`, and `task->wq.list` of every task. -/
inductive WqNode (τ : Type) where
  | head
  | task (t : τ)
deriving DecidableEq, Repr

/-- A wait queue head, the list nodes of the tasks and their states. -/
structure WaitQueue (τ : Type) where
  links : Links (WqNode τ)
  state : τ → TaskState

/-- `sched_task_set_state`. -/
def schedTaskSetState (s : WaitQueue τ) (t : τ) (state : TaskState) : WaitQueue τ :=
  if s.state t = state then s
  else
    match state with
    | .blocked | .zombie => { s with state := Function.update s.state t state }
    | .ready =>
        if s.state t = .blocked ∨ s.state t = .running then
          { s with state := Function.update s.state t .ready }
        else s
    | .running | .unstarted => s

/-- `wq_init_head`. -/
def wqInitHead (s : WaitQueue τ) : WaitQueue τ := { s with links := listInit s.links .head }

/-- `wq_wait_event`, up to the switch to another task. -/
def wqWaitEvent (s : WaitQueue τ) (t : τ) : WaitQueue τ :=
  let links := listInit s.links (.task t)
  let links := listInit links .head
  let links := listAppend links .head (.task t)
  schedTaskSetState { s with links := links } t .blocked

/-- The `FOREACH` loop of `wq_wakeup` at node `iter`, with the tasks it makes ready.  There is no
result when the turns run out or a null pointer is followed. -/
def wakeLoop : Nat → WaitQueue τ → Option (WqNode τ) → Option (List τ × WaitQueue τ)
  | 0, _, _ => none
  | _ + 1, _, none => none
  | _ + 1, s, some .head => some ([], s)
  | turns + 1, s, some (.task t) =>
      let s := schedTaskSetState s t .ready
      let s := { s with links := listRemove s.links (.task t) }
      match wakeLoop turns s (s.links (.task t)).next with
      | none => none
      | some (woken, s') => some (t :: woken, s')

/-- `wq_wakeup`. -/
def wqWakeup (turns : Nat) (s : WaitQueue τ) : Option (List τ × WaitQueue τ) :=
  wakeLoop turns s (s.links .head).next

/-! ## The walk of a wakeup -/

theorem schedTaskSetState_links (s : WaitQueue τ) (t : τ) (state : TaskState) :
    (schedTaskSetState s t state).links = s.links := by
  by_cases hsame : s.state t = state
  · simp [schedTaskSetState, hsame]
  · cases state with
    | ready =>
        by_cases hgo : s.state t = .blocked ∨ s.state t = .running <;>
          simp [schedTaskSetState, hsame, hgo]
    | running => simp [schedTaskSetState]
    | blocked => simp [schedTaskSetState, hsame]
    | zombie => simp [schedTaskSetState, hsame]
    | unstarted => simp [schedTaskSetState]

/-- A task that is blocked is made ready. -/
theorem schedTaskSetState_ready {s : WaitQueue τ} {t : τ} (hblocked : s.state t = .blocked) :
    (schedTaskSetState s t .ready).state = Function.update s.state t .ready := by
  simp [schedTaskSetState, hblocked]

/-- A task that is not blocked yet is blocked. -/
theorem schedTaskSetState_blocked (s : WaitQueue τ) (t : τ) :
    (schedTaskSetState s t .blocked).state = Function.update s.state t .blocked := by
  by_cases hsame : s.state t = .blocked
  · have hkeep : schedTaskSetState s t .blocked = s := if_pos hsame
    rw [hkeep, ← hsame, Function.update_eq_self]
  · simp [schedTaskSetState, hsame]

/-- More turns do not change what the walk returns. -/
theorem wakeLoop_mono {turns turns' : Nat} {s : WaitQueue τ} {iter : Option (WqNode τ)}
    {r : List τ × WaitQueue τ} (hle : turns ≤ turns') (hloop : wakeLoop turns s iter = some r) :
    wakeLoop turns' s iter = some r := by
  induction turns generalizing turns' s iter r with
  | zero => exact absurd hloop (by simp [wakeLoop])
  | succ turns ih =>
      obtain ⟨more, rfl⟩ : ∃ n, turns' = n + 1 := ⟨turns' - 1, by omega⟩
      match iter with
      | none => exact absurd hloop (by simp [wakeLoop])
      | some .head => exact hloop
      | some (.task t) =>
          rw [wakeLoop] at hloop ⊢
          simp only at hloop ⊢
          split at hloop
          next => exact absurd hloop (by simp)
          next woken s' hrest =>
            rw [ih (by omega) hrest]
            exact hloop

/-- The walk wakes the blocked tasks of the list, each once and in order. -/
theorem wakeLoop_ring {s : WaitQueue τ} {xs : List τ}
    (hring : ListRing s.links .head (xs.map .task)) (hblocked : ∀ t ∈ xs, s.state t = .blocked) :
    ∃ s', wakeLoop (xs.length + 1) s (s.links .head).next = some (xs, s') ∧
      ListRing s'.links .head [] ∧ ∀ t, s'.state t = if t ∈ xs then .ready else s.state t := by
  induction xs generalizing s with
  | nil =>
      have hnext : (s.links .head).next = some .head := hring.next_head
      rw [hnext]
      exact ⟨s, rfl, hring, fun t => by simp⟩
  | cons x xs ih =>
      have hnext : (s.links .head).next = some (.task x) := hring.next_head
      have hstate := schedTaskSetState_ready (hblocked x List.mem_cons_self)
      have hx : x ∉ xs := by
        have hnodup := (List.nodup_cons.mp hring.nodup).2
        exact (List.nodup_cons.mp (List.Nodup.of_map _ hnodup)).1
      -- The walk goes on from the links of the node that was just removed.
      have hfirst : ListRing s.links .head ([] ++ .task x :: xs.map .task) := hring
      have hrest : ListRing (listRemove s.links (.task x)) .head (xs.map .task) := hfirst.remove
      have hgo : (listRemove s.links (.task x) (.task x)).next =
          (listRemove s.links (.task x) .head).next := by
        rw [hring.remove_self, hrest.next_head]
      have hstill : ∀ t ∈ xs, Function.update s.state x .ready t = .blocked := by
        intro t ht
        have htx : t ≠ x := fun heq => hx (heq ▸ ht)
        rw [Function.update_of_ne htx]
        exact hblocked t (List.mem_cons_of_mem x ht)
      obtain ⟨s', hloop, hempty, hready⟩ := ih
        (s := ⟨listRemove s.links (.task x), Function.update s.state x .ready⟩) hrest hstill
      refine ⟨s', ?_, hempty, fun t => ?_⟩
      · rw [hnext, List.length_cons, wakeLoop]
        simp only [schedTaskSetState_links, hstate, hgo]
        rw [hloop]
      · rw [hready t]
        by_cases htx : t = x
        · subst htx
          simp [hx]
        · simp [htx]

/-! ## Runs -/

/-- A step of the tasks that share the wait queue head. -/
inductive WqCall (τ : Type) where
  | waitEvent (t : τ)
  | wakeup (woken : List τ)
  | run (t : τ)

/-- One step: a running task waits, some task wakes the queue up, or the scheduler picks a task that
is ready or was never run. -/
inductive WqStep : WaitQueue τ → WqCall τ → WaitQueue τ → Prop
  | waitEvent {s t} (hrunning : s.state t = .running) : WqStep s (.waitEvent t) (wqWaitEvent s t)
  | wakeup {s s' turns woken} (hwake : wqWakeup turns s = some (woken, s')) :
      WqStep s (.wakeup woken) s'
  | run {s t} (hready : s.state t = .ready ∨ s.state t = .unstarted) :
      WqStep s (.run t) { s with state := Function.update s.state t .running }

/-- The tasks that waited since the last wakeup, the latest first. -/
def waiters : List (WqCall τ) → List τ :=
  List.foldl (fun ws call =>
    match call with
    | .waitEvent t => t :: ws
    | .wakeup _ => []
    | .run _ => ws) []

/-- A wakeup that makes exactly the tasks `ws` ready, each once, and empties the list. -/
structure WakesExactly (ws : List τ) (s : WaitQueue τ) (woken : List τ) (s' : WaitQueue τ) :
    Prop where
  once : woken.Nodup
  mem : ∀ t, t ∈ woken ↔ t ∈ ws
  state : ∀ t, s'.state t = if t ∈ ws then .ready else s.state t
  empty : ListRing s'.links .head []

/-- The list of the head holds the latest waiter only; all waiters are blocked. -/
structure HoldsLatest (ws : List τ) (s : WaitQueue τ) : Prop where
  ring : ListRing s.links .head ((ws.take 1).map .task)
  nodup : ws.Nodup
  blocked : ∀ t ∈ ws, s.state t = .blocked

variable {ws : List τ} {s s' : WaitQueue τ}

/-- Waiting replaces the task that the head holds. -/
theorem HoldsLatest.waitEvent (h : HoldsLatest ws s) {t : τ} (hrunning : s.state t = .running) :
    HoldsLatest (t :: ws) (wqWaitEvent s t) := by
  have ht : t ∉ ws := by
    intro hmem
    rw [h.blocked t hmem] at hrunning
    exact absurd hrunning (by decide)
  have hstate : (wqWaitEvent s t).state = Function.update s.state t .blocked :=
    schedTaskSetState_blocked _ t
  refine ⟨?_, List.nodup_cons.mpr ⟨ht, h.nodup⟩, fun u hu => ?_⟩
  · unfold wqWaitEvent
    rw [schedTaskSetState_links]
    exact (ListRing.init _ _).append (by simp)
  · rw [hstate]
    by_cases hut : u = t
    · rw [hut, Function.update_self]
    · rw [Function.update_of_ne hut]
      exact h.blocked u ((List.mem_cons.mp hu).resolve_left hut)

/-- A wakeup returns, and wakes the latest waiter. -/
theorem HoldsLatest.wakeup (h : HoldsLatest ws s) :
    ∃ s', (∀ turns, 2 ≤ turns → wqWakeup turns s = some (ws.take 1, s')) ∧
      ListRing s'.links .head [] ∧ ∀ t, s'.state t = if t ∈ ws.take 1 then .ready else s.state t := by
  have hblocked : ∀ t ∈ ws.take 1, s.state t = .blocked := fun t ht =>
    h.blocked t (List.mem_of_mem_take ht)
  obtain ⟨s', hloop, hring, hstate⟩ := wakeLoop_ring h.ring hblocked
  refine ⟨s', fun turns hturns => wakeLoop_mono ?_ hloop, hring, hstate⟩
  have hlength : (ws.take 1).length ≤ 1 := by simp
  omega

/-- Whatever a wakeup returns is what it returns with two turns. -/
theorem wqWakeup_two {turns : Nat} {r : List τ × WaitQueue τ} {woken : List τ}
    (hmany : ∀ n, 2 ≤ n → wqWakeup n s = some (woken, s')) (hwake : wqWakeup turns s = some r) :
    r = (woken, s') := by
  have hmore := wakeLoop_mono (Nat.le_add_right turns 2) hwake
  exact Option.some.inj (hmore.symm.trans (hmany (turns + 2) (Nat.le_add_left 2 turns)))

omit [DecidableEq τ] in
theorem waiters_snoc (calls : List (WqCall τ)) (call : WqCall τ) :
    waiters (calls ++ [call]) =
      match call with
      | .waitEvent t => t :: waiters calls
      | .wakeup _ => []
      | .run _ => waiters calls := by
  unfold waiters
  rw [List.foldl_append]
  rfl

/-- In every run the head holds the latest waiter only. -/
theorem holdsLatest_of_run {s₀ : WaitQueue τ} {calls : List (WqCall τ)}
    (hrun : Run WqStep (wqInitHead s₀) calls s) : HoldsLatest (waiters calls) s := by
  induction hrun with
  | nil => exact ⟨ListRing.init _ _, List.nodup_nil, by simp [waiters]⟩
  | snoc _ hlast ih =>
      rw [waiters_snoc]
      cases hlast with
      | waitEvent hrunning => exact ih.waitEvent hrunning
      | wakeup hwake =>
          obtain ⟨t, hmany, hring, -⟩ := ih.wakeup
          obtain ⟨-, rfl⟩ := Prod.mk.inj (wqWakeup_two hmany hwake)
          exact ⟨hring, List.nodup_nil, by simp⟩
      | run hready =>
          refine ⟨ih.ring, ih.nodup, fun u hu => ?_⟩
          have hblocked := ih.blocked u hu
          rename_i t
          have hut : u ≠ t := by
            rintro rfl
            rw [hblocked] at hready
            exact absurd hready (by decide)
          exact (Function.update_of_ne hut ..).trans hblocked

/-- In every run a wakeup returns, and it wakes exactly the tasks that waited since the last one just
when they are not more than one. -/
theorem wq_wakeup_exact_iff {s₀ : WaitQueue τ} {calls : List (WqCall τ)}
    (hrun : Run WqStep (wqInitHead s₀) calls s) :
    ∃ woken s', (∀ turns, 2 ≤ turns → wqWakeup turns s = some (woken, s')) ∧
      (WakesExactly (waiters calls) s woken s' ↔ (waiters calls).length ≤ 1) := by
  have hlatest := holdsLatest_of_run hrun
  obtain ⟨s', hmany, hring, hstate⟩ := hlatest.wakeup
  refine ⟨_, s', hmany, fun hexact => ?_, fun hlength => ?_⟩
  · have hperm : (waiters calls).length ≤ ((waiters calls).take 1).length :=
      (hlatest.nodup.subperm fun t ht => (hexact.mem t).mpr ht).length_le
    rw [List.length_take] at hperm
    omega
  · rw [List.take_of_length_le hlength] at hmany hstate ⊢
    exact ⟨hlatest.nodup, fun t => Iff.rfl, hstate, hring⟩

/-- A head without waiters and two tasks that run on two processors. -/
def twoRunning : WaitQueue Bool := wqInitHead ⟨fun _ => ⟨none, none⟩, fun _ => .running⟩

theorem one_waiter_woken :
    ∃ woken s', wqWakeup 2 (wqWaitEvent twoRunning true) = some (woken, s') ∧
      WakesExactly [true] (wqWaitEvent twoRunning true) woken s' := by
  have hrun : Run WqStep twoRunning [.waitEvent true] (wqWaitEvent twoRunning true) :=
    .snoc .nil (.waitEvent rfl)
  obtain ⟨woken, s', hmany, hiff⟩ := wq_wakeup_exact_iff hrun
  exact ⟨woken, s', hmany 2 (le_refl 2), hiff.mpr (by decide)⟩

/-- The first of two waiters is not woken. -/
theorem first_waiter_lost :
    ∃ s : WaitQueue Bool, Run WqStep twoRunning [.waitEvent true, .waitEvent false] s ∧
      ∃ s', wqWakeup 2 s = some ([false], s') ∧ s'.state true = .blocked ∧
        ¬ WakesExactly (waiters [.waitEvent true, .waitEvent false]) s [false] s' := by
  refine ⟨_, .snoc (.snoc .nil (.waitEvent rfl)) (.waitEvent rfl), _, rfl, rfl, fun hexact => ?_⟩
  exact absurd ((hexact.mem true).mpr (by decide)) (by decide)

end Sync
end Micael
