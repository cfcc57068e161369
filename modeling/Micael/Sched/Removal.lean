import Micael.Sched.OnePlace

/-!
# Removing a task that has waited

`list_remove` leaves the links of the node that it takes out of a wait list.  When the task of the node is
removed later, the node is unlinked once more, and `next` of the node that stood before it then is written
again.  That node may have another successor by now: it may be the head of the wait list, or a task that
waits.

A wait list is what the loop of `mts_unblock` goes along, the nodes that are reached from its head.  Nothing
is assumed of the links: removals may have broken them before.

Main results:

- Theorem {lit}`Removal.links_eq`: a removal unlinks the node of the task and changes no other link.
- Theorem {lit}`Settled.of_unlinked`: the node of an entry that never waited is settled.
- Theorem {lit}`Removal.kept_iff`: a removal keeps the wait lists just when the node that it unlinks is settled.
- Theorem {lit}`removals_keep_waiters_iff`: the same for all removals of a run.
-/

namespace Micael
namespace Sched

open Foundation Lib

/-! ## Removals -/

/-- The calls that remove a task, with the entry that they free: `mts_unschedule` of a task that is ready,
or `mts_unschedule` of the active task and `mts_get_next` on its processor. -/
inductive Removal (s : Mts) (task : Nat) : Nat → List (MtsCall × MtsRet) → Mts → Prop
  | ready {a p : Nat} {pqueue : Bheap Nat} {r : MtsRet} {s' : Mts}
      (hactive : (s.rq (s.cpu task)).active = some a) (hother : (s.st a).task ≠ task)
      (hfound : bhRemovePld (s.rq (s.cpu task)).pqueue (some task) (some (cmpPld s)) = (.ok p, pqueue))
      (hstep : MtsStep s (.unschedule task, r) s') :
      Removal s task p [(.unschedule task, r)] s'
  | active {a : Nat} {fl : Floats} {r t : MtsRet} {s₁ s' : Mts}
      (hactive : (s.rq (s.cpu task)).active = some a) (htask : (s.st a).task = task)
      (hstep : MtsStep s (.unschedule task, r) s₁)
      (hnext : MtsStep s₁ (.getNext (s.cpu task) fl, t) s') :
      Removal s task a [(.unschedule task, r), (.getNext (s.cpu task) fl, t)] s'

/-- The nodes on every wait list are the same, in the same order, and `mts_unblock` finds the same. -/
structure WaitersKept (s s' : Mts) : Prop where
  sequence : ∀ c < s.ncpu, ∀ n, s'.links.walk (.waitList c) n = s.links.walk (.waitList c) n
  found : ∀ c < s.ncpu, ∀ turns task,
    findWaiter s' c task turns (s'.links (.waitList c)).next =
      findWaiter s c task turns (s.links (.waitList c)).next

/-- The node that the entry's node names as the one before it is on no wait list, or is still followed by
the node that the entry's node names as the next. -/
def Settled (s : Mts) (p : Nat) : Prop :=
  ∀ c < s.ncpu, ∀ q, (s.links (.entry p)).prev = some q →
    (∃ n, s.links.walk (.waitList c) n = some q) → (s.links q).next = (s.links (.entry p)).next

/-- The node of an entry that never waited is settled. -/
theorem Settled.of_unlinked {s : Mts} {p : Nat} (h : Unlinked s p) : Settled s p := by
  intro c _ q hprev _
  rw [h] at hprev
  rw [← Option.some.inj hprev]

/-! ## What a removal changes -/

section Links

variable {s s' : Mts} {task p : Nat}

theorem unqueue_sameTasks (s : Mts) (c : Nat) (pqueue : Bheap Nat) :
    SameTasks s (s.unqueue c pqueue) := by
  apply SameTasks.setRq
  · exact .refl s
  · rfl

theorem setupActive_links {me t : Nat} {prio : Int} {fl : Floats}
    (hret : setupActive s me prio fl = some (t, s')) : s'.links = s.links := by
  unfold setupActive at hret
  by_cases hprio : prio = intMin
  · rw [if_pos hprio] at hret
    obtain ⟨-, rfl⟩ := Prod.mk.inj (Option.some.inj hret)
    exact (SameButLocks.release _ _).links
  · rw [if_neg hprio] at hret
    generalize bhRemoveMax (s.rq me).pqueue = popped at hret
    obtain ⟨found, pqueue⟩ := popped
    cases found with
    | error e => exact absurd hret (by simp)
    | ok p =>
        obtain ⟨-, rfl⟩ := Prod.mk.inj (Option.some.inj hret)
        have hqueued : ∀ s₁ : Mts, (requeueActive s₁ me fl).links = s₁.links := by
          intro s₁
          unfold requeueActive
          cases (s₁.rq me).active with
          | none => rfl
          | some a => exact (scheduleTask_frame s₁ me a true fl).2.1
        rw [(SameButLocks.release _ _).links]
        exact hqueued _

/-- `mts_get_next` for an active task that was unscheduled. -/
theorem mtsGetNext_unscheduled {me a : Nat} {fl : Floats} (hactive : (s.rq me).active = some a)
    (hstate : (s.st a).state = .plain .unscheduled) :
    mtsGetNext s me fl = setupActive (((s.spinAcquire (.rq me)).freeEntry a).dropActive me) me
      (bhPeekMax (s.rq me).pqueue) fl := by
  unfold mtsGetNext
  simp only [Mts.spinAcquire_rq, Mts.spinAcquire_st, hactive]
  rw [if_pos hstate]

/-- A removal unlinks the node of the entry and changes no other link; processors and the tasks of the
entries stay. -/
theorem Removal.links_eq {calls : List (MtsCall × MtsRet)} (h : Removal s task p calls s') :
    s'.links = listRemove s.links (.entry p) ∧ SameTasks s s' := by
  cases h with
  | ready hactive hother hfound hstep =>
      obtain ⟨s₁, s₂, hret, hsame, hout⟩ := mtsUnschedule_ready hactive hother hfound
      obtain ⟨t, hret', -⟩ := hstep.unschedule
      obtain ⟨-, rfl⟩ := Prod.mk.inj (Option.some.inj (hret.symm.trans hret'))
      constructor
      · rw [hout.links, (freeEntry_fields s₁ p).2.2.2.2.1, hsame.links]
        rfl
      · have hqueue := (unqueue_sameTasks s (s.cpu task) _).trans hsame.sameTasks
        exact (hqueue.trans (freeEntry_sameTasks s₁ p)).trans hout.sameTasks
  | active hactive htask hstep hnext =>
      obtain ⟨t, hret, -⟩ := hstep.unschedule
      obtain ⟨-, rfl⟩ := Prod.mk.inj
        (Option.some.inj ((mtsUnschedule_active hactive htask).symm.trans hret))
      obtain ⟨t', hnext', -⟩ := hnext.getNext
      have hactive' : ((s.leave (s.cpu task) p).rq (s.cpu task)).active = some p := by
        simp [Mts.leave, hactive]
      have hstate : ((s.leave (s.cpu task) p).st p).state = .plain .unscheduled := by
        simp [Mts.leave]
      rw [mtsGetNext_unscheduled hactive' hstate] at hnext'
      have hacquire := SameButLocks.acquire (s.leave (s.cpu task) p) (.rq (s.cpu task))
      constructor
      · rw [setupActive_links hnext']
        change (Mts.freeEntry _ p).links = _
        rw [(freeEntry_fields _ p).2.2.2.2.1, hacquire.links]
        rfl
      · have hfree := ((leave_sameTasks s (s.cpu task) p).trans hacquire.sameTasks).trans
          (freeEntry_sameTasks _ p)
        have hdrop : SameTasks s (Mts.dropActive _ (s.cpu task)) := hfree.setRq rfl
        exact hdrop.trans (setupActive_sameTasks hnext')

end Links

/-! ## What becomes of those who wait -/

section Waiters

variable {s s' : Mts} {c : Nat}

/-- Where the walk along a wait list and the tasks of the entries are the same, the loop of `mts_unblock`
finds the same. -/
theorem findWaiter_eq_of_walk (htask : ∀ p, (s'.st p).task = (s.st p).task)
    (hwalk : ∀ n, s'.links.walk (.waitList c) n = s.links.walk (.waitList c) n) (task turns n : Nat) :
    findWaiter s' c task turns (s'.links.walk (.waitList c) (n + 1)) =
      findWaiter s c task turns (s.links.walk (.waitList c) (n + 1)) := by
  induction turns generalizing n with
  | zero => rfl
  | succ turns ih =>
      have hnode := hwalk (n + 1)
      cases hx : s.links.walk (.waitList c) (n + 1) with
      | none =>
          rw [hnode, hx]
          rfl
      | some x =>
          cases x with
          | waitList c' =>
              rw [hnode, hx]
              rfl
          | entry p =>
              have hnext : s.links.walk (.waitList c) (n + 2) = (s.links (.entry p)).next := by
                rw [Links.walk, hx, Option.bind_some]
              have hnext' : s'.links.walk (.waitList c) (n + 2) = (s'.links (.entry p)).next := by
                rw [Links.walk, hnode, hx, Option.bind_some]
              rw [hnode, hx, findWaiter, findWaiter, htask, ← hnext, ← hnext', ih (n + 1)]

/-- A removal keeps the wait lists just when the node of the entry that it frees is settled. -/
theorem Removal.kept_iff {task p : Nat} {calls : List (MtsCall × MtsRet)}
    (h : Removal s task p calls s') : WaitersKept s s' ↔ Settled s p := by
  obtain ⟨hlinks, htasks⟩ := h.links_eq
  constructor
  · rintro hkept c hc
    apply (listRemove_walk_iff s.links (.entry p) (.waitList c)).mp
    rw [← hlinks]
    exact hkept.sequence c hc
  · intro hsettled
    have hwalk : ∀ c < s.ncpu, ∀ n, s'.links.walk (.waitList c) n = s.links.walk (.waitList c) n := by
      intro c hc
      rw [hlinks]
      exact (listRemove_walk_iff s.links (.entry p) (.waitList c)).mpr (hsettled c hc)
    exact ⟨hwalk, fun c hc turns t => findWaiter_eq_of_walk htasks.task (hwalk c hc) t turns 0⟩

end Waiters

/-! ## Runs -/

/-- Every removal of a task that is scheduled and not blocked, in a run of the calls, keeps the wait lists. -/
def RemovalsKeep (start : Mts) (calls : List (MtsCall × MtsRet)) : Prop :=
  ∀ pre removal s task p s', pre ++ removal <+: calls → Run MtsStep start pre s →
    scheduledBy task pre = true → blockedBy task pre = false → Removal s task p removal s' →
    WaitersKept s s'

/-- Every such removal finds the node of the entry that it frees settled. -/
def RemovalsSettled (start : Mts) (calls : List (MtsCall × MtsRet)) : Prop :=
  ∀ pre removal s task p s', pre ++ removal <+: calls → Run MtsStep start pre s →
    scheduledBy task pre = true → blockedBy task pre = false → Removal s task p removal s' →
    Settled s p

/-- The removals of a run keep the wait lists just when each finds the node of its entry settled. -/
theorem removals_keep_waiters_iff (ncpu : Nat) (idle : Nat → Nat) (garbage : Nat → Elem Nat)
    (st : Nat → SchedTask) (cpu : Nat → Nat) (calls : List (MtsCall × MtsRet)) :
    RemovalsKeep (mtsStart ncpu idle garbage st cpu) calls ↔
      RemovalsSettled (mtsStart ncpu idle garbage st cpu) calls := by
  constructor
  · intro hkeep pre removal s task p s' hpre hrun hscheduled hblocked hremoval
    exact hremoval.kept_iff.mp (hkeep pre removal s task p s' hpre hrun hscheduled hblocked hremoval)
  · intro hsettled pre removal s task p s' hpre hrun hscheduled hblocked hremoval
    exact hremoval.kept_iff.mpr (hsettled pre removal s task p s' hpre hrun hscheduled hblocked hremoval)

/-! ## Two tasks -/

/-- The processor idle, with its task blocked. -/
def oneWaits : Mts := oneBlocked.after (.getNext 0 calm)

/-- The processor after its task was unblocked. -/
def oneWoken : Mts := oneWaits.after (.unblock 2 0 1 calm)

/-- The processor with a second task scheduled. -/
def oneJoined : Mts := oneWoken.after (.schedule 0 2 0 (some 8192) 0)

/-- The processor with its second task active. -/
def oneOvertaken : Mts := oneJoined.after (.getNext 0 calm)

/-- The processor with its second task blocked. -/
def oneDeserted : Mts := oneOvertaken.after (.block 2)

/-- The calls that lead there. -/
def desertedCalls : List (MtsCall × MtsRet) :=
  [(.schedule 0 1 0 (some 4096) 0, .status (.unspecified 0)), (.getNext 0 calm, .task 1),
    (.block 1, .status .switch), (.getNext 0 calm, .task 0), (.unblock 2 0 1 calm, .status .ok),
    (.schedule 0 2 0 (some 8192) 0, .status (.unspecified 0)), (.getNext 0 calm, .task 2),
    (.block 2, .status .switch)]

theorem oneDeserted_reached : Run MtsStep oneCpu desertedCalls oneDeserted := by
  have hwaits : MtsStep oneBlocked (.getNext 0 calm, .task 0) oneWaits := rfl
  have hwoken : MtsStep oneWaits (.unblock 2 0 1 calm, .status .ok) oneWoken := rfl
  have hjoined : MtsStep oneWoken (.schedule 0 2 0 (some 8192) 0, .status (.unspecified 0)) oneJoined := rfl
  have hovertaken : MtsStep oneJoined (.getNext 0 calm, .task 2) oneOvertaken := rfl
  have hdeserted : MtsStep oneOvertaken (.block 2, .status .switch) oneDeserted := rfl
  have hblocked := ((Run.nil.snoc oneReady_step).snoc oneActive_step).snoc oneBlocked_step
  have hback := (hblocked.snoc hwaits).snoc hwoken
  exact ((hback.snoc hjoined).snoc hovertaken).snoc hdeserted

/-- The removal of the first task takes the second one off the wait list. -/
theorem second_waiter_lost : ¬ RemovalsKeep oneCpu (desertedCalls ++ [(.unschedule 1, .status .ok)]) := by
  intro hkeep
  have hstep : MtsStep oneDeserted (.unschedule 1, .status .ok) (oneDeserted.after (.unschedule 1)) := rfl
  have hremoval : Removal oneDeserted 1 4096 [(.unschedule 1, .status .ok)]
      (oneDeserted.after (.unschedule 1)) :=
    .ready (a := 8192) rfl (by decide) rfl hstep
  have hkept := hkeep _ _ _ _ _ _ List.prefix_rfl oneDeserted_reached rfl rfl hremoval
  have hfirst := hkept.sequence 0 (by decide) 1
  have hlost : (oneDeserted.after (.unschedule 1)).links.walk (.waitList 0) 1 = some (.waitList 0) := rfl
  have hfound : oneDeserted.links.walk (.waitList 0) 1 = some (.entry 8192) := rfl
  rw [hlost, hfound] at hfirst
  exact absurd hfirst (by simp)

end Sched
end Micael
