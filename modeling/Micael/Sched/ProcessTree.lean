import Micael.Foundation.Run
import Micael.Kernel.Machine
import Micael.Lib.ListFamily

/-!
# The tree of processes

Every task has one list node, by which it is linked into the list of children of its parent while it
lives and into the list of zombies of its parent after its exit, until the parent waits and destroys
it.  A task that exits is meant to give its children a new parent, but nothing does so: its children
keep a pointer to the dead task, and its unreaped zombies stay on a list that nobody looks at.

Tasks are named by the order of their creation, and the structure of a task is never freed.  The
wakeup of the parent is left to the model of waiting; a wait is the part that runs after it.

Main results:

- Theorem {lit}`exitTree_family`: an exit moves the node of the task between two lists.
- Theorem {lit}`TreeInv.reap`: a wait destroys the zombies of its list, each once.
- Theorem {lit}`process_tree_iff`: the tree is right in every state of a run exactly if no task exits
  while it has children or zombies.
-/

namespace Micael
namespace Sched

open Foundation Lib

/-- The list nodes of the tasks: `list`, `children` and `zombies`. -/
inductive TaskNode where
  | list (t : Nat)
  | children (t : Nat)
  | zombies (t : Nat)
deriving DecidableEq, Repr

/-- What has become of a task. -/
inductive Life where
  | live
  | zombie
  | destroyed
deriving DecidableEq, Repr

/-- The list nodes, `parent` and the life of the tasks, the number of the next one, and the tasks that
were passed to `sched_task_destroy` so far. -/
structure ProcTree where
  links : Links TaskNode
  parent : Nat → Option Nat
  life : Nat → Life
  next : Nat
  reaped : List Nat

/-- A task that has not exited. -/
def ProcTree.Live (s : ProcTree) (t : Nat) : Prop := t < s.next ∧ s.life t = .live

/-! ## The system calls -/

/-- `LIST_EMPTY`. -/
def listEmpty (l : Links TaskNode) (h : TaskNode) : Bool := (l h).next = some h

/-- `sched_task_fork` and the start of the child. -/
def schedTaskFork (s : ProcTree) (parent : Nat) : ProcTree :=
  let child := s.next
  let links := listInit s.links (.children child)
  let links := listInit links (.zombies child)
  let links := listInit links (.list child)
  { links := listAppend links (.children parent) (.list child)
    parent := Function.update s.parent child (some parent)
    life := Function.update s.life child .live
    next := s.next + 1
    reaped := s.reaped }

/-- The part of `sys_exit` that concerns the tree. -/
def exitTree (s : ProcTree) (current : Nat) : Except Halt ProcTree :=
  match s.parent current with
  | none => .error .kassert
  | some parent =>
      .ok { s with
        parent := if listEmpty s.links (.children current) then s.parent
          else Function.update s.parent current none
        life := Function.update s.life current .zombie
        links := listAppend (listRemove s.links (.list current)) (.zombies parent) (.list current) }

/-- The `FOREACH` loop of `sys_wait` at node `iter`; the turns are counted. -/
def reapLoop : Nat → ProcTree → Nat → Option TaskNode → Except Halt ProcTree
  | 0, _, _, _ => .error .hang
  | _ + 1, _, _, none => .error .fault
  | _ + 1, _, _, some (.children _) => .error .fault
  | _ + 1, s, current, some (.zombies t) => if t = current then .ok s else .error .fault
  | turns + 1, s, current, some (.list child) =>
      if s.life child ≠ .zombie then .error .kassert
      else
        -- `sched_task_destroy` does not touch the list
        let s := { s with
          life := Function.update s.life child .destroyed
          reaped := s.reaped ++ [child] }
        reapLoop turns s current (s.links (.list child)).next

/-- `sys_wait` from the reaping on. -/
def reap (turns : Nat) (s : ProcTree) (current : Nat) : Except Halt ProcTree :=
  (reapLoop turns s current (s.links (.zombies current)).next).map fun s =>
    { s with links := listInit s.links (.zombies current) }

/-- The tree with the init task alone. -/
def initTree : ProcTree where
  links := listInit (listInit (listInit (fun _ => ⟨none, none⟩) (.children 0)) (.zombies 0)) (.list 0)
  parent _ := none
  life _ := .live
  next := 1
  reaped := []

/-! ## Runs -/

/-- A system call and the task that makes it. -/
inductive TreeCall where
  | fork (t : Nat)
  | exit (t : Nat)
  | wait (t : Nat)
deriving DecidableEq, Repr

/-- One system call.  The init task never exits. -/
inductive TreeStep : ProcTree → TreeCall → ProcTree → Prop
  | fork {s : ProcTree} {t : Nat} : s.Live t → TreeStep s (.fork t) (schedTaskFork s t)
  | exit {s s' : ProcTree} {t : Nat} : s.Live t → t ≠ 0 → exitTree s t = .ok s' →
      TreeStep s (.exit t) s'
  | wait {s s' : ProcTree} {t turns : Nat} : s.Live t → reap turns s t = .ok s' →
      TreeStep s (.wait t) s'

/-- Every living task but the first one has a living parent and is once on the list of its children
and on no list of zombies; every task that has exited and was not destroyed is once on the list of
zombies of a living task. -/
structure TreeOk (s : ProcTree) : Prop where
  live : ∀ t, s.Live t → t ≠ 0 → ∃ p, s.parent t = some p ∧ s.Live p ∧
    (∃ xs, ListRing s.links (.children p) xs ∧ xs.count (.list t) = 1) ∧
    ∀ q < s.next, ∀ xs, ListRing s.links (.zombies q) xs → .list t ∉ xs
  zombie : ∀ t < s.next, s.life t = .zombie →
    ∃ p, s.Live p ∧ ∃ xs, ListRing s.links (.zombies p) xs ∧ xs.count (.list t) = 1

/-- A task exits only when it has neither children nor zombies. -/
def ExitsAsLeaf (s : ProcTree) (call : TreeCall) : Prop :=
  ∀ t, call = .exit t → listEmpty s.links (.children t) ∧ listEmpty s.links (.zombies t)

/-! ## The invariant -/

/-- The heads of the lists of the first {lit}`n` tasks. -/
def taskHeads (n : Nat) : Set TaskNode := { h | ∃ t < n, h = .children t ∨ h = .zombies t }

/-- The nodes on the lists of these children and zombies. -/
def contents (kids zombs : Nat → List Nat) : TaskNode → List TaskNode
  | .list _ => []
  | .children t => (kids t).map .list
  | .zombies t => (zombs t).map .list

/-- The lists hold the children and the zombies of every task, and no dead task has any. -/
structure TreeInv (s : ProcTree) (kids zombs : Nat → List Nat) : Prop where
  init : s.Live 0
  family : ListFamily s.links (taskHeads s.next) (contents kids zombs)
  kids_iff : ∀ p < s.next, ∀ c, c ∈ kids p ↔ s.Live c ∧ c ≠ 0 ∧ s.parent c = some p
  zombs_iff : ∀ p < s.next, ∀ z, z ∈ zombs p ↔ z < s.next ∧ s.life z = .zombie ∧ s.parent z = some p
  older : ∀ t < s.next, ∀ p, s.parent t = some p → p < t
  alive : ∀ t < s.next, t ≠ 0 → s.life t ≠ .destroyed → ∃ p, s.parent t = some p ∧ s.Live p

variable {s s' : ProcTree} {kids zombs : Nat → List Nat} {t p : Nat}

theorem contents_kids (kids zombs : Nat → List Nat) (p : Nat) (xs : List Nat) :
    contents (Function.update kids p xs) zombs =
      Function.update (contents kids zombs) (.children p) (xs.map .list) := by
  funext n
  cases n with
  | list t => rfl
  | zombies t => rfl
  | children t =>
      by_cases h : t = p
      · subst h
        simp [contents]
      · simp [contents, h]

theorem contents_zombs (kids zombs : Nat → List Nat) (p : Nat) (xs : List Nat) :
    contents kids (Function.update zombs p xs) =
      Function.update (contents kids zombs) (.zombies p) (xs.map .list) := by
  funext n
  cases n with
  | list t => rfl
  | children t => rfl
  | zombies t =>
      by_cases h : t = p
      · subst h
        simp [contents]
      · simp [contents, h]

theorem children_mem_heads (h : t < s.next) : TaskNode.children t ∈ taskHeads s.next := ⟨t, h, .inl rfl⟩

theorem zombies_mem_heads (h : t < s.next) : TaskNode.zombies t ∈ taskHeads s.next := ⟨t, h, .inr rfl⟩

/-- The list of children of a task. -/
theorem TreeInv.children (h : TreeInv s kids zombs) (ht : t < s.next) :
    ListRing s.links (.children t) ((kids t).map .list) :=
  h.family.ring _ (children_mem_heads ht)

/-- The list of zombies of a task. -/
theorem TreeInv.zombies (h : TreeInv s kids zombs) (ht : t < s.next) :
    ListRing s.links (.zombies t) ((zombs t).map .list) :=
  h.family.ring _ (zombies_mem_heads ht)

/-- `LIST_EMPTY` tells whether a list is empty. -/
theorem listEmpty_iff {l : Links TaskNode} {h : TaskNode} {xs : List TaskNode}
    (hring : ListRing l h xs) : listEmpty l h = true ↔ xs = [] := by
  unfold listEmpty
  rw [hring.next_head, decide_eq_true_iff, Option.some.injEq]
  cases xs with
  | nil => simp
  | cons x xs =>
      have hne : x ≠ h := fun heq => (List.nodup_cons.mp hring.nodup).1 (heq ▸ List.mem_cons_self)
      simp [hne]

theorem mem_map_list {xs : List Nat} : TaskNode.list t ∈ xs.map TaskNode.list ↔ t ∈ xs := by
  simp

theorem count_of_mem {l : Links TaskNode} {h : TaskNode} {xs : List Nat}
    (hring : ListRing l h (xs.map .list)) (ht : t ∈ xs) : (xs.map TaskNode.list).count (.list t) = 1 :=
  List.count_eq_one_of_mem (List.nodup_cons.mp hring.nodup).2 (mem_map_list.mpr ht)

theorem TreeInv.ok (h : TreeInv s kids zombs) : TreeOk s := by
  constructor
  case live =>
    intro t ht hne
    obtain ⟨p, hp, hlive⟩ := h.alive t ht.1 hne (by rw [ht.2]; decide)
    have hmem : t ∈ kids p := (h.kids_iff p hlive.1 t).mpr ⟨ht, hne, hp⟩
    refine ⟨p, hp, hlive, ⟨_, h.children hlive.1, count_of_mem (h.children hlive.1) hmem⟩, ?_⟩
    intro q hq xs hxs hin
    rw [hxs.unique (h.zombies hq), mem_map_list, h.zombs_iff q hq t] at hin
    cases ht.2.symm.trans hin.2.1
  case zombie =>
    intro t ht hz
    have hne : t ≠ 0 := by
      rintro rfl
      cases h.init.2.symm.trans hz
    obtain ⟨p, hp, hlive⟩ := h.alive t ht hne (by rw [hz]; decide)
    have hmem : t ∈ zombs p := (h.zombs_iff p hlive.1 t).mpr ⟨ht, hz, hp⟩
    exact ⟨p, hlive, _, h.zombies hlive.1, count_of_mem (h.zombies hlive.1) hmem⟩

/-! ## Fork -/

/-- The nodes of a task that does not exist yet are on no list. -/
theorem TreeInv.loose (h : TreeInv s kids zombs) {n : TaskNode}
    (hn : n = .list s.next ∨ n = .children s.next ∨ n = .zombies s.next) :
    Loose (taskHeads s.next) (contents kids zombs) n := by
  rintro head ⟨t, ht, rfl | rfl⟩ hmem
  · rcases List.mem_cons.mp hmem with heq | hin
    · rcases hn with rfl | rfl | rfl
      · cases heq
      · cases heq
        exact lt_irrefl _ ht
      · cases heq
    · obtain ⟨c, hc, rfl⟩ := List.mem_map.mp hin
      rcases hn with heq | heq | heq
      · cases heq
        exact lt_irrefl _ ((h.kids_iff t ht _).mp hc).1.1
      · cases heq
      · cases heq
  · rcases List.mem_cons.mp hmem with heq | hin
    · rcases hn with rfl | rfl | rfl
      · cases heq
      · cases heq
      · cases heq
        exact lt_irrefl _ ht
    · obtain ⟨c, hc, rfl⟩ := List.mem_map.mp hin
      rcases hn with heq | heq | heq
      · cases heq
        exact lt_irrefl _ ((h.zombs_iff t ht _).mp hc).1
      · cases heq
      · cases heq

theorem taskHeads_succ (n : Nat) :
    taskHeads (n + 1) = insert (.zombies n) (insert (.children n) (taskHeads n)) := by
  ext head
  constructor
  · rintro ⟨t, ht, hhead⟩
    by_cases hlt : t < n
    · exact .inr (.inr ⟨t, hlt, hhead⟩)
    · obtain rfl : t = n := by omega
      rcases hhead with rfl | rfl
      · exact .inr (.inl rfl)
      · exact .inl rfl
  · rintro (rfl | rfl | ⟨t, ht, hhead⟩)
    · exact ⟨n, Nat.lt_succ_self n, .inr rfl⟩
    · exact ⟨n, Nat.lt_succ_self n, .inl rfl⟩
    · exact ⟨t, Nat.lt_succ_of_lt ht, hhead⟩

/-- The lists after a fork. -/
theorem schedTaskFork_family (h : TreeInv s kids zombs) (ht : t < s.next) :
    ListFamily (schedTaskFork s t).links (taskHeads (s.next + 1))
      (contents (Function.update (Function.update kids s.next []) t (s.next :: kids t))
        (Function.update zombs s.next [])) := by
  have hlist := h.loose (.inl rfl)
  have hchildren := h.loose (.inr (.inl rfl))
  have hzombies := h.loose (.inr (.inr rfl))
  have hne : t ≠ s.next := ht.ne
  have hfam₁ := h.family.addHead hchildren
  have hloose₁ := hlist.addHead (h := .children s.next) (by simp)
  have hfam₂ := hfam₁.addHead (hzombies.addHead (by simp))
  have hloose₂ := hloose₁.addHead (h := .zombies s.next) (by simp)
  have hfam₃ := hfam₂.initLoose hloose₂
  have hmem : TaskNode.children t ∈
      insert (.zombies s.next) (insert (.children s.next) (taskHeads s.next)) :=
    .inr (.inr (children_mem_heads ht))
  have hfam₄ := hfam₃.append hmem hloose₂
  rw [taskHeads_succ, contents_kids, contents_zombs, contents_kids]
  simpa [schedTaskFork, contents, hne] using hfam₄

theorem schedTaskFork_live (s : ProcTree) (t x : Nat) :
    (schedTaskFork s t).Live x ↔ x = s.next ∨ s.Live x := by
  by_cases hx : x = s.next
  · subst hx
    simp [schedTaskFork, ProcTree.Live]
  · have hlt : x < s.next + 1 ↔ x < s.next := by omega
    simp [schedTaskFork, ProcTree.Live, hx, hlt]

theorem schedTaskFork_parent (s : ProcTree) (t x : Nat) :
    (schedTaskFork s t).parent x = if x = s.next then some t else s.parent x :=
  Function.update_apply _ _ _ _

/-- A fork adds a child to the task. -/
theorem TreeInv.fork (h : TreeInv s kids zombs) (ht : s.Live t) :
    TreeInv (schedTaskFork s t)
      (Function.update (Function.update kids s.next []) t (s.next :: kids t))
      (Function.update zombs s.next []) := by
  have hne : t ≠ s.next := ht.1.ne
  have hnext : (schedTaskFork s t).next = s.next + 1 := rfl
  have hnonzero : s.next ≠ 0 := by
    have hpos := h.init.1
    omega
  -- nothing points to the new task yet
  have hchildless : ∀ x < s.next, s.parent x ≠ some s.next := by
    intro x hx hparent
    have hlt := h.older x hx _ hparent
    omega
  constructor
  case init => exact (schedTaskFork_live s t 0).mpr (.inr h.init)
  case family => exact schedTaskFork_family h ht.1
  case kids_iff =>
    intro p hp c
    rw [schedTaskFork_live, schedTaskFork_parent]
    by_cases hpt : p = t
    · subst hpt
      rw [Function.update_self, List.mem_cons, h.kids_iff p ht.1]
      by_cases hc : c = s.next
      · simp [hc, hnonzero]
      · simp [hc]
    · rw [Function.update_of_ne hpt]
      by_cases hpn : p = s.next
      · subst hpn
        rw [Function.update_self]
        by_cases hc : c = s.next
        · simp [hc, hne]
        · simp only [List.not_mem_nil, hc, if_false, false_or, false_iff, not_and]
          exact fun hlive _ => hchildless c hlive.1
      · have hplt : p < s.next := by omega
        rw [Function.update_of_ne hpn, h.kids_iff p hplt]
        by_cases hc : c = s.next
        · subst hc
          simp only [if_true, true_or, true_and, Option.some.injEq]
          constructor
          · exact fun hlive => absurd hlive.1.1 (lt_irrefl _)
          · exact fun hparent => absurd hparent.2.symm hpt
        · simp [hc]
  case zombs_iff =>
    intro p hp z
    rw [schedTaskFork_parent, hnext]
    have hlife : (schedTaskFork s t).life z = if z = s.next then .live else s.life z :=
      Function.update_apply _ _ _ _
    rw [hlife]
    by_cases hpn : p = s.next
    · subst hpn
      rw [Function.update_self]
      by_cases hz : z = s.next
      · simp [hz]
      · simp only [List.not_mem_nil, hz, if_false, false_iff, not_and]
        exact fun hlt _ => hchildless z (by omega)
    · have hplt : p < s.next := by omega
      rw [Function.update_of_ne hpn, h.zombs_iff p hplt]
      by_cases hz : z = s.next
      · simp [hz]
      · have hlt : z < s.next + 1 ↔ z < s.next := by omega
        simp [hz, hlt]
  case older =>
    intro x hx p hp
    rw [schedTaskFork_parent] at hp
    by_cases hxn : x = s.next
    · rw [if_pos hxn] at hp
      obtain rfl := Option.some.inj hp
      exact hxn ▸ ht.1
    · rw [if_neg hxn] at hp
      exact h.older x (by omega) p hp
  case alive =>
    intro x hx hx0 hdest
    rw [schedTaskFork_parent]
    by_cases hxn : x = s.next
    · exact ⟨t, if_pos hxn, (schedTaskFork_live s t t).mpr (.inr ht)⟩
    · have hlife : (schedTaskFork s t).life x = s.life x := Function.update_of_ne hxn _ _
      rw [hlife] at hdest
      obtain ⟨p, hp, hlive⟩ := h.alive x (by omega) hx0 hdest
      exact ⟨p, (if_neg hxn).trans hp, (schedTaskFork_live s t p).mpr (.inr hlive)⟩

/-! ## Exit -/

/-- An exit moves the node of the task from the children of its parent to the zombies. -/
theorem exitTree_family (h : TreeInv s kids zombs) (ht : s.Live t) (hne : t ≠ 0)
    (hcall : exitTree s t = .ok s') :
    ∃ p as bs, s.parent t = some p ∧ s.Live p ∧ kids p = as ++ t :: bs ∧ s'.next = s.next ∧
      s'.life = Function.update s.life t .zombie ∧ s'.reaped = s.reaped ∧
      s'.parent = (if listEmpty s.links (.children t) then s.parent
        else Function.update s.parent t none) ∧
      ListFamily s'.links (taskHeads s.next)
        (contents (Function.update kids p (as ++ bs)) (Function.update zombs p (t :: zombs p))) := by
  obtain ⟨p, hp, hlive⟩ := h.alive t ht.1 hne (by rw [ht.2]; decide)
  have hmem : t ∈ kids p := (h.kids_iff p hlive.1 t).mpr ⟨ht, hne, hp⟩
  obtain ⟨as, bs, hsplit⟩ := List.append_of_mem hmem
  unfold exitTree at hcall
  rw [hp] at hcall
  obtain rfl := Except.ok.inj hcall
  refine ⟨p, as, bs, hp, hlive, hsplit, rfl, rfl, rfl, rfl, ?_⟩
  have hcontents : contents kids zombs (.children p) =
      as.map .list ++ .list t :: bs.map .list := by
    simp [contents, hsplit]
  obtain ⟨hfam, hloose⟩ := h.family.remove (children_mem_heads hlive.1) hcontents
  have hfam' := hfam.append (zombies_mem_heads hlive.1) hloose
  rw [contents_zombs, contents_kids]
  simpa [contents] using hfam'

/-- The exit of a task that has neither children nor zombies. -/
theorem TreeInv.exit (h : TreeInv s kids zombs) (ht : s.Live t) (hne : t ≠ 0)
    (hcall : exitTree s t = .ok s') (hkids : kids t = []) (hzombs : zombs t = []) :
    ∃ kids' zombs', TreeInv s' kids' zombs' := by
  obtain ⟨p, as, bs, hp, hlive, hsplit, hnext, hlife, -, hparent, hfam⟩ :=
    exitTree_family h ht hne hcall
  have hempty : listEmpty s.links (.children t) = true := by
    rw [listEmpty_iff (h.children ht.1), hkids, List.map_nil]
  rw [if_pos hempty] at hparent
  have hpt : p < t := h.older t ht.1 p hp
  have hlife' : ∀ x, s'.life x = if x = t then .zombie else s.life x := by
    intro x
    rw [hlife]
    exact Function.update_apply _ _ _ _
  have hlive' : ∀ x, s'.Live x ↔ x ≠ t ∧ s.Live x := by
    intro x
    unfold ProcTree.Live
    rw [hnext, hlife']
    by_cases hx : x = t
    · simp [hx]
    · simp [hx]
  have hnodup : (kids p).Nodup := (List.nodup_cons.mp (h.children hlive.1).nodup).2.of_map _
  have hleft : ∀ c, c ∈ as ++ bs ↔ c ≠ t ∧ c ∈ kids p := by
    intro c
    rw [hsplit] at hnodup ⊢
    grind
  refine ⟨Function.update kids p (as ++ bs), Function.update zombs p (t :: zombs p), ?_⟩
  constructor
  case init => exact (hlive' 0).mpr ⟨Ne.symm hne, h.init⟩
  case family => exact hnext ▸ hfam
  case kids_iff =>
    intro q hq c
    rw [hnext] at hq
    rw [hlive', hparent]
    by_cases hqp : q = p
    · subst hqp
      rw [Function.update_self, hleft, h.kids_iff q hq]
      tauto
    · rw [Function.update_of_ne hqp, h.kids_iff q hq]
      constructor
      · rintro ⟨hc, hc0, hcq⟩
        refine ⟨⟨?_, hc⟩, hc0, hcq⟩
        rintro rfl
        exact hqp (Option.some.inj (hcq.symm.trans hp))
      · rintro ⟨⟨-, hc⟩, hc0, hcq⟩
        exact ⟨hc, hc0, hcq⟩
  case zombs_iff =>
    intro q hq z
    rw [hnext] at hq ⊢
    rw [hlife', hparent]
    by_cases hqp : q = p
    · subst hqp
      rw [Function.update_self, List.mem_cons, h.zombs_iff q hq]
      by_cases hz : z = t
      · subst hz
        simp [ht.1, hp]
      · simp [hz]
    · rw [Function.update_of_ne hqp, h.zombs_iff q hq]
      by_cases hz : z = t
      · subst hz
        have hpq : s.parent z ≠ some q := by
          rw [hp]
          exact fun heq => hqp (Option.some.inj heq).symm
        simp [hpq]
      · simp [hz]
  case older =>
    intro x hx q hq
    rw [hparent] at hq
    exact h.older x (hnext ▸ hx) q hq
  case alive =>
    intro x hx hx0 hdest
    rw [hnext] at hx
    rw [hparent]
    by_cases hxt : x = t
    · subst hxt
      exact ⟨p, hp, (hlive' p).mpr ⟨hpt.ne, hlive⟩⟩
    · rw [hlife', if_neg hxt] at hdest
      obtain ⟨q, hq, hqlive⟩ := h.alive x hx hx0 hdest
      refine ⟨q, hq, (hlive' q).mpr ⟨?_, hqlive⟩⟩
      -- the task has no children and no zombies
      rintro rfl
      cases hxlife : s.life x with
      | live =>
          have hmem := (h.kids_iff q ht.1 x).mpr ⟨⟨hx, hxlife⟩, hx0, hq⟩
          rw [hkids] at hmem
          cases hmem
      | zombie =>
          have hmem := (h.zombs_iff q ht.1 x).mpr ⟨hx, hxlife, hq⟩
          rw [hzombs] at hmem
          cases hmem
      | destroyed => exact hdest hxlife

/-- After the exit of a task with children or zombies the tree is not right. -/
theorem TreeInv.leaf_of_ok (h : TreeInv s kids zombs) (ht : s.Live t) (hne : t ≠ 0)
    (hcall : exitTree s t = .ok s') (hok : TreeOk s') : kids t = [] ∧ zombs t = [] := by
  obtain ⟨p, as, bs, hp, hlive, hsplit, hnext, hlife, -, hparent, hfam⟩ :=
    exitTree_family h ht hne hcall
  have hdead : ¬ s'.Live t := by
    rintro ⟨-, hlive'⟩
    rw [hlife, Function.update_self] at hlive'
    cases hlive'
  constructor
  · by_contra hkids
    obtain ⟨c, hc⟩ := List.exists_mem_of_ne_nil _ hkids
    obtain ⟨hclive, hc0, hcparent⟩ := (h.kids_iff t ht.1 c).mp hc
    have hct : c ≠ t := (h.older c hclive.1 t hcparent).ne'
    -- the child lives on and still points to its parent
    have hclive' : s'.Live c := by
      refine ⟨hnext ▸ hclive.1, ?_⟩
      rw [hlife, Function.update_of_ne hct]
      exact hclive.2
    obtain ⟨q, hq, hqlive, -⟩ := hok.live c hclive' hc0
    have hcparent' : s'.parent c = some t := by
      rw [hparent]
      by_cases hempty : listEmpty s.links (.children t) = true
      · rw [if_pos hempty, hcparent]
      · rw [if_neg hempty, Function.update_of_ne hct, hcparent]
    obtain rfl := Option.some.inj (hcparent'.symm.trans hq)
    exact hdead hqlive
  · by_contra hzombs
    obtain ⟨z, hz⟩ := List.exists_mem_of_ne_nil _ hzombs
    obtain ⟨hzlt, hzlife, hzparent⟩ := (h.zombs_iff t ht.1 z).mp hz
    have hzt : z ≠ t := by
      rintro rfl
      cases ht.2.symm.trans hzlife
    have hzlife' : s'.life z = .zombie := by rw [hlife, Function.update_of_ne hzt, hzlife]
    obtain ⟨q, hqlive, xs, hxs, hcount⟩ := hok.zombie z (hnext ▸ hzlt) hzlife'
    have hqlt : q < s.next := hnext ▸ hqlive.1
    have hin : TaskNode.list z ∈ xs := List.count_pos_iff.mp (by rw [hcount]; exact Nat.one_pos)
    rw [hxs.unique (hfam.ring _ (zombies_mem_heads hqlt))] at hin
    have hmem : z ∈ zombs q := by
      by_cases hqp : q = p
      · subst hqp
        simpa [contents, hzt] using hin
      · simpa [contents, hqp] using hin
    have hzq := ((h.zombs_iff q hqlt z).mp hmem).2.2
    obtain rfl := Option.some.inj (hzparent.symm.trans hzq)
    exact hdead hqlive

/-! ## Wait -/

/-- The loop from a node of the list on: the zombies behind it are destroyed. -/
theorem reapLoop_linked {xs : List Nat} {iter : TaskNode}
    (hlinked : s.links.Linked (iter :: (xs.map TaskNode.list) ++ [.zombies t]))
    (hzombie : ∀ z ∈ xs, s.life z = .zombie) (hnodup : xs.Nodup) :
    reapLoop (xs.length + 1) s t (s.links iter).next =
      .ok { s with
        life := fun z => if z ∈ xs then .destroyed else s.life z
        reaped := s.reaped ++ xs } := by
  induction xs generalizing s iter with
  | nil =>
      have hnext : (s.links iter).next = some (.zombies t) := (List.isChain_cons_cons.mp hlinked).1.1
      rw [hnext]
      simp [reapLoop]
  | cons x xs ih =>
      obtain ⟨hx, hrest⟩ := List.isChain_cons_cons.mp hlinked
      obtain ⟨hnot, hnodup'⟩ := List.nodup_cons.mp hnodup
      let s₁ : ProcTree :=
        { s with life := Function.update s.life x .destroyed, reaped := s.reaped ++ [x] }
      have hzombie₁ : ∀ z ∈ xs, s₁.life z = .zombie := by
        intro z hz
        have hzx : z ≠ x := fun heq => hnot (heq ▸ hz)
        exact (Function.update_of_ne hzx _ _).trans (hzombie z (List.mem_cons_of_mem x hz))
      have hloop := @ih s₁ (.list x) hrest hzombie₁ hnodup'
      have hlife : ¬ s.life x ≠ .zombie := not_not.mpr (hzombie x List.mem_cons_self)
      rw [hx.1, List.length_cons, reapLoop, if_neg hlife]
      have hlife' : (fun z => if z ∈ xs then Life.destroyed else s₁.life z) =
          fun z => if z ∈ x :: xs then Life.destroyed else s.life z := by
        funext z
        by_cases hzx : z = x
        · subst hzx
          simp [s₁]
        · simp [s₁, hzx]
      refine hloop.trans ?_
      rw [hlife']
      simp [s₁]

/-- A wait destroys the zombies of its list, each once, and empties the list. -/
theorem TreeInv.reap (h : TreeInv s kids zombs) (ht : s.Live t) :
    ∃ s', reap ((zombs t).length + 1) s t = .ok s' ∧ s'.next = s.next ∧ s'.parent = s.parent ∧
      (∀ z, s'.life z = if z ∈ zombs t then .destroyed else s.life z) ∧
      s'.reaped = s.reaped ++ zombs t ∧ TreeInv s' kids (Function.update zombs t []) := by
  have hring := h.zombies ht.1
  have hzombie : ∀ z ∈ zombs t, s.life z = .zombie := fun z hz =>
    ((h.zombs_iff t ht.1 z).mp hz).2.1
  have hnodup : (zombs t).Nodup := (List.nodup_cons.mp hring.nodup).2.of_map _
  have hloop := reapLoop_linked hring.linked hzombie hnodup
  let s' : ProcTree :=
    { s with
      links := listInit s.links (.zombies t)
      life := fun z => if z ∈ zombs t then .destroyed else s.life z
      reaped := s.reaped ++ zombs t }
  refine ⟨s', by rw [Sched.reap, hloop]; rfl, rfl, rfl, fun z => rfl, rfl, ?_⟩
  -- a living task is not among the zombies
  have hkeep : ∀ x, s.Live x → x ∉ zombs t := by
    intro x hx hmem
    cases hx.2.symm.trans (hzombie x hmem)
  have hlive' : ∀ x, (x < s.next ∧ (if x ∈ zombs t then Life.destroyed else s.life x) = .live) ↔
      s.Live x := by
    intro x
    by_cases hx : x ∈ zombs t
    · simp only [hx, if_true]
      constructor
      · rintro ⟨-, hlife⟩
        cases hlife
      · exact fun hlive => absurd hx (hkeep x hlive)
    · simp [hx, ProcTree.Live]
  constructor
  case init => exact (hlive' 0).mpr h.init
  case family =>
    rw [contents_zombs]
    exact h.family.clear (zombies_mem_heads ht.1)
  case kids_iff =>
    intro p hp c
    rw [h.kids_iff p hp]
    exact and_congr_left fun _ => (hlive' c).symm
  case zombs_iff =>
    intro p hp z
    change _ ↔ z < s.next ∧ (if z ∈ zombs t then Life.destroyed else s.life z) = .zombie ∧
      s.parent z = some p
    by_cases hz : z ∈ zombs t
    · have hparent := ((h.zombs_iff t ht.1 z).mp hz).2.2
      by_cases hpt : p = t
      · subst hpt
        simp [hz]
      · have hnot : z ∉ zombs p := by
          intro hmem
          have hparent' := ((h.zombs_iff p hp z).mp hmem).2.2
          exact hpt (Option.some.inj (hparent'.symm.trans hparent))
        simp [hz, hpt, hnot]
    · by_cases hpt : p = t
      · subst hpt
        rw [Function.update_self, if_neg hz]
        rw [h.zombs_iff p hp] at hz
        simp only [List.not_mem_nil, false_iff]
        exact hz
      · rw [Function.update_of_ne hpt, if_neg hz, h.zombs_iff p hp]
  case older => exact h.older
  case alive =>
    intro x hx hx0 hdest
    have hnot : x ∉ zombs t := fun hmem => hdest (if_pos hmem)
    have hlife : s.life x ≠ .destroyed := fun heq => hdest ((if_neg hnot).trans heq)
    obtain ⟨p, hp, hlive⟩ := h.alive x hx hx0 hlife
    exact ⟨p, hp, (hlive' p).mpr hlive⟩

/-- The loop does not depend on the number of turns. -/
theorem reapLoop_mono {turns turns' : Nat} {iter : Option TaskNode} (hle : turns ≤ turns')
    (hcall : reapLoop turns s t iter = .ok s') : reapLoop turns' s t iter = .ok s' := by
  induction turns generalizing turns' s iter with
  | zero => cases hcall
  | succ turns ih =>
      obtain ⟨more, rfl⟩ : ∃ n, turns' = n + 1 := ⟨turns' - 1, by omega⟩
      cases iter with
      | none => cases hcall
      | some iter =>
          cases iter with
          | children c => cases hcall
          | zombies c => exact hcall
          | list c =>
              rw [reapLoop] at hcall ⊢
              by_cases hlife : s.life c ≠ .zombie
              · rw [if_pos hlife] at hcall
                cases hcall
              · rw [if_neg hlife] at hcall ⊢
                exact ih (by omega) hcall

theorem reap_unique {turns turns' : Nat} {s₁ s₂ : ProcTree} (h₁ : reap turns s t = .ok s₁)
    (h₂ : reap turns' s t = .ok s₂) : s₁ = s₂ := by
  obtain ⟨u₁, hu₁, rfl⟩ := Halt.map_eq_ok.mp h₁
  obtain ⟨u₂, hu₂, rfl⟩ := Halt.map_eq_ok.mp h₂
  have hboth₁ := reapLoop_mono (le_max_left turns turns') hu₁
  have hboth₂ := reapLoop_mono (le_max_right turns turns') hu₂
  rw [Except.ok.inj (hboth₁.symm.trans hboth₂)]

/-! ## Whole runs -/

theorem initTree_inv : TreeInv initTree (fun _ => []) (fun _ => []) := by
  constructor
  case init => exact ⟨Nat.one_pos, rfl⟩
  case family =>
    have hnone : ListFamily (fun _ : TaskNode => (⟨none, none⟩ : ListHead TaskNode)) ∅
        (contents (fun _ => []) fun _ => []) :=
      ⟨fun h hh => hh.elim, fun h hh => hh.elim⟩
    have hloose : ∀ n, Loose ∅ (contents (fun _ => []) fun _ => []) n := fun n h hh => hh.elim
    have hfam₁ := hnone.addHead (hloose (.children 0))
    have hfam₂ := hfam₁.addHead ((hloose (.zombies 0)).addHead (by simp))
    have hloose₂ := ((hloose (.list 0)).addHead (h := .children 0) (by simp)).addHead
      (h := .zombies 0) (by simp)
    have hfam₃ := hfam₂.initLoose hloose₂
    have hheads : taskHeads 1 = insert (.zombies 0) (insert (.children 0) ∅) := by
      rw [taskHeads_succ]
      congr 2
      ext n
      constructor
      · rintro ⟨t, ht, -⟩
        exact absurd ht (Nat.not_lt_zero t)
      · exact fun h => h.elim
    have hcontents : contents (fun _ => []) (fun _ => []) = Function.update (Function.update
        (contents (fun _ => []) fun _ => []) (.children 0) []) (.zombies 0) [] := by
      funext n
      cases n with
      | list t => rfl
      | children t => by_cases h : t = 0 <;> simp [contents, h]
      | zombies t => by_cases h : t = 0 <;> simp [contents, h]
    change ListFamily initTree.links (taskHeads 1) _
    rw [hheads, hcontents]
    exact hfam₃
  case kids_iff =>
    intro p hp c
    simp [initTree]
  case zombs_iff =>
    intro p hp z
    simp [initTree]
  case older =>
    intro t ht p hp
    cases hp
  case alive =>
    intro t ht ht0
    have hlt : t < 1 := ht
    omega

/-- The tree is right in every state of a run exactly if no task exits while it has children or
zombies. -/
theorem process_tree_iff (calls : List TreeCall) :
    (∀ pre s, pre <+: calls → Run TreeStep initTree pre s → TreeOk s) ↔
      ∀ pre call s s', pre ++ [call] <+: calls → Run TreeStep initTree pre s →
        TreeStep s call s' → ExitsAsLeaf s call := by
  have hok : ∀ s, (∃ kids zombs, TreeInv s kids zombs) → TreeOk s := by
    rintro s ⟨kids, zombs, h⟩
    exact h.ok
  refine Run.safe_iff hok ?_ ?_ ⟨_, _, initTree_inv⟩ calls
  · rintro s call s' ⟨kids, zombs, h⟩ hstep hleaf
    cases hstep with
    | fork ht => exact ⟨_, _, h.fork ht⟩
    | exit ht hne hcall =>
        obtain ⟨hchildren, hzombies⟩ := hleaf _ rfl
        rw [listEmpty_iff (h.children ht.1), List.map_eq_nil_iff] at hchildren
        rw [listEmpty_iff (h.zombies ht.1), List.map_eq_nil_iff] at hzombies
        exact h.exit ht hne hcall hchildren hzombies
    | wait ht hcall =>
        obtain ⟨u, hu, -, -, -, -, hinv⟩ := h.reap ht
        obtain rfl := reap_unique hcall hu
        exact ⟨_, _, hinv⟩
  · rintro s call s' ⟨kids, zombs, h⟩ hstep hok t rfl
    cases hstep with
    | exit ht hne hcall =>
        obtain ⟨hkids, hzombs⟩ := h.leaf_of_ok ht hne hcall hok
        rw [listEmpty_iff (h.children ht.1), listEmpty_iff (h.zombies ht.1), hkids, hzombs]
        exact ⟨rfl, rfl⟩

/-- A child whose parent exits keeps its pointer to the dead task. -/
theorem process_tree_orphan :
    ∃ s, Run TreeStep initTree [.fork 0, .fork 1, .exit 1] s ∧ ¬ TreeOk s := by
  have hlive₀ : initTree.Live 0 := ⟨Nat.one_pos, rfl⟩
  let s₁ := schedTaskFork initTree 0
  have hlive₁ : s₁.Live 1 := ⟨by decide, rfl⟩
  let s₂ := schedTaskFork s₁ 1
  have hlive₂ : s₂.Live 1 := ⟨by decide, rfl⟩
  have hchild : s₂.Live 2 := ⟨by decide, rfl⟩
  obtain ⟨s₃, hexit⟩ : ∃ s₃, exitTree s₂ 1 = .ok s₃ := ⟨_, rfl⟩
  have hinv := (initTree_inv.fork hlive₀).fork hlive₁
  have hrun : Run TreeStep initTree [.fork 0, .fork 1, .exit 1] s₃ :=
    .snoc (.snoc (.snoc .nil (.fork hlive₀)) (.fork hlive₁)) (.exit hlive₂ (by decide) hexit)
  refine ⟨s₃, hrun, fun hok => ?_⟩
  have hkids := (hinv.leaf_of_ok hlive₂ (by decide) hexit hok).1
  have hmem := (hinv.kids_iff 1 hlive₂.1 2).mpr ⟨hchild, by decide, rfl⟩
  rw [hkids] at hmem
  cases hmem

end Sched
end Micael
