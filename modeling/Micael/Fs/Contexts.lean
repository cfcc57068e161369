import Micael.Foundation.RefCount
import Micael.Foundation.Run
import Micael.Kernel.Machine

/-!
# The contexts that processes share

A task has a file system context and a file context.  A fork gives both of the parent to the child, an
exit gives them up, and the last of the holders releases what the context has: the dentries of a file
system context, the table of descriptors of a file context.  The table is also replaced, by a larger
one, when `vfs_alloc_fd` adds a descriptor.

Contexts are never returned to their cache and are numbered in the order they were allocated.  Tables
are numbered so too: two tables that `kmalloc` put at the same address, one after the other, are
different.  The entries of a table play no role here.  A count is an `int` that memory for tasks runs
out before it overflows.

Main results:

- Theorem {lit}`CtxInv.run`: counts and tables are in order in every state.
- Theorem {lit}`contexts_right`: the count of a context that a task holds is that of the tasks that do, a
  table is freed once when it is no longer in use, and no task is left with a table that was freed.
-/

namespace Micael
namespace Fs

open Foundation

/-! ## Contexts and tasks -/

/-- `fs_ctx_t`; `pwd` may be null. -/
structure FsCtx where
  pwd : Option Nat
  root : Nat
  count : Nat
deriving DecidableEq, Repr

/-- `file_ctx_t`, with the number of its table. -/
structure FileCtx where
  lock : Bool
  count : Nat
  numfd : Nat
  fd : Nat
deriving DecidableEq, Repr

/-- What a `task_t` has of contexts, and the parent that `sys_exit` wants. -/
structure CtxTask where
  pid : Nat
  parent : Option Nat
  fsCtx : Nat
  fileCtx : Nat
deriving DecidableEq, Repr

/-- All contexts, how many of them and how many tables were allocated, the tasks that have not exited,
the tables that were passed to `kfree` and the dentries that were passed to `dentry_dealloc`. -/
structure CtxState where
  fsCtxs : Nat → FsCtx
  fileCtxs : Nat → FileCtx
  numFs : Nat
  numFile : Nat
  numTables : Nat
  tasks : List CtxTask
  nextPid : Nat
  freed : List Nat
  released : List (Option Nat)

/-- Nothing was allocated yet. -/
def CtxState.empty : CtxState where
  fsCtxs _ := ⟨none, 0, 0⟩
  fileCtxs _ := ⟨false, 0, 0, 0⟩
  numFs := 0
  numFile := 0
  numTables := 0
  tasks := []
  nextPid := 0
  freed := []
  released := []

/-- `vfs_alloc_fs_ctx`; `mntRoot` is the root of the root file system. -/
def vfsAllocFsCtx (mntRoot : Nat) (pwd : Option Nat) (s : CtxState) : Nat × CtxState :=
  (s.numFs, { s with
    fsCtxs := Function.update s.fsCtxs s.numFs ⟨pwd, mntRoot, 1⟩
    numFs := s.numFs + 1 })

/-- `vfs_alloc_file_ctx`. -/
def vfsAllocFileCtx (numfd : Nat) (s : CtxState) : Nat × CtxState :=
  (s.numFile, { s with
    fileCtxs := Function.update s.fileCtxs s.numFile ⟨false, 1, numfd, s.numTables⟩
    numFile := s.numFile + 1
    numTables := s.numTables + 1 })

/-- `vfs_alloc_fd`: the new descriptor or an error.  `file` is what `file_generic_alloc` returns; when it
is null the lock stays taken. -/
def vfsAllocFd (ctx file : Option Nat) (s : CtxState) : Except Halt (Except Errno Nat × CtxState) :=
  match ctx with
  | none => .ok (.error .einval, s)
  | some c =>
      if (s.fileCtxs c).lock then .error .hang
      else
        let ret := (s.fileCtxs c).numfd
        let grown := { s.fileCtxs c with lock := true, numfd := ret + 1, fd := s.numTables }
        let freed := s.freed ++ [(s.fileCtxs c).fd]
        match file with
        | none => .ok (.error .enomem, { s with
            fileCtxs := Function.update s.fileCtxs c grown
            numTables := s.numTables + 1
            freed := freed })
        | some _ => .ok (.ok ret, { s with
            fileCtxs := Function.update s.fileCtxs c { grown with lock := false }
            numTables := s.numTables + 1
            freed := freed })

/-- `vfs_free_fs_ctx`. -/
def vfsFreeFsCtx (ctx : Option Nat) (s : CtxState) : Option Errno × CtxState :=
  match ctx with
  | none => (some .einval, s)
  | some c =>
      if 2 ≤ (s.fsCtxs c).count then
        (some .ebusy, { s with
          fsCtxs := Function.update s.fsCtxs c { s.fsCtxs c with count := (s.fsCtxs c).count - 1 } })
      else (none, { s with released := s.released ++ [some (s.fsCtxs c).root, (s.fsCtxs c).pwd] })

/-- `vfs_free_file_ctx`. -/
def vfsFreeFileCtx (ctx : Option Nat) (s : CtxState) : Option Errno × CtxState :=
  match ctx with
  | none => (some .einval, s)
  | some c =>
      if 2 ≤ (s.fileCtxs c).count then
        (some .ebusy, { s with
          fileCtxs := Function.update s.fileCtxs c
            { s.fileCtxs c with count := (s.fileCtxs c).count - 1 } })
      else if 0 < (s.fileCtxs c).numfd then
        (none, { s with freed := s.freed ++ [(s.fileCtxs c).fd] })
      else (none, s)

/-- `sched_task_create`, when `/dev/tty1` can be opened. -/
def schedTaskCreate (mntRoot : Nat) (s : CtxState) : CtxState :=
  let file := vfsAllocFileCtx 3 s
  let fs := vfsAllocFsCtx mntRoot none file.2
  { fs.2 with
    tasks := ⟨s.nextPid, none, fs.1, file.1⟩ :: fs.2.tasks
    nextPid := s.nextPid + 1 }

/-- `sched_task_fork`, as `sys_fork` calls it for the active task. -/
def schedTaskFork (parent : CtxTask) (s : CtxState) : CtxState :=
  let fs := s.fsCtxs parent.fsCtx
  let file := s.fileCtxs parent.fileCtx
  { s with
    fsCtxs := Function.update s.fsCtxs parent.fsCtx { fs with count := fs.count + 1 }
    fileCtxs := Function.update s.fileCtxs parent.fileCtx { file with count := file.count + 1 }
    tasks := ⟨s.nextPid, some parent.pid, parent.fsCtx, parent.fileCtx⟩ :: s.tasks
    nextPid := s.nextPid + 1 }

/-- `sys_exit` of the active task. -/
def sysExit (current : CtxTask) (s : CtxState) : Except Halt CtxState :=
  if current.parent = none then .error .kassert
  else
    let s := (vfsFreeFsCtx (some current.fsCtx) s).2
    let s := (vfsFreeFileCtx (some current.fileCtx) s).2
    .ok { s with tasks := s.tasks.erase current }

/-- The calls of a run. -/
inductive CtxCall where
  | create
  | fork (pid : Nat)
  | exit (pid : Nat)
  | allocFd (pid file : Nat)
deriving DecidableEq, Repr

/-- One call, by a task that has not exited. -/
inductive CtxStep (mntRoot : Nat) : CtxState → CtxCall → CtxState → Prop
  | create {s : CtxState} : CtxStep mntRoot s .create (schedTaskCreate mntRoot s)
  | fork {s : CtxState} {t : CtxTask} (ht : t ∈ s.tasks) :
      CtxStep mntRoot s (.fork t.pid) (schedTaskFork t s)
  | exit {s s' : CtxState} {t : CtxTask} (ht : t ∈ s.tasks) (hcall : sysExit t s = .ok s') :
      CtxStep mntRoot s (.exit t.pid) s'
  | allocFd {s s' : CtxState} {t : CtxTask} {file : Nat} {ret : Except Errno Nat} (ht : t ∈ s.tasks)
      (hcall : vfsAllocFd (some t.fileCtx) (some file) s = .ok (ret, s')) :
      CtxStep mntRoot s (.allocFd t.pid file) s'

/-- The table is that of a context which a task holds. -/
def CtxState.InUse (s : CtxState) (table : Nat) : Prop :=
  ∃ t ∈ s.tasks, (s.fileCtxs t.fileCtx).fd = table

/-- What is promised about contexts. -/
structure ContextsRight (s : CtxState) : Prop where
  /-- The count of a file system context is the number of its holders. -/
  fs_count : ∀ t ∈ s.tasks, (s.fsCtxs t.fsCtx).count = s.tasks.countP fun u => u.fsCtx = t.fsCtx
  /-- The count of a file context is the number of its holders. -/
  file_count : ∀ t ∈ s.tasks,
    (s.fileCtxs t.fileCtx).count = s.tasks.countP fun u => u.fileCtx = t.fileCtx
  /-- A table that is no longer in use was freed once. -/
  freed_once : ∀ table < s.numTables, ¬ s.InUse table → s.freed.count table = 1
  /-- A table in use was not freed. -/
  in_use : ∀ t ∈ s.tasks, (s.fileCtxs t.fileCtx).fd ∉ s.freed
  /-- Nothing else was freed. -/
  freed_lt : ∀ table ∈ s.freed, table < s.numTables

/-! ## The invariant -/

/-- Counts are right, contexts have tables of their own, and the tables that were freed are those that
no context with a holder has. -/
structure CtxInv (s : CtxState) : Prop where
  fs : Counts s.tasks CtxTask.fsCtx fun c => (s.fsCtxs c).count
  file : Counts s.tasks CtxTask.fileCtx fun c => (s.fileCtxs c).count
  fs_lt : ∀ t ∈ s.tasks, t.fsCtx < s.numFs
  file_lt : ∀ t ∈ s.tasks, t.fileCtx < s.numFile
  numfd_pos : ∀ c < s.numFile, 0 < (s.fileCtxs c).numfd
  fd_lt : ∀ c < s.numFile, (s.fileCtxs c).fd < s.numTables
  fd_inj : ∀ c < s.numFile, ∀ c' < s.numFile, (s.fileCtxs c).fd = (s.fileCtxs c').fd → c = c'
  freed_nodup : s.freed.Nodup
  mem_freed : ∀ table, table ∈ s.freed ↔ table < s.numTables ∧
    ¬ ∃ c, Held s.tasks CtxTask.fileCtx c ∧ (s.fileCtxs c).fd = table

variable {s s' : CtxState} {t : CtxTask}

/-- A part of the records that an update of one of them does not change. -/
theorem apply_update_eq {α β : Type} {g : α → β} {f : Nat → α} {i : Nat} {new : α}
    (h : g new = g (f i)) (c : Nat) : g (Function.update f i new c) = g (f c) := by
  by_cases hc : c = i
  · rw [hc, Function.update_self, h]
  · rw [Function.update_of_ne hc]

theorem count_update {α : Type} (g : α → Nat) (f : Nat → α) (i : Nat) (new : α) :
    (fun c => g (Function.update f i new c)) = Function.update (fun c => g (f c)) i (g new) := by
  funext c
  by_cases hc : c = i
  · rw [hc, Function.update_self, Function.update_self]
  · rw [Function.update_of_ne hc, Function.update_of_ne hc]

theorem CtxInv.held_lt (h : CtxInv s) {c : Nat} (hheld : Held s.tasks CtxTask.fileCtx c) :
    c < s.numFile := by
  obtain ⟨t, ht, rfl⟩ := hheld
  exact h.file_lt t ht

/-- The table of a context with a holder was not freed before. -/
theorem CtxInv.freed_append (h : CtxInv s) {c : Nat} (hheld : Held s.tasks CtxTask.fileCtx c) :
    (s.freed ++ [(s.fileCtxs c).fd]).Nodup := by
  have hnot : (s.fileCtxs c).fd ∉ s.freed := by
    rw [h.mem_freed]
    exact fun hmem => hmem.2 ⟨c, hheld, rfl⟩
  apply h.freed_nodup.append (List.nodup_singleton _)
  intro table hmem hlast
  exact hnot (List.mem_singleton.mp hlast ▸ hmem)

theorem CtxInv.empty : CtxInv .empty where
  fs _ hheld := by simp [Held, CtxState.empty] at hheld
  file _ hheld := by simp [Held, CtxState.empty] at hheld
  fs_lt _ ht := by cases ht
  file_lt _ ht := by cases ht
  numfd_pos _ hc := by cases hc
  fd_lt _ hc := by cases hc
  fd_inj _ hc := by cases hc
  freed_nodup := List.nodup_nil
  mem_freed _ := by simp [CtxState.empty]

/-- A context gets a new table: every context still has descriptors and a table of its own. -/
theorem CtxInv.newTable (h : CtxInv s) (c n : Nat) (new : FileCtx)
    (hn : ∀ c' < n, c' ≠ c → c' < s.numFile) (hpos : 0 < new.numfd) (hfd : new.fd = s.numTables) :
    (∀ c' < n, 0 < (Function.update s.fileCtxs c new c').numfd) ∧
      (∀ c' < n, (Function.update s.fileCtxs c new c').fd < s.numTables + 1) ∧
      ∀ c₁ < n, ∀ c₂ < n, (Function.update s.fileCtxs c new c₁).fd =
        (Function.update s.fileCtxs c new c₂).fd → c₁ = c₂ := by
  have hother : ∀ c', c' ≠ c → Function.update s.fileCtxs c new c' = s.fileCtxs c' :=
    fun c' hne => Function.update_of_ne hne _ _
  refine ⟨fun c' hc' => ?_, fun c' hc' => ?_, fun c₁ hc₁ c₂ hc₂ heq => ?_⟩
  · by_cases hne : c' = c
    · rw [hne, Function.update_self]
      exact hpos
    · rw [hother c' hne]
      exact h.numfd_pos c' (hn c' hc' hne)
  · by_cases hne : c' = c
    · rw [hne, Function.update_self, hfd]
      exact Nat.lt_succ_self _
    · rw [hother c' hne]
      exact (h.fd_lt c' (hn c' hc' hne)).trans (Nat.lt_succ_self _)
  · by_cases hne₁ : c₁ = c
    · by_cases hne₂ : c₂ = c
      · rw [hne₁, hne₂]
      · rw [hne₁, Function.update_self, hfd, hother c₂ hne₂] at heq
        exact absurd heq.symm (h.fd_lt c₂ (hn c₂ hc₂ hne₂)).ne
    · rw [hother c₁ hne₁] at heq
      by_cases hne₂ : c₂ = c
      · rw [hne₂, Function.update_self, hfd] at heq
        exact absurd heq (h.fd_lt c₁ (hn c₁ hc₁ hne₁)).ne
      · rw [hother c₂ hne₂] at heq
        exact h.fd_inj c₁ (hn c₁ hc₁ hne₁) c₂ (hn c₂ hc₂ hne₂) heq

/-- A new task has contexts and a table of its own. -/
theorem CtxInv.create (h : CtxInv s) (mntRoot : Nat) : CtxInv (schedTaskCreate mntRoot s) := by
  have hfs : ¬ Held s.tasks CtxTask.fsCtx s.numFs := by
    rintro ⟨t, ht, heq⟩
    exact (h.fs_lt t ht).ne heq
  have hfile : ¬ Held s.tasks CtxTask.fileCtx s.numFile := by
    rintro ⟨t, ht, heq⟩
    exact (h.file_lt t ht).ne heq
  have hold : ∀ c < s.numFile, Function.update s.fileCtxs s.numFile ⟨false, 1, 3, s.numTables⟩ c =
      s.fileCtxs c := fun c hc => Function.update_of_ne hc.ne _ _
  obtain ⟨hpos, hlt, hinj⟩ := h.newTable s.numFile (s.numFile + 1) ⟨false, 1, 3, s.numTables⟩
    (fun c' hc' hne => by omega) (Nat.succ_pos 2) rfl
  constructor
  case fs =>
    dsimp only [schedTaskCreate, vfsAllocFsCtx, vfsAllocFileCtx]
    rw [count_update FsCtx.count]
    exact h.fs.fresh hfs
  case file =>
    dsimp only [schedTaskCreate, vfsAllocFsCtx, vfsAllocFileCtx]
    rw [count_update FileCtx.count]
    exact h.file.fresh hfile
  case fs_lt =>
    intro t ht
    rcases List.mem_cons.mp ht with rfl | ht
    · exact Nat.lt_succ_self _
    · exact (h.fs_lt t ht).trans (Nat.lt_succ_self _)
  case file_lt =>
    intro t ht
    rcases List.mem_cons.mp ht with rfl | ht
    · exact Nat.lt_succ_self _
    · exact (h.file_lt t ht).trans (Nat.lt_succ_self _)
  case numfd_pos => exact hpos
  case fd_lt => exact hlt
  case fd_inj => exact hinj
  case freed_nodup => exact h.freed_nodup
  case mem_freed =>
    intro table
    dsimp only [schedTaskCreate, vfsAllocFsCtx, vfsAllocFileCtx]
    rw [h.mem_freed]
    constructor
    · rintro ⟨hlt, hunused⟩
      refine ⟨hlt.trans (Nat.lt_succ_self _), ?_⟩
      rintro ⟨c, hheld, hfd⟩
      rcases held_cons.mp hheld with rfl | hheld
      · rw [Function.update_self] at hfd
        exact hlt.ne hfd.symm
      · rw [hold c (h.held_lt hheld)] at hfd
        exact hunused ⟨c, hheld, hfd⟩
    · rintro ⟨hlt, hunused⟩
      have hne : table ≠ s.numTables := by
        rintro rfl
        refine hunused ⟨s.numFile, held_cons.mpr (.inl rfl), ?_⟩
        rw [Function.update_self]
      refine ⟨by omega, ?_⟩
      rintro ⟨c, hheld, hfd⟩
      refine hunused ⟨c, held_cons.mpr (.inr hheld), ?_⟩
      rw [hold c (h.held_lt hheld)]
      exact hfd

/-- A change of counts and of the tasks that keeps the contexts with a holder, the descriptors and the
tables. -/
theorem CtxInv.of_counts (h : CtxInv s) {fsCtxs : Nat → FsCtx} {fileCtxs : Nat → FileCtx}
    {tasks : List CtxTask} {nextPid : Nat} {released : List (Option Nat)}
    (hfs : Counts tasks CtxTask.fsCtx fun c => (fsCtxs c).count)
    (hfile : Counts tasks CtxTask.fileCtx fun c => (fileCtxs c).count)
    (hfs_lt : ∀ t ∈ tasks, t.fsCtx < s.numFs)
    (hheld : ∀ c, Held tasks CtxTask.fileCtx c ↔ Held s.tasks CtxTask.fileCtx c)
    (hnumfd : ∀ c, (fileCtxs c).numfd = (s.fileCtxs c).numfd)
    (hfd : ∀ c, (fileCtxs c).fd = (s.fileCtxs c).fd) :
    CtxInv { s with
      fsCtxs := fsCtxs
      fileCtxs := fileCtxs
      tasks := tasks
      nextPid := nextPid
      released := released } where
  fs := hfs
  file := hfile
  fs_lt := hfs_lt
  file_lt t ht := h.held_lt ((hheld _).mp ⟨t, ht, rfl⟩)
  numfd_pos c hc := (hnumfd c).symm ▸ h.numfd_pos c hc
  fd_lt c hc := (hfd c).symm ▸ h.fd_lt c hc
  fd_inj c hc c' hc' heq := h.fd_inj c hc c' hc' ((hfd c).symm.trans (heq.trans (hfd c')))
  freed_nodup := h.freed_nodup
  mem_freed table := by
    rw [h.mem_freed]
    simp only [hheld, hfd]

/-- The child holds the contexts of its parent. -/
theorem CtxInv.fork (h : CtxInv s) (ht : t ∈ s.tasks) : CtxInv (schedTaskFork t s) := by
  refine h.of_counts ?_ ?_ ?_ ?_ ?_ ?_
  · rw [count_update FsCtx.count]
    exact h.fs.share ht rfl
  · rw [count_update FileCtx.count]
    exact h.file.share ht rfl
  · intro u hu
    rcases List.mem_cons.mp hu with rfl | hu
    · exact h.fs_lt t ht
    · exact h.fs_lt u hu
  · intro c
    rw [held_cons]
    constructor
    · rintro (rfl | hheld)
      · exact ⟨t, ht, rfl⟩
      · exact hheld
    · exact .inr
  · exact apply_update_eq (g := FileCtx.numfd) rfl
  · exact apply_update_eq (g := FileCtx.fd) rfl

/-- What `vfs_alloc_fd` does when it returns a descriptor. -/
theorem vfsAllocFd_eq {c file : Nat} {ret : Except Errno Nat}
    (hcall : vfsAllocFd (some c) (some file) s = .ok (ret, s')) :
    s' = { s with
      fileCtxs := Function.update s.fileCtxs c
        ⟨false, (s.fileCtxs c).count, (s.fileCtxs c).numfd + 1, s.numTables⟩
      numTables := s.numTables + 1
      freed := s.freed ++ [(s.fileCtxs c).fd] } := by
  obtain ⟨-, hbody⟩ := guard_eq_ok.mp hcall
  exact (congrArg Prod.snd (Except.ok.inj hbody)).symm

/-- A table is replaced by a new one. -/
theorem CtxInv.allocFd (h : CtxInv s) (ht : t ∈ s.tasks) {file : Nat} {ret : Except Errno Nat}
    (hcall : vfsAllocFd (some t.fileCtx) (some file) s = .ok (ret, s')) : CtxInv s' := by
  obtain rfl := vfsAllocFd_eq hcall
  have hheld : Held s.tasks CtxTask.fileCtx t.fileCtx := ⟨t, ht, rfl⟩
  have hc := h.file_lt t ht
  generalize t.fileCtx = c at hheld hc
  have hother : ∀ c', c' ≠ c → Function.update s.fileCtxs c
      ⟨false, (s.fileCtxs c).count, (s.fileCtxs c).numfd + 1, s.numTables⟩ c' = s.fileCtxs c' :=
    fun c' hne => Function.update_of_ne hne _ _
  obtain ⟨hpos, hlt, hinj⟩ := h.newTable c s.numFile
    ⟨false, (s.fileCtxs c).count, (s.fileCtxs c).numfd + 1, s.numTables⟩
    (fun c' hc' _ => hc') (Nat.succ_pos _) rfl
  constructor
  case fs => exact h.fs
  case file =>
    intro c' hheld'
    have hcount : (Function.update s.fileCtxs c
        ⟨false, (s.fileCtxs c).count, (s.fileCtxs c).numfd + 1, s.numTables⟩ c').count =
        (s.fileCtxs c').count := apply_update_eq (g := FileCtx.count) (by rfl) c'
    exact hcount.trans (h.file c' hheld')
  case fs_lt => exact h.fs_lt
  case file_lt => exact h.file_lt
  case numfd_pos => exact hpos
  case fd_lt => exact hlt
  case fd_inj => exact hinj
  case freed_nodup => exact h.freed_append hheld
  case mem_freed =>
    intro table
    dsimp only
    rw [List.mem_append, List.mem_singleton, h.mem_freed]
    constructor
    · rintro (⟨hlt, hunused⟩ | rfl)
      · refine ⟨hlt.trans (Nat.lt_succ_self _), ?_⟩
        rintro ⟨c', hheld', hfd⟩
        by_cases hne : c' = c
        · rw [hne, Function.update_self] at hfd
          exact hlt.ne hfd.symm
        · rw [hother c' hne] at hfd
          exact hunused ⟨c', hheld', hfd⟩
      · refine ⟨(h.fd_lt c hc).trans (Nat.lt_succ_self _), ?_⟩
        rintro ⟨c', hheld', hfd⟩
        by_cases hne : c' = c
        · rw [hne, Function.update_self] at hfd
          exact (h.fd_lt c hc).ne hfd.symm
        · rw [hother c' hne] at hfd
          exact hne (h.fd_inj c' (h.held_lt hheld') c hc hfd)
    · rintro ⟨hlt, hunused⟩
      by_cases hold : table = (s.fileCtxs c).fd
      · exact .inr hold
      · left
        have hne : table ≠ s.numTables := by
          rintro rfl
          refine hunused ⟨c, hheld, ?_⟩
          rw [Function.update_self]
        refine ⟨by omega, ?_⟩
        rintro ⟨c', hheld', hfd⟩
        have hne' : c' ≠ c := by
          rintro rfl
          exact hold hfd.symm
        refine hunused ⟨c', hheld', ?_⟩
        rw [hother c' hne']
        exact hfd

/-- What an exit does to the file system contexts. -/
theorem vfsFreeFsCtx_counts (h : Counts s.tasks CtxTask.fsCtx fun c => (s.fsCtxs c).count)
    (ht : t ∈ s.tasks) : ∃ fsCtxs released,
      (vfsFreeFsCtx (some t.fsCtx) s).2 = { s with fsCtxs := fsCtxs, released := released } ∧
        Counts (s.tasks.erase t) CtxTask.fsCtx fun c => (fsCtxs c).count := by
  by_cases htwo : 2 ≤ (s.fsCtxs t.fsCtx).count
  · refine ⟨_, s.released, by rw [vfsFreeFsCtx, if_pos htwo], ?_⟩
    rw [count_update FsCtx.count]
    exact (h.drop ht htwo).1
  · exact ⟨s.fsCtxs, _, by rw [vfsFreeFsCtx, if_neg htwo], (h.last ht htwo).1⟩

/-- The last holder of a file context goes with its table. -/
theorem CtxInv.exit_last (h : CtxInv s) (ht : t ∈ s.tasks)
    (hlast : ¬ 2 ≤ (s.fileCtxs t.fileCtx).count) {fsCtxs : Nat → FsCtx} {released : List (Option Nat)}
    (hfs : Counts (s.tasks.erase t) CtxTask.fsCtx fun c => (fsCtxs c).count) :
    CtxInv { s with
      fsCtxs := fsCtxs
      tasks := s.tasks.erase t
      freed := s.freed ++ [(s.fileCtxs t.fileCtx).fd]
      released := released } := by
  obtain ⟨hfile, hgone⟩ := h.file.last ht hlast
  have hheld : Held s.tasks CtxTask.fileCtx t.fileCtx := ⟨t, ht, rfl⟩
  constructor
  case fs => exact hfs
  case file => exact hfile
  case fs_lt => exact fun u hu => h.fs_lt u (List.mem_of_mem_erase hu)
  case file_lt => exact fun u hu => h.file_lt u (List.mem_of_mem_erase hu)
  case numfd_pos => exact h.numfd_pos
  case fd_lt => exact h.fd_lt
  case fd_inj => exact h.fd_inj
  case freed_nodup => exact h.freed_append hheld
  case mem_freed =>
    intro table
    dsimp only
    rw [List.mem_append, List.mem_singleton, h.mem_freed]
    constructor
    · rintro (⟨hlt, hunused⟩ | rfl)
      · refine ⟨hlt, ?_⟩
        rintro ⟨c, hheld', hfd⟩
        exact hunused ⟨c, hheld'.of_erase, hfd⟩
      · refine ⟨h.fd_lt _ (h.file_lt t ht), ?_⟩
        rintro ⟨c, hheld', hfd⟩
        -- the table of another context is another one
        have hc := h.fd_inj c (h.held_lt hheld'.of_erase) _ (h.file_lt t ht) hfd
        exact hgone (hc ▸ hheld')
    · rintro ⟨hlt, hunused⟩
      by_cases htable : table = (s.fileCtxs t.fileCtx).fd
      · exact .inr htable
      · refine .inl ⟨hlt, ?_⟩
        rintro ⟨c, hheld', hfd⟩
        have hc : c ≠ t.fileCtx := by
          rintro rfl
          exact htable hfd.symm
        exact hunused ⟨c, (held_erase_iff ht hc).mpr hheld', hfd⟩

/-- An exit gives up both contexts. -/
theorem CtxInv.exit (h : CtxInv s) (ht : t ∈ s.tasks) (hcall : sysExit t s = .ok s') : CtxInv s' := by
  obtain ⟨-, hbody⟩ := guard_eq_ok.mp hcall
  obtain ⟨fsCtxs, released, hfree, hfs⟩ := vfsFreeFsCtx_counts h.fs ht
  dsimp only at hbody
  rw [hfree] at hbody
  obtain rfl := Except.ok.inj hbody
  by_cases htwo : 2 ≤ (s.fileCtxs t.fileCtx).count
  · obtain ⟨hfile, hleft⟩ := h.file.drop ht htwo
    rw [vfsFreeFileCtx, if_pos htwo]
    refine h.of_counts hfs ?_ (fun u hu => h.fs_lt u (List.mem_of_mem_erase hu)) ?_ ?_ ?_
    · rw [count_update FileCtx.count]
      exact hfile
    · intro c
      by_cases hc : c = t.fileCtx
      · subst hc
        exact ⟨Held.of_erase, fun _ => hleft⟩
      · exact held_erase_iff ht hc
    · exact apply_update_eq (g := FileCtx.numfd) rfl
    · exact apply_update_eq (g := FileCtx.fd) rfl
  · rw [vfsFreeFileCtx, if_neg htwo, if_pos (h.numfd_pos _ (h.file_lt t ht))]
    exact h.exit_last ht htwo hfs

/-- Counts and tables are in order in every state of every run. -/
theorem CtxInv.run {mntRoot : Nat} {calls : List CtxCall}
    (hrun : Run (CtxStep mntRoot) .empty calls s) : CtxInv s := by
  refine hrun.invariant CtxInv (fun s call s' h hstep => ?_) CtxInv.empty
  cases hstep with
  | create => exact h.create mntRoot
  | fork ht => exact h.fork ht
  | exit ht hcall => exact h.exit ht hcall
  | allocFd ht hcall => exact h.allocFd ht hcall

/-- In every run of forks, exits and allocations of descriptors, by any tasks in any order, the count
of a context that is held is the number of its holders, a table is freed once when it is replaced or
its last holder exits, and no task has a context whose table was freed. -/
theorem contexts_right {mntRoot : Nat} {calls : List CtxCall}
    (hrun : Run (CtxStep mntRoot) .empty calls s) : ContextsRight s := by
  have h := CtxInv.run hrun
  constructor
  case fs_count => exact fun t ht => h.fs t.fsCtx ⟨t, ht, rfl⟩
  case file_count => exact fun t ht => h.file t.fileCtx ⟨t, ht, rfl⟩
  case freed_once =>
    intro table hlt hunused
    apply List.count_eq_one_of_mem h.freed_nodup
    rw [h.mem_freed]
    refine ⟨hlt, ?_⟩
    rintro ⟨c, ⟨t, ht, rfl⟩, hfd⟩
    exact hunused ⟨t, ht, hfd⟩
  case in_use =>
    intro t ht hmem
    exact ((h.mem_freed _).mp hmem).2 ⟨t.fileCtx, ⟨t, ht, rfl⟩, rfl⟩
  case freed_lt => exact fun table hmem => ((h.mem_freed table).mp hmem).1

/-- A task forks, the child gets a descriptor and exits: the first table was freed, the second is in
use by the parent. -/
theorem contexts_right_fork_exit :
    ∃ s, Run (CtxStep 7) .empty [.create, .fork 0, .allocFd 1 9, .exit 1] s ∧
      s.tasks = [⟨0, none, 0, 0⟩] ∧ s.freed = [0] ∧ (s.fileCtxs 0).fd = 1 ∧ ContextsRight s := by
  have hrun : ∃ s, Run (CtxStep 7) .empty [.create, .fork 0, .allocFd 1 9, .exit 1] s ∧
      s.tasks = [⟨0, none, 0, 0⟩] ∧ s.freed = [0] ∧ (s.fileCtxs 0).fd = 1 :=
    ⟨_, (((Run.nil.snoc .create).snoc (.fork (t := ⟨0, none, 0, 0⟩) List.mem_cons_self)).snoc
      (.allocFd (t := ⟨1, some 0, 0, 0⟩) List.mem_cons_self rfl)).snoc
      (.exit (t := ⟨1, some 0, 0, 0⟩) List.mem_cons_self rfl), rfl, rfl, rfl⟩
  obtain ⟨s, hrun, htasks, hfreed, hfd⟩ := hrun
  exact ⟨s, hrun, htasks, hfreed, hfd, contexts_right hrun⟩

end Fs
end Micael
