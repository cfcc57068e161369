import Micael.Fs.ElfPages
import Micael.Fs.LookupRelease

/-!
# Failed program starts

`sys_execv` looks up a path, opens the file and hands it to the loaders.  All its failures come to one label, where
the path is released.  The label does not know what is still held: a path without a dentry is not freed by the
release, a path that was released before the loaders were called is released again, and nobody closes the file
that the loaders refused.

The state holds the dentries, the reference counts of the inodes, the file objects and chunks of the heap that
are allocated, the pages, and the arguments of `kfree` so far.  The allocators serve entries that are not in use.
What a device is read from, and what the freed `path_t` holds when it is read again, are arguments.

Main results:

- Theorem {lit}`vfsPathLookup_cases`: the ways a lookup for opening ends, for every path.
- Theorem {lit}`fileOpen_cases`: an open is refused without a trace, or a file object is left.
- Theorem {lit}`execv_rejected`: a file that the loaders refuse is left open, and its path is freed twice.
- Theorem {lit}`execv_no_trace_iff`: when a failed start leaves no trace.
-/

namespace Micael
namespace Fs

open Foundation Lib Arch Mm

/-! ## Files of a file system -/

/-- `d_inode->i_fops`, with what the open handler of the initramfs reads of the inode. -/
inductive FileOps where
  /-- A null pointer. -/
  | null
  /-- A table without `open`. -/
  | noOpen
  | initramfs (regular : Bool) (size : Int) (pstart : Nat)
  | tty
  | keyboard
deriving DecidableEq, Repr

/-- A file system with the operations on its files. -/
structure ExecFs (Obj : Type) extends FileSystem Obj where
  ops : Obj → FileOps

/-- A file that was opened. -/
inductive OpenedFile where
  | ram (file : RamFile)
  | device

/-- What the kernel has allocated, and the arguments of the calls of `kfree`. -/
structure ExecState (Obj : Type) where
  vfs : Vfs Obj
  icount : Obj → Int
  files : Finset Nat
  chunks : Finset Nat
  vm : Vm
  kfreed : List Nat

/-- The file object and the private data that an open handler gets. -/
structure OpenMem where
  file : Nat
  priv : Nat

/-- What the call meets: the lookup and its `path_t`, the memory for the file; the same for `/dev/kbd`, when a tty
is opened; the memory and the page tables of the task; what `file_read` of a device returns and leaves for a page;
and `p_dentry` of the `path_t` after it was freed. -/
structure ExecEnv where
  lookup : LookupEnv
  chunk : Nat
  opened : OpenMem
  kbdLookup : LookupEnv
  kbdChunk : Nat
  kbdOpened : OpenMem
  mem : Memory
  pml4 : Nat
  device : Nat → Int × Memory
  reread : Option Nat

variable {Obj : Type}

/-! ## Reference counts of inodes -/

/-- The inode that `dentry_alloc_ino` gets for one component. -/
def childLoads (fs : FileSystem Obj) (s : Vfs Obj) (parent : Nat) (name : Name) : List Obj :=
  match s.dentries parent with
  | none => []
  | some p => if p.find name ≠ 0 then [] else (inodeLookup fs p name).toList

/-- The inodes that a walk for opening passes to `dentry_alloc_ino`, which raises their counts. -/
def walkLoads (fs : FileSystem Obj) (stale : Nat → Option Hashmap) : Vfs Obj → Nat → List Name → List Obj
  | _, _, [] => []
  | s, parent, [last] => if last = [] then [] else childLoads fs s parent last
  | s, parent, next :: rest :: path =>
      if ((s.dentries parent).bind (·.children)).isNone then []
      else
        childLoads fs s parent next ++
          match findChild fs stale s parent next with
          | .ok (s, some child) => walkLoads fs stale s child (rest :: path)
          | _ => []

/-- Where the walk for a path starts, and the components it goes through. -/
def Cwd.walkOf (cwd : Cwd) (s : Vfs Obj) : Name → Option (Nat × List Name)
  | [] => none
  | c :: rest =>
      if c = slash then s.walkOf rest
      else
        match cwd with
        | .pwd (some start) => some (start, components (c :: rest))
        | _ => none

/-- The inodes whose counts a lookup for opening raises. -/
def lookupLoads (fs : FileSystem Obj) (env : LookupEnv) (s : Vfs Obj) (path : Name) : List Obj :=
  match env.cwd.walkOf s path with
  | none => []
  | some (start, comps) => walkLoads fs env.stale s start comps

/-- The inode of a dentry that a release has freed. -/
def goneInode (before after : Vfs Obj) (a : Option Nat) : Option Obj :=
  a.bind fun a => (before.dentries a).bind fun d => if (after.dentries a).isNone then d.inode else none

/-! ## The calls -/

section Calls

variable [DecidableEq Obj]

/-- `vfs_path_lookup` for opening; its `path_t` is at `chunk`. -/
def ExecState.lookup (s : ExecState Obj) (fs : ExecFs Obj) (env : LookupEnv) (chunk : Nat) (path : Name) :
    Except Halt (ExecState Obj × Path) :=
  (vfsPathLookup fs.toFileSystem env s.vfs path lookupOpen).map fun r =>
    ({ s with
        vfs := r.1
        icount := fun o => s.icount o + (lookupLoads fs.toFileSystem env s.vfs path).count o
        chunks := insert chunk s.chunks }, r.2)

/-- `vfs_path_release` of the `path_t` at `chunk`. -/
def ExecState.release (s : ExecState Obj) (chunk : Nat) (path : Path) : Except Halt (ExecState Obj) :=
  (vfsPathRelease s.vfs path).map fun r =>
    match r.2 with
    | some _ => { s with vfs := r.1 }
    | none =>
        { s with
          vfs := r.1
          icount := fun o => s.icount o - if goneInode s.vfs r.1 path.dentry = some o then 1 else 0
          chunks := s.chunks.erase chunk
          kfreed := s.kfreed ++ [chunk] }

/-- A file object for a device: the count of its inode is raised. -/
def ExecState.addDevice (s : ExecState Obj) (obj : Obj) (mem : OpenMem) : ExecState Obj :=
  { s with
    files := insert mem.file s.files
    icount := Function.update s.icount obj (s.icount obj + 1) }

/-- A file object of the initramfs: the count of its dentry is raised. -/
def ExecState.addRam (s : ExecState Obj) (a : Nat) (mem : OpenMem) : ExecState Obj :=
  { s with
    vfs := s.vfs.raise a
    files := insert mem.file s.files
    chunks := insert mem.priv s.chunks }

/-- `file_open` for reading, but for a tty: `/dev/kbd` is none. -/
def fileOpenPlain (fs : ExecFs Obj) (s : ExecState Obj) (a : Nat) (mem : OpenMem) :
    Except Halt (ExecState Obj × Option OpenedFile) := do
  let d ← s.vfs.deref a
  match d.inode with
  | none => .ok (s, none)
  | some obj =>
      match fs.ops obj with
      | .null => .ok (s, none)
      | .noOpen => .ok (s, none)
      | .initramfs regular size pstart =>
          if regular then .ok (s.addRam a mem, some (.ram ⟨0, size, pstart⟩)) else .ok (s, none)
      | .keyboard => .ok (s.addDevice obj mem, some .device)
      | .tty => .error .hang

/-- The name `kbd`. -/
def kbdName : Name := [107, 98, 100]

/-- `__tty_open` for reading.  The file is not released when `/dev/kbd` cannot be opened, and the path of
`/dev/kbd` is not when it can. -/
def execTtyOpen (fs : ExecFs Obj) (env : ExecEnv) (s : ExecState Obj) (obj : Obj) :
    Except Halt (ExecState Obj × Option OpenedFile) := do
  let (s, found) ← (s.addDevice obj env.opened).lookup fs env.kbdLookup env.kbdChunk
    (absolutePath [devName, kbdName])
  if found.status ≠ .success then .ok (s, none)
  else
    match found.dentry with
    | none => .ok (s, none)
    | some kbd => do
        let (s, file) ← fileOpenPlain fs s kbd env.kbdOpened
        match file with
        | some _ => .ok (s, some .device)
        | none => (s.release env.kbdChunk found).map (·, none)

/-- `file_open` for reading. -/
def fileOpen (fs : ExecFs Obj) (env : ExecEnv) (s : ExecState Obj) (a : Nat) :
    Except Halt (ExecState Obj × Option OpenedFile) := do
  let d ← s.vfs.deref a
  match d.inode.map fun obj => (obj, fs.ops obj) with
  | some (obj, .tty) => execTtyOpen fs env s obj
  | _ => fileOpenPlain fs s a env.opened

/-- `binfmt_load` with its one loader, which has to be `binfmt_elf_loader`.  The size of a device file and what
`file_read` does with it are arguments. -/
def binfmtLoad (env : ExecEnv) (vm : Vm) : OpenedFile → Except Halt ElfExit
  | .ram file => binfmtElfLoader env.mem file env.pml4 vm
  | .device =>
      mmuPageAlloc vm >>= fun (page, vm) =>
        if (env.device page).1 < 0 then .ok (.returned vm)
        else
          (elfLoader (env.device page).2 (pageBuffer page) env.pml4 vm).map fun
            | some program => .entered program
            | none => .returned vm

/-- How `sys_execv` ends when the kernel does not stop: the program has been entered, or -1 is returned. -/
inductive ExecExit (Obj : Type) where
  | entered (program : Userland)
  | failed (s : ExecState Obj)

/-- The label `error` of `sys_execv`. -/
def execError (s : ExecState Obj) (chunk : Nat) (path : Path) : Except Halt (ExecExit Obj) :=
  (s.release chunk path).map .failed

/-- `sys_execv` from the loaders on: the path is released for the second time when they return. -/
def execLoad (env : ExecEnv) (s : ExecState Obj) (path : Path) (file : OpenedFile) :
    Except Halt (ExecExit Obj) := do
  let s ← s.release env.chunk path
  match ← binfmtLoad env s.vm file with
  | .entered program => .ok (.entered program)
  | .returned vm => execError { s with vm := vm } env.chunk { path with dentry := env.reread }

/-- `sys_execv`. -/
def sysExecv (fs : ExecFs Obj) (env : ExecEnv) (s : ExecState Obj) (path : Name) :
    Except Halt (ExecExit Obj) := do
  let (s, found) ← s.lookup fs env.lookup env.chunk path
  if found.status ≠ .success then execError s env.chunk found
  else
    match found.dentry with
    | none => execError s env.chunk found
    | some a => do
        let (s, file) ← fileOpen fs env s a
        match file with
        | none => execError s env.chunk found
        | some file => execLoad env s found file

end Calls

/-! ## What is promised -/

/-- The allocators serve what is not in use. -/
structure ExecEnv.Fresh (env : ExecEnv) (s : ExecState Obj) : Prop where
  chunk : env.chunk ∉ s.chunks
  file : env.opened.file ∉ s.files

/-- The `path_t` of the call was freed once, the counts of the dentries and of their inodes are what they were,
and the same files, chunks and pages are allocated. -/
structure NoTrace (env : ExecEnv) (s s' : ExecState Obj) : Prop where
  once : s'.kfreed.count env.chunk = s.kfreed.count env.chunk + 1
  dentries : s.vfs.SameCounts s'.vfs
  inodes : ∀ a d o, s.vfs.dentries a = some d → d.inode = some o → s'.icount o = s.icount o
  files : s'.files = s.files
  chunks : s'.chunks = s.chunks
  pages : (s'.vm.avail ++ s'.vm.freed).Perm (s.vm.avail ++ s.vm.freed)

/-- The operations with which an open is refused before anything is allocated. -/
def FileOps.refuses : FileOps → Bool
  | .null => true
  | .noOpen => true
  | .initramfs regular _ _ => !regular
  | .tty => false
  | .keyboard => false

/-- The dentry has no inode, or one that refuses to be opened. -/
def ExecFs.Refuses (fs : ExecFs Obj) (d : Dentry Obj) : Prop := ∀ o, d.inode = some o → (fs.ops o).refuses = true

/-- The path has a last component, all its components are cached, the dentry of the last one is held, and it
refuses to be opened. -/
def RefusedQuietly (fs : ExecFs Obj) (cwd : Cwd) (s : Vfs Obj) (path : Name) : Prop :=
  ∃ start comps a d, cwd.walkOf s path = some (start, comps) ∧ comps.getLast? ≠ some [] ∧
    s.cachedWalk start comps = some a ∧ s.dentries a = some d ∧ s.Held d ∧ fs.Refuses d

/-! ## Lookups -/

section Lookup

variable {fs : FileSystem Obj} {env : LookupEnv} {s t u : Vfs Obj} {path : Name} {found : Path} {a parent : Nat}
  {comps : List Name} {d : Dentry Obj}

/-- The ways the walk of a lookup for opening ends: it fails, with no dentry, or a dentry is found and its count
is raised. -/
theorem lookupFrom_cases {start : Option Nat} (hcall : lookupFrom fs env s start path lookupOpen = .ok (t, found)) :
    (found.status ≠ .success ∧ (found.dentry = none ∨ t = s)) ∨
      ∃ start' a u d, start = some start' ∧
        vfsWalkPath fs env.stale lookupOpen s start' (components path) = .ok (u, some a) ∧
        u.dentries a = some d ∧ t = u.raise a ∧ found = openPath a := by
  cases start with
  | none =>
      obtain ⟨rfl, rfl⟩ := Prod.mk.inj (Except.ok.inj hcall)
      exact .inl ⟨by simp, .inr rfl⟩
  | some start =>
      obtain ⟨⟨u, dntr⟩, hwalk, hcall⟩ := Halt.bind_eq_ok.mp hcall
      cases dntr with
      | none =>
          obtain ⟨rfl, rfl⟩ := Prod.mk.inj (Except.ok.inj hcall)
          exact .inl ⟨by simp, .inl rfl⟩
      | some a =>
          obtain ⟨d, hd, hcall⟩ := Halt.bind_eq_ok.mp hcall
          obtain ⟨rfl, rfl⟩ := Prod.mk.inj (Except.ok.inj hcall)
          exact .inr ⟨start, a, u, d, rfl, hwalk, Vfs.deref_eq_ok.mp hd, rfl, rfl⟩

/-- The ways a lookup for opening ends: it fails, with no dentry or before a walk; or the path ends at a mount point
and nothing is raised; or a walk finds a dentry, and its count is raised. -/
theorem vfsPathLookup_cases (hcall : vfsPathLookup fs env s path lookupOpen = .ok (t, found)) :
    (found.status ≠ .success ∧ (found.dentry = none ∨ t = s)) ∨
      ∃ a, found = openPath a ∧ ((env.cwd.walkOf s path = none ∧ t = s) ∨
        ∃ start comps u d, env.cwd.walkOf s path = some (start, comps) ∧
          vfsWalkPath fs env.stale lookupOpen s start comps = .ok (u, some a) ∧
          u.dentries a = some d ∧ t = u.raise a) := by
  cases path with
  | nil =>
      obtain ⟨rfl, rfl⟩ := Prod.mk.inj (Except.ok.inj hcall)
      exact .inl ⟨by simp, .inl rfl⟩
  | cons c rest =>
      by_cases hc : c = slash
      · simp only [vfsPathLookup, if_pos hc] at hcall
        simp only [Cwd.walkOf, if_pos hc, Vfs.walkOf]
        cases hboot : vfsFindBootstrap s rest with
        | mk start left =>
            rw [hboot] at hcall
            cases left with
            | none =>
                obtain ⟨rfl, rfl⟩ := Prod.mk.inj (Except.ok.inj hcall)
                cases start with
                | none => exact .inl ⟨by simp, .inl rfl⟩
                | some a => exact .inr ⟨a, rfl, .inl ⟨rfl, rfl⟩⟩
            | some left =>
                rcases lookupFrom_cases hcall with hfail | ⟨start', a, u, d, hstart, hwalk, hd, ht, hfound⟩
                · exact .inl hfail
                · refine .inr ⟨a, hfound, .inr ⟨start', _, u, d, ?_, hwalk, hd, ht⟩⟩
                  simp only [hstart, Option.map_some]
      · simp only [vfsPathLookup, if_neg hc] at hcall
        simp only [Cwd.walkOf, if_neg hc]
        cases hcwd : env.cwd with
        | noTask =>
            rw [hcwd] at hcall
            obtain ⟨rfl, rfl⟩ := Prod.mk.inj (Except.ok.inj hcall)
            exact .inl ⟨by simp, .inr rfl⟩
        | noCtx =>
            rw [hcwd] at hcall
            obtain ⟨rfl, rfl⟩ := Prod.mk.inj (Except.ok.inj hcall)
            exact .inl ⟨by simp, .inr rfl⟩
        | pwd dntr =>
            rw [hcwd] at hcall
            rcases lookupFrom_cases hcall with hfail | ⟨start', a, u, d, rfl, hwalk, hd, ht, hfound⟩
            · exact .inl hfail
            · exact .inr ⟨a, hfound, .inr ⟨start', _, u, d, rfl, hwalk, hd, ht⟩⟩

/-- A walk for opening that finds a dentry has a last component. -/
theorem vfsWalkPath_last (hwalk : vfsWalkPath fs env.stale lookupOpen s parent comps = .ok (u, some a)) :
    comps.getLast? ≠ some [] := by
  induction comps generalizing s parent with
  | nil => simp
  | cons next rest ih =>
      cases rest with
      | nil =>
          rintro hempty
          obtain rfl : next = [] := by simpa using hempty
          simp only [vfsWalkPath, lookupOpen, Bool.false_eq_true, if_false, if_true] at hwalk
          obtain ⟨d, -, hd⟩ := Halt.map_eq_ok.mp hwalk
          cases (Prod.mk.inj hd).2
      | cons c path =>
          obtain ⟨p, -, hwalk⟩ := Halt.bind_eq_ok.mp hwalk
          by_cases hchildren : p.children.isNone = true
          · rw [if_pos hchildren] at hwalk
            cases (Prod.mk.inj (Except.ok.inj hwalk)).2
          · rw [if_neg hchildren] at hwalk
            obtain ⟨⟨t, child⟩, -, hwalk⟩ := Halt.bind_eq_ok.mp hwalk
            cases child with
            | none => cases (Prod.mk.inj (Except.ok.inj hwalk)).2
            | some child =>
                rw [List.getLast?_cons_cons]
                exact ih hwalk

/-- A component that is cached: the directory is there, has a map, and the child is found without a change. -/
theorem cached_component {name : Name} (stale : Nat → Option Hashmap) (hne : s.cached parent name ≠ 0) :
    ∃ p, s.dentries parent = some p ∧ ¬ p.children.isNone = true ∧ p.find name ≠ 0 ∧
      findChild fs stale s parent name = .ok (s, some (s.cached parent name)) := by
  cases hp : s.dentries parent with
  | none => simp [Vfs.cached, hp] at hne
  | some p =>
      have hfind : p.find name ≠ 0 := by rwa [Vfs.cached_eq hp] at hne
      refine ⟨p, rfl, ?_, hfind, findChild_of_cached stale hp hne⟩
      intro hnone
      simp [Dentry.find, Option.isNone_iff_eq_none.mp hnone] at hfind

/-- A walk through the cache finds its end, and loads nothing. -/
theorem vfsWalkPath_cached (stale : Nat → Option Hashmap) (hcached : s.cachedWalk parent comps = some a)
    (hlast : comps.getLast? ≠ some []) (hne : comps ≠ []) :
    vfsWalkPath fs stale lookupOpen s parent comps = .ok (s, some a) ∧ walkLoads fs stale s parent comps = [] := by
  induction comps generalizing parent with
  | nil => exact absurd rfl hne
  | cons next rest ih =>
      have hnext : s.cached parent next ≠ 0 := by
        intro hzero
        simp [Vfs.cachedWalk, hzero] at hcached
      simp only [Vfs.cachedWalk, if_pos hnext] at hcached
      obtain ⟨p, hp, hmap, hfound, hfind⟩ := @cached_component Obj fs s parent next stale hnext
      have hloads : childLoads fs s parent next = [] := by
        rw [childLoads, hp]
        exact if_pos hfound
      cases rest with
      | nil =>
          have hname : ¬ next = [] := by simpa using hlast
          obtain rfl := Option.some.inj hcached
          constructor
          · simp only [vfsWalkPath, lookupOpen, Bool.false_eq_true, if_false, if_neg hname]
            exact hfind
          · rw [walkLoads, if_neg hname, hloads]
      | cons c path =>
          rw [List.getLast?_cons_cons] at hlast
          obtain ⟨hwalk, hrest⟩ := ih hcached hlast (List.cons_ne_nil c path)
          constructor
          · rw [vfsWalkPath, Vfs.deref_eq_ok.mpr hp, Halt.ok_bind, if_neg hmap, hfind, Halt.ok_bind]
            exact hwalk
          · rw [walkLoads, hp, Option.bind_some, if_neg hmap, hloads, hfind]
            exact hrest

theorem Cwd.walkOf_ne_nil {cwd : Cwd} {start : Nat} (h : cwd.walkOf s path = some (start, comps)) : comps ≠ [] := by
  have hcomponents : ∀ path : Name, components path ≠ [] := fun path => List.splitOn_ne_nil slash path
  cases path with
  | nil => cases h
  | cons c rest =>
      by_cases hc : c = slash
      · simp only [Cwd.walkOf, if_pos hc, Vfs.walkOf] at h
        cases hboot : vfsFindBootstrap s rest with
        | mk first left =>
            rw [hboot] at h
            cases left with
            | none => cases h
            | some left =>
                obtain ⟨start', -, hpair⟩ := Option.map_eq_some_iff.mp h
                obtain ⟨-, rfl⟩ := Prod.mk.inj hpair
                exact hcomponents left
      · simp only [Cwd.walkOf, if_neg hc] at h
        cases cwd with
        | noTask => cases h
        | noCtx => cases h
        | pwd dntr =>
            cases dntr with
            | none => cases h
            | some start' =>
                obtain ⟨-, rfl⟩ := Prod.mk.inj (Option.some.inj h)
                exact hcomponents (c :: rest)

/-- A walk that finds a dentry makes the lookup succeed. -/
theorem vfsPathLookup_of_walk {start : Nat} (hstart : env.cwd.walkOf s path = some (start, comps))
    (hwalk : vfsWalkPath fs env.stale lookupOpen s start comps = .ok (u, some a)) (hd : u.dentries a = some d) :
    vfsPathLookup fs env s path lookupOpen = .ok (u.raise a, openPath a) := by
  cases path with
  | nil => cases hstart
  | cons c rest =>
      by_cases hc : c = slash
      · simp only [Cwd.walkOf, if_pos hc] at hstart
        rw [hc]
        exact opens_of_walk hstart hwalk hd
      · simp only [Cwd.walkOf, if_neg hc] at hstart
        simp only [vfsPathLookup, if_neg hc]
        cases hcwd : env.cwd with
        | noTask => simp [hcwd] at hstart
        | noCtx => simp [hcwd] at hstart
        | pwd dntr =>
            cases dntr with
            | none => simp [hcwd] at hstart
            | some start' =>
                rw [hcwd] at hstart
                obtain ⟨rfl, rfl⟩ := Prod.mk.inj (Option.some.inj hstart)
                simp only [lookupFrom, hwalk, Halt.ok_bind]
                rw [Vfs.deref_eq_ok.mpr hd]
                rfl

end Lookup

/-! ## Releases and opens -/

variable [DecidableEq Obj] {fs : ExecFs Obj} {env : ExecEnv} {s s' t : ExecState Obj} {chunk a : Nat}
  {path : Name} {found : Path} {file : Option OpenedFile}

/-- A release without a dentry does nothing; else the `path_t` is freed. -/
theorem ExecState.release_cases (hcall : s.release chunk found = .ok t) :
    (found.dentry = none ∧ t = s) ∨
      ∃ a vfs, found.dentry = some a ∧ vfsPathRelease s.vfs (openPath a) = .ok (vfs, none) ∧
        t = { s with
          vfs := vfs
          icount := fun o => s.icount o - if goneInode s.vfs vfs (some a) = some o then 1 else 0
          chunks := s.chunks.erase chunk
          kfreed := s.kfreed ++ [chunk] } := by
  obtain ⟨⟨vfs, r⟩, hrelease, ht⟩ := Halt.map_eq_ok.mp hcall
  cases hdentry : found.dentry with
  | none =>
      simp only [vfsPathRelease, hdentry] at hrelease
      obtain ⟨rfl, rfl⟩ := Prod.mk.inj (Except.ok.inj hrelease)
      exact .inl ⟨rfl, ht.symm⟩
  | some a =>
      have hsame : vfsPathRelease s.vfs found = vfsPathRelease s.vfs (openPath a) := by
        simp only [vfsPathRelease, hdentry, openPath]
      have hnone : r = none := by
        rw [hsame] at hrelease
        obtain ⟨d, -, hrelease⟩ := Halt.bind_eq_ok.mp hrelease
        by_cases hone : d.count - 1 = 1
        · rw [if_pos hone] at hrelease
          obtain ⟨⟨e, u⟩, -, hrelease⟩ := Halt.bind_eq_ok.mp hrelease
          exact (Prod.mk.inj (Except.ok.inj hrelease)).2.symm
        · rw [if_neg hone] at hrelease
          exact (Prod.mk.inj (Except.ok.inj hrelease)).2.symm
      subst hnone
      refine .inr ⟨a, vfs, rfl, hsame ▸ hrelease, ?_⟩
      rw [← ht, hdentry]

/-- A release leaves the file objects and the pages. -/
theorem ExecState.release_kept (hcall : s.release chunk found = .ok t) : t.files = s.files ∧ t.vm = s.vm := by
  rcases ExecState.release_cases hcall with ⟨-, rfl⟩ | ⟨a, vfs, -, -, rfl⟩
  · exact ⟨rfl, rfl⟩
  · exact ⟨rfl, rfl⟩

/-- A lookup leaves the file objects, the pages and what was freed. -/
theorem ExecState.lookup_eq {lenv : LookupEnv} (hcall : s.lookup fs lenv chunk path = .ok (t, found)) :
    ∃ vfs, vfsPathLookup fs.toFileSystem lenv s.vfs path lookupOpen = .ok (vfs, found) ∧
      t = { s with
        vfs := vfs
        icount := fun o => s.icount o + (lookupLoads fs.toFileSystem lenv s.vfs path).count o
        chunks := insert chunk s.chunks } := by
  obtain ⟨⟨vfs, found'⟩, hlookup, hpair⟩ := Halt.map_eq_ok.mp hcall
  obtain ⟨rfl, rfl⟩ := Prod.mk.inj hpair
  exact ⟨vfs, hlookup, rfl⟩

/-- An open of a file that is no tty: it is refused, and nothing has changed, or there is a new file object. -/
theorem fileOpenPlain_cases {mem : OpenMem} (hcall : fileOpenPlain fs s a mem = .ok (t, file)) :
    (file = none ∧ t = s ∧ ∃ d, s.vfs.dentries a = some d ∧ fs.Refuses d) ∨
      file ≠ none ∧ t.files = insert mem.file s.files ∧ t.kfreed = s.kfreed := by
  obtain ⟨d, hd, hcall⟩ := Halt.bind_eq_ok.mp hcall
  rw [Vfs.deref_eq_ok] at hd
  cases hinode : d.inode with
  | none =>
      rw [hinode] at hcall
      obtain ⟨rfl, rfl⟩ := Prod.mk.inj (Except.ok.inj hcall)
      refine .inl ⟨rfl, rfl, d, hd, fun o ho => ?_⟩
      cases hinode.symm.trans ho
  | some obj =>
      have hrefuses : (fs.ops obj).refuses = true → fs.Refuses d := by
        intro h o ho
        obtain rfl := Option.some.inj (hinode.symm.trans ho)
        exact h
      rw [hinode] at hcall
      dsimp only at hcall
      cases hops : fs.ops obj with
      | null =>
          rw [hops] at hcall
          obtain ⟨rfl, rfl⟩ := Prod.mk.inj (Except.ok.inj hcall)
          exact .inl ⟨rfl, rfl, d, hd, hrefuses (by rw [hops]; rfl)⟩
      | noOpen =>
          rw [hops] at hcall
          obtain ⟨rfl, rfl⟩ := Prod.mk.inj (Except.ok.inj hcall)
          exact .inl ⟨rfl, rfl, d, hd, hrefuses (by rw [hops]; rfl)⟩
      | initramfs regular size pstart =>
          rw [hops] at hcall
          cases regular with
          | true =>
              obtain ⟨rfl, rfl⟩ := Prod.mk.inj (Except.ok.inj hcall)
              exact .inr ⟨by simp, rfl, rfl⟩
          | false =>
              obtain ⟨rfl, rfl⟩ := Prod.mk.inj (Except.ok.inj hcall)
              exact .inl ⟨rfl, rfl, d, hd, hrefuses (by rw [hops]; rfl)⟩
      | keyboard =>
          rw [hops] at hcall
          obtain ⟨rfl, rfl⟩ := Prod.mk.inj (Except.ok.inj hcall)
          exact .inr ⟨by simp, rfl, rfl⟩
      | tty =>
          rw [hops] at hcall
          cases hcall

/-- An open of a tty leaves its file object, whether it succeeds or not. -/
theorem execTtyOpen_kept {obj : Obj} (hcall : execTtyOpen fs env s obj = .ok (t, file)) :
    env.opened.file ∈ t.files ∧ (file ≠ none → t.kfreed = s.kfreed) := by
  obtain ⟨⟨u, found⟩, hlookup, hcall⟩ := Halt.bind_eq_ok.mp hcall
  obtain ⟨vfs, -, rfl⟩ := ExecState.lookup_eq hlookup
  have hfile : env.opened.file ∈ insert env.opened.file s.files := Finset.mem_insert_self _ _
  dsimp only at hcall
  by_cases hstatus : found.status ≠ .success
  · rw [if_pos hstatus] at hcall
    obtain ⟨rfl, rfl⟩ := Prod.mk.inj (Except.ok.inj hcall)
    exact ⟨hfile, fun h => absurd rfl h⟩
  · rw [if_neg hstatus] at hcall
    cases hdentry : found.dentry with
    | none =>
        rw [hdentry] at hcall
        obtain ⟨rfl, rfl⟩ := Prod.mk.inj (Except.ok.inj hcall)
        exact ⟨hfile, fun h => absurd rfl h⟩
    | some kbd =>
        rw [hdentry] at hcall
        obtain ⟨⟨u, opened⟩, hopen, hcall⟩ := Halt.bind_eq_ok.mp hcall
        rcases fileOpenPlain_cases hopen with ⟨rfl, rfl, -⟩ | ⟨hne, hfiles, hkfreed⟩
        · obtain ⟨v, hrelease, hpair⟩ := Halt.map_eq_ok.mp hcall
          obtain ⟨rfl, rfl⟩ := Prod.mk.inj hpair
          rw [(ExecState.release_kept hrelease).1]
          exact ⟨hfile, fun h => absurd rfl h⟩
        · cases opened with
          | none => exact absurd rfl hne
          | some f =>
              obtain ⟨rfl, rfl⟩ := Prod.mk.inj (Except.ok.inj hcall)
              rw [hfiles, hkfreed]
              exact ⟨Finset.mem_insert_of_mem hfile, fun _ => rfl⟩

/-- An open is refused without a trace, or a file object is left. -/
theorem fileOpen_cases (hcall : fileOpen fs env s a = .ok (t, file)) :
    (file = none ∧ t = s ∧ ∃ d, s.vfs.dentries a = some d ∧ fs.Refuses d) ∨
      env.opened.file ∈ t.files ∧ (file ≠ none → t.kfreed = s.kfreed) := by
  obtain ⟨d, hd, hcall⟩ := Halt.bind_eq_ok.mp hcall
  have hcases : fileOpenPlain fs s a env.opened = .ok (t, file) ∨
      ∃ obj, execTtyOpen fs env s obj = .ok (t, file) := by
    cases hops : d.inode.map fun obj => (obj, fs.ops obj) with
    | none =>
        rw [hops] at hcall
        exact .inl hcall
    | some pair =>
        obtain ⟨obj, ops⟩ := pair
        rw [hops] at hcall
        cases ops with
        | tty => exact .inr ⟨obj, hcall⟩
        | null => exact .inl hcall
        | noOpen => exact .inl hcall
        | initramfs regular size pstart => exact .inl hcall
        | keyboard => exact .inl hcall
  rcases hcases with hplain | ⟨obj, htty⟩
  · rcases fileOpenPlain_cases hplain with hrefused | ⟨-, hfiles, hkfreed⟩
    · exact .inl hrefused
    · refine .inr ⟨?_, fun _ => hkfreed⟩
      rw [hfiles]
      exact Finset.mem_insert_self _ _
  · exact .inr (execTtyOpen_kept htty)

/-- A dentry that refuses to be opened. -/
theorem fileOpen_of_refuses {d : Dentry Obj} (hd : s.vfs.dentries a = some d) (hrefuses : fs.Refuses d) :
    fileOpen fs env s a = .ok (s, none) := by
  rw [fileOpen, Vfs.deref_eq_ok.mpr hd, Halt.ok_bind]
  cases hinode : d.inode with
  | none =>
      rw [Option.map_none]
      simp only [fileOpenPlain, Vfs.deref_eq_ok.mpr hd, Halt.ok_bind, hinode]
  | some obj =>
      have hops := hrefuses obj hinode
      rw [Option.map_some]
      cases hkind : fs.ops obj with
      | tty =>
          rw [hkind] at hops
          cases hops
      | keyboard =>
          rw [hkind] at hops
          cases hops
      | null => simp only [fileOpenPlain, Vfs.deref_eq_ok.mpr hd, Halt.ok_bind, hinode, hkind]
      | noOpen => simp only [fileOpenPlain, Vfs.deref_eq_ok.mpr hd, Halt.ok_bind, hinode, hkind]
      | initramfs regular size pstart =>
          rw [hkind] at hops
          have hregular : ¬ regular = true := by simpa [FileOps.refuses] using hops
          simp only [fileOpenPlain, Vfs.deref_eq_ok.mpr hd, Halt.ok_bind, hinode, hkind, if_neg hregular]

/-! ## Failed starts -/

/-- The label keeps the file objects. -/
theorem execError_kept (hcall : execError s chunk found = .ok (.failed t)) :
    s.release chunk found = .ok t ∧ t.files = s.files := by
  obtain ⟨u, hrelease, hu⟩ := Halt.map_eq_ok.mp hcall
  obtain rfl := ExecExit.failed.inj hu
  exact ⟨hrelease, (ExecState.release_kept hrelease).1⟩

/-- What comes after the open: the path was released, the loaders have returned, and the path is released again. -/
theorem execLoad_failed {opened : OpenedFile} (hcall : execLoad env s found opened = .ok (.failed t)) :
    ∃ u vm, s.release env.chunk found = .ok u ∧ binfmtLoad env u.vm opened = .ok (.returned vm) ∧
      ExecState.release { u with vm := vm } env.chunk { found with dentry := env.reread } = .ok t ∧
      t.files = s.files := by
  obtain ⟨u, hfirst, hcall⟩ := Halt.bind_eq_ok.mp hcall
  obtain ⟨exit, hload, hcall⟩ := Halt.bind_eq_ok.mp hcall
  cases exit with
  | entered program => cases hcall
  | returned vm =>
      obtain ⟨hsecond, hfiles⟩ := execError_kept hcall
      refine ⟨u, vm, hfirst, hload, hsecond, ?_⟩
      rw [hfiles]
      exact (ExecState.release_kept hfirst).1

/-- The ways a start fails: the lookup fails; or the open is refused; or the loaders return. -/
theorem sysExecv_failed (hcall : sysExecv fs env s path = .ok (.failed s')) :
    ∃ t found, s.lookup fs env.lookup env.chunk path = .ok (t, found) ∧
      ((found.status ≠ .success ∧ t.release env.chunk found = .ok s') ∨
        ∃ a, found = openPath a ∧ ∃ u file, fileOpen fs env t a = .ok (u, file) ∧
          ((file = none ∧ u.release env.chunk found = .ok s') ∨
            ∃ opened, file = some opened ∧ execLoad env u found opened = .ok (.failed s'))) := by
  obtain ⟨⟨t, found⟩, hlookup, hcall⟩ := Halt.bind_eq_ok.mp hcall
  refine ⟨t, found, hlookup, ?_⟩
  dsimp only at hcall
  by_cases hstatus : found.status ≠ .success
  · rw [if_pos hstatus] at hcall
    exact .inl ⟨hstatus, (execError_kept hcall).1⟩
  · rw [if_neg hstatus] at hcall
    obtain ⟨vfs, hpath, -⟩ := ExecState.lookup_eq hlookup
    rcases vfsPathLookup_cases hpath with ⟨hfail, -⟩ | ⟨a, rfl, -⟩
    · exact absurd hfail hstatus
    · obtain ⟨⟨u, file⟩, hopen, hcall⟩ := Halt.bind_eq_ok.mp hcall
      refine .inr ⟨a, rfl, u, file, hopen, ?_⟩
      cases file with
      | none => exact .inl ⟨rfl, (execError_kept hcall).1⟩
      | some opened => exact .inr ⟨opened, rfl, hcall⟩

/-- A start that leaves no trace was refused by the open of a dentry that is cached and held. -/
theorem NoTrace.refused (h : NoTrace env s s') (hfresh : env.Fresh s)
    (hcall : sysExecv fs env s path = .ok (.failed s')) : RefusedQuietly fs env.lookup.cwd s.vfs path := by
  have hfile : env.opened.file ∉ s'.files := by
    rw [h.files]
    exact hfresh.file
  obtain ⟨t, found, hlookup, hcase⟩ := sysExecv_failed hcall
  obtain ⟨vfs, hpath, rfl⟩ := ExecState.lookup_eq hlookup
  rcases hcase with ⟨hstatus, hrelease⟩ | ⟨a, rfl, u, file, hopen, hcase⟩
  · -- the path was not found
    exfalso
    rcases vfsPathLookup_cases hpath with ⟨-, hpath⟩ | ⟨a, rfl, -⟩
    · rcases ExecState.release_cases hrelease with ⟨-, rfl⟩ | ⟨a, vfs', hdentry, hlowered, rfl⟩
      · exact absurd h.once (Nat.succ_ne_self _).symm
      · rcases hpath with hnone | rfl
        · cases hnone.symm.trans hdentry
        · exact release_not_sameCounts hlowered h.dentries
    · exact hstatus rfl
  · rcases hcase with ⟨rfl, hrelease⟩ | ⟨opened, rfl, hload⟩
    · rcases fileOpen_cases hopen with ⟨-, rfl, d', hd', hrefuses⟩ | ⟨hleft, -⟩
      · -- the open was refused
        rcases ExecState.release_cases hrelease with ⟨hnone, -⟩ | ⟨b, vfs', hdentry, hlowered, rfl⟩
        · cases hnone
        · obtain rfl := Option.some.inj hdentry
          rcases vfsPathLookup_cases hpath with ⟨hstatus, -⟩ | ⟨b, hb, hcase⟩
          · exact absurd rfl hstatus
          · obtain rfl : a = b := Option.some.inj (congrArg Path.dentry hb)
            rcases hcase with ⟨-, rfl⟩ | ⟨start, comps, u, d, hstart, hwalk, hd, rfl⟩
            · exact absurd h.dentries (release_not_sameCounts hlowered)
            · obtain ⟨rfl, hcached, hheld⟩ := cached_of_sameCounts hwalk hd hlowered h.dentries
              refine ⟨start, comps, a, d, hstart, vfsWalkPath_last hwalk, hcached, hd, hheld, ?_⟩
              have hraised : (s.vfs.raise a).dentries a = some { d with count := d.count + 1 } :=
                Vfs.modify_self hd
              obtain rfl := Option.some.inj (hraised.symm.trans hd')
              exact hrefuses
      · -- the file of a tty is left
        rw [(ExecState.release_kept hrelease).1] at hfile
        exact absurd hleft hfile
    · -- the file was opened, and nobody closes it
      obtain ⟨-, -, -, -, -, hfiles⟩ := execLoad_failed hload
      rw [hfiles] at hfile
      rcases fileOpen_cases hopen with ⟨hnone, -⟩ | ⟨hleft, -⟩
      · cases hnone
      · exact absurd hleft hfile

/-- A start that is refused so fails, and leaves no trace. -/
theorem RefusedQuietly.fails (h : RefusedQuietly fs env.lookup.cwd s.vfs path) (hfresh : env.Fresh s) :
    ∃ s', sysExecv fs env s path = .ok (.failed s') ∧ NoTrace env s s' := by
  obtain ⟨start, comps, a, d, hstart, hlast, hcached, hd, hheld, hrefuses⟩ := h
  obtain ⟨hwalk, hloads⟩ := @vfsWalkPath_cached Obj fs.toFileSystem s.vfs a start comps env.lookup.stale hcached
    hlast (Cwd.walkOf_ne_nil hstart)
  have hnone : lookupLoads fs.toFileSystem env.lookup s.vfs path = [] := by
    rw [lookupLoads, hstart]
    exact hloads
  have hraised : (s.vfs.raise a).dentries a = some { d with count := d.count + 1 } := Vfs.modify_self hd
  have hrefuses' : fs.Refuses { d with count := d.count + 1 } := hrefuses
  -- the state after the lookup, and the one after the release
  let t : ExecState Obj := { s with vfs := s.vfs.raise a, chunks := insert env.chunk s.chunks }
  let s' : ExecState Obj := { s with
    chunks := (insert env.chunk s.chunks).erase env.chunk
    kfreed := s.kfreed ++ [env.chunk] }
  have hlookup : s.lookup fs env.lookup env.chunk path = .ok (t, openPath a) := by
    rw [ExecState.lookup, vfsPathLookup_of_walk hstart hwalk hd, hnone]
    simp [Except.map, t]
  have hopen : fileOpen fs env t a = .ok (t, none) := fileOpen_of_refuses hraised hrefuses'
  have hrelease : t.release env.chunk (openPath a) = .ok s' := by
    have hstays : goneInode (s.vfs.raise a) s.vfs (openPath a).dentry = none := by
      simp [goneInode, openPath, hraised, hd]
    have hheld' : vfsPathRelease t.vfs (openPath a) = .ok (s.vfs, none) := hheld.release hd
    rw [ExecState.release, hheld']
    simp [Except.map, t, s', hstays]
  refine ⟨s', ?_, ?_⟩
  · rw [sysExecv, hlookup, Halt.ok_bind]
    change fileOpen fs env t a >>= _ = _
    rw [hopen, Halt.ok_bind]
    change (t.release env.chunk (openPath a)).map _ = _
    rw [hrelease]
    rfl
  · constructor
    case once => simp [s']
    case dentries => exact fun b e he => ⟨e, he, rfl⟩
    case inodes => exact fun b e o he ho => rfl
    case files => rfl
    case chunks => exact Finset.erase_insert hfresh.chunk
    case pages => exact List.Perm.refl _

/-- For every path and every state, a start that fails leaves no trace exactly if all components of the path are
cached, the dentry at its end is held, and it refuses to be opened. -/
theorem execv_no_trace_iff (hfresh : env.Fresh s) (hcall : sysExecv fs env s path = .ok (.failed s')) :
    NoTrace env s s' ↔ RefusedQuietly fs env.lookup.cwd s.vfs path := by
  constructor
  · intro h
    exact h.refused hfresh hcall
  · intro h
    obtain ⟨t, hfails, hnotrace⟩ := h.fails hfresh
    obtain rfl := ExecExit.failed.inj (Except.ok.inj (hcall.symm.trans hfails))
    exact hnotrace

/-- A path that is not found is never freed. -/
theorem execv_not_found {vfs : Vfs Obj}
    (hlookup : vfsPathLookup fs.toFileSystem env.lookup s.vfs path lookupOpen = .ok (vfs, found))
    (hstatus : found.status ≠ .success) (hnone : found.dentry = none) :
    ∃ s', sysExecv fs env s path = .ok (.failed s') ∧ s'.kfreed = s.kfreed ∧ env.chunk ∈ s'.chunks := by
  refine ⟨{ s with
    vfs := vfs
    icount := fun o => s.icount o + (lookupLoads fs.toFileSystem env.lookup s.vfs path).count o
    chunks := insert env.chunk s.chunks }, ?_, rfl, Finset.mem_insert_self _ _⟩
  rw [sysExecv, ExecState.lookup, hlookup]
  simp [Except.map, bind, Except.bind, hstatus, execError, ExecState.release, vfsPathRelease, hnone]

/-- A file that was opened and that the loaders refuse stays open; and its path, as long as it still holds its dentry,
is freed twice. -/
theorem execv_rejected {u : ExecState Obj} {opened : OpenedFile}
    (hlookup : s.lookup fs env.lookup env.chunk path = .ok (t, openPath a))
    (hopen : fileOpen fs env t a = .ok (u, some opened))
    (hcall : sysExecv fs env s path = .ok (.failed s')) :
    env.opened.file ∈ s'.files ∧
      (env.reread = some a → s'.kfreed.count env.chunk = s.kfreed.count env.chunk + 2) := by
  obtain ⟨t', found, hlookup', hcase⟩ := sysExecv_failed hcall
  obtain ⟨rfl, rfl⟩ := Prod.mk.inj (Except.ok.inj (hlookup.symm.trans hlookup'))
  obtain ⟨vfs, -, rfl⟩ := ExecState.lookup_eq hlookup
  rcases hcase with ⟨hstatus, -⟩ | ⟨b, hb, u', file, hopen', hcase⟩
  · exact absurd rfl hstatus
  · obtain rfl : a = b := Option.some.inj (congrArg Path.dentry hb)
    obtain ⟨rfl, rfl⟩ := Prod.mk.inj (Except.ok.inj (hopen.symm.trans hopen'))
    rcases hcase with ⟨hnone, -⟩ | ⟨opened', hsome, hload⟩
    · cases hnone
    · obtain rfl := Option.some.inj hsome
      rcases fileOpen_cases hopen with ⟨hnone, -⟩ | ⟨hleft, hkfreed⟩
      · cases hnone
      · obtain ⟨v, vm, hfirst, -, hsecond, hfiles⟩ := execLoad_failed hload
        refine ⟨by rwa [hfiles], fun hreread => ?_⟩
        rcases ExecState.release_cases hfirst with ⟨hnone, -⟩ | ⟨b, vfs₁, -, -, rfl⟩
        · cases hnone
        · rcases ExecState.release_cases hsecond with ⟨hnone, -⟩ | ⟨c, vfs₂, -, -, rfl⟩
          · rw [hreread] at hnone
            cases hnone
          · simp [hkfreed]

/-! ## Two starts after boot -/

/-- The files of the tree: a device directory without `open`, and the initramfs. -/
def twinFs : ExecFs Nat where
  toFileSystem := twinTree
  ops obj := if obj = 0 then .noOpen else .initramfs (obj ≠ 1) 0 0

/-- A call that gets the first chunk of the heap for its path. -/
def firstExec : ExecEnv where
  lookup := ⟨cleared, none, .pwd none⟩
  chunk := 1
  opened := ⟨1, 2⟩
  kbdLookup := ⟨cleared, none, .pwd none⟩
  kbdChunk := 3
  kbdOpened := ⟨2, 4⟩
  mem _ := 0
  pml4 := 0
  device _ := (0, fun _ => 0)
  reread := none

/-- Nothing is allocated but the dentries. -/
def execBoot (vfs : Vfs Nat) : ExecState Nat := ⟨vfs, fun _ => 1, ∅, ∅, ⟨fun _ _ => 0, [], []⟩, []⟩

/-- The start of the directory `/dev/char` fails, and leaves no trace. -/
theorem execv_devChar :
    ∃ vfs s', vfsBoot twinTree 0 1 = .ok vfs ∧
      sysExecv twinFs firstExec (execBoot vfs) (absolutePath [devName, charName]) = .ok (.failed s') ∧
      NoTrace firstExec (execBoot vfs) s' := by
  let path : Name := absolutePath [devName, charName]
  obtain ⟨vfs, hboot, hok⟩ := Halt.exists_ok (vfsBoot twinTree 0 1)
    (fun s => decide ((Cwd.pwd none).walkOf s path = some (1, [charName]) ∧
      s.cachedWalk 1 [charName] = some 4 ∧ (s.dentries 4).map (fun d => (d.count, d.inode)) = some (3, none)))
    (by decide +kernel)
  obtain ⟨hstart, hcached, hdentry⟩ := of_decide_eq_true hok
  obtain ⟨d, hd, hpair⟩ := Option.map_eq_some_iff.mp hdentry
  obtain ⟨hthree, hinode⟩ := Prod.mk.inj hpair
  have hrefused : RefusedQuietly twinFs firstExec.lookup.cwd (execBoot vfs).vfs path := by
    refine ⟨1, [charName], 4, d, hstart, by decide, hcached, hd, .inl (by rw [hthree]; decide), ?_⟩
    intro o ho
    cases hinode.symm.trans ho
  have hfresh : firstExec.Fresh (execBoot vfs) := ⟨by simp [execBoot], by simp [execBoot]⟩
  obtain ⟨s', hcall, -⟩ := hrefused.fails hfresh
  exact ⟨vfs, s', hboot, hcall, (execv_no_trace_iff hfresh hcall).mpr hrefused⟩

/-- The start of `/char`, which there is not, fails, and its path is not freed. -/
theorem execv_missing_leaks_path :
    ∃ vfs s', vfsBoot twinTree 0 1 = .ok vfs ∧ firstExec.Fresh (execBoot vfs) ∧
      sysExecv twinFs firstExec (execBoot vfs) (absolutePath [charName]) = .ok (.failed s') ∧
      s'.kfreed = [] ∧ ¬ NoTrace firstExec (execBoot vfs) s' := by
  let env : LookupEnv := ⟨cleared, none, .pwd none⟩
  obtain ⟨⟨vfs, after, found⟩, hrun, hok⟩ := Halt.exists_ok
    (vfsBoot twinTree 0 1 >>= fun s =>
      (vfsPathLookup twinTree env s (absolutePath [charName]) lookupOpen).map (s, ·))
    (fun r => decide (r.2.2.status ≠ .success ∧ r.2.2.dentry = none)) (by decide +kernel)
  obtain ⟨hstatus, hnone⟩ := of_decide_eq_true hok
  obtain ⟨vfs', hboot, hlookup⟩ := Halt.bind_eq_ok.mp hrun
  obtain ⟨result, hlookup, hpair⟩ := Halt.map_eq_ok.mp hlookup
  cases hpair
  have hfresh : firstExec.Fresh (execBoot vfs) := ⟨by simp [execBoot], by simp [execBoot]⟩
  obtain ⟨s', hcall, hkfreed, -⟩ := @execv_not_found Nat _ twinFs firstExec (execBoot vfs) (absolutePath [charName])
    found after hlookup hstatus hnone
  refine ⟨vfs, s', hboot, hfresh, hcall, hkfreed, fun h => ?_⟩
  have honce := h.once
  rw [hkfreed] at honce
  exact absurd honce (Nat.succ_ne_self _).symm

end Fs
end Micael
