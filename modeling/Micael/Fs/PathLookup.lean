import Mathlib.Data.List.TakeWhile
import Micael.Fs.Dentry

/-!
# Path lookup

`vfs_path_lookup` walks a path from component to component.  In each directory it first asks the map
of cached children and only then the file system, and it caches what the file system finds.  An
absolute path starts at the root of the mounted file system whose mount point its first component names,
or at the root.

The walk cuts the path at its slashes as it goes; here it is cut first.  The current directory of the
running task, and what the memory of a new `path_t` holds, are arguments.

Main results:

- Theorem {lit}`components_extract`: cutting the path first is cutting it step by step.
- Theorem {lit}`findChild_cases`: what one component of a walk does.
- Theorem {lit}`vfsPathLookup_open`: the ways a lookup for opening succeeds.
-/

namespace Micael
namespace Fs

open Lib

/-- The character `/`. -/
def slash : UInt8 := 47

/-- `LOOKUP_FLAGS`. -/
structure LookupFlags where
  parent : Bool
  create : Bool
  «open» : Bool
deriving DecidableEq, Repr

/-- The flag `LOOKUP_OPEN`. -/
def lookupOpen : LookupFlags := ⟨false, false, true⟩

/-- `LOOKUP_STATUS_FLAGS`. -/
inductive LookupStatus where
  | success | enoent | eexists | einval
deriving DecidableEq, Repr

/-- `path_t`. -/
structure Path where
  dentry : Option Nat
  flags : LookupFlags
  status : LookupStatus
deriving DecidableEq, Repr

/-- Where relative paths start. -/
inductive Cwd where
  /-- The scheduler has not been started. -/
  | noTask
  /-- The task has no file system context. -/
  | noCtx
  | pwd (dentry : Option Nat)

/-- What a lookup finds around it: the memory of new dentries and of the `path_t`, and the current
directory. -/
structure LookupEnv where
  stale : Nat → Option Hashmap
  junk : Option Nat
  cwd : Cwd

variable {Obj : Type}

/-! ## Paths -/

/-- `vfs_extract_child`: the next component, which is null at the end of the path, and what is left
behind the slash, if there is one. -/
def vfsExtractChild (path : Name) : Option Name × Option Name :=
  (if path = [] then none else some (path.takeWhile (· ≠ slash)),
    match path.dropWhile (· ≠ slash) with
    | [] => none
    | _ :: rest => some rest)

/-- All components of a path; the null component at the end is empty here. -/
def components (path : Name) : List Name := path.splitOn slash

/-- The list `mountpoints`. -/
def Vfs.mountpoints (s : Vfs Obj) : List Mount := ⟨[slash], s.root⟩ :: s.mounts

/-- `vfs_find_bootstrap` for what follows the first slash: the dentry to start at, and the rest of the
path, if any. -/
def vfsFindBootstrap (s : Vfs Obj) (path : Name) : Option Nat × Option Name :=
  if path = [] then (s.root, none)
  else
    let mount := (vfsExtractChild path).1.getD []
    match s.mountpoints.find? fun m => m.name = mount with
    | some m =>
        (m.root,
          match path.drop mount.length with
          | [] => none
          | _ :: rest => some rest)
    | none => (none, some path)

/-! ## The walk -/

/-- `inode_lookup` in the directory of a dentry. -/
def inodeLookup (fs : FileSystem Obj) (d : Dentry Obj) (name : Name) : Option Obj :=
  match d.inode with
  | some obj => fs.lookup obj name
  | none => none

/-- The part of `vfs_walk_path` for one component: the cached child, or a new dentry for what the file
system finds. -/
def findChild (fs : FileSystem Obj) (stale : Nat → Option Hashmap) (s : Vfs Obj) (parent : Nat)
    (name : Name) : Except Halt (Vfs Obj × Option Nat) := do
  let p ← s.deref parent
  if p.find name ≠ 0 then .ok (s, some (p.find name))
  else
    match inodeLookup fs p name with
    | none => .ok (s, none)
    | some obj => dentryAllocIno stale s parent name obj (fs.flags obj)

/-- `vfs_walk_path`. -/
def vfsWalkPath (fs : FileSystem Obj) (stale : Nat → Option Hashmap) (flags : LookupFlags) :
    Vfs Obj → Nat → List Name → Except Halt (Vfs Obj × Option Nat)
  | s, _, [] => .ok (s, none)
  | s, parent, [last] =>
      if flags.parent then .ok (s, some parent)
      -- neither the map nor the file system finds a null name
      else if last = [] then (s.deref parent).map fun _ => (s, none)
      else findChild fs stale s parent last
  | s, parent, next :: rest :: path => do
      let p ← s.deref parent
      if p.children.isNone then .ok (s, none)
      else do
        let (s, child) ← findChild fs stale s parent next
        match child with
        | none => .ok (s, none)
        | some child => vfsWalkPath fs stale flags s child (rest :: path)

/-! ## Lookup and release -/

/-- `vfs_path_lookup` from the start of the walk on. -/
def lookupFrom (fs : FileSystem Obj) (env : LookupEnv) (s : Vfs Obj) (start : Option Nat)
    (path : Name) (flags : LookupFlags) : Except Halt (Vfs Obj × Path) :=
  match start with
  | none => .ok (s, ⟨env.junk, flags, .einval⟩)
  | some start => do
      let (s, dntr) ← vfsWalkPath fs env.stale flags s start (components path)
      match dntr with
      | none =>
          if flags.create then
            .ok (s, ⟨if flags.parent then some start else none, flags, .success⟩)
          else .ok (s, ⟨none, flags, .enoent⟩)
      | some a => do
          let _ ← s.deref a
          let status := if flags.open then .success
            else if flags.create && !flags.parent then .eexists else .enoent
          .ok (s.modify a fun d => { d with count := d.count + 1 }, ⟨some a, flags, status⟩)

/-- `vfs_path_lookup`. -/
def vfsPathLookup (fs : FileSystem Obj) (env : LookupEnv) (s : Vfs Obj) (path : Name)
    (flags : LookupFlags) : Except Halt (Vfs Obj × Path) :=
  match path with
  | [] => .ok (s, ⟨none, flags, .einval⟩)
  | c :: rest =>
      if c = slash then
        match vfsFindBootstrap s rest with
        | (start, none) =>
            .ok (s,
              { dentry := if flags.parent then s.root else start
                flags := flags
                status := if start.isNone then .enoent
                  else if flags.open then .success
                  else if flags.create then .eexists else .enoent })
        | (start, some rest) => lookupFrom fs env s (start <|> s.root) rest flags
      else
        match env.cwd with
        | .noTask => .ok (s, ⟨env.junk, flags, .enoent⟩)
        | .noCtx => .ok (s, ⟨env.junk, flags, .enoent⟩)
        | .pwd dntr => lookupFrom fs env s dntr path flags

/-- `vfs_path_release`; what `dentry_dealloc` returns is not looked at. -/
def vfsPathRelease (s : Vfs Obj) (path : Path) : Except Halt (Vfs Obj × Option Errno) :=
  match path.dentry with
  | none => .ok (s, some .einval)
  | some a => do
      let d ← s.deref a
      let s := s.modify a fun d => { d with count := d.count - 1 }
      if d.count - 1 = 1 then do
        let (_, s) ← dentryDealloc s a
        .ok (s, none)
      else .ok (s, none)

/-! ## Components -/

/-- A component in front of a slash. -/
theorem vfsExtractChild_slash {first : Name} (hfirst : slash ∉ first) (rest : Name) :
    vfsExtractChild (first ++ slash :: rest) = (some first, some rest) := by
  have hclean : ∀ c ∈ first, decide (c ≠ slash) = true := by
    intro c hc
    have hne : c ≠ slash := fun h => hfirst (h ▸ hc)
    simp [hne]
  simp only [vfsExtractChild, List.takeWhile_append_of_pos hclean,
    List.dropWhile_append_of_pos hclean]
  simp

/-- The last component. -/
theorem vfsExtractChild_last {last : Name} (hlast : slash ∉ last) :
    vfsExtractChild last = (if last = [] then none else some last, none) := by
  have hclean : ∀ c ∈ last, decide (c ≠ slash) = true := by
    intro c hc
    have hne : c ≠ slash := fun h => hlast (h ▸ hc)
    simp [hne]
  simp only [vfsExtractChild, List.takeWhile_eq_self_iff.mpr hclean,
    List.dropWhile_eq_nil_iff.mpr hclean]

/-- The components of a path are those that `vfs_extract_child` cuts off one after the other. -/
theorem components_extract (path : Name) :
    components path =
      (vfsExtractChild path).1.getD [] ::
        match (vfsExtractChild path).2 with
        | none => []
        | some rest => components rest := by
  by_cases hslash : slash ∈ path
  · obtain ⟨first, rest, rfl, hfirst⟩ := List.eq_append_cons_of_mem hslash
    rw [vfsExtractChild_slash hfirst, components, List.splitOn_append_cons_self_of_not_mem hfirst]
    rfl
  · rw [vfsExtractChild_last hslash, components, List.splitOn_eq_singleton hslash]
    by_cases hpath : path = []
    · simp [hpath]
    · simp [hpath]

/-- The absolute path with these components. -/
def absolutePath (comps : List Name) : Name := slash :: [slash].intercalate comps

/-- The components of a path without slashes of their own. -/
theorem components_intercalate {comps : List Name} (hcomps : ∀ c ∈ comps, slash ∉ c)
    (hne : comps ≠ []) : components ([slash].intercalate comps) = comps :=
  List.splitOn_intercalate slash hcomps hne

/-! ## One component -/

variable {fs : FileSystem Obj} {stale : Nat → Option Hashmap} {s s' : Vfs Obj} {parent : Nat}
  {name : Name} {r : Option Nat}

/-- What one component of a walk does: it is cached, or nothing is found or no dentry can be added,
or there is a new dentry for what was found. -/
theorem findChild_cases (hcall : findChild fs stale s parent name = .ok (s', r)) :
    ∃ p, s.dentries parent = some p ∧
      ((p.find name ≠ 0 ∧ s' = s ∧ r = some (p.find name)) ∨
        p.find name = 0 ∧
          ((r = none ∧ (s' = s ∨ s' = s.create (emptyDentry parent name (stale s.next)))) ∨
            r = some s.next ∧ ∃ obj, inodeLookup fs p name = some obj ∧
              s.Loaded stale parent name obj (fs.flags obj &&& tIfdir ≠ 0) s')) := by
  obtain ⟨p, hp, hrest⟩ := Halt.bind_eq_ok.mp hcall
  rw [Vfs.deref_eq_ok] at hp
  refine ⟨p, hp, ?_⟩
  by_cases hcached : p.find name ≠ 0
  · rw [if_pos hcached] at hrest
    obtain ⟨rfl, rfl⟩ := Prod.mk.inj (Except.ok.inj hrest)
    exact .inl ⟨hcached, rfl, rfl⟩
  · rw [if_neg hcached] at hrest
    refine .inr ⟨not_not.mp hcached, ?_⟩
    cases hobj : inodeLookup fs p name with
    | none =>
        rw [hobj] at hrest
        obtain ⟨rfl, rfl⟩ := Prod.mk.inj (Except.ok.inj hrest)
        exact .inl ⟨rfl, .inl rfl⟩
    | some obj =>
        rw [hobj] at hrest
        rcases dentryAllocIno_cases hrest with hnone | ⟨hr, hloaded⟩
        · exact .inl hnone
        · exact .inr ⟨hr, obj, rfl, hloaded⟩

/-- The cached child that a component leads to, or zero. -/
def Vfs.cached (s : Vfs Obj) (dir : Nat) (name : Name) : Nat :=
  match s.dentries dir with
  | some d => d.find name
  | none => 0

/-- A walk for opening that reaches a dentry: one child after the other is found. -/
inductive Walked (fs : FileSystem Obj) (stale : Nat → Option Hashmap) :
    Vfs Obj → Nat → List Name → Vfs Obj → Nat → Prop
  | nil {s : Vfs Obj} {a : Nat} : Walked fs stale s a [] s a
  | cons {s t s' : Vfs Obj} {parent child a : Nat} {name : Name} {rest : List Name} :
      findChild fs stale s parent name = .ok (t, some child) →
      Walked fs stale t child rest s' a → Walked fs stale s parent (name :: rest) s' a

theorem walked_of_vfsWalkPath {comps : List Name} {a : Nat}
    (hcall : vfsWalkPath fs stale lookupOpen s parent comps = .ok (s', some a)) :
    Walked fs stale s parent comps s' a := by
  induction comps generalizing s parent with
  | nil => cases (Prod.mk.inj (Except.ok.inj hcall)).2
  | cons next rest ih =>
      cases rest with
      | nil =>
          simp only [vfsWalkPath, lookupOpen, Bool.false_eq_true, if_false] at hcall
          by_cases hempty : next = []
          · rw [if_pos hempty] at hcall
            obtain ⟨d, -, hd⟩ := Halt.map_eq_ok.mp hcall
            cases (Prod.mk.inj hd).2
          · rw [if_neg hempty] at hcall
            exact .cons hcall .nil
      | cons c path =>
          obtain ⟨p, -, hrest⟩ := Halt.bind_eq_ok.mp hcall
          by_cases hchildren : p.children.isNone = true
          · rw [if_pos hchildren] at hrest
            cases (Prod.mk.inj (Except.ok.inj hrest)).2
          · rw [if_neg hchildren] at hrest
            obtain ⟨⟨t, child⟩, hfind, hrest⟩ := Halt.bind_eq_ok.mp hrest
            cases child with
            | none => cases (Prod.mk.inj (Except.ok.inj hrest)).2
            | some child => exact .cons hfind (ih hrest)

/-! ## Lookups for opening -/

/-- Where the walk of an absolute path starts, and the components it has to go through; a path that
ends at a mount point has no walk. -/
def Vfs.walkOf (s : Vfs Obj) (path : Name) : Option (Nat × List Name) :=
  match vfsFindBootstrap s path with
  | (_, none) => none
  | (start, some rest) => (start <|> s.root).map fun start => (start, components rest)

/-- The ways a lookup of an absolute path for opening succeeds: the path ends at the root of a
mounted file system, and its count stays as it is, or the walk finds a dentry, and its count is
raised. -/
theorem vfsPathLookup_open {env : LookupEnv} {path : Name} {found : Path}
    (hcall : vfsPathLookup fs env s (slash :: path) lookupOpen = .ok (s', found))
    (hok : found.status = .success) :
    ∃ a, found = ⟨some a, lookupOpen, .success⟩ ∧
      ((vfsFindBootstrap s path = (some a, none) ∧ s' = s) ∨
        ∃ start comps t d, s.walkOf path = some (start, comps) ∧
          vfsWalkPath fs env.stale lookupOpen s start comps = .ok (t, some a) ∧
          t.dentries a = some d ∧ s' = t.modify a fun d => { d with count := d.count + 1 }) := by
  simp only [vfsPathLookup, if_true] at hcall
  cases hboot : vfsFindBootstrap s path with
  | mk start rest =>
      rw [hboot] at hcall
      cases rest with
      | none =>
          obtain ⟨rfl, rfl⟩ := Prod.mk.inj (Except.ok.inj hcall)
          cases start with
          | none => cases hok
          | some a => exact ⟨a, rfl, .inl ⟨rfl, rfl⟩⟩
      | some rest =>
          simp only [lookupFrom] at hcall
          cases hstart : (start <|> s.root) with
          | none =>
              rw [hstart] at hcall
              obtain ⟨rfl, rfl⟩ := Prod.mk.inj (Except.ok.inj hcall)
              cases hok
          | some start' =>
              rw [hstart] at hcall
              obtain ⟨⟨t, dntr⟩, hwalk, hrest⟩ := Halt.bind_eq_ok.mp hcall
              cases dntr with
              | none =>
                  obtain ⟨rfl, rfl⟩ := Prod.mk.inj (Except.ok.inj hrest)
                  cases hok
              | some a =>
                  obtain ⟨d, hd, hrest⟩ := Halt.bind_eq_ok.mp hrest
                  obtain ⟨rfl, rfl⟩ := Prod.mk.inj (Except.ok.inj hrest)
                  refine ⟨a, rfl, .inr ⟨start', components rest, t, d, ?_, hwalk,
                    Vfs.deref_eq_ok.mp hd, rfl⟩⟩
                  simp [Vfs.walkOf, hboot, hstart]

/-! ## Releases -/

/-- The release of a dentry with more than two references. -/
theorem vfsPathRelease_held {a : Nat} (path : Path) {d : Dentry Obj} (hpath : path.dentry = some a)
    (hd : s.dentries a = some d) (hcount : d.count - 1 ≠ 1) :
    vfsPathRelease s path = .ok (s.modify a fun d => { d with count := d.count - 1 }, none) := by
  rw [vfsPathRelease, hpath]
  simp only [Vfs.deref_eq_ok.mpr hd, Halt.ok_bind, if_neg hcount]

end Fs
end Micael
