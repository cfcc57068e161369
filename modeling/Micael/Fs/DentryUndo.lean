import Mathlib.Tactic
import Micael.Fs.Dentry

/-!
# Creating a dentry and taking it back

The creation of a dentry enters it into the map of its parent and raises the count of the parent;
`dentry_dealloc` takes it out of the map and leaves the count.  The map counts its entries and never counts
down, so that it has room for one child less.  An inode is counted by `dentry_alloc_ino` and
`dentry_alloc_orphan_ino` even when there is no dentry for it.

The allocators are asked here, and may refuse: each request for an entry of `dentry_cache`, and that for the
map of a new directory.  A failed `hm_alloc_hashmap` sets no `errno`, and `__dentry_init_children` returns
what it finds there.  The dentries that are freed on the way out have no inode.

Main results:

- Theorem {lit}`dentryAllocServed_eq`: when everything is served, the creation is that of `dentry_alloc`.
- Theorem {lit}`dentryAllocServed_refused`: a creation that is refused before its entry is made leaves the
  parent as it is.
- Theorem {lit}`dentryAllocServed_entered`: any other creation raises the count of the parent.
- Theorem {lit}`dentry_creation_undone_iff`: when the creation of a dentry is undone, for every call.
-/

namespace Micael
namespace Fs

open Lib

variable {Obj : Type}

/-! ## Creation with a memory that may refuse -/

/-- What the allocators answer during one call: to the requests for the dentry and for its entries `.` and
`..`, and to that for its map; and `errno` after `hm_alloc_hashmap` has failed. -/
structure DentryMemory where
  self : Bool
  dot : Bool
  dotDot : Bool
  map : Bool
  errno : Int

/-- `__dentry_alloc_empty`: the new dentry, or `errno`.  What `hm_insert` returns is negative. -/
def dentryAllocEmptyServed (served : Bool) (stale : Nat → Option Hashmap) (s : Vfs Obj) (parent : Nat)
    (name : Name) : Except Halt (Vfs Obj × Except Int Nat) :=
  if dentryNameMaxlen < name.length + 1 then .ok (s, .error Errno.e2big.toInt)
  else do
    let p ← s.deref parent
    if p.find name ≠ 0 then .ok (s, .error Errno.eexist.toInt)
    else if served = false then .ok (s, .error Errno.enomem.toInt)
    else
      match (p.insert name s.next).1 with
      | none =>
          .ok ((s.create (emptyDentry parent name (stale s.next))).modify parent
            (Dentry.adopt · name s.next), .ok s.next)
      | some e => .ok (s.create (emptyDentry parent name (stale s.next)), .error (-e.toInt))

/-- `__dentry_init_children`, with its return value. -/
def dentryInitChildrenServed (mem : DentryMemory) (stale : Nat → Option Hashmap) (s : Vfs Obj)
    (parent : Option Nat) (a : Nat) (flags : Nat) : Except Halt (Vfs Obj × Int) :=
  if mem.map = false then .ok (s.modify a fun d => { d with children := none }, -mem.errno)
  else do
    let s := s.modify a fun d => { d with children := some (hmAllocHashmap dentryHmLen) }
    let (s, this) ← dentryAllocEmptyServed mem.dot stale s a dotName
    match this with
    | .error errno => .ok (s, -errno)
    | .ok this => do
        let s := s.modify this fun d => { d with parent := none, flags := tIfreg }
        let (s, prnt) ← dentryAllocEmptyServed mem.dotDot stale s a dotDotName
        match prnt with
        | .error errno => do
            let (_, s) ← dentryDealloc s this
            .ok (s, -errno)
        | .ok prnt => do
            let inode ← parentInode s parent
            .ok (s.modify prnt fun d =>
              { d with parent := parent, flags := tIfreg ||| flags, inode := inode }, 0)

/-- The part of `dentry_alloc` and `dentry_alloc_orphan` for a dentry that has been entered. -/
def dentryFinish (mem : DentryMemory) (stale : Nat → Option Hashmap) (s : Vfs Obj)
    (parent : Option Nat) (a : Nat) (flags : Nat) : Except Halt (Vfs Obj × Option Nat) :=
  if flags &&& tIfdir ≠ 0 then do
    let (s, ret) ← dentryInitChildrenServed mem stale s parent a flags
    if ret < 0 then do
      let (_, s) ← dentryDealloc s a
      .ok (s, none)
    else .ok (s, some a)
  else .ok (s, some a)

/-- `dentry_alloc` for a parent that is not null. -/
def dentryAllocServed (mem : DentryMemory) (stale : Nat → Option Hashmap) (s : Vfs Obj) (parent : Nat)
    (name : Name) (flags : Nat) : Except Halt (Vfs Obj × Option Nat) := do
  let p ← s.deref parent
  if p.find name ≠ 0 then .ok (s, none)
  else do
    let (s, dntr) ← dentryAllocEmptyServed mem.self stale s parent name
    match dntr with
    | .error _ => .ok (s, none)
    | .ok a => dentryFinish mem stale (s.modify a fun d => { d with flags := flags }) (some parent) a flags

/-- `dentry_alloc_orphan`. -/
def dentryAllocOrphanServed (mem : DentryMemory) (stale : Nat → Option Hashmap) (s : Vfs Obj)
    (name : Name) (flags : Nat) : Except Halt (Vfs Obj × Option Nat) :=
  if mem.self = false then .ok (s, none)
  else dentryFinish mem stale (s.create (orphanDentry name flags (stale s.next))) none s.next flags

/-- Dentries, and `i_count` of the inodes. -/
structure CountedVfs (Obj : Type) where
  vfs : Vfs Obj
  icount : Obj → Int

/-- The end of `dentry_alloc_ino` and `dentry_alloc_orphan_ino`: the inode is counted in any case. -/
def countInode [DecidableEq Obj] (c : CountedVfs Obj) (ino : Obj)
    (call : Except Halt (Vfs Obj × Option Nat)) : Except Halt (CountedVfs Obj × Option Nat) := do
  let (s, dntr) ← call
  let icount := Function.update c.icount ino (c.icount ino + 1)
  match dntr with
  | none => .ok (⟨s, icount⟩, none)
  | some a => .ok (⟨s.modify a fun d => { d with inode := some ino }, icount⟩, some a)

/-- `dentry_alloc_ino`. -/
def dentryAllocInoServed [DecidableEq Obj] (mem : DentryMemory) (stale : Nat → Option Hashmap)
    (c : CountedVfs Obj) (parent : Nat) (name : Name) (ino : Option Obj) (flags : Nat) :
    Except Halt (CountedVfs Obj × Option Nat) :=
  match ino with
  | none => .ok (c, none)
  | some ino => countInode c ino (dentryAllocServed mem stale c.vfs parent name flags)

/-- `dentry_alloc_orphan_ino`. -/
def dentryAllocOrphanInoServed [DecidableEq Obj] (mem : DentryMemory) (stale : Nat → Option Hashmap)
    (c : CountedVfs Obj) (name : Name) (ino : Option Obj) (flags : Nat) :
    Except Halt (CountedVfs Obj × Option Nat) :=
  match ino with
  | none => .ok (c, none)
  | some ino => countInode c ino (dentryAllocOrphanServed mem stale c.vfs name flags)

/-! ## What is promised -/

/-- A directory with the same count, the same children and room for as many more. -/
structure SameDirectory (p p' : Dentry Obj) : Prop where
  count : p'.count = p.count
  children : ∀ hm, p.children = some hm → ∃ hm', p'.children = some hm' ∧
    (∀ key data, (∃ index, hm'.Holds index key data) ↔ ∃ index, hm.Holds index key data) ∧
    hm'.cap - hm'.len = hm.cap - hm.len

/-- A creation in a directory that fails leaves the directory as it is; one that succeeds is undone by
`dentry_dealloc`, when the count of the new dentry permits it. -/
def AllocUndone (mem : DentryMemory) (stale : Nat → Option Hashmap) (s : Vfs Obj) (parent : Nat)
    (name : Name) (flags : Nat) : Prop :=
  ∃ s' r, dentryAllocServed mem stale s parent name flags = .ok (s', r) ∧
    match r with
    | none => s'.dentries parent = s.dentries parent
    | some a => ∀ d, s'.dentries a = some d → d.count ≤ 1 →
        ∃ e t p p', dentryDealloc s' a = .ok (e, t) ∧ s.dentries parent = some p ∧
          t.dentries parent = some p' ∧ SameDirectory p p'

/-- A creation for an inode that fails leaves the directory and the count of the inode. -/
def FailureNeutral (c : CountedVfs Obj) (parent : Nat) (ino : Option Obj)
    (call : Except Halt (CountedVfs Obj × Option Nat)) : Prop :=
  ∃ c' r, call = .ok (c', r) ∧
    (r = none → c'.vfs.dentries parent = c.vfs.dentries parent ∧
      ∀ obj, ino = some obj → c'.icount obj = c.icount obj)

/-- The three ways to create a dentry with a name, the directory that is looked at being the parent, if
there is one. -/
inductive DentryCall (Obj : Type)
  | alloc (name : Name) (flags : Nat)
  | allocIno (name : Name) (ino : Option Obj) (flags : Nat)
  | allocOrphanIno (name : Name) (ino : Option Obj) (flags : Nat)

/-- What is promised for a call. -/
def DentryCall.Undone [DecidableEq Obj] (mem : DentryMemory) (stale : Nat → Option Hashmap)
    (c : CountedVfs Obj) (parent : Nat) : DentryCall Obj → Prop
  | .alloc name flags => AllocUndone mem stale c.vfs parent name flags
  | .allocIno name ino flags =>
      FailureNeutral c parent ino (dentryAllocInoServed mem stale c parent name ino flags)
  | .allocOrphanIno name ino flags =>
      FailureNeutral c parent ino (dentryAllocOrphanInoServed mem stale c name ino flags)

/-! ## When it holds -/

/-- The creation is refused before the directory is changed: the name is there or too long, there is no
memory for the dentry, or the map does not take it. -/
def EntryRefused (served : Bool) (s : Vfs Obj) (p : Dentry Obj) (name : Name) : Prop :=
  dentryNameMaxlen < name.length + 1 ∨ p.find name ≠ 0 ∨ served = false ∨
    (p.insert name s.next).1 ≠ none

/-- The memory serves the map and the two entries of a new directory. -/
def DentryMemory.Complete (mem : DentryMemory) : Prop :=
  mem.map = true ∧ mem.dot = true ∧ mem.dotDot = true

/-- A dentry that has been entered is returned: it is no directory, or the memory serves all of it, or the
failure of `hm_alloc_hashmap` goes unnoticed. -/
def DentryMemory.Returns (mem : DentryMemory) (flags : Nat) : Prop :=
  flags &&& tIfdir = 0 ∨ mem.Complete ∨ mem.map = false ∧ mem.errno ≤ 0

/-- The condition for a call. -/
def DentryCall.Kept (mem : DentryMemory) (s : Vfs Obj) (p : Dentry Obj) : DentryCall Obj → Prop
  | .alloc name flags => EntryRefused mem.self s p name ∨ flags &&& tIfdir ≠ 0 ∧ mem.Complete
  | .allocIno name ino flags => ino = none ∨ ¬ EntryRefused mem.self s p name ∧ mem.Returns flags
  | .allocOrphanIno _ ino flags => ino = none ∨ mem.self = true ∧ mem.Returns flags

/-! ## One entry -/

section Entry

variable {mem : DentryMemory} {stale : Nat → Option Hashmap} {s s' : Vfs Obj} {parent a b : Nat}
  {name : Name} {p d : Dentry Obj} {served : Bool} {flags : Nat}

/-- An entry that is refused leaves every dentry there is. -/
theorem dentryAllocEmptyServed_refused (stale : Nat → Option Hashmap)
    (hp : s.dentries parent = some p)
    (hrefused : EntryRefused served s p name) :
    ∃ s' errno, dentryAllocEmptyServed served stale s parent name = .ok (s', .error errno) ∧
      ∀ b, b < s.next → s'.dentries b = s.dentries b := by
  rw [dentryAllocEmptyServed, Vfs.deref_eq_ok.mpr hp]
  simp only [Halt.ok_bind]
  by_cases hlong : dentryNameMaxlen < name.length + 1
  · rw [if_pos hlong]
    exact ⟨s, _, rfl, fun _ _ => rfl⟩
  · rw [if_neg hlong]
    by_cases hfind : p.find name ≠ 0
    · rw [if_pos hfind]
      exact ⟨s, _, rfl, fun _ _ => rfl⟩
    · rw [if_neg hfind]
      by_cases hserved : served = false
      · rw [if_pos hserved]
        exact ⟨s, _, rfl, fun _ _ => rfl⟩
      · rw [if_neg hserved]
        have hinsert : (p.insert name s.next).1 ≠ none :=
          ((hrefused.resolve_left hlong).resolve_left hfind).resolve_left hserved
        cases hin : (p.insert name s.next).1 with
        | none => exact absurd hin hinsert
        | some e => exact ⟨_, _, rfl, fun b hb => Vfs.create_of_ne hb.ne⟩

/-- Without memory for it, an entry is refused with a positive `errno`, and nothing is changed. -/
theorem dentryAllocEmptyServed_unserved (stale : Nat → Option Hashmap)
    (hp : s.dentries parent = some p) (name : Name) :
    ∃ errno > 0, dentryAllocEmptyServed false stale s parent name = .ok (s, .error errno) := by
  rw [dentryAllocEmptyServed, Vfs.deref_eq_ok.mpr hp]
  simp only [Halt.ok_bind, if_true]
  split_ifs with hlong hfind
  · exact ⟨_, by decide, rfl⟩
  · exact ⟨_, by decide, rfl⟩
  · exact ⟨_, by decide, rfl⟩

/-- An entry that is not refused. -/
theorem dentryAllocEmptyServed_entered (stale : Nat → Option Hashmap)
    (hp : s.dentries parent = some p)
    (hentered : ¬ EntryRefused served s p name) :
    ∃ s' hm, dentryAllocEmptyServed served stale s parent name = .ok (s', .ok s.next) ∧
      s.Child stale parent name p hm s' := by
  simp only [EntryRefused, not_or, not_not] at hentered
  obtain ⟨hlong, hfind, hserved, hinsert⟩ := hentered
  cases hchildren : p.children with
  | none => simp [Dentry.insert, hchildren] at hinsert
  | some hm =>
      have hins : hmInsert hmHashStr hm name s.next = (none, (hmInsert hmHashStr hm name s.next).2) := by
        simp only [Dentry.insert, hchildren] at hinsert
        exact Prod.ext hinsert rfl
      refine ⟨_, _, ?_, Vfs.child_of_room hp hchildren hins⟩
      rw [dentryAllocEmptyServed, if_neg hlong, Vfs.deref_eq_ok.mpr hp, Halt.ok_bind,
        if_neg (not_not.mpr hfind), if_neg hserved, hinsert]

end Entry

/-! ## The entries of a new directory -/

section Directory

variable {mem : DentryMemory} {stale : Nat → Option Hashmap} {s s' : Vfs Obj} {parent : Option Nat}
  {a : Nat} {name : Name} {d : Dentry Obj} {flags : Nat}

/-- A dentry that is served is entered as `__dentry_alloc_empty` does. -/
theorem dentryAllocEmptyServed_of_some {parent a : Nat}
    (hcall : dentryAllocEmpty stale s parent name = .ok (s', some a)) :
    dentryAllocEmptyServed true stale s parent name = .ok (s', .ok a) := by
  rw [dentryAllocEmpty] at hcall
  simp only [dentryAllocEmptyServed, Bool.true_eq_false, if_false]
  split_ifs at hcall ⊢ with hlong
  · cases (Prod.mk.inj (Except.ok.inj hcall)).2
  · obtain ⟨p, hp, hcall⟩ := Halt.bind_eq_ok.mp hcall
    rw [hp, Halt.ok_bind]
    split_ifs at hcall ⊢ with hfind hinsert
    · cases (Prod.mk.inj (Except.ok.inj hcall)).2
    · obtain ⟨rfl, ha⟩ := Prod.mk.inj (Except.ok.inj hcall)
      obtain rfl := Option.some.inj ha
      rw [hinsert]
    · cases (Prod.mk.inj (Except.ok.inj hcall)).2

/-- A dentry that is not entered although it was served. -/
theorem dentryAllocEmptyServed_of_none {parent : Nat}
    (hcall : dentryAllocEmpty stale s parent name = .ok (s', none)) :
    ∃ errno, dentryAllocEmptyServed true stale s parent name = .ok (s', .error errno) := by
  rw [dentryAllocEmpty] at hcall
  simp only [dentryAllocEmptyServed, Bool.true_eq_false, if_false]
  split_ifs at hcall ⊢ with hlong
  · obtain ⟨rfl, -⟩ := Prod.mk.inj (Except.ok.inj hcall)
    exact ⟨_, rfl⟩
  · obtain ⟨p, hp, hcall⟩ := Halt.bind_eq_ok.mp hcall
    rw [hp, Halt.ok_bind]
    split_ifs at hcall ⊢ with hfind hinsert
    · obtain ⟨rfl, -⟩ := Prod.mk.inj (Except.ok.inj hcall)
      exact ⟨_, rfl⟩
    · cases (Prod.mk.inj (Except.ok.inj hcall)).2
    · obtain ⟨rfl, -⟩ := Prod.mk.inj (Except.ok.inj hcall)
      cases herror : (p.insert name s.next).1 with
      | none => exact absurd herror hinsert
      | some e => exact ⟨_, rfl⟩

/-- With a memory that serves everything, the entries of a directory are made as without it. -/
theorem dentryInitChildrenServed_complete (hmem : mem.Complete)
    (hcall : dentryInitChildren stale s parent a flags = .ok (s', none)) :
    dentryInitChildrenServed mem stale s parent a flags = .ok (s', 0) := by
  obtain ⟨hmap, hdot, hdotDot⟩ := hmem
  rw [dentryInitChildrenServed, if_neg (by rw [hmap]; decide), hdot, hdotDot]
  rw [dentryInitChildren] at hcall
  obtain ⟨⟨s₁, this⟩, hthis, hcall⟩ := Halt.bind_eq_ok.mp hcall
  cases this with
  | none => cases (Prod.mk.inj (Except.ok.inj hcall)).2
  | some this =>
      obtain ⟨⟨s₂, prnt⟩, hprnt, hcall⟩ := Halt.bind_eq_ok.mp hcall
      simp only [dentryAllocEmptyServed_of_some hthis, Halt.ok_bind]
      cases prnt with
      | none =>
          obtain ⟨r, -, hcall⟩ := Halt.bind_eq_ok.mp hcall
          cases (Prod.mk.inj (Except.ok.inj hcall)).2
      | some prnt =>
          obtain ⟨inode, hinode, hcall⟩ := Halt.bind_eq_ok.mp hcall
          obtain ⟨rfl, -⟩ := Prod.mk.inj (Except.ok.inj hcall)
          simp only [dentryAllocEmptyServed_of_some hprnt, Halt.ok_bind, hinode]

/-- What a dentry has become when its entries are made; other dentries stay. -/
structure Vfs.Finishing (s : Vfs Obj) (a : Nat) (s' : Vfs Obj) (d' : Dentry Obj) : Prop where
  self : s'.dentries a = some d'
  other : ∀ b, b < s.next → b ≠ a → s'.dentries b = s.dentries b

/-- Without memory for one of the entries, the return value is negative; the entry `.` that was made goes. -/
theorem dentryInitChildrenServed_incomplete (stale : Nat → Option Hashmap)
    (ha : s.dentries a = some d) (hmap : mem.map = true) (hmem : ¬ mem.Complete)
    (parent : Option Nat) (flags : Nat) :
    ∃ s' ret d', dentryInitChildrenServed mem stale s parent a flags = .ok (s', ret) ∧
      s.Finishing a s' d' ∧ ret < 0 := by
  have hlt := Vfs.lt_next ha
  let s₁ := s.modify a fun d => { d with children := some (hmAllocHashmap dentryHmLen) }
  have hself₁ : s₁.dentries a = some { d with children := some (hmAllocHashmap dentryHmLen) } :=
    Vfs.modify_self ha
  have hother₁ : ∀ b, b ≠ a → s₁.dentries b = s.dentries b := fun b hb => Vfs.modify_of_ne hb
  rw [dentryInitChildrenServed, if_neg (by rw [hmap]; decide)]
  cases hdot : mem.dot with
  | false =>
      obtain ⟨e, he, hthis⟩ := dentryAllocEmptyServed_unserved stale hself₁ dotName
      refine ⟨s₁, -e, _, ?_, ⟨hself₁, fun b _ => hother₁ b⟩, by omega⟩
      change dentryAllocEmptyServed false stale s₁ a dotName >>= _ = _
      rw [hthis]
      rfl
  | true =>
      have hdotDot : mem.dotDot = false := by
        by_contra hserved
        exact hmem ⟨hmap, hdot, Bool.not_eq_false _ ▸ hserved⟩
      obtain ⟨s₂, halloc₂, hchild⟩ := dentryAllocEmpty_of_room stale dotName hself₁ (by decide) rfl
        (by decide) (hmInsert_dot s.next_pos.ne')
      let s₃ := s₂.modify s.next fun d => { d with parent := none, flags := tIfreg }
      have hself₃ : s₃.dentries a = _ := (Vfs.modify_of_ne hlt.ne).trans hchild.dir
      have hdot₃ : s₃.dentries s.next = _ := Vfs.modify_self hchild.self
      obtain ⟨e, he, hprnt⟩ := dentryAllocEmptyServed_unserved stale hself₃ dotDotName
      have hfree : dentryDealloc s₃ s.next = .ok (none, s₃.destroy s.next) := by
        rw [dentryDealloc, Vfs.deref_eq_ok.mpr hdot₃]
        rfl
      refine ⟨s₃.destroy s.next, -e, _, ?_, ⟨(Vfs.destroy_of_ne hlt.ne).trans hself₃, ?_⟩,
        by omega⟩
      · change dentryAllocEmptyServed true stale s₁ a dotName >>= _ = _
        rw [dentryAllocEmptyServed_of_some halloc₂, Halt.ok_bind]
        change dentryAllocEmptyServed mem.dotDot stale s₃ a dotDotName >>= _ = _
        rw [hdotDot, hprnt, Halt.ok_bind]
        change dentryDealloc s₃ s.next >>= _ = _
        rw [hfree]
        rfl
      · intro b hb hba
        rw [Vfs.destroy_of_ne hb.ne, show s₃.dentries b = _ from Vfs.modify_of_ne hb.ne,
          hchild.other b hba hb.ne]
        exact hother₁ b hba

/-- The entries of a new directory, with every answer of the memory. -/
theorem dentryInitChildrenServed_cases (mem : DentryMemory) (stale : Nat → Option Hashmap)
    (ha : s.dentries a = some d)
    (hp : ∀ q, parent = some q → q ≠ a ∧ s.dentries q ≠ none) (flags : Nat) :
    ∃ s' ret d', dentryInitChildrenServed mem stale s parent a flags = .ok (s', ret) ∧
      s.Finishing a s' d' ∧
      ((mem.Complete ∧ ret = 0 ∧ d'.count = d.count + 2) ∨
        (mem.map = false ∧ ret = -mem.errno ∧ d'.count = d.count) ∨
        mem.map = true ∧ ¬ mem.Complete ∧ ret < 0) := by
  cases hmap : mem.map with
  | false =>
      refine ⟨_, _, _, by rw [dentryInitChildrenServed, if_pos hmap],
        ⟨Vfs.modify_self ha, fun b _ hb => Vfs.modify_of_ne hb⟩, .inr (.inl ⟨rfl, rfl, rfl⟩)⟩
  | true =>
      by_cases hmem : mem.Complete
      · obtain ⟨s', hcall, hnew⟩ := dentryInitChildren_spec stale ha hp flags
        exact ⟨s', 0, _, dentryInitChildrenServed_complete hmem hcall,
          ⟨hnew.self, hnew.other⟩, .inl ⟨hmem, rfl, rfl⟩⟩
      · obtain ⟨s', ret, d', hcall, hfinish, hret⟩ :=
          dentryInitChildrenServed_incomplete stale ha hmap hmem parent flags
        exact ⟨s', ret, d', hcall, hfinish, .inr (.inr ⟨rfl, hmem, hret⟩)⟩

/-- A dentry that has been entered is returned; as a complete directory it has two more references. -/
theorem dentryFinish_returns (stale : Nat → Option Hashmap) (ha : s.dentries a = some d)
    (hp : ∀ q, parent = some q → q ≠ a ∧ s.dentries q ≠ none) (hreturns : mem.Returns flags) :
    ∃ s' d', dentryFinish mem stale s parent a flags = .ok (s', some a) ∧ s.Finishing a s' d' ∧
      ((flags &&& tIfdir ≠ 0 ∧ mem.Complete) ∧ d'.count = d.count + 2 ∨
        ¬ (flags &&& tIfdir ≠ 0 ∧ mem.Complete) ∧ d'.count = d.count) := by
  by_cases hdir : flags &&& tIfdir ≠ 0
  · obtain ⟨s', ret, d', hcall, hfinish, hcases⟩ :=
      dentryInitChildrenServed_cases mem stale ha hp flags
    have hret : ¬ ret < 0 := by
      rcases hcases with ⟨-, rfl, -⟩ | ⟨hmap, rfl, -⟩ | ⟨hmap, hmem, -⟩
      · decide
      · rcases hreturns with hfile | hmem | ⟨-, herrno⟩
        · exact absurd hfile hdir
        · exact absurd hmem.1 (by rw [hmap]; decide)
        · omega
      · rcases hreturns with hfile | hcomplete | ⟨hno, -⟩
        · exact absurd hfile hdir
        · exact absurd hcomplete hmem
        · exact absurd hmap (by rw [hno]; decide)
    refine ⟨s', d', ?_, hfinish, ?_⟩
    · rw [dentryFinish, if_pos hdir, hcall, Halt.ok_bind]
      simp only [if_neg hret]
    · rcases hcases with ⟨hmem, -, hcount⟩ | ⟨hmap, -, hcount⟩ | ⟨-, -, hneg⟩
      · exact .inl ⟨⟨hdir, hmem⟩, hcount⟩
      · exact .inr ⟨fun h => absurd h.2.1 (by rw [hmap]; decide), hcount⟩
      · exact absurd hneg hret
  · refine ⟨s, d, by rw [dentryFinish, if_neg hdir], ⟨ha, fun _ _ _ => rfl⟩,
      .inr ⟨fun h => hdir h.1, rfl⟩⟩

/-- A dentry that has been entered and is not returned: the other dentries keep their counts. -/
theorem dentryFinish_fails (ha : s.dentries a = some d)
    (hp : ∀ q, parent = some q → q ≠ a ∧ s.dentries q ≠ none) (hreturns : ¬ mem.Returns flags)
    {r : Option Nat} (hcall : dentryFinish mem stale s parent a flags = .ok (s', r)) :
    r = none ∧ ∀ b e, b < s.next → b ≠ a → s.dentries b = some e →
      ∃ e', s'.dentries b = some e' ∧ e'.count = e.count := by
  simp only [DentryMemory.Returns, not_or, not_and, not_le] at hreturns
  obtain ⟨hdir, hmem, herrno⟩ := hreturns
  obtain ⟨t, ret, d', hinit, hfinish, hcases⟩ := dentryInitChildrenServed_cases mem stale ha hp flags
  have hret : ret < 0 := by
    rcases hcases with ⟨hcomplete, -, -⟩ | ⟨hmap, rfl, -⟩ | ⟨-, -, hneg⟩
    · exact absurd hcomplete hmem
    · have hpos := herrno hmap
      omega
    · exact hneg
  rw [dentryFinish, if_pos hdir, hinit, Halt.ok_bind] at hcall
  simp only [if_pos hret] at hcall
  obtain ⟨⟨e, u⟩, hfree, hcall⟩ := Halt.bind_eq_ok.mp hcall
  obtain ⟨rfl, rfl⟩ := Prod.mk.inj (Except.ok.inj hcall)
  refine ⟨rfl, fun b e hb hba he => ?_⟩
  exact dentryDealloc_kept hfree hba ((hfinish.other b hb hba).trans he)

end Directory

/-! ## Creations -/

section Creation

variable {mem : DentryMemory} {stale : Nat → Option Hashmap} {s s' : Vfs Obj} {parent : Nat}
  {name : Name} {p : Dentry Obj} {flags : Nat} {r : Option Nat}

/-- A creation that is refused before its entry is made leaves the parent as it is. -/
theorem dentryAllocServed_refused (stale : Nat → Option Hashmap) (hp : s.dentries parent = some p)
    (hrefused : EntryRefused mem.self s p name) (flags : Nat) :
    ∃ s', dentryAllocServed mem stale s parent name flags = .ok (s', none) ∧
      s'.dentries parent = s.dentries parent := by
  rw [dentryAllocServed, Vfs.deref_eq_ok.mpr hp, Halt.ok_bind]
  by_cases hfind : p.find name ≠ 0
  · rw [if_pos hfind]
    exact ⟨s, rfl, rfl⟩
  · rw [if_neg hfind]
    obtain ⟨s', errno, hcall, hother⟩ := dentryAllocEmptyServed_refused stale hp hrefused
    rw [hcall]
    exact ⟨s', rfl, hother parent (Vfs.lt_next hp)⟩

/-- The parent of a dentry that has been entered is another dentry. -/
theorem entered_parent {t : Vfs Obj} {p' : Dentry Obj} (hlt : parent < s.next)
    (hp' : t.dentries parent = some p') :
    ∀ q, some parent = some q → q ≠ s.next ∧ t.dentries q ≠ none := by
  rintro q hq
  obtain rfl := Option.some.inj hq
  exact ⟨hlt.ne, by simp [hp']⟩

/-- When everything is served, the creation is that of `dentry_alloc`. -/
theorem dentryAllocServed_eq (hself : mem.self = true) (hmem : mem.Complete)
    (hcall : dentryAlloc stale s parent name flags = .ok (s', r)) :
    dentryAllocServed mem stale s parent name flags = .ok (s', r) := by
  obtain ⟨p, hp, hcall⟩ := Halt.bind_eq_ok.mp hcall
  rw [dentryAllocServed, hp, Halt.ok_bind, hself]
  by_cases hfind : p.find name ≠ 0
  · rw [if_pos hfind] at hcall ⊢
    exact hcall
  · rw [if_neg hfind] at hcall ⊢
    obtain ⟨⟨t, dntr⟩, hempty, hcall⟩ := Halt.bind_eq_ok.mp hcall
    cases dntr with
    | none =>
        obtain ⟨errno, hserved⟩ := dentryAllocEmptyServed_of_none hempty
        rw [hserved]
        exact hcall
    | some a =>
        rw [dentryAllocEmptyServed_of_some hempty]
        rcases dentryAllocEmpty_cases hempty with ⟨hno, -⟩ | ⟨q, hm, hm', hq, -, -, ha, hchild⟩
        · cases hno
        · obtain rfl := Option.some.inj ha
          change dentryFinish mem stale _ (some parent) s.next flags = _
          rw [dentryFinish]
          change (if flags &&& tIfdir ≠ 0 then _ else _) = _ at hcall
          by_cases hdir : flags &&& tIfdir ≠ 0
          · rw [if_pos hdir] at hcall ⊢
            have hlt := Vfs.lt_next hq
            have hdir' := (Vfs.modify_of_ne (f := fun d => { d with flags := flags }) hlt.ne).trans
              hchild.dir
            obtain ⟨u, hinit, -⟩ := dentryInitChildren_spec stale (Vfs.modify_self hchild.self)
              (entered_parent hlt hdir') flags
            rw [dentryInitChildrenServed_complete hmem hinit]
            rw [hinit] at hcall
            exact hcall
          · rw [if_neg hdir] at hcall ⊢
            exact hcall

/-- A creation whose entry is made: the parent has one reference more, and the rest is up to the end of
`dentry_alloc`. -/
theorem dentryAllocServed_entered (stale : Nat → Option Hashmap) (hp : s.dentries parent = some p)
    (hentered : ¬ EntryRefused mem.self s p name) (flags : Nat) :
    ∃ t d, dentryAllocServed mem stale s parent name flags =
        dentryFinish mem stale t (some parent) s.next flags ∧
      t.dentries s.next = some d ∧ d.count = 1 ∧ parent < t.next ∧
      ∃ p', t.dentries parent = some p' ∧ p'.count = p.count + 1 := by
  have hlt := Vfs.lt_next hp
  obtain ⟨u, hm, hcall, hchild⟩ := dentryAllocEmptyServed_entered stale hp hentered
  have hfind : ¬ p.find name ≠ 0 := by
    simp only [EntryRefused, not_or] at hentered
    exact hentered.2.1
  refine ⟨u.modify s.next fun d => { d with flags := flags }, _, ?_, Vfs.modify_self hchild.self, rfl,
    ?_, _, (Vfs.modify_of_ne hlt.ne).trans hchild.dir, rfl⟩
  · rw [dentryAllocServed, Vfs.deref_eq_ok.mpr hp, Halt.ok_bind, if_neg hfind, hcall]
    rfl
  · change parent < u.next
    rw [hchild.next]
    exact hlt.trans (Nat.lt_succ_self _)

/-- The creation of a dentry is undone just when it is refused before its entry is made, or it makes a
complete directory, which cannot be freed. -/
theorem allocUndone_iff (stale : Nat → Option Hashmap) (hp : s.dentries parent = some p) :
    AllocUndone mem stale s parent name flags ↔
      EntryRefused mem.self s p name ∨ flags &&& tIfdir ≠ 0 ∧ mem.Complete := by
  constructor
  · rintro ⟨s', r, hcall, hundone⟩
    by_contra hnot
    rw [not_or] at hnot
    obtain ⟨hentered, hincomplete⟩ := hnot
    obtain ⟨t, d, heq, hd, hone, hlt, p', hp', hraised⟩ :=
      dentryAllocServed_entered stale hp hentered flags
    have hne : parent ≠ s.next := (Vfs.lt_next hp).ne
    have hparent := entered_parent (Vfs.lt_next hp) hp'
    rw [heq] at hcall
    by_cases hreturns : mem.Returns flags
    · obtain ⟨u, d', hfinish, hfinishing, hcount⟩ := dentryFinish_returns stale hd hparent hreturns
      obtain ⟨rfl, rfl⟩ := Prod.mk.inj (Except.ok.inj (hfinish.symm.trans hcall))
      have hfree : d'.count ≤ 1 := by
        rcases hcount with ⟨hcomplete, -⟩ | ⟨-, hsame⟩
        · exact absurd hcomplete hincomplete
        · omega
      obtain ⟨e, v, q, q', hdealloc, hq, hq', hsame⟩ := hundone d' hfinishing.self hfree
      -- What is freed leaves the count of the parent.
      obtain ⟨q'', hq'', hkept⟩ :=
        dentryDealloc_kept hdealloc hne ((hfinishing.other parent hlt hne).trans hp')
      obtain rfl := Option.some.inj (hq'.symm.trans hq'')
      obtain rfl := Option.some.inj (hp.symm.trans hq)
      have hcounts := hsame.count
      omega
    · obtain ⟨rfl, hother⟩ := dentryFinish_fails hd hparent hreturns hcall
      obtain ⟨q, hq, hkept⟩ := hother parent p' hlt hne hp'
      have hsame : s'.dentries parent = s.dentries parent := hundone
      obtain rfl := Option.some.inj (hp.symm.trans (hsame.symm.trans hq))
      omega
  · rintro (hrefused | hcomplete)
    · obtain ⟨s', hcall, hsame⟩ := dentryAllocServed_refused stale hp hrefused flags
      exact ⟨s', none, hcall, hsame⟩
    · by_cases hrefused : EntryRefused mem.self s p name
      · obtain ⟨s', hcall, hsame⟩ := dentryAllocServed_refused stale hp hrefused flags
        exact ⟨s', none, hcall, hsame⟩
      · obtain ⟨t, d, heq, hd, hone, hlt, p', hp', -⟩ :=
          dentryAllocServed_entered stale hp hrefused flags
        obtain ⟨u, d', hfinish, hfinishing, hcount⟩ := dentryFinish_returns stale hd
          (entered_parent (Vfs.lt_next hp) hp') (.inr (.inl hcomplete.2))
        refine ⟨u, some s.next, heq.trans hfinish, fun e he hfree => ?_⟩
        obtain rfl := Option.some.inj (hfinishing.self.symm.trans he)
        rcases hcount with ⟨-, htwo⟩ | ⟨hno, -⟩
        · omega
        · exact absurd hcomplete hno

/-- A call for an inode that is not null is neutral just when it does not fail. -/
theorem failureNeutral_iff [DecidableEq Obj] {c : CountedVfs Obj} {ino : Obj}
    {call : Except Halt (Vfs Obj × Option Nat)} :
    FailureNeutral c parent (some ino) (countInode c ino call) ↔
      ∃ t a, call = .ok (t, some a) := by
  constructor
  · rintro ⟨c', r, hcall, hneutral⟩
    obtain ⟨⟨t, dntr⟩, ht, hcall⟩ := Halt.bind_eq_ok.mp hcall
    cases dntr with
    | some a => exact ⟨t, a, ht⟩
    | none =>
        obtain ⟨rfl, rfl⟩ := Prod.mk.inj (Except.ok.inj hcall)
        have hcount := (hneutral rfl).2 ino rfl
        simp only [Function.update_self] at hcount
        omega
  · rintro ⟨t, a, rfl⟩
    exact ⟨_, some a, rfl, nofun⟩

/-- `dentry_alloc` returns a dentry just when its entry is made and what follows does not fail. -/
theorem dentryAllocServed_returns_iff (stale : Nat → Option Hashmap)
    (hp : s.dentries parent = some p) :
    (∃ t a, dentryAllocServed mem stale s parent name flags = .ok (t, some a)) ↔
      ¬ EntryRefused mem.self s p name ∧ mem.Returns flags := by
  constructor
  · rintro ⟨t, a, hcall⟩
    have hentered : ¬ EntryRefused mem.self s p name := by
      intro hrefused
      obtain ⟨s', hnone, -⟩ := dentryAllocServed_refused stale hp hrefused flags
      cases (Prod.mk.inj (Except.ok.inj (hnone.symm.trans hcall))).2
    refine ⟨hentered, ?_⟩
    by_contra hreturns
    obtain ⟨u, d, heq, hd, -, -, p', hp', -⟩ := dentryAllocServed_entered stale hp hentered flags
    cases (dentryFinish_fails hd (entered_parent (Vfs.lt_next hp) hp') hreturns
      (heq.symm.trans hcall)).1
  · rintro ⟨hentered, hreturns⟩
    obtain ⟨u, d, heq, hd, -, -, p', hp', -⟩ := dentryAllocServed_entered stale hp hentered flags
    obtain ⟨t, -, hfinish, -⟩ :=
      dentryFinish_returns stale hd (entered_parent (Vfs.lt_next hp) hp') hreturns
    exact ⟨t, s.next, heq.trans hfinish⟩

/-- `dentry_alloc_orphan` returns a dentry just when there is memory for it and what follows does not
fail. -/
theorem dentryAllocOrphanServed_returns_iff (stale : Nat → Option Hashmap) (s : Vfs Obj) :
    (∃ t a, dentryAllocOrphanServed mem stale s name flags = .ok (t, some a)) ↔
      mem.self = true ∧ mem.Returns flags := by
  have hnone : ∀ q, none = some q → q ≠ s.next ∧
      (s.create (orphanDentry name flags (stale s.next))).dentries q ≠ none := nofun
  rw [dentryAllocOrphanServed]
  cases hself : mem.self with
  | false => simp
  | true =>
      simp only [Bool.true_eq_false, if_false, true_and]
      constructor
      · rintro ⟨t, a, hcall⟩
        by_contra hreturns
        cases (dentryFinish_fails Vfs.create_self hnone hreturns hcall).1
      · intro hreturns
        obtain ⟨t, -, hfinish, -⟩ := dentryFinish_returns stale Vfs.create_self hnone hreturns
        exact ⟨t, s.next, hfinish⟩

end Creation

/-- A call leaves nothing behind when it fails or is undone, just when the condition for it holds. -/
theorem dentry_creation_undone_iff [DecidableEq Obj] (mem : DentryMemory)
    (stale : Nat → Option Hashmap) (c : CountedVfs Obj) (parent : Nat) (p : Dentry Obj)
    (hp : c.vfs.dentries parent = some p) (call : DentryCall Obj) :
    call.Undone mem stale c parent ↔ call.Kept mem c.vfs p := by
  cases call with
  | alloc name flags => exact allocUndone_iff stale hp
  | allocIno name ino flags =>
      cases ino with
      | none => exact ⟨fun _ => .inl rfl, fun _ => ⟨c, none, rfl, fun _ => ⟨rfl, nofun⟩⟩⟩
      | some ino =>
          simp only [DentryCall.Undone, DentryCall.Kept, dentryAllocInoServed, failureNeutral_iff,
            dentryAllocServed_returns_iff stale hp, reduceCtorEq, false_or]
  | allocOrphanIno name ino flags =>
      cases ino with
      | none => exact ⟨fun _ => .inl rfl, fun _ => ⟨c, none, rfl, fun _ => ⟨rfl, nofun⟩⟩⟩
      | some ino =>
          simp only [DentryCall.Undone, DentryCall.Kept, dentryAllocOrphanInoServed,
            failureNeutral_iff, dentryAllocOrphanServed_returns_iff stale, reduceCtorEq, false_or]

/-! ## Two creations in an empty directory -/

/-- A memory that serves every request. -/
def servedMemory : DentryMemory := ⟨true, true, true, true, 0⟩

/-- A root directory without entries, and no inode. -/
def emptyRoot : CountedVfs Unit where
  vfs :=
    { dentries := fun a => if a = 1 then some ⟨tIfdir, none, none, some (hmAllocHashmap 32), 1, [47]⟩
        else none
      next := 2
      next_pos := by decide
      unused := by
        intro a ha
        rw [if_neg (by omega)]
      root := some 1
      mounts := [] }
  icount _ := 0

/-- A directory is created and cannot be freed. -/
theorem directory_creation_undone :
    (DentryCall.alloc [100] tIfdir).Undone servedMemory (fun _ => none) emptyRoot 1 :=
  (dentry_creation_undone_iff servedMemory (fun _ => none) emptyRoot 1 _ rfl _).mpr
    (.inr ⟨by decide, rfl, rfl, rfl⟩)

/-- A file is created and freed, and its directory has one reference more. -/
theorem file_creation_not_undone :
    ¬ (DentryCall.alloc [102] tIfreg).Undone servedMemory (fun _ => none) emptyRoot 1 := by
  intro hundone
  rcases (allocUndone_iff _ (p := _) rfl).mp hundone with hrefused | ⟨hdir, -⟩
  · have hinsert : ¬ EntryRefused true emptyRoot.vfs
        ⟨tIfdir, none, none, some (hmAllocHashmap 32), 1, [47]⟩ [102] := by
      simp only [EntryRefused, not_or]
      exact ⟨by decide, by decide, by decide, by decide⟩
    exact hinsert hrefused
  · exact hdir (by decide)

end Fs
end Micael
