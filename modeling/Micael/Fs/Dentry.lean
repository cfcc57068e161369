import Micael.Lib.HashmapInsert

/-!
# Directory entries

A dentry caches one name of a directory: its inode, the directory it is in and, for a directory, the
map of its own children.  The map compares the hashes of names only.  A directory has the two entries
`.` and `..` from the start; they are dentries of their own, with no children map.

Dentries are named by their allocation, so an address is never used twice.  What the field
`d_children` of a new dentry holds is an argument: memory that is used for the first time is cleared,
memory that was freed before is not.  Reference counts of inodes and the list of dentries are only
written by this code, and are left out.

Main results:

- Theorem {lit}`dentryAllocEmpty_cases`: what the allocation of an empty dentry leaves.
- Theorem {lit}`dentryInitChildren_spec`: the two entries of a new directory are always created.
- Theorem {lit}`dentryAllocIno_cases`: the dentry of an object that was found in a directory.
- Theorem {lit}`dentryAllocOrphan_dir`: the root directory of a file system.
-/

namespace Micael
namespace Fs

open Lib

/-- The bytes of a name, without the terminating zero. -/
abbrev Name := List UInt8

/-- `T_IFREG`. -/
def tIfreg : Nat := 2 ^ 4

/-- `T_IFDIR`. -/
def tIfdir : Nat := 2 ^ 5

/-- `DENTRY_NAME_MAXLEN`. -/
def dentryNameMaxlen : Nat := 128

/-- `DENTRY_HM_LEN`. -/
def dentryHmLen : Nat := 32

/-- The name `.`. -/
def dotName : Name := [46]

/-- The name `..`. -/
def dotDotName : Name := [46, 46]

/-! ## The cache -/

/-- A file system: the flags of its objects, and `i_iops->lookup`. -/
structure FileSystem (Obj : Type) where
  flags : Obj → Nat
  lookup : Obj → Name → Option Obj

/-- `dentry_t`. -/
structure Dentry (Obj : Type) where
  flags : Nat
  parent : Option Nat
  inode : Option Obj
  children : Option Hashmap
  count : Int
  name : Name

/-- `mount_t`: the name of the dentry of the mount point, and `mnt_root`. -/
structure Mount where
  name : Name
  root : Option Nat

/-- The dentries by their address, the next address, `root_fs->mnt_root` and the mount points that
were added to the root file system's. -/
structure Vfs (Obj : Type) where
  dentries : Nat → Option (Dentry Obj)
  next : Nat
  next_pos : 0 < next
  unused : ∀ a, next ≤ a → dentries a = none
  root : Option Nat
  mounts : List Mount

variable {Obj : Type}

/-- An access to a dentry: a dentry that was freed faults. -/
def Vfs.deref (s : Vfs Obj) (a : Nat) : Except Halt (Dentry Obj) :=
  match s.dentries a with
  | some d => .ok d
  | none => .error .fault

/-- Write to a dentry. -/
def Vfs.modify (s : Vfs Obj) (a : Nat) (f : Dentry Obj → Dentry Obj) : Vfs Obj :=
  { s with
    dentries := fun b => if b = a then (s.dentries b).map f else s.dentries b
    unused := by
      intro b hb
      rw [s.unused b hb]
      by_cases h : b = a
      · rw [if_pos h, Option.map_none]
      · rw [if_neg h] }

/-- A new dentry. -/
def Vfs.create (s : Vfs Obj) (d : Dentry Obj) : Vfs Obj :=
  { s with
    dentries := fun b => if b = s.next then some d else s.dentries b
    next := s.next + 1
    next_pos := Nat.succ_pos _
    unused := by
      intro b hb
      rw [if_neg (by omega)]
      exact s.unused b (by omega) }

/-- A dentry that is given back to the slab cache. -/
def Vfs.destroy (s : Vfs Obj) (a : Nat) : Vfs Obj :=
  { s with
    dentries := fun b => if b = a then none else s.dentries b
    unused := by
      intro b hb
      by_cases h : b = a
      · rw [if_pos h]
      · rw [if_neg h, s.unused b hb] }

/-- `hm_get(dntr->d_children, name)`; without a map nothing is found. -/
def Dentry.find (d : Dentry Obj) (name : Name) : Nat :=
  match d.children with
  | some hm => hmGet hmHashStr hm name
  | none => 0

/-- `hm_insert(dntr->d_children, name, elem)`. -/
def Dentry.insert (d : Dentry Obj) (name : Name) (elem : Nat) : Option Errno × Dentry Obj :=
  match d.children with
  | some hm =>
      let inserted := hmInsert hmHashStr hm name elem
      (inserted.1, { d with children := some inserted.2 })
  | none => (some .einval, d)

/-- `hm_remove(dntr->d_children, name)`. -/
def Dentry.remove (d : Dentry Obj) (name : Name) : Except Halt (Option Errno × Dentry Obj) :=
  match d.children with
  | some hm =>
      (hmRemove hmHashStr hm name).map fun removed =>
        (removed.1, { d with children := some removed.2 })
  | none => .ok (some .einval, d)

/-! ## Allocation -/

/-- The fields that `__dentry_alloc_empty` sets; `stale` is what `d_children` holds. -/
def emptyDentry (parent : Nat) (name : Name) (stale : Option Hashmap) : Dentry Obj where
  flags := 0
  parent := some parent
  inode := none
  children := stale
  count := 1
  name := name

/-- The directory with a child in its map. -/
def Dentry.adopt (d : Dentry Obj) (name : Name) (child : Nat) : Dentry Obj :=
  { (d.insert name child).2 with count := d.count + 1 }

/-- `__dentry_alloc_empty`.  When the map of the parent is full, the new dentry is not released. -/
def dentryAllocEmpty (stale : Nat → Option Hashmap) (s : Vfs Obj) (parent : Nat) (name : Name) :
    Except Halt (Vfs Obj × Option Nat) :=
  if dentryNameMaxlen < name.length + 1 then .ok (s, none)
  else do
    let p ← s.deref parent
    if p.find name ≠ 0 then .ok (s, none)
    else if (p.insert name s.next).1 = none then
      .ok ((s.create (emptyDentry parent name (stale s.next))).modify parent
        (Dentry.adopt · name s.next), some s.next)
    else .ok (s.create (emptyDentry parent name (stale s.next)), none)

/-- `dentry_dealloc`: the return value, or none for zero.  The count of the parent stays as it is. -/
def dentryDealloc (s : Vfs Obj) (a : Nat) : Except Halt (Option Errno × Vfs Obj) := do
  let d ← s.deref a
  if 1 < d.count then .ok (some .ebusy, s)
  else
    match d.parent with
    | none => .ok (none, s.destroy a)
    | some parent => do
        let p ← s.deref parent
        let removed ← p.remove d.name
        match removed.1 with
        | some e => .ok (some e, s)
        | none => .ok (none, (s.modify parent fun _ => removed.2).destroy a)

/-- The inode that the entry `..` gets. -/
def parentInode (s : Vfs Obj) (parent : Option Nat) : Except Halt (Option Obj) :=
  match parent with
  | none => .ok none
  | some parent => (s.deref parent).map (·.inode)

/-- `__dentry_init_children`; `none` is success. -/
def dentryInitChildren (stale : Nat → Option Hashmap) (s : Vfs Obj) (parent : Option Nat) (a : Nat)
    (flags : Nat) : Except Halt (Vfs Obj × Option Errno) := do
  let s := s.modify a fun d => { d with children := some (hmAllocHashmap dentryHmLen) }
  let (s, this) ← dentryAllocEmpty stale s a dotName
  match this with
  | none => .ok (s, some .enomem)
  | some this => do
      let s := s.modify this fun d => { d with parent := none, flags := tIfreg }
      let (s, prnt) ← dentryAllocEmpty stale s a dotDotName
      match prnt with
      | none => do
          let (_, s) ← dentryDealloc s this
          .ok (s, some .enomem)
      | some prnt => do
          let inode ← parentInode s parent
          .ok (s.modify prnt fun d =>
            { d with parent := parent, flags := tIfreg ||| flags, inode := inode }, none)

/-- `dentry_alloc` for a parent that is not null. -/
def dentryAlloc (stale : Nat → Option Hashmap) (s : Vfs Obj) (parent : Nat) (name : Name)
    (flags : Nat) : Except Halt (Vfs Obj × Option Nat) := do
  let p ← s.deref parent
  if p.find name ≠ 0 then .ok (s, none)
  else do
    let (s, dntr) ← dentryAllocEmpty stale s parent name
    match dntr with
    | none => .ok (s, none)
    | some a => do
        let s := s.modify a fun d => { d with flags := flags }
        if flags &&& tIfdir ≠ 0 then do
          let (s, error) ← dentryInitChildren stale s (some parent) a flags
          match error with
          | none => .ok (s, some a)
          | some _ => do
              let (_, s) ← dentryDealloc s a
              .ok (s, none)
        else .ok (s, some a)

/-- The fields that `dentry_alloc_orphan` sets. -/
def orphanDentry (name : Name) (flags : Nat) (stale : Option Hashmap) : Dentry Obj where
  flags := flags
  parent := none
  inode := none
  children := stale
  count := 1
  name := name

/-- `dentry_alloc_orphan`. -/
def dentryAllocOrphan (stale : Nat → Option Hashmap) (s : Vfs Obj) (name : Name) (flags : Nat) :
    Except Halt (Vfs Obj × Option Nat) := do
  let a := s.next
  let s := s.create (orphanDentry name flags (stale a))
  if flags &&& tIfdir ≠ 0 then do
    let (s, error) ← dentryInitChildren stale s none a flags
    match error with
    | none => .ok (s, some a)
    | some _ => do
        let (_, s) ← dentryDealloc s a
        .ok (s, none)
  else .ok (s, some a)

/-- `dentry_alloc_ino` for an object that is not null. -/
def dentryAllocIno (stale : Nat → Option Hashmap) (s : Vfs Obj) (parent : Nat) (name : Name)
    (obj : Obj) (flags : Nat) : Except Halt (Vfs Obj × Option Nat) := do
  let (s, dntr) ← dentryAlloc stale s parent name flags
  match dntr with
  | none => .ok (s, none)
  | some a => .ok (s.modify a fun d => { d with inode := some obj }, some a)

/-! ## Reading the cache -/

variable {stale : Nat → Option Hashmap} {s s' : Vfs Obj} {parent a b : Nat} {name : Name}
  {p d : Dentry Obj} {f : Dentry Obj → Dentry Obj}

theorem Vfs.lt_next (h : s.dentries a = some d) : a < s.next := by
  by_contra hge
  rw [s.unused a (not_lt.mp hge)] at h
  cases h

theorem Vfs.deref_eq_ok : s.deref a = .ok d ↔ s.dentries a = some d := by
  unfold Vfs.deref
  cases s.dentries a with
  | none => simp
  | some e => simp

theorem Vfs.modify_self (h : s.dentries a = some d) : (s.modify a f).dentries a = some (f d) := by
  simp [Vfs.modify, h]

theorem Vfs.modify_of_ne (h : b ≠ a) : (s.modify a f).dentries b = s.dentries b :=
  if_neg h

theorem Vfs.create_self : (s.create d).dentries s.next = some d :=
  if_pos rfl

theorem Vfs.create_of_ne (h : b ≠ s.next) : (s.create d).dentries b = s.dentries b :=
  if_neg h

theorem Vfs.destroy_self : (s.destroy a).dentries a = none :=
  if_pos rfl

theorem Vfs.destroy_of_ne (h : b ≠ a) : (s.destroy a).dentries b = s.dentries b :=
  if_neg h

/-- A directory whose map took the child. -/
theorem Dentry.adopt_eq {hm hm' : Hashmap} {child : Nat} (hchildren : d.children = some hm)
    (hins : hmInsert hmHashStr hm name child = (none, hm')) :
    d.adopt name child = { d with children := some hm', count := d.count + 1 } := by
  simp [Dentry.adopt, Dentry.insert, hchildren, hins]

/-- An insertion changes nothing but the map. -/
theorem Dentry.insert_fields (d : Dentry Obj) (name : Name) (elem : Nat) :
    (d.insert name elem).2.name = d.name ∧ (d.insert name elem).2.parent = d.parent ∧
      (d.insert name elem).2.count = d.count := by
  unfold Dentry.insert
  cases d.children with
  | none => exact ⟨rfl, rfl, rfl⟩
  | some hm => exact ⟨rfl, rfl, rfl⟩

/-- A removal changes nothing but the map. -/
theorem Dentry.remove_count {p' : Dentry Obj} {e : Option Errno}
    (hcall : p.remove name = .ok (e, p')) : p'.count = p.count := by
  unfold Dentry.remove at hcall
  cases hchildren : p.children with
  | none =>
      rw [hchildren] at hcall
      obtain ⟨-, rfl⟩ := Prod.mk.inj (Except.ok.inj hcall)
      rfl
  | some hm =>
      rw [hchildren] at hcall
      obtain ⟨removed, -, heq⟩ := Halt.map_eq_ok.mp hcall
      obtain ⟨-, rfl⟩ := Prod.mk.inj heq
      rfl

/-- A deallocation keeps the counts of the other dentries. -/
theorem dentryDealloc_kept {e : Option Errno} (hcall : dentryDealloc s a = .ok (e, s')) (hb : b ≠ a)
    (hd : s.dentries b = some d) : ∃ d', s'.dentries b = some d' ∧ d'.count = d.count := by
  obtain ⟨victim, -, hcall⟩ := Halt.bind_eq_ok.mp hcall
  by_cases hbusy : 1 < victim.count
  · rw [if_pos hbusy] at hcall
    obtain ⟨-, rfl⟩ := Prod.mk.inj (Except.ok.inj hcall)
    exact ⟨d, hd, rfl⟩
  · rw [if_neg hbusy] at hcall
    cases hparent : victim.parent with
    | none =>
        rw [hparent] at hcall
        obtain ⟨-, rfl⟩ := Prod.mk.inj (Except.ok.inj hcall)
        exact ⟨d, (Vfs.destroy_of_ne hb).trans hd, rfl⟩
    | some parent =>
        rw [hparent] at hcall
        obtain ⟨p, hp, hcall⟩ := Halt.bind_eq_ok.mp hcall
        obtain ⟨⟨e', p'⟩, hremove, hcall⟩ := Halt.bind_eq_ok.mp hcall
        rw [Vfs.deref_eq_ok] at hp
        cases e' with
        | some e' =>
            obtain ⟨-, rfl⟩ := Prod.mk.inj (Except.ok.inj hcall)
            exact ⟨d, hd, rfl⟩
        | none =>
            obtain ⟨-, rfl⟩ := Prod.mk.inj (Except.ok.inj hcall)
            rw [Vfs.destroy_of_ne hb]
            by_cases hbp : b = parent
            · subst hbp
              obtain rfl := Option.some.inj (hp.symm.trans hd)
              exact ⟨p', Vfs.modify_self hp, Dentry.remove_count hremove⟩
            · exact ⟨d, (Vfs.modify_of_ne hbp).trans hd, rfl⟩

/-- The entries of a map after an insertion, whether it succeeds or not. -/
theorem Dentry.insert_holds {elem index data : Nat} {key : UInt32} {hm : Hashmap}
    (hchildren : (d.insert name elem).2.children = some hm) (hholds : hm.Holds index key data) :
    (∃ hm₀, d.children = some hm₀ ∧ hm₀.Holds index key data) ∨
      key = hmHashStr name ∧ data = elem := by
  unfold Dentry.insert at hchildren
  cases hmap : d.children with
  | none =>
      rw [hmap] at hchildren
      cases hmap.symm.trans hchildren
  | some hm₀ =>
      rw [hmap] at hchildren
      obtain rfl := Option.some.inj hchildren
      cases hins : hmInsert hmHashStr hm₀ name elem with
      | mk error hm =>
          rw [hins] at hholds
          cases error with
          | some e =>
              rw [hmInsert_error hins] at hholds
              exact .inl ⟨hm₀, rfl, hholds⟩
          | none =>
              obtain ⟨-, i, -, -, -, rfl⟩ := hmInsert_eq_put hins
              rw [Hashmap.put_holds_iff] at hholds
              split at hholds
              · exact .inr hholds
              · exact .inl ⟨hm₀, rfl, hholds⟩

/-! ## The map of a new directory -/

/-- A new map with the entry `.`. -/
def dotMap (dot : Nat) : Hashmap := (hmInsert hmHashStr (hmAllocHashmap dentryHmLen) dotName dot).2

/-- A new map with the entries `.` and `..`. -/
def newDirMap (dot dotDot : Nat) : Hashmap := (hmInsert hmHashStr (dotMap dot) dotDotName dotDot).2

theorem hash_dot_ne : hmHashStr dotDotName ≠ hmHashStr dotName := by decide

theorem hmInsert_dot {dot : Nat} (hdot : dot ≠ 0) :
    hmInsert hmHashStr (hmAllocHashmap dentryHmLen) dotName dot = (none, dotMap dot) := by
  have hfree : hmFindFreeBucket (hmAllocHashmap dentryHmLen) (hmHashStr dotName) = some 19 := by
    decide
  have hvalid : hmHashStr dotName ≠ uint32Max := by decide
  have hroom : (hmAllocHashmap dentryHmLen).len ≠ (hmAllocHashmap dentryHmLen).cap := by decide
  rw [dotMap, hmInsert, if_neg hdot, if_neg hroom, if_neg hvalid, hfree]

theorem dotMap_grown {dot : Nat} (hdot : dot ≠ 0) : (dotMap dot).Grown :=
  (grown_alloc dentryHmLen).insert (hmInsert_dot hdot)

theorem dotMap_holds {dot index data : Nat} {key : UInt32} (hdot : dot ≠ 0)
    (h : (dotMap dot).Holds index key data) : key = hmHashStr dotName ∧ data = dot := by
  obtain ⟨-, i, -, -, -, hput⟩ := hmInsert_eq_put (hmInsert_dot hdot)
  rw [hput, Hashmap.put_holds_iff] at h
  split at h
  · exact h
  · cases h

/-- The name `..` is not found before it is entered. -/
theorem hmGet_dotMap {dot : Nat} (hdot : dot ≠ 0) : hmGet hmHashStr (dotMap dot) dotDotName = 0 := by
  by_contra hget
  obtain ⟨-, i, hfound⟩ := foundAt_of_hmGet hget
  exact hash_dot_ne (dotMap_holds hdot hfound.holds).1

theorem hmInsert_dotDot {dot dotDot : Nat} (hdot : dot ≠ 0) (hdotDot : dotDot ≠ 0) :
    hmInsert hmHashStr (dotMap dot) dotDotName dotDot = (none, newDirMap dot dotDot) := by
  have hhash : (hmHashStr dotDotName).toNat % 32 = 1 := by decide
  have hslot : (hmHashStr dotName).toNat % 32 = 19 := by decide
  obtain ⟨-, i, -, -, hbefore, hput⟩ := hmInsert_eq_put (hmInsert_dot hdot)
  -- the first slot of the probe for `.` is vacant, so that is where the entry is
  have hfirst : i = 0 := by
    by_contra hne
    obtain ⟨item, hitem, -⟩ := hbefore 0 (Nat.pos_of_ne_zero hne)
    cases hitem
  have hcap : (dotMap dot).cap = 32 := by rw [hput]; rfl
  have hlen : (dotMap dot).len = 1 := by rw [hput]; rfl
  have hvacant : (dotMap dot).elem ((hmHashStr dotDotName).toNat % (dotMap dot).cap) = none := by
    rw [hcap, hhash, hput, hfirst]
    have hindex : (hmAllocHashmap dentryHmLen).slot (hmHashStr dotName) 0 = 19 := hslot
    simp only [Hashmap.put, hindex]
    rfl
  have hprobe : hmFindFreeBucket (dotMap dot) (hmHashStr dotDotName) ≠ none := by
    simp [hmFindFreeBucket, bucketMaxLen, findFreeLoop, hvacant]
  have hvalid : hmHashStr dotDotName ≠ uint32Max := by decide
  obtain ⟨hm, hins⟩ := exists_hmInsert hdotDot (by rw [hlen, hcap]; decide) hvalid hprobe
  rw [newDirMap, hins]

theorem newDirMap_holds {dot dotDot index data : Nat} {key : UInt32} (hdot : dot ≠ 0)
    (hdotDot : dotDot ≠ 0) (h : (newDirMap dot dotDot).Holds index key data) :
    (key = hmHashStr dotName ∧ data = dot) ∨ (key = hmHashStr dotDotName ∧ data = dotDot) := by
  obtain ⟨-, i, -, -, -, hput⟩ := hmInsert_eq_put (hmInsert_dotDot hdot hdotDot)
  rw [hput, Hashmap.put_holds_iff] at h
  split at h
  · exact .inr h
  · exact .inl (dotMap_holds hdot h)

theorem newDirMap_grown {dot dotDot : Nat} (hdot : dot ≠ 0) (hdotDot : dotDot ≠ 0) :
    (newDirMap dot dotDot).Grown :=
  (dotMap_grown hdot).insert (hmInsert_dotDot hdot hdotDot)

/-- The names that a new directory finds have the hash of `.` or of `..`. -/
theorem hmGet_newDirMap_eq_zero_iff {dot dotDot : Nat} (hdot : dot ≠ 0) (hdotDot : dotDot ≠ 0) :
    hmGet hmHashStr (newDirMap dot dotDot) name = 0 ↔
      hmHashStr name ≠ hmHashStr dotName ∧ hmHashStr name ≠ hmHashStr dotDotName := by
  have hgrown := newDirMap_grown hdot hdotDot
  obtain ⟨-, i, -, -, -, hput₀⟩ := hmInsert_eq_put (hmInsert_dot hdot)
  obtain ⟨-, j, -, hvacant, -, hput⟩ := hmInsert_eq_put (hmInsert_dotDot hdot hdotDot)
  constructor
  · intro hzero
    constructor
    · intro hhash
      have hentry : ∃ index, (dotMap dot).Holds index (hmHashStr name) dot := by
        rw [hhash, hput₀]
        exact ⟨_, Hashmap.put_holds_self _ _ _ _⟩
      obtain ⟨index, hentry⟩ := hentry
      have hkept : (newDirMap dot dotDot).Holds index (hmHashStr name) dot := by
        rw [hput]
        exact hentry.put hvacant
      have hvalid : hmHashStr name ≠ uint32Max := by rw [hhash]; decide
      exact hgrown.hmGet_ne_zero hvalid hkept hzero
    · intro hhash
      have hentry : ∃ index, (newDirMap dot dotDot).Holds index (hmHashStr name) dotDot := by
        rw [hhash, hput]
        exact ⟨_, Hashmap.put_holds_self _ _ _ _⟩
      obtain ⟨index, hentry⟩ := hentry
      have hvalid : hmHashStr name ≠ uint32Max := by rw [hhash]; decide
      exact hgrown.hmGet_ne_zero hvalid hentry hzero
  · intro hhash
    by_contra hget
    obtain ⟨-, l, hfound⟩ := foundAt_of_hmGet hget
    rcases newDirMap_holds hdot hdotDot hfound.holds with ⟨h, -⟩ | ⟨h, -⟩
    · exact hhash.1 h
    · exact hhash.2 h

/-! ## What an allocation leaves -/

/-- The directory {lit}`p` has got a new child with this name, and nothing else has changed. -/
structure Vfs.Child (stale : Nat → Option Hashmap) (s : Vfs Obj) (parent : Nat) (name : Name)
    (p : Dentry Obj) (hm : Hashmap) (s' : Vfs Obj) : Prop where
  next : s'.next = s.next + 1
  root : s'.root = s.root
  mounts : s'.mounts = s.mounts
  dir : s'.dentries parent = some { p with children := some hm, count := p.count + 1 }
  self : s'.dentries s.next = some (emptyDentry parent name (stale s.next))
  other : ∀ b, b ≠ parent → b ≠ s.next → s'.dentries b = s.dentries b

theorem Vfs.child_of_room {hm hm' : Hashmap} (hp : s.dentries parent = some p)
    (hchildren : p.children = some hm) (hins : hmInsert hmHashStr hm name s.next = (none, hm')) :
    s.Child stale parent name p hm'
      ((s.create (emptyDentry parent name (stale s.next))).modify parent
        (Dentry.adopt · name s.next)) := by
  have hlt := Vfs.lt_next hp
  constructor
  case next => rfl
  case root => rfl
  case mounts => rfl
  case dir =>
    have hcreated := (Vfs.create_of_ne (d := emptyDentry parent name (stale s.next)) hlt.ne).trans hp
    rw [Vfs.modify_self hcreated, Dentry.adopt_eq hchildren hins]
  case self => exact (Vfs.modify_of_ne hlt.ne').trans Vfs.create_self
  case other =>
    intro b hparent hnext
    exact (Vfs.modify_of_ne hparent).trans (Vfs.create_of_ne hnext)

/-- An allocation in a directory whose map takes the name. -/
theorem dentryAllocEmpty_of_room (stale : Nat → Option Hashmap) (name : Name) {hm hm' : Hashmap}
    (hp : s.dentries parent = some p)
    (hlen : name.length + 1 ≤ dentryNameMaxlen) (hchildren : p.children = some hm)
    (hfind : hmGet hmHashStr hm name = 0) (hins : hmInsert hmHashStr hm name s.next = (none, hm')) :
    ∃ s', dentryAllocEmpty stale s parent name = .ok (s', some s.next) ∧
      s.Child stale parent name p hm' s' := by
  have hcached : ¬ p.find name ≠ 0 := by simp [Dentry.find, hchildren, hfind]
  have htaken : (p.insert name s.next).1 = none := by simp [Dentry.insert, hchildren, hins]
  refine ⟨_, ?_, Vfs.child_of_room hp hchildren hins⟩
  rw [dentryAllocEmpty, if_neg (not_lt.mpr hlen), Vfs.deref_eq_ok.mpr hp, Halt.ok_bind,
    if_neg hcached, if_pos htaken]

/-- What the allocation of an empty dentry leaves: nothing, a dentry that nobody has, or a child of
the parent. -/
theorem dentryAllocEmpty_cases {r : Option Nat}
    (hcall : dentryAllocEmpty stale s parent name = .ok (s', r)) :
    (r = none ∧ (s' = s ∨ s' = s.create (emptyDentry parent name (stale s.next)))) ∨
    ∃ p hm hm', s.dentries parent = some p ∧ p.children = some hm ∧
      hmInsert hmHashStr hm name s.next = (none, hm') ∧ r = some s.next ∧
      s.Child stale parent name p hm' s' := by
  unfold dentryAllocEmpty at hcall
  by_cases hlen : dentryNameMaxlen < name.length + 1
  · rw [if_pos hlen] at hcall
    obtain ⟨rfl, rfl⟩ := Prod.mk.inj (Except.ok.inj hcall)
    exact .inl ⟨rfl, .inl rfl⟩
  · rw [if_neg hlen] at hcall
    obtain ⟨p, hp, hcall⟩ := Halt.bind_eq_ok.mp hcall
    rw [Vfs.deref_eq_ok] at hp
    by_cases hfind : p.find name ≠ 0
    · rw [if_pos hfind] at hcall
      obtain ⟨rfl, rfl⟩ := Prod.mk.inj (Except.ok.inj hcall)
      exact .inl ⟨rfl, .inl rfl⟩
    · rw [if_neg hfind] at hcall
      by_cases hins : (p.insert name s.next).1 = none
      · rw [if_pos hins] at hcall
        obtain ⟨rfl, rfl⟩ := Prod.mk.inj (Except.ok.inj hcall)
        cases hchildren : p.children with
        | none => simp [Dentry.insert, hchildren] at hins
        | some hm =>
            simp only [Dentry.insert, hchildren] at hins
            have hins' : hmInsert hmHashStr hm name s.next = (none, _) := Prod.ext hins rfl
            exact .inr ⟨p, hm, _, hp, hchildren, hins', rfl, Vfs.child_of_room hp hchildren hins'⟩
      · rw [if_neg hins] at hcall
        obtain ⟨rfl, rfl⟩ := Prod.mk.inj (Except.ok.inj hcall)
        exact .inl ⟨rfl, .inr rfl⟩

/-- A dentry has become a directory with the entries `.` and `..`. -/
structure Vfs.NewDir (stale : Nat → Option Hashmap) (s : Vfs Obj) (a : Nat) (d : Dentry Obj)
    (s' : Vfs Obj) : Prop where
  next : s'.next = s.next + 2
  root : s'.root = s.root
  mounts : s'.mounts = s.mounts
  self : s'.dentries a = some
    { d with children := some (newDirMap s.next (s.next + 1)), count := d.count + 2 }
  dot : ∃ e, s'.dentries s.next = some e ∧ e.name = dotName ∧ e.children = stale s.next
  dotDot : ∃ e, s'.dentries (s.next + 1) = some e ∧ e.name = dotDotName ∧
    e.children = stale (s.next + 1)
  other : ∀ b, b < s.next → b ≠ a → s'.dentries b = s.dentries b

/-- The two entries of a new directory are always created. -/
theorem dentryInitChildren_spec (stale : Nat → Option Hashmap) (ha : s.dentries a = some d)
    {parent : Option Nat} (hp : ∀ q, parent = some q → q ≠ a ∧ s.dentries q ≠ none) (flags : Nat) :
    ∃ s', dentryInitChildren stale s parent a flags = .ok (s', none) ∧ s.NewDir stale a d s' := by
  have hlt := Vfs.lt_next ha
  have hpos := s.next_pos.ne'
  let s₁ := s.modify a fun d => { d with children := some (hmAllocHashmap dentryHmLen) }
  have hself₁ : s₁.dentries a = some { d with children := some (hmAllocHashmap dentryHmLen) } :=
    Vfs.modify_self ha
  obtain ⟨s₂, halloc₂, hdot⟩ := dentryAllocEmpty_of_room stale dotName hself₁ (by decide) rfl
    (by decide) (hmInsert_dot hpos)
  let s₃ := s₂.modify s.next fun d => { d with parent := none, flags := tIfreg }
  have hself₃ : s₃.dentries a = _ := (Vfs.modify_of_ne hlt.ne).trans hdot.dir
  have hnext₃ : s₃.next = s.next + 1 := hdot.next
  obtain ⟨s₄, halloc₄, hdotDot⟩ := dentryAllocEmpty_of_room stale dotDotName hself₃ (by decide) rfl
    (hmGet_dotMap hpos) (hmInsert_dotDot hpos s₃.next_pos.ne')
  rw [hnext₃] at halloc₄
  have hother₄ : ∀ b, b < s.next → b ≠ a → s₄.dentries b = s.dentries b := by
    intro b hb hba
    rw [hdotDot.other b hba (by omega), show s₃.dentries b = _ from Vfs.modify_of_ne hb.ne,
      hdot.other b hba hb.ne]
    exact Vfs.modify_of_ne hba
  have hinode : ∃ inode, parentInode s₄ parent = .ok inode := by
    cases parent with
    | none => exact ⟨none, rfl⟩
    | some q =>
        obtain ⟨hne, hlive⟩ := hp q rfl
        obtain ⟨p, hq⟩ := Option.ne_none_iff_exists'.mp hlive
        have hderef : s₄.deref q = .ok p :=
          Vfs.deref_eq_ok.mpr ((hother₄ q (Vfs.lt_next hq) hne).trans hq)
        exact ⟨p.inode, by rw [parentInode, hderef]; rfl⟩
  obtain ⟨inode, hinode⟩ := hinode
  let s₅ := s₄.modify (s.next + 1) fun d =>
    { d with parent := parent, flags := tIfreg ||| flags, inode := inode }
  have hothers₅ : ∀ b, b ≠ s.next + 1 → s₅.dentries b = s₄.dentries b := fun b hb =>
    Vfs.modify_of_ne hb
  refine ⟨s₅, ?_, ?_⟩
  · change dentryAllocEmpty stale s₁ a dotName >>= _ = _
    rw [halloc₂, Halt.ok_bind]
    change dentryAllocEmpty stale s₃ a dotDotName >>= _ = _
    rw [halloc₄, Halt.ok_bind]
    change parentInode s₄ parent >>= _ = _
    rw [hinode]
    rfl
  · constructor
    case next => exact hdotDot.next.trans (congrArg (· + 1) hnext₃)
    case root => exact hdotDot.root.trans hdot.root
    case mounts => exact hdotDot.mounts.trans hdot.mounts
    case self =>
      rw [hothers₅ a (by omega), hdotDot.dir, hnext₃]
      simp only [Option.some.injEq, Dentry.mk.injEq, and_true, true_and]
      exact ⟨rfl, by omega⟩
    case dot =>
      have hentry : s₃.dentries s.next = _ := Vfs.modify_self hdot.self
      refine ⟨_, (hothers₅ _ (by omega)).trans ((hdotDot.other _ hlt.ne' (by omega)).trans hentry),
        rfl, rfl⟩
    case dotDot =>
      have hentry := hdotDot.self
      rw [hnext₃] at hentry
      exact ⟨_, Vfs.modify_self hentry, rfl, rfl⟩
    case other =>
      intro b hb hba
      exact (hothers₅ b (by omega)).trans (hother₄ b hb hba)

/-- The directory has got a child for an object, which is the only new dentry besides its entries
`.` and `..`. -/
structure Vfs.Loaded (stale : Nat → Option Hashmap) (s : Vfs Obj) (parent : Nat) (name : Name)
    (obj : Obj) (isDir : Prop) [Decidable isDir] (s' : Vfs Obj) : Prop where
  next : s'.next = s.next + if isDir then 3 else 1
  root : s'.root = s.root
  mounts : s'.mounts = s.mounts
  dir : ∃ p hm hm', s.dentries parent = some p ∧ p.children = some hm ∧
    hmInsert hmHashStr hm name s.next = (none, hm') ∧
    s'.dentries parent = some { p with children := some hm', count := p.count + 1 }
  self : ∃ e, s'.dentries s.next = some e ∧ e.name = name ∧ e.parent = some parent ∧
    e.inode = some obj ∧
    e.children = if isDir then some (newDirMap (s.next + 1) (s.next + 2)) else stale s.next
  dots : isDir → (∃ e, s'.dentries (s.next + 1) = some e ∧ e.name = dotName ∧
      e.children = stale (s.next + 1)) ∧
    ∃ e, s'.dentries (s.next + 2) = some e ∧ e.name = dotDotName ∧ e.children = stale (s.next + 2)
  other : ∀ b, b < s.next → b ≠ parent → s'.dentries b = s.dentries b

/-- The dentry of an object that was found in a directory. -/
theorem dentryAllocIno_cases {obj : Obj} {flags : Nat} {r : Option Nat}
    (hcall : dentryAllocIno stale s parent name obj flags = .ok (s', r)) :
    (r = none ∧ (s' = s ∨ s' = s.create (emptyDentry parent name (stale s.next)))) ∨
    (r = some s.next ∧ s.Loaded stale parent name obj (flags &&& tIfdir ≠ 0) s') := by
  obtain ⟨⟨s₁, r₁⟩, halloc, hrest⟩ := Halt.bind_eq_ok.mp hcall
  unfold dentryAlloc at halloc
  obtain ⟨p₀, hp₀, halloc⟩ := Halt.bind_eq_ok.mp halloc
  by_cases hcached : p₀.find name ≠ 0
  · rw [if_pos hcached] at halloc
    obtain ⟨rfl, rfl⟩ := Prod.mk.inj (Except.ok.inj halloc)
    obtain ⟨rfl, rfl⟩ := Prod.mk.inj (Except.ok.inj hrest)
    exact .inl ⟨rfl, .inl rfl⟩
  · rw [if_neg hcached] at halloc
    obtain ⟨⟨s₂, r₂⟩, hempty, halloc⟩ := Halt.bind_eq_ok.mp halloc
    rcases dentryAllocEmpty_cases hempty with ⟨rfl, hs₂⟩ | ⟨p, hm, hm', hp, hchildren, hins, rfl, hchild⟩
    · obtain ⟨rfl, rfl⟩ := Prod.mk.inj (Except.ok.inj halloc)
      obtain ⟨rfl, rfl⟩ := Prod.mk.inj (Except.ok.inj hrest)
      exact .inl ⟨rfl, hs₂⟩
    · have hlt := Vfs.lt_next hp
      let s₃ := s₂.modify s.next fun d => { d with flags := flags }
      have hself₃ : s₃.dentries s.next = _ := Vfs.modify_self hchild.self
      have hdir₃ : s₃.dentries parent = _ := (Vfs.modify_of_ne hlt.ne).trans hchild.dir
      have hnext₃ : s₃.next = s.next + 1 := hchild.next
      have hother₃ : ∀ b, b < s.next → b ≠ parent → s₃.dentries b = s.dentries b := fun b hb hbp =>
        (Vfs.modify_of_ne hb.ne).trans (hchild.other b hbp hb.ne)
      change (if flags &&& tIfdir ≠ 0 then _ else _) = _ at halloc
      by_cases hdir : flags &&& tIfdir ≠ 0
      · rw [if_pos hdir] at halloc
        have hlive : ∀ q, some parent = some q → q ≠ s.next ∧ s₃.dentries q ≠ none := by
          intro q hq
          cases hq
          exact ⟨hlt.ne, Option.ne_none_iff_exists'.mpr ⟨_, hdir₃⟩⟩
        obtain ⟨s₄, hinit, hnew⟩ := dentryInitChildren_spec stale hself₃ hlive flags
        change dentryInitChildren stale s₃ (some parent) s.next flags >>= _ = _ at halloc
        rw [hinit, Halt.ok_bind] at halloc
        obtain ⟨rfl, rfl⟩ := Prod.mk.inj (Except.ok.inj halloc)
        obtain ⟨rfl, rfl⟩ := Prod.mk.inj (Except.ok.inj hrest)
        have hdot := hnew.dot
        have hdotDot := hnew.dotDot
        have hself := hnew.self
        rw [hnext₃] at hdot hdotDot hself
        refine .inr ⟨rfl, ?_⟩
        constructor
        case next => rw [if_pos hdir]; exact hnew.next.trans (congrArg (· + 2) hnext₃)
        case root => exact hnew.root.trans hchild.root
        case mounts => exact hnew.mounts.trans hchild.mounts
        case dir =>
          refine ⟨p, hm, hm', hp, hchildren, hins, (Vfs.modify_of_ne hlt.ne).trans ?_⟩
          exact (hnew.other parent (by omega) hlt.ne).trans hdir₃
        case self => exact ⟨_, Vfs.modify_self hself, rfl, rfl, rfl, by rw [if_pos hdir]⟩
        case dots =>
          intro _
          obtain ⟨e, he, hname, hstale⟩ := hdot
          obtain ⟨e', he', hname', hstale'⟩ := hdotDot
          exact ⟨⟨e, (Vfs.modify_of_ne (by omega)).trans he, hname, hstale⟩,
            e', (Vfs.modify_of_ne (by omega)).trans he', hname', hstale'⟩
        case other =>
          intro b hb hbp
          rw [Vfs.modify_of_ne hb.ne, hnew.other b (by omega) hb.ne, hother₃ b hb hbp]
      · rw [if_neg hdir] at halloc
        obtain ⟨rfl, rfl⟩ := Prod.mk.inj (Except.ok.inj halloc)
        obtain ⟨rfl, rfl⟩ := Prod.mk.inj (Except.ok.inj hrest)
        refine .inr ⟨rfl, ?_⟩
        constructor
        case next => rw [if_neg hdir]; exact hnext₃
        case root => exact hchild.root
        case mounts => exact hchild.mounts
        case dir =>
          exact ⟨p, hm, hm', hp, hchildren, hins, (Vfs.modify_of_ne hlt.ne).trans hdir₃⟩
        case self => exact ⟨_, Vfs.modify_self hself₃, rfl, rfl, rfl, by rw [if_neg hdir]; rfl⟩
        case dots => exact fun h => absurd h hdir
        case other =>
          intro b hb hbp
          rw [Vfs.modify_of_ne hb.ne, hother₃ b hb hbp]

/-- A new directory without a parent. -/
structure Vfs.Orphan (stale : Nat → Option Hashmap) (s : Vfs Obj) (name : Name) (s' : Vfs Obj) :
    Prop where
  next : s'.next = s.next + 3
  root : s'.root = s.root
  mounts : s'.mounts = s.mounts
  self : ∃ e, s'.dentries s.next = some e ∧ e.flags = tIfdir ∧ e.name = name ∧ e.parent = none ∧
    e.count = 3 ∧ e.children = some (newDirMap (s.next + 1) (s.next + 2))
  dot : ∃ e, s'.dentries (s.next + 1) = some e ∧ e.name = dotName ∧ e.children = stale (s.next + 1)
  dotDot : ∃ e, s'.dentries (s.next + 2) = some e ∧ e.name = dotDotName ∧
    e.children = stale (s.next + 2)
  other : ∀ b, b < s.next → s'.dentries b = s.dentries b

/-- The allocation of a directory without a parent. -/
theorem dentryAllocOrphan_dir (stale : Nat → Option Hashmap) (s : Vfs Obj) (name : Name) :
    ∃ s', dentryAllocOrphan stale s name tIfdir = .ok (s', some s.next) ∧ s.Orphan stale name s' := by
  let s₁ := s.create (orphanDentry name tIfdir (stale s.next))
  have hself₁ : s₁.dentries s.next = _ := Vfs.create_self
  have horphan : ∀ q, none = some q → q ≠ s.next ∧ s₁.dentries q ≠ none := fun q hq => by cases hq
  obtain ⟨s₂, hinit, hnew⟩ := dentryInitChildren_spec stale hself₁ horphan tIfdir
  refine ⟨s₂, ?_, ?_⟩
  · have hdir : tIfdir &&& tIfdir ≠ 0 := by decide
    simp only [dentryAllocOrphan, if_pos hdir]
    change dentryInitChildren stale s₁ none s.next tIfdir >>= _ = _
    rw [hinit, Halt.ok_bind]
  · constructor
    case next => exact hnew.next
    case root => exact hnew.root
    case mounts => exact hnew.mounts
    case self => exact ⟨_, hnew.self, rfl, rfl, rfl, rfl, rfl⟩
    case dot => exact hnew.dot
    case dotDot => exact hnew.dotDot
    case other =>
      intro b hb
      exact (hnew.other b (Nat.lt_succ_of_lt hb) hb.ne).trans (Vfs.create_of_ne hb.ne)

end Fs
end Micael
