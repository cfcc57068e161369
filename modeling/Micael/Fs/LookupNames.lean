import Micael.Foundation.Run
import Micael.Fs.PathLookup

/-!
# The names along a path

A lookup should return the dentry that the path names: its own name is the last component, and the
names of its parents are the components before.  The map of a directory compares hashes only, so a
cached child with another name is returned when the hashes agree, and the file system is not asked.

The runs here consist of lookups, which free nothing: the memory of a new dentry is always cleared.

Main results:

- Theorem {lit}`Vfs.Linked.lookup`: every lookup keeps the entries of the maps under the hashes of
  their names.
- Theorem {lit}`walk_named_iff`: when a walk ends at the dentry that its components name.
- Theorem {lit}`vfsPathLookup_named_iff`: after any run of lookups, a lookup returns the dentry that the
  path names exactly if no cached child on its way has the hash but not the name of its component.
-/

namespace Micael
namespace Fs

open Lib Foundation

variable {Obj : Type}

/-! ## Chains of parents -/

/-- The dentry and its parents have these names, from the dentry up; above them is the root, or
nothing. -/
def Vfs.Named (s : Vfs Obj) : Option Nat → List Name → Prop
  | dntr, [] => dntr = none ∨ dntr = s.root
  | none, _ :: _ => False
  | some a, name :: names => ∃ d, s.dentries a = some d ∧ d.name = name ∧ s.Named d.parent names

/-- An entry of the map of {lit}`dir`: a dentry with a name of this hash.  It is one of the entries
`.` and `..`, or {lit}`dir` is its parent, or it was added as an orphan to a directory that is not the
root. -/
def Vfs.Entry (s : Vfs Obj) (dir : Nat) (key : UInt32) (a : Nat) : Prop :=
  ∃ d, s.dentries a = some d ∧ hmHashStr d.name = key ∧
    (d.name = dotName ∨ d.name = dotDotName ∨ d.parent = some dir ∨
      d.parent = none ∧ s.root ≠ some dir)

/-- A mounted system whose maps hold their children under the hashes of their names. -/
structure Vfs.Linked (s : Vfs Obj) : Prop where
  entry : ∀ dir d hm index key a, s.dentries dir = some d → d.children = some hm →
    hm.Holds index key a → s.Entry dir key a
  root : ∀ r, s.root = some r → ∃ d, s.dentries r = some d ∧ d.name = [slash]
  mount : ∀ m ∈ s.mounts, ∀ r, m.root = some r →
    ∃ d, s.dentries r = some d ∧ d.name = m.name ∧ d.parent = none

/-! ## What lookups keep -/

/-- No dentry is lost, renamed or moved, and nothing is mounted. -/
structure Vfs.Keeps (s s' : Vfs Obj) : Prop where
  root : s'.root = s.root
  mounts : s'.mounts = s.mounts
  dentry : ∀ a d, s.dentries a = some d →
    ∃ d', s'.dentries a = some d' ∧ d'.name = d.name ∧ d'.parent = d.parent

variable {fs : FileSystem Obj} {s s' t : Vfs Obj} {parent a : Nat} {name : Name} {r : Option Nat}

theorem Vfs.Keeps.refl (s : Vfs Obj) : s.Keeps s :=
  ⟨rfl, rfl, fun _ d h => ⟨d, h, rfl, rfl⟩⟩

theorem Vfs.Keeps.trans (hst : s.Keeps t) (hts : t.Keeps s') : s.Keeps s' := by
  refine ⟨hts.root.trans hst.root, hts.mounts.trans hst.mounts, ?_⟩
  intro a d hd
  obtain ⟨e, he, hname, hparent⟩ := hst.dentry a d hd
  obtain ⟨f, hf, hname', hparent'⟩ := hts.dentry a e he
  exact ⟨f, hf, hname'.trans hname, hparent'.trans hparent⟩

theorem Vfs.Keeps.create (s : Vfs Obj) (d : Dentry Obj) : s.Keeps (s.create d) := by
  refine ⟨rfl, rfl, ?_⟩
  intro a e he
  exact ⟨e, (Vfs.create_of_ne (Vfs.lt_next he).ne).trans he, rfl, rfl⟩

theorem Vfs.Keeps.modify (s : Vfs Obj) (a : Nat) {f : Dentry Obj → Dentry Obj}
    (hf : ∀ d, (f d).name = d.name ∧ (f d).parent = d.parent) : s.Keeps (s.modify a f) := by
  refine ⟨rfl, rfl, ?_⟩
  intro b e he
  by_cases hb : b = a
  · subst hb
    exact ⟨_, Vfs.modify_self he, hf e⟩
  · exact ⟨e, (Vfs.modify_of_ne hb).trans he, rfl, rfl⟩

theorem Vfs.Loaded.keeps {stale : Nat → Option Hashmap} {obj : Obj} {isDir : Prop} [Decidable isDir]
    (h : s.Loaded stale parent name obj isDir s') : s.Keeps s' := by
  refine ⟨h.root, h.mounts, ?_⟩
  intro b e he
  by_cases hb : b = parent
  · obtain ⟨p, hm, hm', hp, hchildren, hins, hdir⟩ := h.dir
    subst hb
    obtain rfl := Option.some.inj (hp.symm.trans he)
    exact ⟨_, hdir, rfl, rfl⟩
  · exact ⟨e, (h.other b (Vfs.lt_next he) hb).trans he, rfl, rfl⟩

/-- A name that is kept with the parents above it. -/
theorem Vfs.Keeps.named_iff (hkeep : s.Keeps s') {d : Dentry Obj} (hd : s.dentries a = some d)
    (names : List Name) :
    s'.Named (some a) (name :: names) ↔ d.name = name ∧ s'.Named d.parent names := by
  obtain ⟨d', hd', hname, hparent⟩ := hkeep.dentry a d hd
  simp only [Vfs.Named, hd', Option.some.injEq, exists_eq_left', hname, hparent]

theorem Vfs.Entry.keep {dir : Nat} {key : UInt32} (hkeep : s.Keeps s') (h : s.Entry dir key a) :
    s'.Entry dir key a := by
  obtain ⟨d, hd, hkey, hkind⟩ := h
  obtain ⟨d', hd', hname, hparent⟩ := hkeep.dentry a d hd
  refine ⟨d', hd', ?_, ?_⟩
  · rw [hname, hkey]
  · rwa [hname, hparent, hkeep.root]

/-- A change that keeps the dentries is safe when the entries of its maps are old ones or right. -/
theorem Vfs.Linked.keep (hlinked : s.Linked) (hkeep : s.Keeps s')
    (hentry : ∀ dir d hm index key a, s'.dentries dir = some d → d.children = some hm →
      hm.Holds index key a →
      (∃ d' hm', s.dentries dir = some d' ∧ d'.children = some hm' ∧ ∃ i, hm'.Holds i key a) ∨
        s'.Entry dir key a) : s'.Linked := by
  constructor
  case entry =>
    intro dir d hm index key a hd hchildren hholds
    rcases hentry dir d hm index key a hd hchildren hholds with ⟨d', hm', hd', hchildren', i, hi⟩ | h
    · exact (hlinked.entry dir d' hm' i key a hd' hchildren' hi).keep hkeep
    · exact h
  case root =>
    intro r hr
    rw [hkeep.root] at hr
    obtain ⟨d, hd, hname⟩ := hlinked.root r hr
    obtain ⟨d', hd', hname', -⟩ := hkeep.dentry r d hd
    exact ⟨d', hd', hname'.trans hname⟩
  case mount =>
    intro m hm r hr
    rw [hkeep.mounts] at hm
    obtain ⟨d, hd, hname, hparent⟩ := hlinked.mount m hm r hr
    obtain ⟨d', hd', hname', hparent'⟩ := hkeep.dentry r d hd
    exact ⟨d', hd', hname'.trans hname, hparent'.trans hparent⟩

theorem Vfs.Linked.modify (hlinked : s.Linked) (a : Nat) {f : Dentry Obj → Dentry Obj}
    (hf : ∀ d, (f d).name = d.name ∧ (f d).parent = d.parent)
    (hmap : ∀ d, (f d).children = d.children) : (s.modify a f).Linked := by
  apply hlinked.keep (Vfs.Keeps.modify s a hf)
  intro dir d hm index key b hd hchildren hholds
  left
  by_cases hdir : dir = a
  · subst hdir
    simp only [Vfs.modify, if_true, Option.map_eq_some_iff] at hd
    obtain ⟨d', hd', rfl⟩ := hd
    rw [hmap] at hchildren
    exact ⟨d', hm, hd', hchildren, index, hholds⟩
  · rw [Vfs.modify_of_ne hdir] at hd
    exact ⟨d, hm, hd, hchildren, index, hholds⟩

theorem Vfs.Linked.create (hlinked : s.Linked) {d : Dentry Obj} (hd : d.children = none) :
    (s.create d).Linked := by
  apply hlinked.keep (Vfs.Keeps.create s d)
  intro dir e hm index key b he hchildren hholds
  by_cases hdir : dir = s.next
  · subst hdir
    rw [Vfs.create_self] at he
    obtain rfl := Option.some.inj he
    rw [hd] at hchildren
    cases hchildren
  · rw [Vfs.create_of_ne hdir] at he
    exact .inl ⟨e, hm, he, hchildren, index, hholds⟩

/-- The entries `.` and `..` of a new directory. -/
theorem Vfs.entry_newDir {dir dot dotDot index : Nat} {key : UInt32}
    (hdot : ∃ e, s.dentries dot = some e ∧ e.name = dotName)
    (hdotDot : ∃ e, s.dentries dotDot = some e ∧ e.name = dotDotName) (hpos : dot ≠ 0)
    (hpos' : dotDot ≠ 0) (hholds : (newDirMap dot dotDot).Holds index key a) :
    s.Entry dir key a := by
  rcases newDirMap_holds hpos hpos' hholds with ⟨rfl, rfl⟩ | ⟨rfl, rfl⟩
  · obtain ⟨e, he, hname⟩ := hdot
    exact ⟨e, he, by rw [hname], .inl hname⟩
  · obtain ⟨e, he, hname⟩ := hdotDot
    exact ⟨e, he, by rw [hname], .inr (.inl hname)⟩

/-- The memory of a dentry that was never used before. -/
def cleared (_ : Nat) : Option Hashmap := none

/-- Of the three dentries of a new directory only the first has a map, and its entries are right. -/
theorem Vfs.entry_newDentries {new dir index : Nat} {key : UInt32} {d : Dentry Obj} {hm : Hashmap}
    (hself : ∃ e, s.dentries new = some e ∧ e.children = some (newDirMap (new + 1) (new + 2)))
    (hdot : ∃ e, s.dentries (new + 1) = some e ∧ e.name = dotName ∧ e.children = none)
    (hdotDot : ∃ e, s.dentries (new + 2) = some e ∧ e.name = dotDotName ∧ e.children = none)
    (hge : new ≤ dir) (hlt : dir < new + 3) (hd : s.dentries dir = some d)
    (hchildren : d.children = some hm) (hholds : hm.Holds index key a) : s.Entry dir key a := by
  obtain ⟨e, he, hechildren⟩ := hself
  obtain ⟨e₁, he₁, hname₁, hempty₁⟩ := hdot
  obtain ⟨e₂, he₂, hname₂, hempty₂⟩ := hdotDot
  have hwhich : dir = new ∨ dir = new + 1 ∨ dir = new + 2 := by omega
  rcases hwhich with rfl | rfl | rfl
  · obtain rfl := Option.some.inj (he.symm.trans hd)
    obtain rfl := Option.some.inj (hechildren.symm.trans hchildren)
    exact Vfs.entry_newDir ⟨e₁, he₁, hname₁⟩ ⟨e₂, he₂, hname₂⟩ (by omega) (by omega) hholds
  · obtain rfl := Option.some.inj (he₁.symm.trans hd)
    cases hempty₁.symm.trans hchildren
  · obtain rfl := Option.some.inj (he₂.symm.trans hd)
    cases hempty₂.symm.trans hchildren

theorem Vfs.Linked.loaded (hlinked : s.Linked) {obj : Obj} {isDir : Prop} [Decidable isDir]
    (h : s.Loaded cleared parent name obj isDir s') : s'.Linked := by
  apply hlinked.keep h.keeps
  intro dir d hm index key b hd hchildren hholds
  obtain ⟨e, he, hename, heparent, -, hechildren⟩ := h.self
  by_cases hparent : dir = parent
  · -- the new child is in the map of its parent, with the old entries
    subst hparent
    obtain ⟨p, hm₀, hm₁, hp, hchildren₀, hins, hdir⟩ := h.dir
    obtain rfl := Option.some.inj (hdir.symm.trans hd)
    obtain rfl := Option.some.inj hchildren
    obtain ⟨-, i, -, -, -, hput⟩ := hmInsert_eq_put hins
    rw [hput, Hashmap.put_holds_iff] at hholds
    split at hholds
    · obtain ⟨rfl, rfl⟩ := hholds
      exact .inr ⟨e, he, by rw [hename], .inr (.inr (.inl heparent))⟩
    · exact .inl ⟨p, hm₀, hp, hchildren₀, index, hholds⟩
  · by_cases hold : dir < s.next
    · rw [h.other dir hold hparent] at hd
      exact .inl ⟨d, hm, hd, hchildren, index, hholds⟩
    · right
      have hlt := Vfs.lt_next hd
      rw [h.next] at hlt
      by_cases hisDir : isDir
      · obtain ⟨hdot, hdotDot⟩ := h.dots hisDir
        rw [if_pos hisDir] at hlt hechildren
        exact Vfs.entry_newDentries ⟨e, he, hechildren⟩ hdot hdotDot (by omega) hlt hd hchildren
          hholds
      · rw [if_neg hisDir] at hlt hechildren
        obtain rfl : dir = s.next := by omega
        obtain rfl := Option.some.inj (he.symm.trans hd)
        cases hechildren.symm.trans hchildren

/-! ## Lookups -/

theorem Vfs.Linked.findChild (hlinked : s.Linked)
    (hcall : findChild fs cleared s parent name = .ok (s', r)) : s'.Linked ∧ s.Keeps s' := by
  obtain ⟨p, -, h⟩ := findChild_cases hcall
  rcases h with ⟨-, rfl, -⟩ | ⟨-, ⟨-, rfl | rfl⟩ | ⟨-, obj, -, hloaded⟩⟩
  · exact ⟨hlinked, .refl _⟩
  · exact ⟨hlinked, .refl _⟩
  · exact ⟨hlinked.create rfl, .create _ _⟩
  · exact ⟨hlinked.loaded hloaded, hloaded.keeps⟩

theorem Vfs.Linked.walk (hlinked : s.Linked) {flags : LookupFlags} {comps : List Name}
    (hcall : vfsWalkPath fs cleared flags s parent comps = .ok (s', r)) :
    s'.Linked ∧ s.Keeps s' := by
  induction comps generalizing s parent with
  | nil =>
      obtain ⟨rfl, rfl⟩ := Prod.mk.inj (Except.ok.inj hcall)
      exact ⟨hlinked, .refl _⟩
  | cons next rest ih =>
      cases rest with
      | nil =>
          simp only [vfsWalkPath] at hcall
          by_cases hflag : flags.parent = true
          · rw [if_pos hflag] at hcall
            obtain ⟨rfl, rfl⟩ := Prod.mk.inj (Except.ok.inj hcall)
            exact ⟨hlinked, .refl _⟩
          · rw [if_neg hflag] at hcall
            by_cases hempty : next = []
            · rw [if_pos hempty] at hcall
              obtain ⟨d, -, hd⟩ := Halt.map_eq_ok.mp hcall
              obtain ⟨rfl, rfl⟩ := Prod.mk.inj hd
              exact ⟨hlinked, .refl _⟩
            · rw [if_neg hempty] at hcall
              exact hlinked.findChild hcall
      | cons c path =>
          obtain ⟨p, -, hrest⟩ := Halt.bind_eq_ok.mp hcall
          by_cases hchildren : p.children.isNone = true
          · rw [if_pos hchildren] at hrest
            obtain ⟨rfl, rfl⟩ := Prod.mk.inj (Except.ok.inj hrest)
            exact ⟨hlinked, .refl _⟩
          · rw [if_neg hchildren] at hrest
            obtain ⟨⟨s₁, child⟩, hfind, hrest⟩ := Halt.bind_eq_ok.mp hrest
            obtain ⟨hlinked₁, hkeep₁⟩ := hlinked.findChild hfind
            cases child with
            | none =>
                obtain ⟨rfl, rfl⟩ := Prod.mk.inj (Except.ok.inj hrest)
                exact ⟨hlinked₁, hkeep₁⟩
            | some child =>
                obtain ⟨hlinked', hkeep'⟩ := ih hlinked₁ hrest
                exact ⟨hlinked', hkeep₁.trans hkeep'⟩

theorem Vfs.Linked.lookupFrom (hlinked : s.Linked) {junk : Option Nat} {cwd : Cwd}
    {start : Option Nat} {path : Name} {flags : LookupFlags} {found : Path}
    (hcall : lookupFrom fs ⟨cleared, junk, cwd⟩ s start path flags = .ok (s', found)) :
    s'.Linked := by
  cases start with
  | none =>
      obtain ⟨rfl, rfl⟩ := Prod.mk.inj (Except.ok.inj hcall)
      exact hlinked
  | some start =>
      obtain ⟨⟨t, dntr⟩, hwalk, hrest⟩ := Halt.bind_eq_ok.mp hcall
      obtain ⟨ht, -⟩ := hlinked.walk hwalk
      cases dntr with
      | none =>
          by_cases hcreate : flags.create = true
          · simp only [hcreate, if_true] at hrest
            obtain ⟨rfl, rfl⟩ := Prod.mk.inj (Except.ok.inj hrest)
            exact ht
          · simp only [hcreate] at hrest
            obtain ⟨rfl, rfl⟩ := Prod.mk.inj (Except.ok.inj hrest)
            exact ht
      | some a =>
          obtain ⟨d, -, hrest⟩ := Halt.bind_eq_ok.mp hrest
          obtain ⟨rfl, rfl⟩ := Prod.mk.inj (Except.ok.inj hrest)
          exact ht.modify a (fun _ => ⟨rfl, rfl⟩) fun _ => rfl

/-- Every lookup keeps the entries of the maps under the hashes of their names. -/
theorem Vfs.Linked.lookup (hlinked : s.Linked) {junk : Option Nat} {cwd : Cwd} {path : Name}
    {flags : LookupFlags} {found : Path}
    (hcall : vfsPathLookup fs ⟨cleared, junk, cwd⟩ s path flags = .ok (s', found)) : s'.Linked := by
  cases path with
  | nil =>
      obtain ⟨rfl, rfl⟩ := Prod.mk.inj (Except.ok.inj hcall)
      exact hlinked
  | cons c rest =>
      simp only [vfsPathLookup] at hcall
      by_cases hslash : c = slash
      · rw [if_pos hslash] at hcall
        cases hboot : vfsFindBootstrap s rest with
        | mk start left =>
            rw [hboot] at hcall
            cases left with
            | none =>
                obtain ⟨rfl, rfl⟩ := Prod.mk.inj (Except.ok.inj hcall)
                exact hlinked
            | some left => exact hlinked.lookupFrom hcall
      · rw [if_neg hslash] at hcall
        cases cwd with
        | noTask =>
            obtain ⟨rfl, rfl⟩ := Prod.mk.inj (Except.ok.inj hcall)
            exact hlinked
        | noCtx =>
            obtain ⟨rfl, rfl⟩ := Prod.mk.inj (Except.ok.inj hcall)
            exact hlinked
        | pwd dntr => exact hlinked.lookupFrom hcall

/-! ## When a walk ends at the dentry that is named -/

/-- The cached children on the way of these components have the names of the components, and the
directories they were found in are their parents.  Behind them no component is taken for one of the
entries `.` and `..` of a new directory. -/
def Vfs.Clear (s : Vfs Obj) : Nat → List Name → Prop
  | _, [] => True
  | dir, name :: rest =>
      if s.cached dir name ≠ 0 then
        (∃ d, s.dentries (s.cached dir name) = some d ∧ d.name = name ∧ d.parent = some dir) ∧
          s.Clear (s.cached dir name) rest
      else ∀ c ∈ rest, hmHashStr c ≠ hmHashStr dotName ∧ hmHashStr c ≠ hmHashStr dotDotName

/-- A component that names a child and not the directory itself or its parent. -/
def Proper (name : Name) : Prop := name ≠ dotName ∧ name ≠ dotDotName

theorem Walked.keeps {comps : List Name} (hwalk : Walked fs cleared s parent comps s' a)
    (hlinked : s.Linked) : s.Keeps s' := by
  induction hwalk with
  | nil => exact .refl _
  | cons hfind _ ih =>
      obtain ⟨hlinked₁, hkeep⟩ := hlinked.findChild hfind
      exact hkeep.trans (ih hlinked₁)

/-- A cached child is an entry of the map. -/
theorem Vfs.Linked.entry_cached (hlinked : s.Linked) {p : Dentry Obj}
    (hp : s.dentries parent = some p) (hfind : p.find name ≠ 0) :
    s.Entry parent (hmHashStr name) (p.find name) := by
  cases hchildren : p.children with
  | none => simp [Dentry.find, hchildren] at hfind
  | some hm =>
      simp only [Dentry.find, hchildren] at hfind ⊢
      obtain ⟨-, i, hfound⟩ := foundAt_of_hmGet hfind
      exact hlinked.entry parent p hm _ _ _ hp hchildren hfound.holds

/-- In a directory that was just loaded only the entries `.` and `..` are cached. -/
theorem Vfs.Loaded.clear_iff {obj : Obj} {isDir : Prop} [Decidable isDir]
    (h : s.Loaded cleared parent name obj isDir t) {rest : List Name}
    (hproper : ∀ c ∈ rest, Proper c) (hwalk : Walked fs cleared t s.next rest s' a) :
    t.Clear s.next rest ↔
      ∀ c ∈ rest, hmHashStr c ≠ hmHashStr dotName ∧ hmHashStr c ≠ hmHashStr dotDotName := by
  cases hwalk with
  | nil => simp [Vfs.Clear]
  | @cons _ u _ _ child _ c rest hfind _ =>
      obtain ⟨e, he, -, -, -, hchildren⟩ := h.self
      by_cases hisDir : isDir
      · rw [if_pos hisDir] at hchildren
        obtain ⟨⟨e₁, he₁, hname₁, -⟩, e₂, he₂, hname₂, -⟩ := h.dots hisDir
        have hcached : t.cached s.next c = hmGet hmHashStr (newDirMap (s.next + 1) (s.next + 2)) c := by
          simp [Vfs.cached, he, Dentry.find, hchildren]
        by_cases hzero : t.cached s.next c = 0
        · have hhash := hzero
          rw [hcached, hmGet_newDirMap_eq_zero_iff (by omega) (by omega)] at hhash
          simp only [Vfs.Clear, hzero, ne_eq, not_true_eq_false, if_false, List.mem_cons,
            forall_eq_or_imp]
          exact ⟨fun hrest => ⟨hhash, hrest⟩, fun hrest => hrest.2⟩
        · -- the component is taken for one of the two entries, which has another name
          obtain ⟨hdot, hdotDot⟩ := hproper c List.mem_cons_self
          have hget : hmGet hmHashStr (newDirMap (s.next + 1) (s.next + 2)) c ≠ 0 := hcached ▸ hzero
          obtain ⟨-, i, hfound⟩ := foundAt_of_hmGet hget
          simp only [Vfs.Clear, hzero, ne_eq, not_false_eq_true, if_true]
          constructor
          · rintro ⟨⟨d, hd, hname, -⟩, -⟩
            rw [hcached] at hd
            rcases newDirMap_holds (by omega) (by omega) hfound.holds with ⟨-, hdata⟩ | ⟨-, hdata⟩
            · rw [hdata, he₁] at hd
              obtain rfl := Option.some.inj hd
              exact absurd (hname.symm.trans hname₁) hdot
            · rw [hdata, he₂] at hd
              obtain rfl := Option.some.inj hd
              exact absurd (hname.symm.trans hname₂) hdotDot
          · intro hall
            have hhash := hall c List.mem_cons_self
            rw [← hmGet_newDirMap_eq_zero_iff (Nat.succ_ne_zero s.next)
              (Nat.succ_ne_zero (s.next + 1))] at hhash
            exact absurd hhash hget
      · -- nothing is found below a file
        rw [if_neg hisDir] at hchildren
        obtain ⟨p, hp, hcase⟩ := findChild_cases hfind
        obtain rfl := Option.some.inj (he.symm.trans hp)
        rcases hcase with ⟨hcached, -⟩ | ⟨-, ⟨hnone, -⟩ | ⟨-, obj', -, hloaded⟩⟩
        · simp [Dentry.find, hchildren, cleared] at hcached
        · cases hnone
        · obtain ⟨p', hm, hm', hp', hmap, -⟩ := hloaded.dir
          obtain rfl := Option.some.inj (he.symm.trans hp')
          cases hchildren.symm.trans hmap

/-- A walk ends at the dentry that its components name exactly if it is not led astray; this is so
in every later state. -/
theorem walk_named_iff {u : Vfs Obj} {comps : List Name} (names : List Name)
    (hwalk : Walked fs cleared s parent comps s' a) (hlater : s'.Keeps u) (hlinked : s.Linked)
    (hproper : ∀ c ∈ comps, Proper c) (htop : names = [] → s.root = some parent) :
    u.Named (some a) (comps.reverse ++ names) ↔
      s.Clear parent comps ∧ u.Named (some parent) names := by
  induction hwalk generalizing names with
  | nil => simp [Vfs.Clear]
  | @cons s t s' parent child a c rest hfind hrest ih =>
      obtain ⟨hlinked₁, hkeep₁⟩ := hlinked.findChild hfind
      have hproper' : ∀ c ∈ rest, Proper c := fun c' hc' => hproper c' (List.mem_cons_of_mem c hc')
      have hstep := ih (c :: names) hlater hlinked₁ hproper' (fun h => by cases h)
      have hlist : (c :: rest).reverse ++ names = rest.reverse ++ c :: names := by simp
      rw [hlist, hstep]
      have hkeep := (hrest.keeps hlinked₁).trans hlater
      obtain ⟨p, hp, hcase⟩ := findChild_cases hfind
      have hcached : s.cached parent c = p.find c := by simp [Vfs.cached, hp]
      rcases hcase with ⟨hne, rfl, hchild⟩ | ⟨hzero, ⟨hnone, -⟩ | ⟨hchild, obj, -, hloaded⟩⟩
      · obtain rfl := Option.some.inj hchild
        obtain ⟨d, hd, -, hkind⟩ := hlinked.entry_cached hp hne
        rw [hkeep.named_iff hd]
        simp only [Vfs.Clear, hcached, ne_eq, hne, not_false_eq_true, if_true, hd,
          Option.some.injEq, exists_eq_left']
        have hlink : d.name = c → (u.Named d.parent names ↔
            d.parent = some parent ∧ u.Named (some parent) names) := by
          intro hname
          obtain ⟨hdot, hdotDot⟩ := hproper c List.mem_cons_self
          rcases hkind with h | h | h | ⟨h, hroot⟩
          · exact absurd (hname.symm.trans h) hdot
          · exact absurd (hname.symm.trans h) hdotDot
          · simp [h]
          · cases names with
            | nil => exact absurd (htop rfl) hroot
            | cons => simp [h, Vfs.Named]
        constructor
        · rintro ⟨hclear, hname, hnamed⟩
          obtain ⟨hparent, hnamed⟩ := (hlink hname).mp hnamed
          exact ⟨⟨⟨hname, hparent⟩, hclear⟩, hnamed⟩
        · rintro ⟨⟨⟨hname, hparent⟩, hclear⟩, hnamed⟩
          exact ⟨hclear, hname, (hlink hname).mpr ⟨hparent, hnamed⟩⟩
      · cases hnone
      · obtain rfl := Option.some.inj hchild
        obtain ⟨e, he, hname, hparent, -, -⟩ := hloaded.self
        rw [hkeep.named_iff he, hloaded.clear_iff hproper' hrest, hparent]
        simp only [Vfs.Clear, hcached, hzero, ne_eq, not_true_eq_false, if_false, hname, true_and]

/-! ## Where the walk of a path starts -/

/-- The path that a list of components is the walk of. -/
theorem intercalate_cons (c : Name) (rest : List Name) :
    [slash].intercalate (c :: rest) =
      match rest with
      | [] => c
      | _ :: _ => c ++ slash :: [slash].intercalate rest := by
  cases rest with
  | nil => simp
  | cons d rest => simp [List.intercalate_cons_cons]

/-- The first component of an absolute path decides where its walk starts. -/
theorem vfsFindBootstrap_intercalate (s : Vfs Obj) {c : Name} (rest : List Name) (hne : c ≠ [])
    (hslash : slash ∉ c) :
    vfsFindBootstrap s ([slash].intercalate (c :: rest)) =
      match s.mounts.find? fun m => m.name = c with
      | some m => (m.root, match rest with
          | [] => none
          | _ :: _ => some ([slash].intercalate rest))
      | none => (none, some ([slash].intercalate (c :: rest))) := by
  have hroot : ¬ [slash] = c := by
    rintro rfl
    exact hslash List.mem_cons_self
  have hmounts : (s.mountpoints.find? fun m => m.name = c) = s.mounts.find? fun m => m.name = c := by
    simp [Vfs.mountpoints, hroot]
  cases rest with
  | nil =>
      rw [intercalate_cons]
      have hfirst := vfsExtractChild_last hslash
      rw [if_neg hne] at hfirst
      simp only [vfsFindBootstrap, if_neg hne, hfirst, Option.getD_some, hmounts]
      cases s.mounts.find? fun m => m.name = c with
      | none => rfl
      | some m => simp
  | cons d rest =>
      rw [intercalate_cons]
      cases hfind : s.mounts.find? fun m => m.name = c with
      | none =>
          simp only [vfsFindBootstrap, List.append_eq_nil_iff, hne, false_and, if_false,
            vfsExtractChild_slash hslash, Option.getD_some, hmounts, hfind]
      | some m =>
          simp only [vfsFindBootstrap, List.append_eq_nil_iff, hne, false_and, if_false,
            vfsExtractChild_slash hslash, Option.getD_some, hmounts, hfind, List.drop_left]

/-- The condition of {name}`Vfs.Clear` for an absolute path.  A mount point that has no root is
passed over by the walk. -/
def Vfs.ClearPath (s : Vfs Obj) : List Name → Prop
  | [] => True
  | c :: rest =>
      match s.mounts.find? fun m => m.name = c with
      | some m => ∃ r, m.root = some r ∧ s.Clear r rest
      | none => ∃ r, s.root = some r ∧ s.Clear r (c :: rest)

/-- The root of a mounted file system has the name of the mount point. -/
theorem Vfs.Linked.named_mount (hlinked : s.Linked) {m : Mount} (hm : m ∈ s.mounts)
    (hroot : m.root = some a) (hname : m.name = name) : s.Named (some a) [name] := by
  obtain ⟨d, hd, hdname, hparent⟩ := hlinked.mount m hm a hroot
  exact ⟨d, hd, hdname.trans hname, .inl hparent⟩

/-- There is no name above the root. -/
theorem Vfs.named_root (hroot : s.root = some a) : s.Named (some a) [] :=
  .inr hroot.symm

/-- The name of the root is no component of a path. -/
theorem Vfs.Linked.not_named_root (hlinked : s.Linked) (hroot : s.root = some a)
    (hslash : slash ∉ name) : ¬ s.Named (some a) [name] := by
  obtain ⟨d, hd, hname⟩ := hlinked.root a hroot
  rintro ⟨d', hd', rfl, -⟩
  obtain rfl := Option.some.inj (hd.symm.trans hd')
  rw [hname] at hslash
  exact hslash List.mem_cons_self

/-! ## Runs of lookups -/

/-- A lookup with its path and flags, and what it finds around it. -/
structure LookupCall where
  path : Name
  flags : LookupFlags
  junk : Option Nat
  cwd : Cwd

/-- A lookup in a system that has freed no dentry. -/
def LookupStep (fs : FileSystem Obj) (s : Vfs Obj) (call : LookupCall) (s' : Vfs Obj) : Prop :=
  ∃ found, vfsPathLookup fs ⟨cleared, call.junk, call.cwd⟩ s call.path call.flags = .ok (s', found)

theorem Vfs.Linked.run {s₀ : Vfs Obj} {calls : List LookupCall} (hlinked : s₀.Linked)
    (hrun : Run (LookupStep fs) s₀ calls s) : s.Linked := by
  refine Run.invariant Vfs.Linked ?_ hrun hlinked
  rintro t call t' ht ⟨found, hcall⟩
  exact ht.lookup hcall

/-- One lookup in a linked system. -/
theorem Vfs.Linked.lookup_named_iff (hlinked : s.Linked) {comps : List Name} (hne : comps ≠ [])
    (hcomps : ∀ c ∈ comps, c ≠ [] ∧ slash ∉ c ∧ Proper c) {junk : Option Nat} {cwd : Cwd}
    {found : Path}
    (hcall : vfsPathLookup fs ⟨cleared, junk, cwd⟩ s (absolutePath comps) lookupOpen =
      .ok (s', found))
    (hok : found.status = .success) :
    s'.Named found.dentry comps.reverse ↔ s.ClearPath comps := by
  have hslash : ∀ c ∈ comps, slash ∉ c := fun c hc => (hcomps c hc).2.1
  have hproper : ∀ c ∈ comps, Proper c := fun c hc => (hcomps c hc).2.2
  cases comps with
  | nil => exact absurd rfl hne
  | cons c rest =>
      have hboot := vfsFindBootstrap_intercalate s rest (hcomps c List.mem_cons_self).1
        (hslash c List.mem_cons_self)
      have hlist : (c :: rest).reverse = rest.reverse ++ [c] := List.reverse_cons
      obtain ⟨a, rfl, ⟨hmount, rfl⟩ | ⟨start, comps', t, d, hstart, hwalk, hd, rfl⟩⟩ :=
        vfsPathLookup_open hcall hok
      · rw [hboot] at hmount
        cases hfind : s'.mounts.find? fun m => m.name = c with
        | none =>
            rw [hfind] at hmount
            cases hmount
        | some m =>
            rw [hfind] at hmount
            cases rest with
            | cons => cases (Prod.mk.inj hmount).2
            | nil =>
                have hroot : m.root = some a := (Prod.mk.inj hmount).1
                have hname : m.name = c := by simpa using List.find?_some hfind
                have hclear : s'.ClearPath [c] := by simp [Vfs.ClearPath, hfind, hroot, Vfs.Clear]
                exact iff_of_true
                  (hlinked.named_mount (List.mem_of_find?_eq_some hfind) hroot hname) hclear
      · let u := t.modify a fun d => { d with count := d.count + 1 }
        have hlater : t.Keeps u := Vfs.Keeps.modify t a fun _ => ⟨rfl, rfl⟩
        have hwalked := walked_of_vfsWalkPath hwalk
        have hkeep := (hwalked.keeps hlinked).trans hlater
        have hlinked' : u.Linked :=
          (hlinked.walk hwalk).1.modify a (fun _ => ⟨rfl, rfl⟩) fun _ => rfl
        rw [Vfs.walkOf, hboot] at hstart
        cases hfind : s.mounts.find? fun m => m.name = c with
        | none =>
            rw [hfind] at hstart
            obtain ⟨start', hroot, hpair⟩ := Option.map_eq_some_iff.mp hstart
            obtain ⟨rfl, rfl⟩ := Prod.mk.inj hpair
            rw [components_intercalate hslash hne] at hwalked
            have hroot : s.root = some start' := hroot
            have hnamed := walk_named_iff [] hwalked hlater hlinked hproper fun _ => hroot
            have htop := Vfs.named_root (hkeep.root.trans hroot)
            rw [List.append_nil] at hnamed
            rw [hnamed]
            simp [Vfs.ClearPath, hfind, hroot, htop]
        | some m =>
            rw [hfind] at hstart
            cases rest with
            | nil => cases hstart
            | cons e rest =>
                obtain ⟨start', hstart', hpair⟩ := Option.map_eq_some_iff.mp hstart
                obtain ⟨rfl, rfl⟩ := Prod.mk.inj hpair
                rw [components_intercalate (fun c' hc' => hslash c' (List.mem_cons_of_mem c hc'))
                  (List.cons_ne_nil e rest)] at hwalked
                have hnamed := walk_named_iff [c] hwalked hlater hlinked
                  (fun c' hc' => hproper c' (List.mem_cons_of_mem c hc')) fun h => by cases h
                rw [hlist, hnamed]
                cases hroot : m.root with
                | some r =>
                    rw [hroot] at hstart'
                    obtain rfl := Option.some.inj hstart'
                    have hname : m.name = c := by simpa using List.find?_some hfind
                    have hmem := List.mem_of_find?_eq_some hfind
                    rw [← hkeep.mounts] at hmem
                    have htop := hlinked'.named_mount hmem hroot hname
                    simp [Vfs.ClearPath, hfind, hroot, htop]
                | none =>
                    -- the walk starts at the root, whose name is no component
                    rw [hroot] at hstart'
                    have htop := hlinked'.not_named_root (hkeep.root.trans hstart')
                      (hslash c List.mem_cons_self)
                    simp [Vfs.ClearPath, hfind, hroot, htop]

/-- After any run of lookups in a linked system, a lookup for opening returns the dentry that the path
names exactly if the walk is not led astray. -/
theorem vfsPathLookup_named_iff {s₀ : Vfs Obj} {calls : List LookupCall} (hlinked : s₀.Linked)
    (hrun : Run (LookupStep fs) s₀ calls s) {comps : List Name} (hne : comps ≠ [])
    (hcomps : ∀ c ∈ comps, c ≠ [] ∧ slash ∉ c ∧ Proper c) {junk : Option Nat} {cwd : Cwd}
    {found : Path}
    (hcall : vfsPathLookup fs ⟨cleared, junk, cwd⟩ s (absolutePath comps) lookupOpen =
      .ok (s', found))
    (hok : found.status = .success) :
    s'.Named found.dentry comps.reverse ↔ s.ClearPath comps :=
  (hlinked.run hrun).lookup_named_iff hne hcomps hcall hok

/-! ## The system after boot -/

/-- The name `dev`. -/
def devName : Name := [100, 101, 118]

/-- The name `char`. -/
def charName : Name := [99, 104, 97, 114]

/-- No dentry, and nothing mounted. -/
def emptyVfs (Obj : Type) : Vfs Obj where
  dentries _ := none
  next := 1
  next_pos := Nat.one_pos
  unused _ _ := rfl
  root := none
  mounts := []

/-- The root directory of a file system, as `devfs_fill_super` and `initramfs_init` create it. -/
def allocRoot (s : Vfs Obj) (name : Name) (inode : Obj) : Except Halt (Vfs Obj × Nat) := do
  let (s, dntr) ← dentryAllocOrphan cleared s name tIfdir
  match dntr with
  | none => .error .fault
  | some a => .ok (s.modify a fun d => { d with inode := some inode }, a)

/-- `devfs_mkdir`. -/
def devfsMkdir (s : Vfs Obj) (dir dntr : Nat) : Except Halt (Vfs Obj × Option Errno) := do
  let p ← s.deref dir
  let d ← s.deref dntr
  if p.flags &&& tIfdir = 0 ∨ d.flags &&& tIfdir = 0 then .ok (s, some .einval)
  else if p.find d.name ≠ 0 then .ok (s, some .eexist)
  else .ok (s.modify dir fun p => (p.insert d.name dntr).2, (p.insert d.name dntr).1)

/-- `cdev_init` after the lookup of the directory. -/
def cdevMkdir (s : Vfs Obj) (path : Path) : Except Halt (Vfs Obj × Option Errno) := do
  if path.status = .enoent then .ok (s, some .enoent)
  else do
    let (s, dntr) ← dentryAllocOrphan cleared s charName tIfdir
    match dntr, path.dentry with
    | none, _ => .ok (s, some .enomem)
    | some _, none => .error .fault
    | some dntr, some dir => do
        let p ← s.deref dir
        if p.inode.isNone then .ok (s, some .einval) else devfsMkdir s dir dntr

/-- `cdev_init` after its caches were created. -/
def cdevInit (fs : FileSystem Obj) (s : Vfs Obj) : Except Halt (Vfs Obj × Option Errno) := do
  let (s, path) ← vfsPathLookup fs ⟨cleared, none, .noTask⟩ s (absolutePath [devName]) lookupOpen
  let (s, ret) ← cdevMkdir s path
  let (s, _) ← vfsPathRelease s path
  .ok (s, ret)

/-- `vfs_init` and `vfs_install_rootfs`: the file system of devices with its directory `char`, and
the root file system. -/
def vfsBoot (fs : FileSystem Obj) (devInode rootInode : Obj) : Except Halt (Vfs Obj) := do
  let (s, dev) ← allocRoot (emptyVfs Obj) devName devInode
  let (s, ret) ← cdevInit fs { s with mounts := [⟨devName, some dev⟩] }
  match ret with
  | some _ => .error (.kpanic "cdev_init() failed!")
  | none => do
      let (s, root) ← allocRoot s [slash] rootInode
      .ok { s with root := some root }

theorem emptyVfs_linked : (emptyVfs Obj).Linked := by
  constructor
  case entry =>
    intro dir d hm index key a hd
    cases hd
  case root =>
    intro r hr
    cases hr
  case mount =>
    intro m hm
    cases hm

theorem Vfs.Linked.orphan (hlinked : s.Linked) (h : s.Orphan cleared name s') : s'.Linked := by
  have hkeep : s.Keeps s' :=
    ⟨h.root, h.mounts, fun a d hd => ⟨d, (h.other a (Vfs.lt_next hd)).trans hd, rfl, rfl⟩⟩
  apply hlinked.keep hkeep
  intro dir d hm index key b hd hchildren hholds
  obtain ⟨e, he, -, -, -, -, hechildren⟩ := h.self
  by_cases hold : dir < s.next
  · rw [h.other dir hold] at hd
    exact .inl ⟨d, hm, hd, hchildren, index, hholds⟩
  · right
    have hlt := Vfs.lt_next hd
    rw [h.next] at hlt
    exact Vfs.entry_newDentries ⟨e, he, hechildren⟩ h.dot h.dotDot (by omega) hlt hd hchildren
      hholds

/-- The map of a dentry holds nothing but the entries `.` and `..`. -/
def Vfs.OnlyDots (s : Vfs Obj) (d : Dentry Obj) : Prop :=
  ∀ hm index key a, d.children = some hm → hm.Holds index key a →
    ∃ e, s.dentries a = some e ∧ (e.name = dotName ∨ e.name = dotDotName)

/-- What a new root directory is. -/
theorem allocRoot_spec {inode : Obj} (hlinked : s.Linked) {a : Nat}
    (hcall : allocRoot s name inode = .ok (s', a)) :
    s'.Linked ∧ s'.root = s.root ∧ s'.mounts = s.mounts ∧
      ∃ d, s'.dentries a = some d ∧ d.name = name ∧ d.parent = none ∧ d.count = 3 ∧
        s'.OnlyDots d := by
  obtain ⟨t, halloc, horphan⟩ := dentryAllocOrphan_dir cleared s name
  rw [allocRoot, halloc] at hcall
  obtain ⟨rfl, rfl⟩ := Prod.mk.inj (Except.ok.inj hcall)
  obtain ⟨e, he, -, hname, hparent, hcount, hchildren⟩ := horphan.self
  refine ⟨?_, horphan.root, horphan.mounts, ?_⟩
  · exact (hlinked.orphan horphan).modify _ (fun _ => ⟨rfl, rfl⟩) fun _ => rfl
  · refine ⟨_, Vfs.modify_self he, hname, hparent, hcount, ?_⟩
    intro hm index key b hmap hholds
    obtain rfl := Option.some.inj (hchildren.symm.trans hmap)
    obtain ⟨e₁, he₁, hname₁, -⟩ := horphan.dot
    obtain ⟨e₂, he₂, hname₂, -⟩ := horphan.dotDot
    rcases newDirMap_holds (Nat.succ_ne_zero _) (Nat.succ_ne_zero _) hholds with
      ⟨-, rfl⟩ | ⟨-, rfl⟩
    · exact ⟨e₁, (Vfs.modify_of_ne (by omega)).trans he₁, .inl hname₁⟩
    · exact ⟨e₂, (Vfs.modify_of_ne (by omega)).trans he₂, .inr hname₂⟩

/-- The directory of devices gets an orphan as its child. -/
theorem Vfs.Linked.devfsMkdir (hlinked : s.Linked) {dir dntr : Nat} {p d : Dentry Obj}
    {ret : Option Errno} (hcall : devfsMkdir s dir dntr = .ok (s', ret))
    (hp : s.dentries dir = some p) (hd : s.dentries dntr = some d) (hparent : d.parent = none)
    (hroot : s.root = none) :
    s'.Linked ∧ s'.root = none ∧ ∃ p', s'.dentries dir = some p' ∧ p'.count = p.count := by
  unfold Fs.devfsMkdir at hcall
  rw [Vfs.deref_eq_ok.mpr hp, Halt.ok_bind, Vfs.deref_eq_ok.mpr hd, Halt.ok_bind] at hcall
  by_cases hflags : p.flags &&& tIfdir = 0 ∨ d.flags &&& tIfdir = 0
  · rw [if_pos hflags] at hcall
    obtain ⟨rfl, rfl⟩ := Prod.mk.inj (Except.ok.inj hcall)
    exact ⟨hlinked, hroot, p, hp, rfl⟩
  · rw [if_neg hflags] at hcall
    by_cases hfind : p.find d.name ≠ 0
    · rw [if_pos hfind] at hcall
      obtain ⟨rfl, rfl⟩ := Prod.mk.inj (Except.ok.inj hcall)
      exact ⟨hlinked, hroot, p, hp, rfl⟩
    · rw [if_neg hfind] at hcall
      obtain ⟨rfl, rfl⟩ := Prod.mk.inj (Except.ok.inj hcall)
      refine ⟨?_, hroot, _, Vfs.modify_self hp, (Dentry.insert_fields p _ _).2.2⟩
      have hfields : ∀ e : Dentry Obj, (e.insert d.name dntr).2.name = e.name ∧
          (e.insert d.name dntr).2.parent = e.parent := fun e =>
        ⟨(Dentry.insert_fields e _ _).1, (Dentry.insert_fields e _ _).2.1⟩
      have hkeep := Vfs.Keeps.modify s dir hfields
      apply hlinked.keep hkeep
      intro dir' e hm index key b he hchildren hholds
      by_cases hdir : dir' = dir
      · subst hdir
        rw [Vfs.modify_self hp] at he
        obtain rfl := Option.some.inj he
        rcases Dentry.insert_holds hchildren hholds with ⟨hm₀, hmap, hentry⟩ | ⟨rfl, rfl⟩
        · exact .inl ⟨p, hm₀, hp, hmap, index, hentry⟩
        · obtain ⟨d', hd', hname', hparent'⟩ := hkeep.dentry _ d hd
          refine .inr ⟨d', hd', by rw [hname'], .inr (.inr (.inr ⟨hparent'.trans hparent, ?_⟩))⟩
          rw [hkeep.root, hroot]
          exact nofun
      · rw [Vfs.modify_of_ne hdir] at he
        exact .inl ⟨e, hm, he, hchildren, index, hholds⟩

/-- The directory of devices keeps its count while its child is added. -/
theorem Vfs.Linked.cdevMkdir (hlinked : s.Linked) {dir : Nat} {p : Dentry Obj} {ret : Option Errno}
    {path : Path} (hcall : cdevMkdir s path = .ok (s', ret)) (hpath : path.dentry = some dir)
    (hp : s.dentries dir = some p) (hroot : s.root = none) :
    s'.Linked ∧ s'.root = none ∧ ∃ p', s'.dentries dir = some p' ∧ p'.count = p.count := by
  unfold Fs.cdevMkdir at hcall
  by_cases hstatus : path.status = .enoent
  · rw [if_pos hstatus] at hcall
    obtain ⟨rfl, rfl⟩ := Prod.mk.inj (Except.ok.inj hcall)
    exact ⟨hlinked, hroot, p, hp, rfl⟩
  · rw [if_neg hstatus] at hcall
    obtain ⟨t, halloc, horphan⟩ := dentryAllocOrphan_dir cleared s charName
    have hlinked' := hlinked.orphan horphan
    have hp' := (horphan.other dir (Vfs.lt_next hp)).trans hp
    have hroot' := horphan.root.trans hroot
    rw [halloc, Halt.ok_bind, hpath] at hcall
    change t.deref dir >>= _ = _ at hcall
    rw [Vfs.deref_eq_ok.mpr hp', Halt.ok_bind] at hcall
    by_cases hinode : p.inode.isNone = true
    · rw [if_pos hinode] at hcall
      obtain ⟨rfl, rfl⟩ := Prod.mk.inj (Except.ok.inj hcall)
      exact ⟨hlinked', hroot', p, hp', rfl⟩
    · rw [if_neg hinode] at hcall
      obtain ⟨e, he, -, -, hparent, -⟩ := horphan.self
      exact hlinked'.devfsMkdir hcall hp' he hparent hroot'

/-- A new root directory, which has no children yet, becomes the root. -/
theorem Vfs.Linked.setRoot (hlinked : s.Linked) {d : Dentry Obj} (hd : s.dentries a = some d)
    (hname : d.name = [slash]) (hdots : s.OnlyDots d) : Vfs.Linked { s with root := some a } := by
  constructor
  case entry =>
    intro dir e hm index key b he hchildren hholds
    obtain ⟨f, hf, hkey, hkind⟩ := hlinked.entry dir e hm index key b he hchildren hholds
    refine ⟨f, hf, hkey, ?_⟩
    by_cases hdir : dir = a
    · subst hdir
      obtain rfl := Option.some.inj (hd.symm.trans he)
      obtain ⟨f', hf', hdot⟩ := hdots hm index key b hchildren hholds
      obtain rfl := Option.some.inj (hf.symm.trans hf')
      rcases hdot with h | h
      · exact .inl h
      · exact .inr (.inl h)
    · rcases hkind with h | h | h | ⟨h, -⟩
      · exact .inl h
      · exact .inr (.inl h)
      · exact .inr (.inr (.inl h))
      · exact .inr (.inr (.inr ⟨h, fun heq => hdir (Option.some.inj heq).symm⟩))
  case root =>
    intro r hr
    obtain rfl := Option.some.inj hr
    exact ⟨d, hd, hname⟩
  case mount => exact hlinked.mount

/-- The system after boot is linked. -/
theorem vfsBoot_linked {devInode rootInode : Obj} (hboot : vfsBoot fs devInode rootInode = .ok s) :
    s.Linked := by
  obtain ⟨⟨s₁, dev⟩, hdev, hboot⟩ := Halt.bind_eq_ok.mp hboot
  obtain ⟨⟨s₃, ret⟩, hcdev, hboot⟩ := Halt.bind_eq_ok.mp hboot
  obtain ⟨hlinked₁, hroot₁, -, d, hd, hname, hparent, hcount, -⟩ := allocRoot_spec emptyVfs_linked hdev
  -- the file system of devices is mounted
  let s₂ : Vfs Obj := { s₁ with mounts := [⟨devName, some dev⟩] }
  have hlinked₂ : s₂.Linked := by
    refine ⟨hlinked₁.entry, hlinked₁.root, ?_⟩
    intro m hm r hr
    obtain rfl := List.mem_singleton.mp hm
    obtain rfl := Option.some.inj hr
    exact ⟨d, hd, hname, hparent⟩
  -- its directory is found, gets a child and is released
  obtain ⟨⟨s₄, path⟩, hlookup, hcdev⟩ := Halt.bind_eq_ok.mp hcdev
  obtain ⟨⟨s₅, ret'⟩, hmkdir, hcdev⟩ := Halt.bind_eq_ok.mp hcdev
  obtain ⟨⟨s₆, ret''⟩, hrelease, hcdev⟩ := Halt.bind_eq_ok.mp hcdev
  obtain ⟨rfl, rfl⟩ := Prod.mk.inj (Except.ok.inj hcdev)
  have hfound : vfsPathLookup fs ⟨cleared, none, .noTask⟩ s₂ (absolutePath [devName]) lookupOpen =
      .ok (s₂, ⟨some dev, lookupOpen, .success⟩) := rfl
  obtain ⟨rfl, rfl⟩ := Prod.mk.inj (Except.ok.inj (hfound.symm.trans hlookup))
  obtain ⟨hlinked₅, hroot₅, d', hd', hcount'⟩ := hlinked₂.cdevMkdir hmkdir rfl hd hroot₁
  have hheld : d'.count - 1 ≠ 1 := by rw [hcount', hcount]; decide
  have hrest := vfsPathRelease_held ⟨some dev, lookupOpen, .success⟩ rfl hd' hheld
  obtain ⟨rfl, -⟩ := Prod.mk.inj (Except.ok.inj (hrest.symm.trans hrelease))
  have hlinked₆ := hlinked₅.modify dev (f := fun d => { d with count := d.count - 1 })
    (fun _ => ⟨rfl, rfl⟩) fun _ => rfl
  -- the root file system is installed
  cases ret' with
  | some e => cases hboot
  | none =>
      obtain ⟨⟨s₇, root⟩, hroot, hboot⟩ := Halt.bind_eq_ok.mp hboot
      obtain rfl := Except.ok.inj hboot
      obtain ⟨hlinked₇, -, -, e, he, hename, -, -, hdots⟩ := allocRoot_spec hlinked₆ hroot
      exact hlinked₇.setRoot he hename hdots

/-! ## Two names with one hash -/

/-- The name `ab`. -/
def abName : Name := [97, 98]

/-- The name `bA`, which has the hash of `ab`. -/
def bAName : Name := [98, 65]

/-- A root directory with the two files. -/
def twinTree : FileSystem Nat where
  flags obj := if obj = 1 then tIfdir else tIfreg
  lookup obj name :=
    if obj = 1 then if name = abName then some 2 else if name = bAName then some 3 else none
    else none

/-- A lookup for opening before the scheduler has started. -/
def openCall (name : Name) : LookupCall := ⟨absolutePath [name], lookupOpen, none, .noTask⟩

/-- Boot, and a lookup of the file `ab`. -/
def lookupFirst : Except Halt (Vfs Nat × Vfs Nat × Path) := do
  let s₀ ← vfsBoot twinTree 0 1
  (vfsPathLookup twinTree ⟨cleared, none, .noTask⟩ s₀ (absolutePath [abName]) lookupOpen).map (s₀, ·)

/-- Both lookups. -/
def lookupBoth : Except Halt ((Vfs Nat × Vfs Nat × Path) × Vfs Nat × Path) := do
  let first ← lookupFirst
  (vfsPathLookup twinTree ⟨cleared, none, .noTask⟩ first.2.1 (absolutePath [bAName])
    lookupOpen).map (first, ·)

/-- The first lookup after boot returns the file that it names. -/
theorem vfsPathLookup_first_named :
    ∃ s₀ s found, vfsBoot twinTree 0 1 = .ok s₀ ∧
      vfsPathLookup twinTree ⟨cleared, none, .noTask⟩ s₀ (absolutePath [abName]) lookupOpen =
        .ok (s, found) ∧
      found.status = .success ∧ s.Named found.dentry [abName] := by
  obtain ⟨⟨s₀, s, found⟩, hrun, hok⟩ := Halt.exists_ok lookupFirst
    (fun r => decide (r.2.2.status = .success ∧ r.1.root = some 7 ∧
      (r.1.mounts.find? fun m => m.name = abName).isNone ∧ r.1.cached 7 abName = 0))
    (by decide +kernel)
  obtain ⟨hsuccess, hroot, hmounts, hcached⟩ := of_decide_eq_true hok
  obtain ⟨s₀', hboot, hcall⟩ := Halt.bind_eq_ok.mp hrun
  obtain ⟨second, hcall, hpair⟩ := Halt.map_eq_ok.mp hcall
  cases hpair
  have hname : ∀ c ∈ [abName], c ≠ [] ∧ slash ∉ c ∧ Proper c := by
    intro c hc
    obtain rfl := List.mem_singleton.mp hc
    exact ⟨by decide, by decide, by decide, by decide⟩
  have hroot : s₀.root = some 7 := hroot
  have hcached : s₀.cached 7 abName = 0 := hcached
  have hnone : (s₀.mounts.find? fun m => m.name = abName) = none :=
    Option.isNone_iff_eq_none.mp hmounts
  have hclear : s₀.ClearPath [abName] := by
    simp [Vfs.ClearPath, Vfs.Clear, hnone, hroot, hcached]
  refine ⟨s₀, s, found, hboot, hcall, hsuccess, ?_⟩
  exact (vfsPathLookup_named_iff (vfsBoot_linked hboot) .nil (List.cons_ne_nil _ _) hname hcall
    hsuccess).mpr hclear

/-- A lookup of `bA` after one of `ab` returns the dentry of `ab`. -/
theorem vfsPathLookup_takes_twin :
    ∃ s₀ s s' found, vfsBoot twinTree 0 1 = .ok s₀ ∧
      Run (LookupStep twinTree) s₀ [openCall abName] s ∧
      vfsPathLookup twinTree ⟨cleared, none, .noTask⟩ s (absolutePath [bAName]) lookupOpen =
        .ok (s', found) ∧
      found.status = .success ∧ ¬ s'.Named found.dentry [bAName] := by
  obtain ⟨⟨⟨s₀, s, found₁⟩, s', found⟩, hrun, hok⟩ := Halt.exists_ok lookupBoth
    (fun r => decide (r.2.2.status = .success ∧ r.2.2.dentry = some 10 ∧
      (r.2.1.dentries 10).map (·.name) = some abName)) (by decide +kernel)
  obtain ⟨hsuccess, hdentry, hname⟩ := of_decide_eq_true hok
  obtain ⟨first, hfirst, hsecond⟩ := Halt.bind_eq_ok.mp hrun
  obtain ⟨second, hcall, hpair⟩ := Halt.map_eq_ok.mp hsecond
  cases hpair
  obtain ⟨s₀', hboot, hfirst⟩ := Halt.bind_eq_ok.mp hfirst
  obtain ⟨first, hcall₁, hpair₁⟩ := Halt.map_eq_ok.mp hfirst
  cases hpair₁
  refine ⟨s₀, s, s', found, hboot, .snoc .nil ⟨found₁, hcall₁⟩, hcall, hsuccess, ?_⟩
  rw [hdentry]
  rintro ⟨d, hd, hbA, -⟩
  rw [hd, Option.map_some, hbA] at hname
  exact absurd (Option.some.inj hname) (by decide)

end Fs
end Micael
