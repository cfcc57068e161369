import Micael.Fs.LookupNames

/-!
# Lookup and release

A lookup for opening raises the count of the dentry it returns, and the release lowers it again.
The pair should leave no trace.  It does so only when the walk goes through cached dentries from
its start to its end: a path that ends at a mount point raises nothing but is lowered, a component
that has to be loaded raises the count of its directory for good, and a count that falls back to one
frees the dentry.

Main results:

- Theorem {lit}`vfsPathRelease_raised`: what the release of a dentry does whose count was raised.
- Theorem {lit}`Walked.count_lt`: a walk that loads a dentry raises a count.
- Theorem {lit}`lookup_release_neutral_iff`: when the pair can be repeated for ever without a trace.
-/

namespace Micael
namespace Fs

open Lib Foundation

variable {Obj : Type}

/-! ## Neutral pairs -/

/-- The count of a dentry that its lookup has raised. -/
def Vfs.raise (s : Vfs Obj) (a : Nat) : Vfs Obj :=
  s.modify a fun d => { d with count := d.count + 1 }

/-- The path that a lookup for opening returns. -/
def openPath (a : Nat) : Path := ⟨some a, lookupOpen, .success⟩

/-- A lookup of an absolute path for opening returns a dentry. -/
def Opens (fs : FileSystem Obj) (env : LookupEnv) (s : Vfs Obj) (path : Name) (s' : Vfs Obj)
    (a : Nat) : Prop :=
  vfsPathLookup fs env s (slash :: path) lookupOpen = .ok (s', openPath a)

/-- A lookup and the release of what it returned. -/
def PairStep (fs : FileSystem Obj) (path : Name) (s : Vfs Obj) (env : LookupEnv) (s' : Vfs Obj) :
    Prop :=
  ∃ t a r, Opens fs env s path t a ∧ vfsPathRelease t (openPath a) = .ok (s', r)

/-- No dentry is lost, and the counts are what they were. -/
def Vfs.SameCounts (s s' : Vfs Obj) : Prop :=
  ∀ b d, s.dentries b = some d → ∃ d', s'.dentries b = some d' ∧ d'.count = d.count

/-- The pair leaves the counts of all dentries as they were, and a second lookup finds the same
file. -/
def PairNeutral (fs : FileSystem Obj) (path : Name) (s : Vfs Obj) : Prop :=
  ∀ env env', ∃ t a s' r, Opens fs env s path t a ∧ vfsPathRelease t (openPath a) = .ok (s', r) ∧
    s.SameCounts s' ∧
    ∃ t' a', Opens fs env' s' path t' a' ∧
      (t'.dentries a').map (·.inode) = (t.dentries a).map (·.inode)

/-! ## The condition -/

/-- The end of a walk that finds all its components in the cache. -/
def Vfs.cachedWalk (s : Vfs Obj) : Nat → List Name → Option Nat
  | a, [] => some a
  | a, name :: rest => if s.cached a name ≠ 0 then s.cachedWalk (s.cached a name) rest else none

/-- The release does not free the dentry: it has more references, or its parent refuses to give up
its name. -/
def Vfs.Held (s : Vfs Obj) (d : Dentry Obj) : Prop :=
  d.count ≠ 1 ∨ ∃ parent p e p', d.parent = some parent ∧ s.dentries parent = some p ∧
    p.remove d.name = .ok (some e, p')

/-- The path does not end at a mount point, all its components are cached, and the last one is
held. -/
def Vfs.Quiet (s : Vfs Obj) (path : Name) : Prop :=
  ∃ start comps a d, s.walkOf path = some (start, comps) ∧ s.cachedWalk start comps = some a ∧
    s.dentries a = some d ∧ s.Held d

variable {fs : FileSystem Obj} {stale : Nat → Option Hashmap} {s s' t : Vfs Obj} {parent a : Nat}
  {name path : Name} {d : Dentry Obj}

/-! ## Cached walks -/

theorem Vfs.cached_eq {p : Dentry Obj} (hp : s.dentries parent = some p) :
    s.cached parent name = p.find name := by
  simp [Vfs.cached, hp]

theorem findChild_of_cached (stale : Nat → Option Hashmap) {p : Dentry Obj}
    (hp : s.dentries parent = some p) (hcached : s.cached parent name ≠ 0) :
    findChild fs stale s parent name = .ok (s, some (s.cached parent name)) := by
  rw [Vfs.cached_eq hp] at hcached ⊢
  rw [findChild, Vfs.deref_eq_ok.mpr hp, Halt.ok_bind, if_pos hcached]

/-- A walk through the cache neither changes the cache nor depends on the memory of new dentries. -/
theorem vfsWalkPath_of_cached {comps : List Name} {b : Nat}
    (hcached : s.cachedWalk parent comps = some a)
    (hcall : vfsWalkPath fs stale lookupOpen s parent comps = .ok (t, some b)) :
    t = s ∧ b = a ∧ ∀ stale', vfsWalkPath fs stale' lookupOpen s parent comps = .ok (s, some a) := by
  induction comps generalizing parent with
  | nil => cases (Prod.mk.inj (Except.ok.inj hcall)).2
  | cons next rest ih =>
      have hne : s.cached parent next ≠ 0 := by
        intro hzero
        simp [Vfs.cachedWalk, hzero] at hcached
      simp only [Vfs.cachedWalk, if_pos hne] at hcached
      obtain ⟨p, hp⟩ : ∃ p, s.dentries parent = some p := by
        cases hp : s.dentries parent with
        | none => simp [Vfs.cached, hp] at hne
        | some p => exact ⟨p, rfl⟩
      cases rest with
      | nil =>
          simp only [vfsWalkPath, lookupOpen, Bool.false_eq_true, if_false] at hcall ⊢
          by_cases hempty : next = []
          · rw [if_pos hempty] at hcall
            obtain ⟨d, -, hd⟩ := Halt.map_eq_ok.mp hcall
            cases (Prod.mk.inj hd).2
          · rw [if_neg hempty, findChild_of_cached stale hp hne] at hcall
            obtain ⟨rfl, hb⟩ := Prod.mk.inj (Except.ok.inj hcall)
            obtain rfl := Option.some.inj hcached
            refine ⟨rfl, (Option.some.inj hb).symm, fun stale' => ?_⟩
            rw [if_neg hempty, findChild_of_cached stale' hp hne]
      | cons c path =>
          have hmap : ¬ p.children.isNone = true := by
            intro hnone
            rw [Vfs.cached_eq hp] at hne
            simp [Dentry.find, Option.isNone_iff_eq_none.mp hnone] at hne
          have hstep : ∀ stale, vfsWalkPath fs stale lookupOpen s parent (next :: c :: path) =
              vfsWalkPath fs stale lookupOpen s (s.cached parent next) (c :: path) := by
            intro stale
            rw [vfsWalkPath, Vfs.deref_eq_ok.mpr hp, Halt.ok_bind, if_neg hmap,
              findChild_of_cached stale hp hne, Halt.ok_bind]
          rw [hstep] at hcall
          obtain ⟨ht, hb, hall⟩ := ih hcached hcall
          exact ⟨ht, hb, fun stale' => (hstep stale').trans (hall stale')⟩

/-! ## Counts along a walk -/

/-- One component never lowers a count, and raises one when it is not cached. -/
theorem findChild_count {child : Nat}
    (hcall : findChild fs stale s parent name = .ok (t, some child)) :
    (∀ b d, s.dentries b = some d → ∃ d', t.dentries b = some d' ∧ d.count ≤ d'.count) ∧
      (s.cached parent name ≠ 0 ∧ t = s ∧ child = s.cached parent name ∨
        s.cached parent name = 0 ∧ ∃ p p', s.dentries parent = some p ∧
          t.dentries parent = some p' ∧ p.count < p'.count) := by
  obtain ⟨p, hp, hcase⟩ := findChild_cases hcall
  rw [Vfs.cached_eq hp]
  rcases hcase with ⟨hne, rfl, hchild⟩ | ⟨hzero, ⟨hnone, -⟩ | ⟨-, obj, -, hloaded⟩⟩
  · exact ⟨fun b d hd => ⟨d, hd, le_rfl⟩, .inl ⟨hne, rfl, Option.some.inj hchild⟩⟩
  · cases hnone
  · obtain ⟨p', hm, hm', hp', -, -, hdir⟩ := hloaded.dir
    obtain rfl := Option.some.inj (hp.symm.trans hp')
    refine ⟨?_, .inr ⟨hzero, p, _, hp, hdir, lt_add_one p.count⟩⟩
    intro b d hd
    by_cases hb : b = parent
    · subst hb
      obtain rfl := Option.some.inj (hp.symm.trans hd)
      exact ⟨_, hdir, (lt_add_one p.count).le⟩
    · exact ⟨d, (hloaded.other b (Vfs.lt_next hd) hb).trans hd, le_rfl⟩

theorem Walked.count_le {comps : List Name} (hwalk : Walked fs stale s parent comps t a) :
    ∀ b d, s.dentries b = some d → ∃ d', t.dentries b = some d' ∧ d.count ≤ d'.count := by
  induction hwalk with
  | nil => exact fun b d hd => ⟨d, hd, le_rfl⟩
  | cons hfind _ ih =>
      intro b d hd
      obtain ⟨e, he, hle⟩ := (findChild_count hfind).1 b d hd
      obtain ⟨d', hd', hle'⟩ := ih b e he
      exact ⟨d', hd', hle.trans hle'⟩

/-- A walk that loads a dentry raises a count. -/
theorem Walked.count_lt {comps : List Name} (hwalk : Walked fs stale s parent comps t a)
    (huncached : s.cachedWalk parent comps = none) :
    ∃ b d d', s.dentries b = some d ∧ t.dentries b = some d' ∧ d.count < d'.count := by
  induction hwalk with
  | nil => cases huncached
  | @cons s u t parent child a name rest hfind hrest ih =>
      rcases (findChild_count hfind).2 with ⟨hne, rfl, rfl⟩ | ⟨-, p, p', hp, hp', hlt⟩
      · simp only [Vfs.cachedWalk, if_pos hne] at huncached
        exact ih huncached
      · obtain ⟨d', hd', hle⟩ := hrest.count_le parent p' hp'
        exact ⟨parent, p, d', hp, hd', hlt.trans_le hle⟩

/-! ## What a release leaves -/

theorem Vfs.raise_lower (s : Vfs Obj) (a : Nat) :
    ((s.raise a).modify a fun d => { d with count := d.count - 1 }) = s := by
  have hdentries : ((s.raise a).modify a fun d => { d with count := d.count - 1 }).dentries =
      s.dentries := by
    funext b
    by_cases hb : b = a
    · subst hb
      cases hd : s.dentries b with
      | none => simp [Vfs.raise, Vfs.modify, hd]
      | some d => simp [Vfs.raise, Vfs.modify, hd]
    · exact (Vfs.modify_of_ne hb).trans (Vfs.modify_of_ne hb)
  cases s
  simp only [Vfs.raise, Vfs.modify, Vfs.mk.injEq, and_true] at hdentries ⊢
  exact hdentries

/-- The release of a dentry whose count was raised: it is freed when there is one reference left. -/
theorem vfsPathRelease_raised (hd : s.dentries a = some d) :
    vfsPathRelease (s.raise a) (openPath a) =
      if d.count = 1 then (dentryDealloc s a).map fun r => (r.2, none) else .ok (s, none) := by
  have hraised : (s.raise a).deref a = .ok { d with count := d.count + 1 } :=
    Vfs.deref_eq_ok.mpr (Vfs.modify_self hd)
  have hcount : d.count + 1 - 1 = d.count := by omega
  simp only [vfsPathRelease, openPath, hraised, Halt.ok_bind, Vfs.raise_lower, hcount]
  by_cases hone : d.count = 1
  · rw [if_pos hone, if_pos hone]
    cases dentryDealloc s a with
    | error e => rfl
    | ok r => rfl
  · rw [if_neg hone, if_neg hone]

/-- A deallocation is refused, or the dentry is gone and the counts of the others are kept. -/
theorem dentryDealloc_cases {e : Option Errno} (hd : s.dentries a = some d)
    (hcall : dentryDealloc s a = .ok (e, t)) :
    (t = s ∧ (1 < d.count ∨ s.Held d)) ∨
      t.dentries a = none ∧ ∀ b d', b ≠ a → s.dentries b = some d' →
        ∃ d'', t.dentries b = some d'' ∧ d''.count = d'.count := by
  have hkept := fun b d' (hb : b ≠ a) (hd' : s.dentries b = some d') =>
    dentryDealloc_kept hcall hb hd'
  rw [dentryDealloc, Vfs.deref_eq_ok.mpr hd, Halt.ok_bind] at hcall
  by_cases hbusy : 1 < d.count
  · rw [if_pos hbusy] at hcall
    obtain ⟨-, rfl⟩ := Prod.mk.inj (Except.ok.inj hcall)
    exact .inl ⟨rfl, .inl hbusy⟩
  · rw [if_neg hbusy] at hcall
    cases hparent : d.parent with
    | none =>
        rw [hparent] at hcall
        obtain ⟨-, rfl⟩ := Prod.mk.inj (Except.ok.inj hcall)
        exact .inr ⟨Vfs.destroy_self, hkept⟩
    | some parent =>
        rw [hparent] at hcall
        obtain ⟨p, hp, hcall⟩ := Halt.bind_eq_ok.mp hcall
        obtain ⟨⟨e', p'⟩, hremove, hcall⟩ := Halt.bind_eq_ok.mp hcall
        rw [Vfs.deref_eq_ok] at hp
        cases e' with
        | some e' =>
            obtain ⟨-, rfl⟩ := Prod.mk.inj (Except.ok.inj hcall)
            exact .inl ⟨rfl, .inr (.inr ⟨parent, p, e', p', hparent, hp, hremove⟩)⟩
        | none =>
            obtain ⟨-, rfl⟩ := Prod.mk.inj (Except.ok.inj hcall)
            exact .inr ⟨Vfs.destroy_self, hkept⟩

/-- A release without a lookup that raised the count lowers it, or frees the dentry. -/
theorem vfsPathRelease_lowers {r : Option Errno}
    (hcall : vfsPathRelease s (openPath a) = .ok (t, r)) :
    ∃ d, s.dentries a = some d ∧
      ∀ d', t.dentries a = some d' → d'.count = d.count - 1 := by
  obtain ⟨d, hd, hcall⟩ := Halt.bind_eq_ok.mp hcall
  rw [Vfs.deref_eq_ok] at hd
  refine ⟨d, hd, ?_⟩
  let u := s.modify a fun d => { d with count := d.count - 1 }
  have hlowered : u.dentries a = some { d with count := d.count - 1 } := Vfs.modify_self hd
  by_cases hone : d.count - 1 = 1
  · rw [if_pos hone] at hcall
    obtain ⟨⟨e, t'⟩, hdealloc, hcall⟩ := Halt.bind_eq_ok.mp hcall
    obtain ⟨rfl, -⟩ := Prod.mk.inj (Except.ok.inj hcall)
    intro d' hd'
    rcases dentryDealloc_cases hlowered hdealloc with ⟨rfl, -⟩ | ⟨hgone, -⟩
    · obtain rfl := Option.some.inj (hlowered.symm.trans hd')
      rfl
    · cases hgone.symm.trans hd'
  · rw [if_neg hone] at hcall
    obtain ⟨rfl, -⟩ := Prod.mk.inj (Except.ok.inj hcall)
    intro d' hd'
    obtain rfl := Option.some.inj (hlowered.symm.trans hd')
    rfl

/-! ## The pair -/

variable {env : LookupEnv}

/-- The ways a lookup for opening succeeds. -/
theorem Opens.cases (h : Opens fs env s path s' a) :
    (s.walkOf path = none ∧ s' = s) ∨
      ∃ start comps t d, s.walkOf path = some (start, comps) ∧
        vfsWalkPath fs env.stale lookupOpen s start comps = .ok (t, some a) ∧
        t.dentries a = some d ∧ s' = t.raise a := by
  obtain ⟨b, hb, hcase⟩ := vfsPathLookup_open h rfl
  obtain rfl : a = b := Option.some.inj (congrArg Path.dentry hb)
  rcases hcase with ⟨hmount, rfl⟩ | hwalk
  · exact .inl ⟨by rw [Vfs.walkOf, hmount], rfl⟩
  · exact .inr hwalk

/-- A walk makes a lookup for opening succeed. -/
theorem opens_of_walk {start : Nat} {comps : List Name}
    (hstart : s.walkOf path = some (start, comps))
    (hwalk : vfsWalkPath fs env.stale lookupOpen s start comps = .ok (t, some a))
    (hd : t.dentries a = some d) : Opens fs env s path (t.raise a) a := by
  unfold Vfs.walkOf at hstart
  cases hboot : vfsFindBootstrap s path with
  | mk first left =>
      rw [hboot] at hstart
      cases left with
      | none => cases hstart
      | some left =>
          obtain ⟨start', hstart', hpair⟩ := Option.map_eq_some_iff.mp hstart
          obtain ⟨rfl, rfl⟩ := Prod.mk.inj hpair
          simp only [Opens, vfsPathLookup, if_true, hboot, hstart', lookupFrom]
          rw [hwalk, Halt.ok_bind]
          change t.deref a >>= _ = _
          rw [Vfs.deref_eq_ok.mpr hd]
          rfl

/-- A held dentry is not freed when its raised count falls back. -/
theorem Vfs.Held.release (hd : s.dentries a = some d) (hheld : s.Held d) :
    vfsPathRelease (s.raise a) (openPath a) = .ok (s, none) := by
  rw [vfsPathRelease_raised hd]
  by_cases hone : d.count = 1
  · rw [if_pos hone]
    rcases hheld with hne | ⟨parent, p, e, p', hparent, hp, hremove⟩
    · exact absurd hone hne
    · have hbusy : ¬ 1 < d.count := by omega
      have hrefused : dentryDealloc s a = .ok (some e, s) := by
        rw [dentryDealloc, Vfs.deref_eq_ok.mpr hd, Halt.ok_bind, if_neg hbusy, hparent]
        change s.deref parent >>= _ = _
        rw [Vfs.deref_eq_ok.mpr hp, Halt.ok_bind, hremove]
        rfl
      rw [hrefused]
      rfl
  · rw [if_neg hone]

/-- The lookups of a quiet path that resolves. -/
theorem Vfs.Quiet.opens (hquiet : s.Quiet path) (hres : ∃ env s' a, Opens fs env s path s' a) :
    ∃ a, vfsPathRelease (s.raise a) (openPath a) = .ok (s, none) ∧
      ∀ env, Opens fs env s path (s.raise a) a := by
  obtain ⟨start, comps, a, d, hstart, hcached, hd, hheld⟩ := hquiet
  obtain ⟨env, s', b, hopen⟩ := hres
  refine ⟨a, hheld.release hd, ?_⟩
  rcases hopen.cases with ⟨hnone, -⟩ | ⟨start', comps', t, e, hstart', hwalk, -, -⟩
  · cases hnone.symm.trans hstart
  · obtain ⟨rfl, rfl⟩ := Prod.mk.inj (Option.some.inj (hstart.symm.trans hstart'))
    obtain ⟨-, -, hall⟩ := vfsWalkPath_of_cached hcached hwalk
    exact fun env' => opens_of_walk hstart (hall env'.stale) hd

/-- The release of a dentry whose count was not raised changes it. -/
theorem release_not_sameCounts {r : Option Errno} (hrelease : vfsPathRelease s (openPath a) = .ok (s', r)) :
    ¬ s.SameCounts s' := by
  intro hsame
  obtain ⟨d, hd, hlowered⟩ := vfsPathRelease_lowers hrelease
  obtain ⟨d', hd', hcount⟩ := hsame a d hd
  have hlow := hlowered d' hd'
  omega

/-- A walk whose dentry is released without a change of a count stayed in the cache, and the dentry is held. -/
theorem cached_of_sameCounts {start : Nat} {comps : List Name} {u : Vfs Obj} {r : Option Errno}
    (hwalk : vfsWalkPath fs stale lookupOpen s start comps = .ok (u, some a)) (hd : u.dentries a = some d)
    (hrelease : vfsPathRelease (u.raise a) (openPath a) = .ok (s', r)) (hsame : s.SameCounts s') :
    u = s ∧ s.cachedWalk start comps = some a ∧ s.Held d := by
  rw [vfsPathRelease_raised hd] at hrelease
  -- the state after the release is the one after the walk, or the dentry is gone
  have hend : (s' = u ∧ (d.count ≠ 1 ∨ u.Held d)) ∨ s'.dentries a = none ∧
      ∀ b d', b ≠ a → u.dentries b = some d' →
        ∃ d'', s'.dentries b = some d'' ∧ d''.count = d'.count := by
    by_cases hone : d.count = 1
    · rw [if_pos hone] at hrelease
      obtain ⟨⟨e, s''⟩, hdealloc, hpair⟩ := Halt.map_eq_ok.mp hrelease
      obtain ⟨rfl, -⟩ := Prod.mk.inj hpair
      rcases dentryDealloc_cases hd hdealloc with ⟨heq, hbusy | hheld⟩ | hgone
      · omega
      · exact .inl ⟨heq, .inr hheld⟩
      · exact .inr hgone
    · rw [if_neg hone] at hrelease
      obtain ⟨rfl, -⟩ := Prod.mk.inj (Except.ok.inj hrelease)
      exact .inl ⟨rfl, .inl hone⟩
  cases hcached : s.cachedWalk start comps with
  | none =>
      obtain ⟨b, e, e', he, he', hlt⟩ := (walked_of_vfsWalkPath hwalk).count_lt hcached
      obtain ⟨e'', he'', hcount⟩ := hsame b e he
      rcases hend with ⟨rfl, -⟩ | ⟨hgone, hkept⟩
      · obtain rfl := Option.some.inj (he'.symm.trans he'')
        omega
      · by_cases hb : b = a
        · subst hb
          cases hgone.symm.trans he''
        · obtain ⟨f, hf, hfcount⟩ := hkept b e' hb he'
          obtain rfl := Option.some.inj (hf.symm.trans he'')
          omega
  | some b =>
      obtain ⟨rfl, rfl, -⟩ := vfsWalkPath_of_cached hcached hwalk
      refine ⟨rfl, rfl, ?_⟩
      rcases hend with ⟨-, hne | hheld⟩ | ⟨hgone, -⟩
      · exact .inl hne
      · exact hheld
      · obtain ⟨d', hd', -⟩ := hsame a d hd
        cases hgone.symm.trans hd'

/-- A pair that is not quiet changes a count or frees a dentry. -/
theorem quiet_of_sameCounts {r : Option Errno} (hopen : Opens fs env s path t a)
    (hrelease : vfsPathRelease t (openPath a) = .ok (s', r)) (hsame : s.SameCounts s') :
    s.Quiet path := by
  rcases hopen.cases with ⟨-, rfl⟩ | ⟨start, comps, u, d, hstart, hwalk, hd, rfl⟩
  · -- nothing was raised, but the count is lowered
    exact absurd hsame (release_not_sameCounts hrelease)
  · obtain ⟨rfl, hcached, hheld⟩ := cached_of_sameCounts hwalk hd hrelease hsame
    exact ⟨start, comps, a, d, hstart, hcached, hd, hheld⟩

/-- The pairs of a path that resolves are neutral, however often they are repeated, exactly if the
path does not end at a mount point, is cached from its start to its end, and its dentry is held. -/
theorem lookup_release_neutral_iff
    (hres : ∃ env s' found, vfsPathLookup fs env s (slash :: path) lookupOpen = .ok (s', found) ∧
      found.status = .success) :
    (∀ envs t, Run (PairStep fs path) s envs t → PairNeutral fs path t) ↔ s.Quiet path := by
  have hopens : ∃ env s' a, Opens fs env s path s' a := by
    obtain ⟨env, s', found, hcall, hok⟩ := hres
    obtain ⟨a, rfl, -⟩ := vfsPathLookup_open hcall hok
    exact ⟨env, s', a, hcall⟩
  constructor
  · intro hneutral
    obtain ⟨env, -⟩ := hopens
    obtain ⟨t, a, s', r, hopen, hrelease, hsame, -⟩ := hneutral [] s .nil env env
    exact quiet_of_sameCounts hopen hrelease hsame
  · intro hquiet envs t hrun
    obtain ⟨a, hrelease, hopen⟩ := hquiet.opens hopens
    -- a quiet pair ends where it started
    have hstep : ∀ u env u', u = s → PairStep fs path u env u' → u' = s := by
      rintro u env u' rfl ⟨t, b, r, hopen', hrelease'⟩
      obtain ⟨rfl, hpath⟩ := Prod.mk.inj (Except.ok.inj ((hopen env).symm.trans hopen'))
      rw [← hpath, hrelease] at hrelease'
      exact (Prod.mk.inj (Except.ok.inj hrelease')).1.symm
    obtain rfl := Run.invariant (· = s) hstep hrun rfl
    intro env env'
    refine ⟨_, a, _, none, hopen env, hrelease, ?_, _, a, hopen env', rfl⟩
    exact fun b d hd => ⟨d, hd, rfl⟩

/-! ## Two paths after boot -/

/-- The directory `/dev/char` can be looked up and released for ever. -/
theorem lookup_release_neutral_devChar :
    ∃ s, vfsBoot twinTree 0 1 = .ok s ∧
      ∀ envs t, Run (PairStep twinTree (devName ++ slash :: charName)) s envs t →
        PairNeutral twinTree (devName ++ slash :: charName) t := by
  let env : LookupEnv := ⟨cleared, none, .noTask⟩
  let path : Name := devName ++ slash :: charName
  obtain ⟨⟨s, s', found⟩, hrun, hok⟩ := Halt.exists_ok
    (vfsBoot twinTree 0 1 >>= fun s =>
      (vfsPathLookup twinTree env s (slash :: path) lookupOpen).map (s, ·))
    (fun r => decide (r.2.2.status = .success ∧ r.1.walkOf path = some (1, [charName]) ∧
      r.1.cachedWalk 1 [charName] = some 4 ∧ (r.1.dentries 4).map (·.count) = some 3))
    (by decide +kernel)
  obtain ⟨hsuccess, hstart, hcached, hcount⟩ := of_decide_eq_true hok
  obtain ⟨s₀, hboot, hlookup⟩ := Halt.bind_eq_ok.mp hrun
  obtain ⟨result, hcall, hpair⟩ := Halt.map_eq_ok.mp hlookup
  cases hpair
  obtain ⟨d, hd, hthree⟩ := Option.map_eq_some_iff.mp hcount
  refine ⟨s, hboot, (lookup_release_neutral_iff ⟨env, s', found, hcall, hsuccess⟩).mpr ?_⟩
  exact ⟨1, [charName], 4, d, hstart, hcached, hd, .inl (by rw [hthree]; decide)⟩

/-- Every lookup of the root directory takes one reference away from it. -/
theorem lookup_release_root_lowers :
    ∃ s, vfsBoot twinTree 0 1 = .ok s ∧
      (∃ env s' found, vfsPathLookup twinTree env s [slash] lookupOpen = .ok (s', found) ∧
        found.status = .success) ∧
      ¬ ∀ envs t, Run (PairStep twinTree []) s envs t → PairNeutral twinTree [] t := by
  let env : LookupEnv := ⟨cleared, none, .noTask⟩
  obtain ⟨s, hboot, hok⟩ := Halt.exists_ok (vfsBoot twinTree 0 1)
    (fun s => decide (s.root = some 7)) (by decide +kernel)
  have hroot : s.root = some 7 := of_decide_eq_true hok
  refine ⟨s, hboot, ⟨env, s, openPath 7, ?_, rfl⟩, ?_⟩
  · simp [vfsPathLookup, vfsFindBootstrap, hroot, openPath, lookupOpen]
  · intro hneutral
    obtain ⟨t, a, s', r, hopen, hrelease, hsame, -⟩ := hneutral [] s .nil env env
    obtain ⟨start, comps, b, d, hstart, -⟩ := quiet_of_sameCounts hopen hrelease hsame
    cases hstart

end Fs
end Micael
