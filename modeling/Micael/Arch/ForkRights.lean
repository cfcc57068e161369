import Micael.Arch.Spaces

/-!
# Access rights across a fork

A fork resets the flags of every page of the parent, and a later fault makes a page writable.

Main results:

- Theorem {lit}`fork_keeps_rights_iff`: a fork does not widen the rights of user mode if and only if
  every page of the parent has `MM_USER` and one of `MM_READWRITE` and `MM_COW`.
- Theorem {lit}`fork_widens_rights`: a new directory, which maps the devices for the kernel only, does
  not have this property.
-/

namespace Micael
namespace Arch

open Foundation

/-- User mode can read a page: all levels are present and the page has `MM_USER`. -/
def Readable (mem : PhysMem) (r vpn : Nat) : Prop :=
  ∃ w, walk mem 3 r vpn = some w ∧ isUser w = true

/-- User mode can write a page; the entries above the page tables are always writable. -/
def Writable (mem : PhysMem) (r vpn : Nat) : Prop :=
  ∃ w, walk mem 3 r vpn = some w ∧ isUser w = true ∧ isReadwrite w = true

/-- A page is copy-on-write. -/
def CowPage (mem : PhysMem) (r vpn : Nat) : Prop :=
  ∃ w, walk mem 3 r vpn = some w ∧ isCow w = true

/-- The step is a page fault. -/
def Op.IsFault : Op → Prop
  | .fault _ _ => True
  | _ => False

/-- The fork of the directory `r` in the state `s`, which led to the state `t`, gave user mode no
rights in the parent or in the child that it did not have, nor do the page faults that follow. -/
def KeepsRights (cfg : DirConfig) (s t : Sys) (r child : Nat) : Prop :=
  ∀ ops u, Run (Step cfg) t ops u → (∀ op ∈ ops, op.IsFault) →
    ∀ vpn < userPages, ∀ d, d = r ∨ d = child →
      (¬ Readable s.mem r vpn → ¬ Readable u.mem d vpn) ∧
      (¬ Writable s.mem r vpn → ¬ CowPage s.mem r vpn → ¬ Writable u.mem d vpn)

/-! ## Faults -/

section Faults

variable {cfg : DirConfig} {s t u : Sys} {r vpn d : Nat}

/-- A fault changes no page but copy-on-write ones. -/
theorem Owned.fault_keeps (h : Owned cfg s) {vpn' : Nat} (hstep : Step cfg s (.fault r vpn') t) :
    t.roots = s.roots ∧ ∀ d ∈ s.roots, ∀ vpn < userPages,
      walk t.mem 3 d vpn = walk s.mem 3 d vpn ∨ CowPage s.mem d vpn := by
  cases hstep with
  | fault _ hfresh hfault =>
      refine ⟨rfl, fun d hd vpn hvpn => ?_⟩
      obtain ⟨pt, copy, rest, rfl, -, -, -, hpresent, hcow, hrw, hmem'⟩ := mmuPfHandler_eq_ok hfault
      have hcopy : ∀ r ∈ s.roots, copy ∉ tables s.mem 3 r := fun r hr hmem =>
        hfresh.free copy List.mem_cons_self r hr (Or.inl hmem)
      have hbit : isPresent (pte copy (mmPresent + mmUser + mmReadwrite)) = true :=
        (testBit_pte (by decide) (by decide)).trans (by decide)
      rcases h.fault_walk (tableIndex_lt 0 vpn') hpresent hrw hcopy hbit hmem' hd hvpn with
        ⟨hpt, hindex, -⟩ | ⟨-, hsame⟩
      · refine Or.inr ⟨_, ?_, hcow⟩
        rw [walk_eq_ptFrame, hpt, Option.bind_some, hindex, if_pos hpresent]
      · exact Or.inl hsame

/-- Neither does a run of faults. -/
theorem Owned.faults_keep (h : Owned cfg t) {ops : List Op} (hrun : Run (Step cfg) t ops u)
    (hops : ∀ op ∈ ops, op.IsFault) :
    Owned cfg u ∧ u.roots = t.roots ∧ ∀ d ∈ t.roots, ∀ vpn < userPages,
      walk u.mem 3 d vpn = walk t.mem 3 d vpn ∨ CowPage t.mem d vpn := by
  induction hrun with
  | nil => exact ⟨h, rfl, fun _ _ _ _ => Or.inl rfl⟩
  | @snoc ops v w op hfirst hlast ih =>
      obtain ⟨hv, hroots, hkeep⟩ := ih fun op hop => hops op (List.mem_append_left _ hop)
      have hfault := hops op (List.mem_append_right _ (List.mem_singleton.mpr rfl))
      cases op with
      | fault r vpn' =>
          obtain ⟨hroots', hkeep'⟩ := hv.fault_keeps hlast
          refine ⟨hlast.owned hv, hroots'.trans hroots, fun d hd vpn hvpn => ?_⟩
          rcases hkeep d hd vpn hvpn with hsame | hcow
          · rcases hkeep' d (hroots ▸ hd) vpn hvpn with hsame' | ⟨w, hw, hcow⟩
            · exact Or.inl (hsame'.trans hsame)
            · exact Or.inr ⟨w, hsame ▸ hw, hcow⟩
          · exact Or.inr hcow
      | build | map | fork | write | read | destroy => exact hfault.elim

/-- A page that is not mapped after a fork is not mapped after the faults that follow. -/
theorem Owned.faults_unmapped (h : Owned cfg t) {ops : List Op} (hrun : Run (Step cfg) t ops u)
    (hops : ∀ op ∈ ops, op.IsFault) (hd : d ∈ t.roots) (hvpn : vpn < userPages)
    (hwalk : walk t.mem 3 d vpn = none) : walk u.mem 3 d vpn = none := by
  rcases (h.faults_keep hrun hops).2.2 d hd vpn hvpn with hsame | ⟨w, hw, -⟩
  · exact hsame.trans hwalk
  · rw [hwalk] at hw
    cases hw

/-- There is a free frame in every state with finitely many processes. -/
theorem exists_fresh (cfg : DirConfig) (hfinite : t.roots.Finite) : ∃ f, Fresh cfg t [f] := by
  have hpages : ∀ r, {f | Refers t.mem r f}.Finite := by
    intro r
    refine Set.Finite.subset ((List.finite_toSet (tables t.mem 3 r)).union
      ((Set.finite_Iio userPages).image fun vpn => pteFrame ((walk t.mem 3 r vpn).getD 0))) ?_
    rintro f (htable | ⟨vpn, hvpn, w, hw, rfl⟩)
    · exact Or.inl htable
    · exact Or.inr ⟨vpn, hvpn, by simp [hw]⟩
  have hreserved : {f | cfg.Reserved f}.Finite := by
    refine Set.Finite.subset ((Set.finite_Iio userPages).union
      (Set.finite_singleton (pteFrame cfg.kernelEntry))) ?_
    rintro f (hdevice | rfl)
    · exact Or.inl (cfg.device_lt hdevice)
    · exact Or.inr rfl
  obtain ⟨f, hf⟩ := ((hfinite.biUnion fun r _ => hpages r).union hreserved).exists_notMem
  simp only [Set.mem_union, Set.mem_iUnion, not_or, not_exists] at hf
  refine ⟨f, List.nodup_singleton f, fun g hg r hr href => ?_, fun g hg hres => ?_⟩
  · rw [List.mem_singleton.mp hg] at href
    exact hf.1 r hr href
  · rw [List.mem_singleton.mp hg] at hres
    exact hf.2 hres

/-- In every state reached there are finitely many processes. -/
theorem run_finite {mem : PhysMem} {ops : List Op} (hrun : Run (Step cfg) (Sys.init mem) ops s) :
    s.roots.Finite := by
  refine hrun.invariant (fun s => s.roots.Finite) (fun s op t hs hstep => ?_) Set.finite_empty
  cases hstep with
  | build => exact hs.insert _
  | map => exact hs
  | fork => exact hs.insert _
  | fault => exact hs
  | write => exact hs
  | read => exact hs
  | destroy => exact hs.subset fun _ hr => hr.1

/-- A page of a fork becomes writable at a fault. -/
theorem Owned.fault_writable (h : Owned cfg t) (hr : r ∈ t.roots) (hvpn : vpn < userPages) {w₀ : Nat}
    (hwalk : walk t.mem 3 r vpn = some (resetEntry w₀)) {f : Nat} (hfresh : Fresh cfg t [f]) :
    ∃ u, Step cfg t (.fault r vpn) u ∧ Writable u.mem r vpn := by
  obtain ⟨pt, hpt, hword⟩ : ∃ pt, ptFrame t.mem 3 r vpn = some pt ∧
      t.mem pt (tableIndex 0 vpn) = resetEntry w₀ := by
    rw [walk_eq_ptFrame] at hwalk
    obtain ⟨pt, hpt, hentry⟩ := Option.bind_eq_some_iff.mp hwalk
    refine ⟨pt, hpt, ?_⟩
    split at hentry
    · exact Option.some.inj hentry
    · cases hentry
  have hfault : ∃ vm', mmuPfHandler r vpn ⟨t.mem, [f], []⟩ = .ok vm' := by
    rw [mmuPfHandler]
    dsimp only
    rw [hpt]
    dsimp only
    rw [hword, if_neg (by rw [isPresent_resetEntry]; simp),
      if_pos ⟨isCow_resetEntry w₀, by rw [isReadwrite_resetEntry]; simp⟩]
    exact ⟨_, rfl⟩
  obtain ⟨vm', hfault⟩ := hfault
  refine ⟨_, .fault hr hfresh hfault, pte f (mmPresent + mmUser + mmReadwrite), ?_,
    (testBit_pte (by decide) (by decide)).trans (by decide),
    (testBit_pte (by decide) (by decide)).trans (by decide)⟩
  obtain ⟨pt', copy, rest, havail, -, -, hpt', hpresent, -, hrw, hmem'⟩ := mmuPfHandler_eq_ok hfault
  obtain ⟨rfl, rfl⟩ := List.cons.inj havail
  obtain rfl := Option.some.inj (hpt.symm.trans hpt')
  have hcopy : ∀ r ∈ t.roots, f ∉ tables t.mem 3 r := fun r hr hmem =>
    hfresh.free f (List.mem_singleton.mpr rfl) r hr (Or.inl hmem)
  have hbit : isPresent (pte f (mmPresent + mmUser + mmReadwrite)) = true :=
    (testBit_pte (by decide) (by decide)).trans (by decide)
  rcases h.fault_walk (tableIndex_lt 0 vpn) hpresent hrw hcopy hbit hmem' hr hvpn with
    ⟨-, -, hnew⟩ | ⟨hslot, -⟩
  · exact hnew
  · exact (hslot ⟨hpt, rfl⟩).elim

end Faults

/-! ## Forks -/

section Forks

variable {cfg : DirConfig} {s t : Sys} {r child : Nat}

/-- The pages of parent and child after a fork. -/
theorem Owned.fork_pages (h : Owned cfg s) (hstep : Step cfg s (.fork r child) t) :
    r ∈ s.roots ∧ t.roots = insert child s.roots ∧ ∀ vpn < userPages, ∀ d, d = r ∨ d = child →
      walk t.mem 3 d vpn = (walk s.mem 3 r vpn).map resetEntry := by
  cases hstep with
  | fork hr hfresh hfork =>
      obtain ⟨used, hspec⟩ := mmuNativeDuplicateDir_spec (h.mapPre hr hfresh) hfork
      refine ⟨hr, rfl, fun vpn hvpn d hd => ?_⟩
      rcases hd with rfl | rfl
      · exact hspec.parentWalk vpn hvpn
      · exact h.fork_walk hr hspec hvpn

/-- Right after a fork user mode can read every page. -/
theorem Owned.fork_readable (h : Owned cfg s) (hstep : Step cfg s (.fork r child) t) {vpn w : Nat}
    (hvpn : vpn < userPages) (hwalk : walk s.mem 3 r vpn = some w) : Readable t.mem r vpn := by
  refine ⟨resetEntry w, ?_, isUser_resetEntry w⟩
  rw [(h.fork_pages hstep).2.2 vpn hvpn r (Or.inl rfl), hwalk, Option.map_some]

/-- A fork of a live directory keeps the rights of user mode exactly when all pages of the parent
are user pages that are writable or copy-on-write. -/
theorem fork_keeps_rights_iff {mem : PhysMem} {ops : List Op}
    (hrun : Run (Step cfg) (Sys.init mem) ops s) (hfork : Step cfg s (.fork r child) t) :
    KeepsRights cfg s t r child ↔ ∀ vpn < userPages, ∀ w, walk s.mem 3 r vpn = some w →
      isUser w = true ∧ (isReadwrite w = true ∨ isCow w = true) := by
  have h := run_owned hrun
  have ht := hfork.owned h
  obtain ⟨hr, hroots, hpages⟩ := h.fork_pages hfork
  constructor
  · intro hkeeps vpn hvpn w hw
    have hresets := (hpages vpn hvpn r (Or.inl rfl)).trans (by rw [hw, Option.map_some])
    have huser : isUser w = true := by
      by_contra huser
      refine (hkeeps [] t .nil (by simp) vpn hvpn r (Or.inl rfl)).1 ?_ (h.fork_readable hfork hvpn hw)
      rintro ⟨w', hw', huser'⟩
      obtain rfl := Option.some.inj (hw.symm.trans hw')
      exact huser huser'
    refine ⟨huser, ?_⟩
    by_contra hneither
    rw [not_or] at hneither
    -- the first fault makes the page writable
    obtain ⟨f, hfresh⟩ := exists_fresh cfg (run_finite (hrun.snoc hfork))
    have hr' : r ∈ t.roots := by
      rw [hroots]
      exact Or.inr hr
    obtain ⟨u, hfault, hwritable⟩ := ht.fault_writable hr' hvpn hresets hfresh
    refine (hkeeps [.fault r vpn] u (.snoc .nil hfault) (by simp [Op.IsFault]) vpn hvpn r
      (Or.inl rfl)).2 ?_ ?_ hwritable
    · rintro ⟨w', hw', -, hrw⟩
      obtain rfl := Option.some.inj (hw.symm.trans hw')
      exact hneither.1 hrw
    · rintro ⟨w', hw', hcow⟩
      obtain rfl := Option.some.inj (hw.symm.trans hw')
      exact hneither.2 hcow
  · intro hcond ops' u hrun' hops vpn hvpn d hd
    have hd' : d ∈ t.roots := by
      rw [hroots]
      rcases hd with rfl | rfl
      · exact Or.inr hr
      · exact Or.inl rfl
    -- without rights there was no page, so there is none
    have hnone : walk s.mem 3 r vpn = none → walk u.mem 3 d vpn = none := by
      intro hwalk
      refine ht.faults_unmapped hrun' hops hd' hvpn ?_
      rw [hpages vpn hvpn d hd, hwalk, Option.map_none]
    have hunreadable : walk u.mem 3 d vpn = none → ¬ Readable u.mem d vpn := by
      rintro hwalk ⟨w, hw, -⟩
      rw [hwalk] at hw
      cases hw
    cases hwalk : walk s.mem 3 r vpn with
    | none =>
        refine ⟨fun _ => hunreadable (hnone hwalk), fun _ _ => ?_⟩
        rintro ⟨w, hw, huser, -⟩
        exact hunreadable (hnone hwalk) ⟨w, hw, huser⟩
    | some w =>
        obtain ⟨huser, hrights⟩ := hcond vpn hvpn w hwalk
        refine ⟨fun hread => (hread ⟨w, hwalk, huser⟩).elim, fun hwrite hcow => ?_⟩
        rcases hrights with hrw | hcow'
        · exact (hwrite ⟨w, hwalk, huser, hrw⟩).elim
        · exact (hcow ⟨w, hwalk, hcow'⟩).elim

/-- A new directory and its fork. -/
theorem demo_fork : ∃ s t, Run (Step demoConfig) (Sys.init demoMem) [.build 2048] s ∧
    Step demoConfig s (.fork 2048 (2 ^ 20)) t ∧
    walk s.mem 3 2048 0xfee00 = some (pte 0xfee00 (mmPresent + mmReadwrite)) := by
  obtain ⟨s₁, hstep₁, h₁, hlive₁, hdevice₁, hidle₁⟩ := demo_build
  obtain ⟨s₂, hstep₂, -, -⟩ := exists_fork h₁ (by decide) (by decide) rfl hlive₁
    (demo_supply fun f hf => (hidle₁ f (by omega) (by omega) (by omega)).1)
    (by rw [List.length_range'])
  exact ⟨s₁, s₂, .snoc .nil hstep₁, hstep₂, hdevice₁ 0xfee00 (Or.inl (by decide))⟩

theorem fork_keeps_rights_iff_demo : ∃ s t, Run (Step demoConfig) (Sys.init demoMem) [.build 2048] s ∧
    Step demoConfig s (.fork 2048 (2 ^ 20)) t ∧
    (KeepsRights demoConfig s t 2048 (2 ^ 20) ↔ ∀ vpn < userPages, ∀ w,
      walk s.mem 3 2048 vpn = some w → isUser w = true ∧ (isReadwrite w = true ∨ isCow w = true)) := by
  obtain ⟨s, t, hrun, hfork, -⟩ := demo_fork
  exact ⟨s, t, hrun, hfork, fork_keeps_rights_iff hrun hfork⟩

/-- The fork of a new directory lets user mode read the page of the local APIC. -/
theorem fork_widens_rights : ¬ ∀ (cfg : DirConfig) (mem : PhysMem) (ops : List Op) (s t : Sys)
    (r child : Nat), Run (Step cfg) (Sys.init mem) ops s → Step cfg s (.fork r child) t →
    KeepsRights cfg s t r child := by
  intro hclaim
  obtain ⟨s, t, hrun, hfork, hwalk⟩ := demo_fork
  have hread := (run_owned hrun).fork_readable hfork (show 0xfee00 < userPages by decide) hwalk
  refine (hclaim _ _ _ _ _ _ _ hrun hfork [] t .nil (by simp) 0xfee00 (by decide) 2048
    (Or.inl rfl)).1 ?_ hread
  rintro ⟨w, hw, huser⟩
  obtain rfl := Option.some.inj (hwalk.symm.trans hw)
  exact absurd huser (by decide)

end Forks

end Arch
end Micael
