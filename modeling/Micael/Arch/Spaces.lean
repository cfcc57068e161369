import Micael.Arch.Processes

/-!
# Isolation of processes

Each process sees an address space of its own.  In the abstract system there is nothing but these
spaces: a write changes one word of one of them, a fork makes a copy, and a page fault changes
nothing.  The directories, the sharing of frames and copy-on-write implement it.

Main results:

- Theorem {lit}`step_refines`: every step of the system, but for faults in the kernel's part of the
  address space, is a step of the abstract system.
- Theorem {lit}`run_refines_spaces`: so is every run.
- Theorem {lit}`kernel_fault_leaks`: a fault in the kernel's part can change the memory of another
  process.
-/

namespace Micael
namespace Arch

open Foundation

/-! ## The abstract system -/

/-- An address space: the contents of the pages that are mapped. -/
abbrev Space := Nat → Option (Nat → Nat)

/-- The processes and their address spaces. -/
structure Spaces where
  live : Set Nat
  space : Nat → Space

/-- What a step means for the address spaces.  New pages have any contents. -/
inductive SpaceStep : Spaces → Op → Spaces → Prop
  | build {a : Spaces} {root : Nat} (hnew : root ∉ a.live) (space : Space) :
      SpaceStep a (.build root) ⟨insert root a.live, Function.update a.space root space⟩
  | map {a : Spaces} {r vpn : Nat} (hr : r ∈ a.live) (page : Nat → Nat) :
      SpaceStep a (.map r vpn)
        ⟨a.live, Function.update a.space r (Function.update (a.space r) vpn (some page))⟩
  | fork {a : Spaces} {r child : Nat} (hr : r ∈ a.live) (hnew : child ∉ a.live) :
      SpaceStep a (.fork r child)
        ⟨insert child a.live, Function.update a.space child (a.space r)⟩
  | fault {a : Spaces} {r vpn : Nat} : SpaceStep a (.fault r vpn) a
  | write {a : Spaces} {r vpn i w : Nat} {page : Nat → Nat} (hr : r ∈ a.live)
      (hpage : a.space r vpn = some page) :
      SpaceStep a (.write r vpn i w) ⟨a.live, Function.update a.space r
        (Function.update (a.space r) vpn (some (Function.update page i w)))⟩
  | read {a : Spaces} {r vpn i : Nat} {page : Nat → Nat} (hr : r ∈ a.live)
      (hpage : a.space r vpn = some page) : SpaceStep a (.read r vpn i (page i)) a
  | destroy {a : Spaces} {r : Nat} (hr : r ∈ a.live) :
      SpaceStep a (.destroy r) ⟨a.live \ {r}, a.space⟩

def Spaces.init : Spaces := ⟨∅, fun _ _ => none⟩

/-! ## The address space of a directory -/

/-- The address space that a directory gives its process. -/
def contents (mem : PhysMem) (r : Nat) : Space := fun vpn =>
  if vpn < userPages then (walk mem 3 r vpn).map fun w => mem (pteFrame w) else none

/-- A step that is not a fault in the kernel's part of the address space. -/
def Op.BelowKernel : Op → Prop
  | .fault _ vpn => vpn < userPages
  | _ => True

section Contents

variable {cfg : DirConfig} {s : Sys} {avail : List Nat} {r vpn : Nat} {mem' : PhysMem}

theorem contents_of_walk {mem : PhysMem} {w : Nat} (hvpn : vpn < userPages)
    (hwalk : walk mem 3 r vpn = some w) : contents mem r vpn = some (mem (pteFrame w)) := by
  rw [contents, if_pos hvpn, hwalk, Option.map_some]

/-- An address space is the same if its entries point to the same frames and these are left
alone. -/
theorem contents_congr {mem mem' : PhysMem} {r r' : Nat} (φ : Nat → Nat)
    (hframe : ∀ w, pteFrame (φ w) = pteFrame w)
    (hwalk : ∀ vpn < userPages, walk mem' 3 r' vpn = (walk mem 3 r vpn).map φ)
    (hpage : ∀ vpn < userPages, ∀ w, walk mem 3 r vpn = some w →
      mem' (pteFrame w) = mem (pteFrame w)) : contents mem' r' = contents mem r := by
  funext vpn
  rw [contents, contents]
  by_cases hvpn : vpn < userPages
  · rw [if_pos hvpn, if_pos hvpn, hwalk vpn hvpn]
    cases hw : walk mem 3 r vpn with
    | none => rfl
    | some w =>
        rw [Option.map_some, Option.map_some, Option.map_some, hframe, hpage vpn hvpn w hw]
  · rw [if_neg hvpn, if_neg hvpn]

/-- The address space of a directory whose tables and pages are left alone. -/
theorem Owned.contents_same (h : Owned cfg s) (hr : r ∈ s.roots)
    (htable : ∀ g ∈ tables s.mem 3 r, mem' g = s.mem g)
    (hpage : ∀ vpn < userPages, ∀ w, walk s.mem 3 r vpn = some w →
      mem' (pteFrame w) = s.mem (pteFrame w)) : contents mem' r = contents s.mem r := by
  refine contents_congr id (fun _ => rfl) (fun vpn hvpn => ?_) hpage
  rw [(h.same hr htable).2.2.2.2 vpn hvpn, Option.map_id, id]

/-- A new directory leaves the address spaces alone. -/
theorem Owned.build_contents (h : Owned cfg s) (hfresh : Fresh cfg s avail) {root : Nat} {vm' : Vm}
    (hbuild : mmuNativeBuildDir cfg ⟨s.mem, avail, []⟩ = .ok (root, vm')) :
    root ∉ s.roots ∧ ∀ r ∈ s.roots, contents vm'.mem r = contents s.mem r := by
  obtain ⟨used, hspec⟩ := mmuNativeBuildDir_spec hfresh.nodup hbuild
  have havail : avail = used ++ vm'.avail := hspec.avail
  have hused : used ⊆ avail := fun f hf => havail ▸ List.mem_append_left _ hf
  have hroot : root ∈ used := (hspec.mem_tables root).mp (self_mem_tables _ _ _)
  refine ⟨fun hr => hfresh.not_table (hused hroot) hr (self_mem_tables _ _ _) rfl, fun r hr => ?_⟩
  refine h.contents_same hr (fun g hg => ?_) fun vpn hvpn w hw => ?_
  · exact hspec.outside g fun hg' => hfresh.not_table (hused hg') hr hg rfl
  · exact hspec.outside _ fun hg' => hfresh.not_page (hused hg') hr hvpn hw rfl

/-- Mapping a page changes one page of one address space. -/
theorem Owned.map_contents (h : Owned cfg s) {flags target : Nat} {vm' : Vm} (hr : r ∈ s.roots)
    (hvpn : vpn < userPages) (hflags : flags < 4096) (hsmall : is2mb flags = false)
    (hfresh : Fresh cfg s (target :: avail))
    (hmap : mapPage ⟨s.mem, avail, []⟩ r (target * 4096) (vpn * 4096) flags = .ok vm') :
    (∃ page, contents vm'.mem r = Function.update (contents s.mem r) vpn (some page)) ∧
      ∀ r' ∈ s.roots, r' ≠ r → contents vm'.mem r' = contents s.mem r' := by
  have hfresh' : Fresh cfg s avail := ⟨hfresh.nodup.of_cons,
    fun f hf => hfresh.free f (List.mem_cons_of_mem _ hf),
    fun f hf => hfresh.ordinary f (List.mem_cons_of_mem _ hf)⟩
  have hnumber : vpn * 4096 / 4096 = vpn := Nat.mul_div_cancel _ (by decide)
  obtain ⟨used, hspec⟩ := mapPage_spec (h.mapPre hr hfresh')
    (by rw [hnumber]; exact inRange_of_lt hvpn) hflags hsmall hmap
  rw [hnumber] at hspec
  have havail : avail = used ++ vm'.avail := hspec.avail
  have hused : used ⊆ avail := fun f hf => havail ▸ List.mem_append_left _ hf
  have hpage : ∀ r' ∈ s.roots, ∀ vpn' < userPages, ∀ w, walk s.mem 3 r' vpn' = some w →
      vm'.mem (pteFrame w) = s.mem (pteFrame w) := by
    intro r' hr' vpn' hvpn' w hw
    refine hspec.outside _ (h.page r' hr' vpn' hvpn' w hw r hr) fun hg' => ?_
    exact hfresh'.not_page (hused hg') hr' hvpn' hw rfl
  refine ⟨⟨vm'.mem (pteFrame (pte (target * 4096 / 4096) (flags ||| mmPresent))), ?_⟩,
    fun r' hr' hne => ?_⟩
  · funext vpn'
    by_cases heq : vpn' = vpn
    · rw [heq, Function.update_self]
      exact contents_of_walk hvpn hspec.walk_self
    · rw [Function.update_of_ne heq, contents, contents]
      by_cases hvpn' : vpn' < userPages
      · have hmod : vpn' % 512 ^ (3 + 1) ≠ vpn % 512 ^ (3 + 1) := by
          rwa [Nat.mod_eq_of_lt (lt_of_lt_of_le hvpn' userPages_le),
            Nat.mod_eq_of_lt (lt_of_lt_of_le hvpn userPages_le)]
        rw [if_pos hvpn', if_pos hvpn', hspec.walk_other vpn' (inRange_of_lt hvpn') hmod]
        cases hw : walk s.mem 3 r vpn' with
        | none => rfl
        | some w => rw [Option.map_some, Option.map_some, hpage r hr vpn' hvpn' w hw]
      · rw [if_neg hvpn', if_neg hvpn']
  · refine h.contents_same hr' (fun g hg => ?_) (hpage r' hr')
    refine hspec.outside g (fun hg' => h.disjoint r' hr' r hr hne hg hg') fun hg' => ?_
    exact hfresh'.not_table (hused hg') hr' hg rfl

/-- A fork copies the address space of the parent, entry by entry. -/
theorem Owned.fork_contents (h : Owned cfg s) {child : Nat} {vm' : Vm} (hr : r ∈ s.roots)
    (hfresh : Fresh cfg s avail)
    (hfork : mmuNativeDuplicateDir cfg r ⟨s.mem, avail, []⟩ = .ok (child, vm')) :
    child ∉ s.roots ∧ (∀ vpn < userPages, walk vm'.mem 3 child vpn = walk vm'.mem 3 r vpn) ∧
      contents vm'.mem child = contents s.mem r ∧
      ∀ r' ∈ s.roots, contents vm'.mem r' = contents s.mem r' := by
  obtain ⟨used, hspec⟩ := mmuNativeDuplicateDir_spec (h.mapPre hr hfresh) hfork
  have havail : avail = used ++ vm'.avail := hspec.avail
  have hused : used ⊆ avail := fun f hf => havail ▸ List.mem_append_left _ hf
  have hparent : ∀ vpn < userPages, walk vm'.mem 3 r vpn = (walk s.mem 3 r vpn).map resetEntry :=
    hspec.parentWalk
  have hpage : ∀ r' ∈ s.roots, ∀ vpn' < userPages, ∀ w, walk s.mem 3 r' vpn' = some w →
      vm'.mem (pteFrame w) = s.mem (pteFrame w) := by
    intro r' hr' vpn' hvpn' w hw
    refine hspec.outside _ (h.page r' hr' vpn' hvpn' w hw r hr) fun hg' => ?_
    exact hfresh.not_page (hused hg') hr' hvpn' hw rfl
  refine ⟨fun hr' => ?_, fun vpn hvpn => ?_, ?_, fun r' hr' => ?_⟩
  · have hchild : child ∈ used := hspec.childTables child (self_mem_tables _ _ _)
    exact hfresh.not_table (hused hchild) hr' (self_mem_tables _ _ _) rfl
  · rw [h.fork_walk hr hspec hvpn, hparent vpn hvpn]
  · exact contents_congr resetEntry pteFrame_resetEntry
      (fun vpn hvpn => h.fork_walk hr hspec hvpn) (hpage r hr)
  · by_cases hne : r' = r
    · rw [hne]
      exact contents_congr resetEntry pteFrame_resetEntry hparent (hpage r hr)
    · refine h.contents_same hr' (fun g hg => ?_) (hpage r' hr')
      refine hspec.outside g (fun hg' => h.disjoint r' hr' r hr hne hg hg') fun hg' => ?_
      exact hfresh.not_table (hused hg') hr' hg rfl

/-- Below the kernel's part, the handler copies the page that the entry points to. -/
theorem supervisorFrame_eq {mem : PhysMem} {pt : Nat} (hupper : UpperOk mem 3 r)
    (hvpn : vpn < userPages) (hpt : ptFrame mem 3 r vpn = some pt) :
    supervisorFrame mem r vpn = pteFrame (mem pt (tableIndex 0 vpn)) := by
  have hrange : ∀ k, k ≠ 3 → InRange k vpn := fun k hk => inRange_of_ne hk
  rw [ptFrame] at hpt
  split at hpt
  · next hp₃ =>
      rw [ptFrame] at hpt
      split at hpt
      · next hp₂ =>
          rw [ptFrame] at hpt
          split at hpt
          · next hp₁ =>
              have hbelow₂ := (hupper _ (inRange_of_lt hvpn) hp₃).2.2
              have hbelow₁ := (hbelow₂ _ (hrange 2 (by decide)) hp₂).2.2
              have hsmall := (hbelow₁ _ (hrange 1 (by decide)) hp₁).2.1
              rw [ptFrame, Option.some.injEq] at hpt
              rw [supervisorFrame, hsmall, if_neg Bool.false_ne_true, hpt]
          · cases hpt
      · cases hpt
  · cases hpt

/-- A fault below the kernel's part changes no address space. -/
theorem Owned.fault_contents (h : Owned cfg s) {vm' : Vm} (hr : r ∈ s.roots)
    (hvpn : vpn < userPages) (hfresh : Fresh cfg s avail)
    (hfault : mmuPfHandler r vpn ⟨s.mem, avail, []⟩ = .ok vm') :
    ∀ r' ∈ s.roots, contents vm'.mem r' = contents s.mem r' := by
  obtain ⟨pt, copy, rest, rfl, -, -, hpt, hpresent, -, hrw, hmem'⟩ := mmuPfHandler_eq_ok hfault
  have hcopy : ∀ r ∈ s.roots, copy ∉ tables s.mem 3 r := fun r hr hmem =>
    hfresh.free copy List.mem_cons_self r hr (Or.inl hmem)
  have hbit : isPresent (pte copy (mmPresent + mmUser + mmReadwrite)) = true :=
    (testBit_pte (by decide) (by decide)).trans (by decide)
  have htable : pt ∈ tables s.mem 3 r := ptFrame_mem_tables hpt (inRange_of_lt hvpn) (le_refl 3)
  have hold : walk s.mem 3 r vpn = some (s.mem pt (tableIndex 0 vpn)) := by
    rw [walk_eq_ptFrame, hpt, Option.bind_some, if_pos hpresent]
  -- pages that were there are in other frames
  have hpage : ∀ r' ∈ s.roots, ∀ v < userPages, ∀ w, walk s.mem 3 r' v = some w →
      vm'.mem (pteFrame w) = s.mem (pteFrame w) := by
    intro r' hr' v hv w hw
    have hne : pteFrame w ≠ pt := fun heq => h.page r' hr' v hv w hw r hr (heq ▸ htable)
    have hne' : pteFrame w ≠ copy := hfresh.not_page List.mem_cons_self hr' hv hw
    rw [hmem', set_of_ne_frame _ _ _ hne, Function.update_of_ne hne']
  intro r' hr'
  funext v
  by_cases hv : v < userPages
  · rcases h.fault_walk (tableIndex_lt 0 vpn) hpresent hrw hcopy hbit hmem' hr' hv with
      ⟨hpt', hindex, hnew⟩ | ⟨-, hsame⟩
    · obtain ⟨rfl, rfl⟩ := h.slot_once hr hvpn hpt hr' hv hpt' hindex
      have hframe : pteFrame (pte copy (mmPresent + mmUser + mmReadwrite)) = copy :=
        pteFrame_pte (by decide)
      have hne : copy ≠ pt := fun heq => hcopy r' hr' (heq ▸ htable)
      rw [contents_of_walk hv hnew, contents_of_walk hv hold, hframe, hmem',
        set_of_ne_frame _ _ _ hne, Function.update_self, supervisorFrame_eq (h.upper r' hr') hv hpt]
    · rw [contents, contents, if_pos hv, if_pos hv, hsame]
      cases hw : walk s.mem 3 r' v with
      | none => rfl
      | some w => rw [Option.map_some, Option.map_some, hpage r' hr' v hv w hw]
  · rw [contents, contents, if_neg hv, if_neg hv]

/-- A write of a process changes one word of its own address space. -/
theorem Owned.write_contents (h : Owned cfg s) {i w entry : Nat} (hr : r ∈ s.roots)
    (hvpn : vpn < userPages) (hwalk : walk s.mem 3 r vpn = some entry)
    (huser : isUser entry = true) (hrw : isReadwrite entry = true) :
    contents (s.mem.set (pteFrame entry) i w) r = Function.update (contents s.mem r) vpn
        (some (Function.update (s.mem (pteFrame entry)) i w)) ∧
      ∀ r' ∈ s.roots, r' ≠ r →
        contents (s.mem.set (pteFrame entry) i w) r' = contents s.mem r' := by
  have hcow := h.cow r hr vpn hvpn entry hwalk hrw
  have honce := h.privateOnce r hr vpn hvpn entry hwalk huser hcow
  have htable : ∀ r' ∈ s.roots, ∀ g ∈ tables s.mem 3 r',
      s.mem.set (pteFrame entry) i w g = s.mem g := by
    intro r' hr' g hg
    apply set_of_ne_frame
    rintro rfl
    exact h.page r hr vpn hvpn entry hwalk r' hr' hg
  -- the frame of any other page is another frame
  have hpage : ∀ r' ∈ s.roots, ∀ v < userPages, ¬ (r' = r ∧ v = vpn) → ∀ w',
      walk s.mem 3 r' v = some w' →
      s.mem.set (pteFrame entry) i w (pteFrame w') = s.mem (pteFrame w') := by
    intro r' hr' v hv hne w' hw'
    apply set_of_ne_frame
    exact fun heq => hne (honce r' hr' v hv w' hw' heq)
  refine ⟨?_, fun r' hr' hne => ?_⟩
  · have hsame := (h.same hr (htable r hr)).2.2.2.2
    funext v
    by_cases heq : v = vpn
    · rw [heq, Function.update_self, contents_of_walk hvpn ((hsame vpn hvpn).trans hwalk),
        PhysMem.set, Function.update_self]
    · rw [Function.update_of_ne heq, contents, contents]
      by_cases hv : v < userPages
      · rw [if_pos hv, if_pos hv, hsame v hv]
        cases hw' : walk s.mem 3 r v with
        | none => rfl
        | some w' =>
            rw [Option.map_some, Option.map_some, hpage r hr v hv (fun hboth => heq hboth.2) w' hw']
      · rw [if_neg hv, if_neg hv]
  · exact h.contents_same hr' (htable r' hr') fun v hv w' hw' =>
      hpage r' hr' v hv (fun hboth => hne hboth.1) w' hw'

/-- The teardown of a directory leaves the other address spaces alone. -/
theorem Owned.destroy_contents (h : Owned cfg s) (hr : r ∈ s.roots) {vm' : Vm}
    (hdestroy : mmuNativeDestroyDir r ⟨s.mem, [], []⟩ = vm') {r' : Nat} (hr' : r' ∈ s.roots)
    (hne : r' ≠ r) : contents vm'.mem r' = contents s.mem r' := by
  refine h.contents_same hr' (h.destroy_same hr hdestroy hr' hne) fun v hv w hw => ?_
  apply (h.destroy_eq hr hdestroy).2.2
  intro hmem
  exact (h.freed_exclusive hr (List.mem_append_left _ hmem)).2.2 r' hr' hne
    (Or.inr ⟨v, hv, w, hw, rfl⟩)

end Contents

/-! ## Refinement -/

section Refinement

variable {cfg : DirConfig} {s t : Sys} {op : Op}

/-- The directories of a state give its processes their address spaces. -/
structure Implements (cfg : DirConfig) (s : Sys) (a : Spaces) : Prop where
  owned : Owned cfg s
  live : a.live = s.roots
  space : ∀ r ∈ s.roots, a.space r = contents s.mem r

/-- A step that leaves all address spaces but one alone. -/
theorem Implements.update {a : Spaces} (h : Implements cfg s a) (ht : Owned cfg t) {r₁ : Nat}
    {space : Space} (hlive : ∀ r ∈ t.roots, r ≠ r₁ → r ∈ s.roots)
    (hsame : ∀ r ∈ s.roots, r ≠ r₁ → contents t.mem r = contents s.mem r)
    (hspace : contents t.mem r₁ = space) {live : Set Nat} (hroots : live = t.roots) :
    Implements cfg t ⟨live, Function.update a.space r₁ space⟩ := by
  refine ⟨ht, hroots, fun r hr => ?_⟩
  by_cases hne : r = r₁
  · rw [hne, hspace]
    exact Function.update_self _ _ _
  · rw [hsame r (hlive r hr hne) hne, ← h.space r (hlive r hr hne)]
    exact Function.update_of_ne hne _ _

/-- Every step of the system is a step of the abstract one. -/
theorem step_refines {a : Spaces} (h : Implements cfg s a) (hstep : Step cfg s op t)
    (hbelow : op.BelowKernel) : ∃ b, SpaceStep a op b ∧ Implements cfg t b := by
  have ht := hstep.owned h.owned
  cases hstep with
  | build hfresh hbuild =>
      obtain ⟨hnew, hsame⟩ := h.owned.build_contents hfresh hbuild
      refine ⟨_, .build (h.live ▸ hnew) _, h.update ht ?_ (fun r hr _ => hsame r hr) rfl ?_⟩
      · exact fun r hr hne => hr.resolve_left hne
      · rw [h.live]
  | map hr hvpn hflags _ _ hsmall hfresh hmap =>
      obtain ⟨⟨page, hpage⟩, hsame⟩ := h.owned.map_contents hr hvpn hflags hsmall hfresh hmap
      refine ⟨_, .map (h.live ▸ hr) page, h.update ht (fun r hr _ => hr) hsame ?_ h.live⟩
      rw [hpage, h.space _ hr]
  | fork hr hfresh hfork =>
      obtain ⟨hnew, -, hchild, hsame⟩ := h.owned.fork_contents hr hfresh hfork
      refine ⟨_, .fork (h.live ▸ hr) (h.live ▸ hnew), h.update ht ?_ (fun r hr _ => hsame r hr) ?_ ?_⟩
      · exact fun r hr hne => hr.resolve_left hne
      · rw [hchild, h.space _ hr]
      · rw [h.live]
  | fault hr hfresh hfault =>
      have hsame := h.owned.fault_contents hr hbelow hfresh hfault
      exact ⟨a, .fault, ht, h.live, fun r hr => (h.space r hr).trans (hsame r hr).symm⟩
  | write hr hvpn _ hwalk huser hrw =>
      obtain ⟨hself, hsame⟩ := h.owned.write_contents hr hvpn hwalk huser hrw
      have hpage := (congrFun (h.space _ hr) _).trans (contents_of_walk hvpn hwalk)
      refine ⟨_, .write (h.live ▸ hr) hpage, h.update ht (fun r hr _ => hr) hsame ?_ h.live⟩
      rw [hself, h.space _ hr]
  | read hr hvpn _ hwalk _ =>
      have hpage := (congrFun (h.space _ hr) _).trans (contents_of_walk hvpn hwalk)
      exact ⟨a, .read (h.live ▸ hr) hpage, h⟩
  | destroy hr hdestroy =>
      refine ⟨_, .destroy (h.live ▸ hr), ht, ?_, fun r hr' => ?_⟩
      · rw [h.live]
      · rw [h.space r hr'.1, h.owned.destroy_contents hr hdestroy hr'.1 hr'.2]

theorem implements_init (cfg : DirConfig) (mem : PhysMem) :
    Implements cfg (Sys.init mem) Spaces.init :=
  ⟨owned_init cfg mem, rfl, fun _ hr => hr.elim⟩

/-- In every run whose faults are below the kernel's part of the address space, the processes have
independent address spaces: the run is one of the abstract system, whose spaces are those of the
directories at its end.  Right after a fork both directories translate the same addresses. -/
theorem run_refines_spaces {mem : PhysMem} {ops : List Op}
    (hrun : Run (Step cfg) (Sys.init mem) ops t) (hbelow : ∀ op ∈ ops, op.BelowKernel) :
    (∃ b, Run SpaceStep Spaces.init ops b ∧ b.live = t.roots ∧
      ∀ r ∈ t.roots, b.space r = contents t.mem r) ∧
    ∀ r child, ops.getLast? = some (.fork r child) →
      ∀ vpn < userPages, walk t.mem 3 child vpn = walk t.mem 3 r vpn := by
  constructor
  · obtain ⟨b, hb, himp⟩ := (hrun.restrict hbelow).simulation (Implements cfg)
      (fun s op t a h hstep => step_refines h hstep.1 hstep.2) (implements_init cfg mem)
    exact ⟨b, hb, himp.live, himp.space⟩
  · intro r child hlast
    cases hrun with
    | nil => cases hlast
    | snoc hfirst hstep =>
        rw [List.getLast?_concat, Option.some.injEq] at hlast
        subst hlast
        cases hstep with
        | fork hr hfresh hfork => exact ((run_owned hfirst).fork_contents hr hfresh hfork).2.1

end Refinement

/-! ## Faults in the kernel's part -/

/-- The page of the kernel's mapping whose fault makes the handler use word 7 of frame 1024 as an
entry of a page table. -/
def kernelPage : Nat := 511 * 512 ^ 3 + 510 * 512 ^ 2 + 2 * 512 + 7

/-- A process stores a word and forks. -/
theorem run_refines_spaces_demo : ∃ ops t, Run (Step demoConfig) (Sys.init demoMem) ops t ∧
    ops = [.build 2048, .map 2048 16, .write 2048 16 7 42, .fork 2048 (2 ^ 20)] ∧
    (∃ b, Run SpaceStep Spaces.init ops b ∧ b.live = t.roots ∧
      ∀ r ∈ t.roots, b.space r = contents t.mem r) ∧
    ∀ vpn < userPages, walk t.mem 3 (2 ^ 20) vpn = walk t.mem 3 2048 vpn := by
  obtain ⟨t, hrun, -⟩ := demo_forked
  obtain ⟨hspaces, hsame⟩ := run_refines_spaces hrun (by simp [Op.BelowKernel])
  exact ⟨_, t, hrun, rfl, hspaces, hsame 2048 (2 ^ 20) rfl⟩

/-- The walk of {lit}`kernelPage` in a directory that has the kernel's entry. -/
theorem ptFrame_kernelPage {mem : PhysMem} {r : Nat} (hkernel : mem r 511 = pte 300 3)
    (hpdpt : mem 300 = demoMem 300) (hpd : mem 301 = demoMem 301) :
    ptFrame mem 3 r kernelPage = some 1024 := by
  have h₃ : tableIndex (2 + 1) kernelPage = 511 := by decide
  have h₂ : tableIndex (1 + 1) kernelPage = 510 := by decide
  have h₁ : tableIndex (0 + 1) kernelPage = 2 := by decide
  have hw₂ : mem 300 510 = pte 301 3 := by
    rw [hpdpt]
    rfl
  have hw₁ : mem 301 2 = pte 1024 131 := by
    rw [hpd]
    rfl
  rw [ptFrame, h₃, hkernel, if_pos (by decide), ptFrame, h₂, pteFrame_pte (by decide), hw₂,
    if_pos (by decide), ptFrame, h₁, pteFrame_pte (by decide), hw₁, if_pos (by decide), ptFrame,
    pteFrame_pte (by decide)]

/-- The page fault at {lit}`kernelPage` stores to word 7 of frame 1024 if it looks like an entry of a
forked page. -/
theorem mmuPfHandler_kernelPage {mem : PhysMem} {r : Nat} (hkernel : mem r 511 = pte 300 3)
    (hpdpt : mem 300 = demoMem 300) (hpd : mem 301 = demoMem 301) (hword : mem 1024 7 = 0x201)
    (copy : Nat) : ∃ vm', mmuPfHandler r kernelPage ⟨mem, [copy], []⟩ = .ok vm' ∧
      vm'.mem 1024 7 = pte copy (mmPresent + mmUser + mmReadwrite) := by
  have hindex : tableIndex 0 kernelPage = 7 := by decide
  rw [mmuPfHandler]
  dsimp only
  rw [ptFrame_kernelPage hkernel hpdpt hpd, hindex]
  dsimp only
  rw [hword, if_neg (by decide), if_pos (by decide)]
  refine ⟨_, rfl, ?_⟩
  dsimp only
  exact set_self _ _ _ _

/-- A process that accesses the kernel's part of the address space can change a word of another
process: the handler takes the 2 MiB page of the kernel for a page table. -/
theorem kernel_fault_leaks : ¬ ∀ (cfg : DirConfig) (mem : PhysMem) (ops : List Op) (t : Sys),
    Run (Step cfg) (Sys.init mem) ops t → ∃ b, Run SpaceStep Spaces.init ops b := by
  intro hclaim
  obtain ⟨s₁, hstep₁, h₁, hlive₁, -, hidle₁⟩ := demo_build
  -- another directory, its frames from 3072 on
  obtain ⟨s₂, hstep₂, h₂, hroots₂, -, hnext₂⟩ := exists_build h₁ (by decide) (by decide) rfl
    (fresh_of_idle (show (3072 :: List.range' 3073 7).Nodup by decide)
      (fun f hf => (hidle₁ f (by simp [List.mem_range'_1] at hf; omega)
        (by simp [List.mem_range'_1] at hf; omega)
        (by simp [List.mem_range'_1] at hf; omega)).1) (by decide)) (by decide)
  have hidle₂ : ∀ f < 0xfec00, (f < 2048 ∨ 3080 ≤ f) →
      Idle demoConfig s₂ f ∧ s₂.mem f = demoMem f := by
    intro f hf hout
    obtain ⟨hidle, hmem⟩ := hidle₁ f (by omega) (by omega) (by omega)
    obtain ⟨hidle', hmem'⟩ := hnext₂ f hidle (by simp [List.mem_range'_1]; omega)
    exact ⟨hidle', hmem'.trans hmem⟩
  have hlive₂ : 2048 ∈ s₂.roots ∧ 3072 ∈ s₂.roots := by
    rw [hroots₂]
    exact ⟨Or.inr hlive₁, Or.inl rfl⟩
  -- a page of the second one, in frame 1024
  obtain ⟨s₃, hstep₃, h₃, hroots₃, hwalk₃, hnext₃⟩ := exists_map h₂ hlive₂.2
    (show 16 < userPages by decide) (show 7 < 4096 by decide) (by decide) (by decide) (by decide)
    (fresh_of_idle (show (1024 :: List.range' 4096 3).Nodup by decide)
      (fun f hf => (hidle₂ f (by simp [List.mem_range'_1] at hf; omega)
        (by simp [List.mem_range'_1] at hf; omega)).1) (by decide)) (by decide)
  have hidle₃ : ∀ f < 0xfec00, (f < 1024 ∨ 4099 ≤ f) →
      Idle demoConfig s₃ f ∧ s₃.mem f = demoMem f := by
    intro f hf hout
    obtain ⟨hidle, hmem⟩ := hidle₂ f hf (by omega)
    obtain ⟨hidle', hmem'⟩ := hnext₃ f hidle (by simp [List.mem_range'_1]; omega)
    exact ⟨hidle', hmem'.trans hmem⟩
  have hlive₃ : 2048 ∈ s₃.roots ∧ 3072 ∈ s₃.roots := by
    rw [hroots₃]
    exact hlive₂
  -- its process stores a word
  have hentry : pteFrame (pte 1024 (7 ||| mmPresent)) = 1024 := by decide
  have hwrite := h₃.write (i := 7) (w := 0x201) (fresh_of_idle (List.nodup_singleton 5120)
    (fun f hf => (hidle₃ f (by simp at hf; omega) (by simp at hf; omega)).1) (by decide)) hlive₃.2
    (show 16 < userPages by decide) hwalk₃
  have hstep₄ : Step demoConfig s₃ (.write 3072 16 7 0x201)
      { s₃ with mem := s₃.mem.set (pteFrame (pte 1024 (7 ||| mmPresent))) 7 0x201 } :=
    .write hlive₃.2 (by decide) (by decide) hwalk₃ (by decide) (by decide)
  rw [hentry] at hwrite hstep₄
  generalize hs₄ : ({ s₃ with mem := s₃.mem.set 1024 7 0x201 } : Sys) = s₄ at hwrite hstep₄
  have hmem₄ : s₄.mem = s₃.mem.set 1024 7 0x201 := by rw [← hs₄]
  have hlive₄ : 2048 ∈ s₄.roots ∧ 3072 ∈ s₄.roots := by
    rw [← hs₄]
    exact hlive₃
  have h₄ := hstep₄.owned h₃
  have hsame₄ : ∀ g ∈ tables s₃.mem 3 3072, s₄.mem g = s₃.mem g := by
    intro g hg
    rw [hmem₄]
    apply set_of_ne_frame
    rintro rfl
    exact h₃.page 3072 hlive₃.2 16 (by decide) _ hwalk₃ 3072 hlive₃.2 (hentry ▸ hg)
  have hwalk₄ : walk s₄.mem 3 3072 16 = some (pte 1024 (7 ||| mmPresent)) :=
    ((h₃.same hlive₃.2 hsame₄).2.2.2.2 16 (by decide)).trans hwalk₃
  have hlow : ∀ f < 1024, s₄.mem f = demoMem f := by
    intro f hf
    rw [hmem₄, set_of_ne_frame _ _ _ (by omega), (hidle₃ f (by omega) (by omega)).2]
  have hword₄ : s₄.mem 1024 7 = 0x201 := by rw [hmem₄, set_self]
  have hkernel₄ : s₄.mem 2048 511 = pte 300 3 := h₄.kernel 2048 hlive₄.1
  -- the other process touches the kernel's page
  obtain ⟨vm', hfault, hword⟩ := mmuPfHandler_kernelPage hkernel₄ (hlow 300 (by decide))
    (hlow 301 (by decide)) hword₄ 5120
  have hstep₅ := Step.fault hlive₄.1 hwrite.fresh_rest hfault
  have hwalk₅ : walk vm'.mem 3 3072 16 = some (pte 1024 (7 ||| mmPresent)) := by
    obtain ⟨pt, copy, rest, havail, -, -, hpt, hpresent, -, hrw, hmem'⟩ := mmuPfHandler_eq_ok hfault
    have hcopy : ∀ r ∈ s₄.roots, copy ∉ tables s₄.mem 3 r := by
      intro r hr hmem
      refine hwrite.fresh_rest.free copy ?_ r hr (Or.inl hmem)
      rw [havail]
      exact List.mem_cons_self
    rcases h₄.fault_walk (tableIndex_lt 0 kernelPage) hpresent hrw hcopy
      ((testBit_pte (by decide) (by decide)).trans (by decide)) hmem' hlive₄.2
      (show 16 < userPages by decide) with ⟨hpt', -, -⟩ | ⟨-, hsame⟩
    · rw [ptFrame_kernelPage hkernel₄ (hlow 300 (by decide)) (hlow 301 (by decide)),
        Option.some.injEq] at hpt
      subst hpt
      have hmem := ptFrame_mem_tables hpt' (inRange_of_lt (by decide)) (le_refl 3)
      exact (h₄.page 3072 hlive₄.2 16 (by decide) _ hwalk₄ 3072 hlive₄.2 (hentry ▸ hmem)).elim
    · exact hsame.trans hwalk₄
  generalize hs₅ : (⟨vm'.mem, s₄.roots, s₄.alloc ∪ taken [5120] vm'.avail⟩ : Sys) = s₅ at hstep₅
  have hmem₅ : s₅.mem = vm'.mem := by rw [← hs₅]
  have hlive₅ : 3072 ∈ s₅.roots := by
    rw [← hs₅]
    exact hlive₄.2
  have hstep₆ : Step demoConfig s₅
      (.read 3072 16 7 (s₅.mem (pteFrame (pte 1024 (7 ||| mmPresent))) 7)) s₅ :=
    .read hlive₅ (by decide) (by decide) (hmem₅ ▸ hwalk₅) (by decide)
  rw [hentry, hmem₅] at hstep₆
  -- the value that it reads back is not the one it stored
  obtain ⟨b, hb⟩ := hclaim _ _ _ _ (.snoc (.snoc (.snoc (.snoc (.snoc (.snoc .nil hstep₁) hstep₂)
    hstep₃) hstep₄) hstep₅) hstep₆)
  obtain ⟨b₅, hb, hread⟩ := hb.of_concat
  obtain ⟨b₄, hb, hfault'⟩ := hb.of_concat
  obtain ⟨b₃, -, hwrite'⟩ := hb.of_concat
  cases hfault'
  cases hwrite' with
  | write hr hpage =>
      generalize hv : vm'.mem 1024 7 = v at hread
      cases hread with
      | read hr' hpage' =>
          simp only [Function.update_self, Option.some.injEq] at hpage'
          subst hpage'
          rw [Function.update_self] at hv
          rw [hv] at hword
          exact absurd hword (by decide)

end Arch
end Micael
