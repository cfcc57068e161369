import Micael.Arch.Destroy
import Micael.Arch.Duplicate
import Micael.Foundation.Run

/-!
# Address spaces of processes

The directories of all processes share physical memory.  A step of the system builds, extends,
forks or destroys a directory, handles a page fault, or is an access of a process to its own
memory.  Each step gets frames from the allocator; all that is assumed of them is that no live
directory refers to them and that they are ordinary memory.

Main results:

- Theorem {lit}`Change.owned`: what a step has to satisfy so that every private page keeps a frame
  of its own.
- Theorem {lit}`Step.owned`: every step of the system does.
- Theorem {lit}`run_owned`: ownership holds in every state reached.
-/

namespace Micael
namespace Arch

open Foundation

/-- The directory `r` refers to a frame, as a table or as a page. -/
def Refers (mem : PhysMem) (r f : Nat) : Prop :=
  f ∈ tables mem 3 r ∨ ∃ vpn < userPages, ∃ w, walk mem 3 r vpn = some w ∧ pteFrame w = f

/-- Frames that the allocator does not manage: the devices, and the kernel's own tables. -/
def DirConfig.Reserved (cfg : DirConfig) (f : Nat) : Prop :=
  cfg.Device f ∨ f = pteFrame cfg.kernelEntry

/-- Memory, the live directories, and the frames that were allocated and not freed since. -/
structure Sys where
  mem : PhysMem
  roots : Set Nat
  alloc : Set Nat

/-- Frames that the allocator may return. -/
structure Fresh (cfg : DirConfig) (s : Sys) (avail : List Nat) : Prop where
  nodup : avail.Nodup
  free : ∀ f ∈ avail, ∀ r ∈ s.roots, ¬ Refers s.mem r f
  ordinary : ∀ f ∈ avail, ¬ cfg.Reserved f

/-- The frames that a call took from the allocator. -/
def taken (avail avail' : List Nat) : Set Nat := {f | f ∈ avail ∧ f ∉ avail'}

/-- The steps of the system. -/
inductive Op where
  | build (root : Nat)
  | map (root vpn : Nat)
  | fork (parent child : Nat)
  | fault (root vpn : Nat)
  | write (root vpn i w : Nat)
  | read (root vpn i w : Nat)
  | destroy (root : Nat)

/-- One step.  A process may write a page whose entry has `MM_USER` and `MM_READWRITE`, and read
one that has `MM_USER`; the entries above are not checked, so that processes can do at least what
the processor allows. -/
inductive Step (cfg : DirConfig) : Sys → Op → Sys → Prop
  | build {s : Sys} {avail : List Nat} {root : Nat} {vm' : Vm} (hfresh : Fresh cfg s avail)
      (hbuild : mmuNativeBuildDir cfg ⟨s.mem, avail, []⟩ = .ok (root, vm')) :
      Step cfg s (.build root) ⟨vm'.mem, insert root s.roots, s.alloc ∪ taken avail vm'.avail⟩
  | map {s : Sys} {avail : List Nat} {r vpn flags target : Nat} {vm' : Vm} (hr : r ∈ s.roots)
      (hvpn : vpn < userPages) (hflags : flags < 4096) (huser : isUser flags = true)
      (hcow : isCow flags = false) (hsmall : is2mb flags = false)
      (hfresh : Fresh cfg s (target :: avail))
      (hmap : mapPage ⟨s.mem, avail, []⟩ r (target * 4096) (vpn * 4096) flags = .ok vm') :
      Step cfg s (.map r vpn) ⟨vm'.mem, s.roots, s.alloc ∪ taken (target :: avail) vm'.avail⟩
  | fork {s : Sys} {avail : List Nat} {r child : Nat} {vm' : Vm} (hr : r ∈ s.roots)
      (hfresh : Fresh cfg s avail)
      (hfork : mmuNativeDuplicateDir cfg r ⟨s.mem, avail, []⟩ = .ok (child, vm')) :
      Step cfg s (.fork r child) ⟨vm'.mem, insert child s.roots, s.alloc ∪ taken avail vm'.avail⟩
  | fault {s : Sys} {avail : List Nat} {r vpn : Nat} {vm' : Vm} (hr : r ∈ s.roots)
      (hfresh : Fresh cfg s avail) (hfault : mmuPfHandler r vpn ⟨s.mem, avail, []⟩ = .ok vm') :
      Step cfg s (.fault r vpn) ⟨vm'.mem, s.roots, s.alloc ∪ taken avail vm'.avail⟩
  | write {s : Sys} {r vpn i w entry : Nat} (hr : r ∈ s.roots) (hvpn : vpn < userPages)
      (hi : i < 512) (hwalk : walk s.mem 3 r vpn = some entry) (huser : isUser entry = true)
      (hrw : isReadwrite entry = true) :
      Step cfg s (.write r vpn i w) { s with mem := s.mem.set (pteFrame entry) i w }
  | read {s : Sys} {r vpn i entry : Nat} (hr : r ∈ s.roots) (hvpn : vpn < userPages)
      (hi : i < 512) (hwalk : walk s.mem 3 r vpn = some entry) (huser : isUser entry = true) :
      Step cfg s (.read r vpn i (s.mem (pteFrame entry) i)) s
  | destroy {s : Sys} {r : Nat} {vm' : Vm} (hr : r ∈ s.roots)
      (hdestroy : mmuNativeDestroyDir r ⟨s.mem, [], []⟩ = vm') :
      Step cfg s (.destroy r) ⟨vm'.mem, s.roots \ {r}, s.alloc \ {f | f ∈ vm'.freed}⟩

/-- The state before the first process. -/
def Sys.init (mem : PhysMem) : Sys := ⟨mem, ∅, ∅⟩

/-! ## Ownership -/

/-- The invariant of the system: tables belong to one directory, pages are not tables, and a
private page has a frame that no other page has. -/
structure Owned (cfg : DirConfig) (s : Sys) : Prop where
  nodup : ∀ r ∈ s.roots, (tables s.mem 3 r).Nodup
  disjoint : ∀ r ∈ s.roots, ∀ r' ∈ s.roots, r ≠ r' →
    List.Disjoint (tables s.mem 3 r) (tables s.mem 3 r')
  upper : ∀ r ∈ s.roots, UpperOk s.mem 3 r
  kernel : ∀ r ∈ s.roots, s.mem r 511 = cfg.kernelEntry
  table : ∀ r ∈ s.roots, ∀ g ∈ tables s.mem 3 r, g ∈ s.alloc ∧ ¬ cfg.Reserved g
  page : ∀ r ∈ s.roots, ∀ vpn < userPages, ∀ w, walk s.mem 3 r vpn = some w →
    ∀ r' ∈ s.roots, pteFrame w ∉ tables s.mem 3 r'
  cow : ∀ r ∈ s.roots, ∀ vpn < userPages, ∀ w, walk s.mem 3 r vpn = some w →
    isReadwrite w = true → isCow w = false
  privateAlloc : ∀ r ∈ s.roots, ∀ vpn < userPages, ∀ w, walk s.mem 3 r vpn = some w →
    isUser w = true → isCow w = false → pteFrame w ∈ s.alloc ∧ ¬ cfg.Reserved (pteFrame w)
  privateOnce : ∀ r ∈ s.roots, ∀ vpn < userPages, ∀ w, walk s.mem 3 r vpn = some w →
    isUser w = true → isCow w = false →
    ∀ r' ∈ s.roots, ∀ vpn' < userPages, ∀ w', walk s.mem 3 r' vpn' = some w' →
      pteFrame w' = pteFrame w → r' = r ∧ vpn' = vpn
  device : ∀ r ∈ s.roots, ∀ vpn, cfg.Device vpn → (walk s.mem 3 r vpn).isSome

/-- Where an entry of a page after a step comes from: it was there before; it was reset by a fork,
like the entry it is a copy of; it is the new page, in a frame that was free; or it maps a device
for the kernel. -/
inductive Origin (cfg : DirConfig) (s s' : Sys) (free used rest : List Nat)
    (r₁ vpn₁ r vpn w : Nat) : Prop
  | old (hr : r ∈ s.roots) (hwalk : walk s.mem 3 r vpn = some w)
  | reset (r₀ w₀ : Nat) (hr : r₀ ∈ s.roots) (hwalk : walk s.mem 3 r₀ vpn = some w₀)
      (hw : w = resetEntry w₀)
      (hparent : ∀ w₁, walk s'.mem 3 r₀ vpn = some w₁ → isCow w₁ = true)
  | new (hr : r = r₁) (hvpn : vpn = vpn₁) (hfree : pteFrame w ∈ free) (hused : pteFrame w ∉ used)
      (hrest : pteFrame w ∉ rest) (hcow : isCow w = false)
  | device (hframe : cfg.Device (pteFrame w)) (huser : isUser w = false) (hcow : isCow w = false)

/-- What a step may do.  The tables and the page that are new are in frames of the list `free`, the
tables in the part `used` of it; the frames `rest` are left over. -/
structure Change (cfg : DirConfig) (s s' : Sys) (free used rest : List Nat) (r₁ vpn₁ : Nat) :
    Prop where
  fresh : Fresh cfg s free
  usedFree : used ⊆ free
  restFree : rest ⊆ free
  restNodup : rest.Nodup
  apart : ∀ f ∈ rest, f ∉ used
  nodup : ∀ r ∈ s'.roots, (tables s'.mem 3 r).Nodup
  upper : ∀ r ∈ s'.roots, UpperOk s'.mem 3 r
  kernel : ∀ r ∈ s'.roots, s'.mem r 511 = cfg.kernelEntry
  table : ∀ r ∈ s'.roots, ∀ g ∈ tables s'.mem 3 r,
    (r ∈ s.roots ∧ g ∈ tables s.mem 3 r) ∨ (r = r₁ ∧ g ∈ used)
  origin : ∀ r ∈ s'.roots, ∀ vpn < userPages, ∀ w, walk s'.mem 3 r vpn = some w →
    Origin cfg s s' free used rest r₁ vpn₁ r vpn w
  alloc : ∀ r ∈ s'.roots, ∀ g ∈ tables s'.mem 3 r, g ∈ s'.alloc
  privateAlloc : ∀ r ∈ s'.roots, ∀ vpn < userPages, ∀ w, walk s'.mem 3 r vpn = some w →
    isUser w = true → isCow w = false → pteFrame w ∈ s'.alloc
  device : ∀ r ∈ s'.roots, ∀ vpn, cfg.Device vpn → (walk s'.mem 3 r vpn).isSome

/-- The part of a change that one directory sees. -/
structure DirChange (cfg : DirConfig) (s s' : Sys) (free used rest : List Nat) (r₁ vpn₁ r : Nat) :
    Prop where
  nodup : (tables s'.mem 3 r).Nodup
  upper : UpperOk s'.mem 3 r
  kernel : s'.mem r 511 = cfg.kernelEntry
  table : ∀ g ∈ tables s'.mem 3 r, (r ∈ s.roots ∧ g ∈ tables s.mem 3 r) ∨ (r = r₁ ∧ g ∈ used)
  origin : ∀ vpn < userPages, ∀ w, walk s'.mem 3 r vpn = some w →
    Origin cfg s s' free used rest r₁ vpn₁ r vpn w
  alloc : ∀ g ∈ tables s'.mem 3 r, g ∈ s'.alloc
  privateAlloc : ∀ vpn < userPages, ∀ w, walk s'.mem 3 r vpn = some w →
    isUser w = true → isCow w = false → pteFrame w ∈ s'.alloc
  device : ∀ vpn, cfg.Device vpn → (walk s'.mem 3 r vpn).isSome

section OfChange

variable {cfg : DirConfig} {s s' : Sys} {free used rest : List Nat} {r₁ vpn₁ : Nat}

/-- A change is what each directory sees of it. -/
theorem Change.of_dirs (hfresh : Fresh cfg s free) (hused : used ⊆ free)
    (hrest : rest ⊆ free ∧ rest.Nodup ∧ ∀ f ∈ rest, f ∉ used)
    (hdirs : ∀ r ∈ s'.roots, DirChange cfg s s' free used rest r₁ vpn₁ r) :
    Change cfg s s' free used rest r₁ vpn₁ where
  fresh := hfresh
  usedFree := hused
  restFree := hrest.1
  restNodup := hrest.2.1
  apart := hrest.2.2
  nodup r hr := (hdirs r hr).nodup
  upper r hr := (hdirs r hr).upper
  kernel r hr := (hdirs r hr).kernel
  table r hr := (hdirs r hr).table
  origin r hr := (hdirs r hr).origin
  alloc r hr := (hdirs r hr).alloc
  privateAlloc r hr := (hdirs r hr).privateAlloc
  device r hr := (hdirs r hr).device

/-- Frames that were free are no tables. -/
theorem Fresh.not_table (hfresh : Fresh cfg s free) {f g r : Nat} (hf : f ∈ free)
    (hr : r ∈ s.roots) (hg : g ∈ tables s.mem 3 r) : g ≠ f := by
  rintro rfl
  exact hfresh.free g hf r hr (Or.inl hg)

/-- Frames that were free are no pages. -/
theorem Fresh.not_page (hfresh : Fresh cfg s free) {f r vpn w : Nat} (hf : f ∈ free)
    (hr : r ∈ s.roots) (hvpn : vpn < userPages) (hw : walk s.mem 3 r vpn = some w) :
    pteFrame w ≠ f :=
  fun hframe => hfresh.free f hf r hr (Or.inr ⟨vpn, hvpn, w, hw, hframe⟩)

/-- The frames that are left over are still free. -/
theorem Change.fresh_rest (hc : Change cfg s s' free used rest r₁ vpn₁) : Fresh cfg s' rest := by
  refine ⟨hc.restNodup, ?_, fun f hf => hc.fresh.ordinary f (hc.restFree hf)⟩
  rintro f hf r hr (htable | ⟨vpn, hvpn, w, hw, hframe⟩)
  · rcases hc.table r hr f htable with ⟨hr, hg⟩ | ⟨-, hg⟩
    · exact hc.fresh.not_table (hc.restFree hf) hr hg rfl
    · exact hc.apart f hf hg
  · cases hc.origin r hr vpn hvpn w hw with
    | old hr₀ hw₀ => exact hc.fresh.not_page (hc.restFree hf) hr₀ hvpn hw₀ hframe
    | reset r₀ w₀ hr₀ hw₀ heq _ =>
        rw [heq, pteFrame_resetEntry] at hframe
        exact hc.fresh.not_page (hc.restFree hf) hr₀ hvpn hw₀ hframe
    | new _ _ _ _ hout _ => exact hout (hframe ▸ hf)
    | device hdevice _ _ =>
        rw [hframe] at hdevice
        exact hc.fresh.ordinary f (hc.restFree hf) (Or.inl hdevice)

/-- A frame that was not in use and that the step did not get is still not in use. -/
theorem Change.idle (hc : Change cfg s s' free used rest r₁ vpn₁) {f : Nat}
    (hidle : ∀ r ∈ s.roots, ¬ Refers s.mem r f) (hf : f ∉ free) (hdevice : ¬ cfg.Device f) :
    ∀ r ∈ s'.roots, ¬ Refers s'.mem r f := by
  rintro r hr (htable | ⟨vpn, hvpn, w, hw, rfl⟩)
  · rcases hc.table r hr f htable with ⟨hr, hg⟩ | ⟨-, hg⟩
    · exact hidle r hr (Or.inl hg)
    · exact hf (hc.usedFree hg)
  · cases hc.origin r hr vpn hvpn w hw with
    | old hr₀ hw₀ => exact hidle r hr₀ (Or.inr ⟨vpn, hvpn, w, hw₀, rfl⟩)
    | reset r₀ w₀ hr₀ hw₀ heq _ =>
        refine hidle r₀ hr₀ (Or.inr ⟨vpn, hvpn, w₀, hw₀, ?_⟩)
        rw [heq, pteFrame_resetEntry]
    | new _ _ hin _ _ _ => exact hf hin
    | device hframe _ _ => exact hdevice hframe

/-- Such a step keeps the invariant. -/
theorem Change.owned (h : Owned cfg s) (hc : Change cfg s s' free used rest r₁ vpn₁) :
    Owned cfg s' := by
  have hreserved : ∀ r ∈ s'.roots, ∀ g ∈ tables s'.mem 3 r, ¬ cfg.Reserved g := by
    intro r hr g hg
    rcases hc.table r hr g hg with ⟨hr, hg⟩ | ⟨-, hg⟩
    · exact (h.table r hr g hg).2
    · exact hc.fresh.ordinary g (hc.usedFree hg)
  refine ⟨hc.nodup, ?_, hc.upper, hc.kernel,
    fun r hr g hg => ⟨hc.alloc r hr g hg, hreserved r hr g hg⟩, ?_, ?_, ?_, ?_, hc.device⟩
  · intro r hr r' hr' hne g hg hg'
    rcases hc.table r hr g hg with ⟨hr, hg⟩ | ⟨rfl, hg⟩
    · rcases hc.table r' hr' g hg' with ⟨hr', hg'⟩ | ⟨-, hg'⟩
      · exact h.disjoint r hr r' hr' hne hg hg'
      · exact hc.fresh.not_table (hc.usedFree hg') hr hg rfl
    · rcases hc.table r' hr' g hg' with ⟨hr', hg'⟩ | ⟨rfl, -⟩
      · exact hc.fresh.not_table (hc.usedFree hg) hr' hg' rfl
      · exact hne rfl
  · intro r hr vpn hvpn w hw r' hr' hmem
    -- a frame of an old page is neither an old nor a new table
    have hold : ∀ r₀ ∈ s.roots, ∀ w₀, walk s.mem 3 r₀ vpn = some w₀ → pteFrame w₀ = pteFrame w →
        False := by
      intro r₀ hr₀ w₀ hw₀ hframe
      rcases hc.table r' hr' _ hmem with ⟨hr', hmem⟩ | ⟨-, hmem⟩
      · exact h.page r₀ hr₀ vpn hvpn w₀ hw₀ r' hr' (hframe ▸ hmem)
      · exact hc.fresh.not_page (hc.usedFree hmem) hr₀ hvpn hw₀ hframe
    cases hc.origin r hr vpn hvpn w hw with
    | old hr₀ hw₀ => exact hold r hr₀ w hw₀ rfl
    | reset r₀ w₀ hr₀ hw₀ heq _ =>
        exact hold r₀ hr₀ w₀ hw₀ (by rw [heq, pteFrame_resetEntry])
    | new _ _ hin hout _ _ =>
        rcases hc.table r' hr' _ hmem with ⟨hr', hmem⟩ | ⟨-, hmem⟩
        · exact hc.fresh.not_table hin hr' hmem rfl
        · exact hout hmem
    | device hframe _ _ => exact hreserved r' hr' _ hmem (Or.inl hframe)
  · intro r hr vpn hvpn w hw hrw
    cases hc.origin r hr vpn hvpn w hw with
    | old hr₀ hw₀ => exact h.cow r hr₀ vpn hvpn w hw₀ hrw
    | reset r₀ w₀ _ _ heq _ =>
        rw [heq, isReadwrite_resetEntry] at hrw
        cases hrw
    | new _ _ _ _ _ hcow => exact hcow
    | device _ _ hcow => exact hcow
  · intro r hr vpn hvpn w hw huser hcow
    refine ⟨hc.privateAlloc r hr vpn hvpn w hw huser hcow, ?_⟩
    cases hc.origin r hr vpn hvpn w hw with
    | old hr₀ hw₀ => exact (h.privateAlloc r hr₀ vpn hvpn w hw₀ huser hcow).2
    | reset r₀ w₀ _ _ heq _ =>
        rw [heq, isCow_resetEntry] at hcow
        cases hcow
    | new _ _ hin _ _ _ => exact hc.fresh.ordinary _ hin
    | device _ hkernelOnly _ =>
        rw [hkernelOnly] at huser
        cases huser
  · intro r hr vpn hvpn w hw huser hcow r' hr' vpn' hvpn' w' hw' hframe
    cases hc.origin r hr vpn hvpn w hw with
    | old hr₀ hw₀ =>
        have honce := h.privateOnce r hr₀ vpn hvpn w hw₀ huser hcow
        cases hc.origin r' hr' vpn' hvpn' w' hw' with
        | old hr₁ hw₁ => exact honce r' hr₁ vpn' hvpn' w' hw₁ hframe
        | reset r₀ w₀ hr₁ hw₁ heq hparent =>
            -- the page it is a copy of would be this one, which is not copy-on-write
            rw [heq, pteFrame_resetEntry] at hframe
            obtain ⟨rfl, rfl⟩ := honce r₀ hr₁ vpn' hvpn' w₀ hw₁ hframe
            rw [hparent w hw] at hcow
            cases hcow
        | new _ _ hin _ _ _ => exact (hc.fresh.not_page hin hr₀ hvpn hw₀ hframe.symm).elim
        | device hreserved' _ _ =>
            rw [hframe] at hreserved'
            exact ((h.privateAlloc r hr₀ vpn hvpn w hw₀ huser hcow).2 (Or.inl hreserved')).elim
    | reset r₀ w₀ _ _ heq _ =>
        rw [heq, isCow_resetEntry] at hcow
        cases hcow
    | new hr₁ hvpn₁ hin _ _ _ =>
        cases hc.origin r' hr' vpn' hvpn' w' hw' with
        | old hr₂ hw₂ => exact (hc.fresh.not_page hin hr₂ hvpn' hw₂ hframe).elim
        | reset r₀ w₀ hr₂ hw₂ heq _ =>
            rw [heq, pteFrame_resetEntry] at hframe
            exact (hc.fresh.not_page hin hr₂ hvpn' hw₂ hframe).elim
        | new hr₂ hvpn₂ _ _ _ _ => exact ⟨hr₂.trans hr₁.symm, hvpn₂.trans hvpn₁.symm⟩
        | device hreserved' _ _ =>
            rw [hframe] at hreserved'
            exact (hc.fresh.ordinary _ hin (Or.inl hreserved')).elim
    | device _ hkernelOnly _ =>
        rw [hkernelOnly] at huser
        cases huser

end OfChange

/-! ## Steps -/

section Steps

variable {cfg : DirConfig} {s : Sys} {avail : List Nat} {r vpn : Nat}

theorem mem_taken {avail avail' used : List Nat} (hnodup : avail.Nodup)
    (h : avail = used ++ avail') {f : Nat} (hf : f ∈ used) : f ∈ taken avail avail' := by
  rw [h, List.nodup_append] at hnodup
  refine ⟨h ▸ List.mem_append_left _ hf, fun hf' => ?_⟩
  exact hnodup.2.2 f hf f hf' rfl

/-- What is left of the free frames when the first ones are taken. -/
theorem Fresh.split {used avail' : List Nat} (hfresh : Fresh cfg s avail)
    (h : avail = used ++ avail') : avail' ⊆ avail ∧ avail'.Nodup ∧ ∀ f ∈ avail', f ∉ used := by
  have hnodup := List.nodup_append.mp (h ▸ hfresh.nodup)
  refine ⟨fun f hf => h ▸ List.mem_append_right _ hf, hnodup.2.1, fun f hf hf' => ?_⟩
  exact hnodup.2.2 f hf' f hf rfl

/-- A live directory can be mapped into and duplicated. -/
theorem Owned.mapPre (h : Owned cfg s) (hr : r ∈ s.roots) (hfresh : Fresh cfg s avail) :
    MapPre 3 r ⟨s.mem, avail, []⟩ where
  nodup := h.nodup r hr
  upper := h.upper r hr
  avail := hfresh.nodup
  fresh a ha hmem := hfresh.free a ha r hr (Or.inl hmem)

/-- A directory whose tables are left alone is the same. -/
theorem Owned.same (h : Owned cfg s) (hr : r ∈ s.roots) {mem' : PhysMem}
    (hsame : ∀ g ∈ tables s.mem 3 r, mem' g = s.mem g) :
    tables mem' 3 r = tables s.mem 3 r ∧ (tables mem' 3 r).Nodup ∧ UpperOk mem' 3 r ∧
      mem' r 511 = cfg.kernelEntry ∧
      ∀ vpn < userPages, walk mem' 3 r vpn = walk s.mem 3 r vpn := by
  have htables := tables_congr hsame
  refine ⟨htables, ?_, upperOk_congr hsame (h.upper r hr), ?_, fun vpn hvpn => ?_⟩
  · rw [htables]
    exact h.nodup r hr
  · rw [hsame r (self_mem_tables _ _ _)]
    exact h.kernel r hr
  · exact walk_congr hsame (inRange_of_lt hvpn) (le_refl 3)

/-- What a directory sees of a step that leaves its tables alone and keeps what it refers to
allocated. -/
theorem Owned.dirChange_of_same (h : Owned cfg s) (hr : r ∈ s.roots) {s' : Sys}
    {free used rest : List Nat} {r₁ vpn₁ : Nat}
    (hsame : ∀ g ∈ tables s.mem 3 r, s'.mem g = s.mem g)
    (halloc : ∀ f, Refers s.mem r f → f ∈ s.alloc → f ∈ s'.alloc) :
    DirChange cfg s s' free used rest r₁ vpn₁ r := by
  obtain ⟨htables, hnodup, hupper, hkernel, hwalk⟩ := h.same hr hsame
  refine ⟨hnodup, hupper, hkernel, ?_, ?_, ?_, ?_, ?_⟩
  · intro g hg
    exact Or.inl ⟨hr, htables ▸ hg⟩
  · intro vpn hvpn w hw
    exact .old hr ((hwalk vpn hvpn).symm.trans hw)
  · intro g hg
    have hold := htables ▸ hg
    exact halloc g (Or.inl hold) (h.table r hr g hold).1
  · intro vpn hvpn w hw huser hcow
    have hold := (hwalk vpn hvpn).symm.trans hw
    exact halloc _ (Or.inr ⟨vpn, hvpn, w, hold, rfl⟩)
      (h.privateAlloc r hr vpn hvpn w hold huser hcow).1
  · intro vpn hdevice
    rw [hwalk vpn (cfg.device_lt hdevice)]
    exact h.device r hr vpn hdevice

/-- The tables of all directories are left alone, as is what is allocated. -/
theorem Owned.change_of_same (h : Owned cfg s) (hfresh : Fresh cfg s avail) {s' : Sys}
    (hroots : s'.roots ⊆ s.roots)
    (hsame : ∀ r ∈ s'.roots, ∀ g ∈ tables s.mem 3 r, s'.mem g = s.mem g)
    (halloc : ∀ r ∈ s'.roots, ∀ f, Refers s.mem r f → f ∈ s.alloc → f ∈ s'.alloc) :
    Change cfg s s' avail [] avail 0 0 :=
  .of_dirs hfresh (List.nil_subset _)
    ⟨List.Subset.refl _, hfresh.nodup, fun _ _ => List.not_mem_nil⟩
    fun r hr => h.dirChange_of_same (hroots hr) (hsame r hr) (halloc r hr)

/-- A process writes a page of its own. -/
theorem Owned.write (h : Owned cfg s) (hfresh : Fresh cfg s avail) {i w entry : Nat}
    (hr : r ∈ s.roots) (hvpn : vpn < userPages) (hwalk : walk s.mem 3 r vpn = some entry) :
    Change cfg s { s with mem := s.mem.set (pteFrame entry) i w } avail [] avail 0 0 := by
  refine h.change_of_same hfresh (subset_refl _) (fun r' hr' g hg => ?_) fun _ _ _ _ hf => hf
  apply set_of_ne_frame
  rintro rfl
  exact h.page r hr vpn hvpn entry hwalk r' hr' hg

/-- What a new directory sees of the step that builds it. -/
theorem DirSpec.dirChange {root : Nat} {vm' : Vm} {used : List Nat} {s' : Sys}
    (hspec : DirSpec cfg cfg.Device root ⟨s.mem, avail, []⟩ vm' used) (hmem : s'.mem = vm'.mem)
    (halloc : ∀ f ∈ used, f ∈ s'.alloc) :
    DirChange cfg s s' avail used vm'.avail root 0 root := by
  have hwalk : ∀ vpn < userPages, ∀ w, walk s'.mem 3 root vpn = some w →
      cfg.Device vpn ∧ w = pte vpn (mmPresent + mmReadwrite) := by
    intro vpn hvpn w hw
    rw [hmem] at hw
    by_cases hdevice : cfg.Device vpn
    · rw [hspec.mapped vpn hvpn hdevice] at hw
      exact ⟨hdevice, (Option.some.inj hw).symm⟩
    · rw [hspec.unmapped vpn hvpn hdevice] at hw
      cases hw
  have huser : ∀ vpn, isUser (pte vpn (mmPresent + mmReadwrite)) = false := fun vpn =>
    (testBit_pte (by decide) (by decide)).trans (by decide)
  refine ⟨hmem ▸ hspec.nodup, hmem ▸ hspec.upper, hmem ▸ hspec.kernel, ?_, ?_, ?_, ?_, ?_⟩
  · intro g hg
    rw [hmem] at hg
    exact Or.inr ⟨rfl, (hspec.mem_tables g).mp hg⟩
  · intro vpn hvpn w hw
    obtain ⟨hdevice, rfl⟩ := hwalk vpn hvpn w hw
    refine .device ?_ (huser vpn) ?_
    · rwa [pteFrame_pte (by decide)]
    · exact (testBit_pte (by decide) (by decide)).trans (by decide)
  · intro g hg
    rw [hmem] at hg
    exact halloc g ((hspec.mem_tables g).mp hg)
  · intro vpn hvpn w hw hisUser
    obtain ⟨-, rfl⟩ := hwalk vpn hvpn w hw
    rw [huser vpn] at hisUser
    cases hisUser
  · intro vpn hdevice
    rw [hmem, hspec.mapped vpn (cfg.device_lt hdevice) hdevice]
    rfl

/-- A new directory. -/
theorem Owned.build (h : Owned cfg s) (hfresh : Fresh cfg s avail) {root : Nat} {vm' : Vm}
    (hbuild : mmuNativeBuildDir cfg ⟨s.mem, avail, []⟩ = .ok (root, vm')) :
    ∃ used, Change cfg s ⟨vm'.mem, insert root s.roots, s.alloc ∪ taken avail vm'.avail⟩ avail used
      vm'.avail root 0 := by
  obtain ⟨used, hspec⟩ := mmuNativeBuildDir_spec hfresh.nodup hbuild
  have havail : avail = used ++ vm'.avail := hspec.avail
  have hused : used ⊆ avail := fun f hf => havail ▸ List.mem_append_left _ hf
  refine ⟨used, .of_dirs hfresh hused (hfresh.split havail) ?_⟩
  rintro r (rfl | hr)
  · exact hspec.dirChange rfl fun f hf => Or.inr (mem_taken hfresh.nodup havail hf)
  · refine h.dirChange_of_same hr (fun g hg => ?_) fun f _ hf => Or.inl hf
    exact hspec.outside g fun hg' => hfresh.not_table (hused hg') hr hg rfl

/-- The flags of a new page. -/
theorem new_page_flags (target : Nat) {flags : Nat} (hflags : flags < 4096) (hcow : isCow flags = false) :
    pteFrame (pte target (flags ||| mmPresent)) = target ∧
      isCow (pte target (flags ||| mmPresent)) = false := by
  have hlt := or_mmPresent_lt hflags
  refine ⟨pteFrame_pte hlt, (testBit_pte hlt (by decide)).trans ?_⟩
  rw [Nat.testBit_or]
  exact (Bool.or_eq_false_iff.mpr ⟨hcow, by decide⟩)

/-- What a directory sees of a new page in it. -/
theorem Owned.map_dir (h : Owned cfg s) {flags target : Nat} {vm' : Vm} {used : List Nat} {s' : Sys}
    (hr : r ∈ s.roots) (hvpn : vpn < userPages) (hflags : flags < 4096)
    (hcow : isCow flags = false)
    (hspec : MapSpec target vpn flags 3 r ⟨s.mem, avail, []⟩ vm' used) (hmem : s'.mem = vm'.mem)
    (hused : target ∉ used) (hrest : target ∉ vm'.avail)
    (halloc : ∀ f, f ∈ s.alloc ∨ f = target ∨ f ∈ used → f ∈ s'.alloc) :
    DirChange cfg s s' (target :: avail) used vm'.avail r vpn r := by
  have hlast : tableIndex 3 vpn ≠ 511 := by
    have := inRange_of_lt hvpn
    unfold InRange entryCount at this
    simp only [if_true] at this
    omega
  have hself : vpn % 512 ^ (3 + 1) = vpn := Nat.mod_eq_of_lt (lt_of_lt_of_le hvpn userPages_le)
  have hother : ∀ vpn' < userPages, vpn' ≠ vpn →
      walk s'.mem 3 r vpn' = walk s.mem 3 r vpn' := by
    intro vpn' hvpn' hne
    rw [hmem]
    apply hspec.walk_other vpn' (inRange_of_lt hvpn')
    rwa [hself, Nat.mod_eq_of_lt (lt_of_lt_of_le hvpn' userPages_le)]
  have hnew : walk s'.mem 3 r vpn = some (pte target (flags ||| mmPresent)) :=
    hmem ▸ hspec.walk_self
  obtain ⟨hnewFrame, hnewCow⟩ := new_page_flags target hflags hcow
  refine ⟨hmem ▸ hspec.nodup, hmem ▸ hspec.upper, ?_, ?_, ?_, ?_, ?_, ?_⟩
  · rw [hmem]
    exact (hspec.entry 511 (Ne.symm hlast)).trans (h.kernel r hr)
  · intro g hg
    rw [hmem] at hg
    exact ((hspec.mem_tables g).mp hg).imp (fun hg => ⟨hr, hg⟩) fun hg => ⟨rfl, hg⟩
  · intro vpn' hvpn' w hw
    by_cases hpage : vpn' = vpn
    · subst hpage
      obtain rfl := Option.some.inj (hnew.symm.trans hw)
      refine .new rfl rfl ?_ ?_ ?_ hnewCow
      · rw [hnewFrame]
        exact List.mem_cons_self
      · rwa [hnewFrame]
      · rwa [hnewFrame]
    · exact .old hr ((hother vpn' hvpn' hpage).symm.trans hw)
  · intro g hg
    rw [hmem] at hg
    exact halloc g (((hspec.mem_tables g).mp hg).imp (fun hg => (h.table r hr g hg).1) Or.inr)
  · intro vpn' hvpn' w hw huser hcow'
    by_cases hpage : vpn' = vpn
    · subst hpage
      obtain rfl := Option.some.inj (hnew.symm.trans hw)
      exact halloc _ (Or.inr (Or.inl hnewFrame))
    · have hold := (hother vpn' hvpn' hpage).symm.trans hw
      exact halloc _ (Or.inl (h.privateAlloc r hr vpn' hvpn' w hold huser hcow').1)
  · intro vpn' hdevice
    by_cases hpage : vpn' = vpn
    · rw [hpage]
      exact Option.isSome_of_eq_some hnew
    · rw [hother vpn' (cfg.device_lt hdevice) hpage]
      exact h.device r hr vpn' hdevice

/-- A new page of a process. -/
theorem Owned.map (h : Owned cfg s) {flags target : Nat} {vm' : Vm} (hr : r ∈ s.roots)
    (hvpn : vpn < userPages) (hflags : flags < 4096) (hcow : isCow flags = false)
    (hsmall : is2mb flags = false) (hfresh : Fresh cfg s (target :: avail))
    (hmap : mapPage ⟨s.mem, avail, []⟩ r (target * 4096) (vpn * 4096) flags = .ok vm') :
    ∃ used, Change cfg s ⟨vm'.mem, s.roots, s.alloc ∪ taken (target :: avail) vm'.avail⟩
      (target :: avail) used vm'.avail r vpn := by
  have hfresh' : Fresh cfg s avail := ⟨hfresh.nodup.of_cons,
    fun f hf => hfresh.free f (List.mem_cons_of_mem _ hf),
    fun f hf => hfresh.ordinary f (List.mem_cons_of_mem _ hf)⟩
  have hpage : vpn * 4096 / 4096 = vpn := Nat.mul_div_cancel _ (by decide)
  have hframe : target * 4096 / 4096 = target := Nat.mul_div_cancel _ (by decide)
  obtain ⟨used, hspec⟩ := mapPage_spec (h.mapPre hr hfresh') (by rw [hpage]; exact inRange_of_lt hvpn)
    hflags hsmall hmap
  rw [hpage, hframe] at hspec
  have havail : avail = used ++ vm'.avail := hspec.avail
  have hused : used ⊆ avail := fun f hf => havail ▸ List.mem_append_left _ hf
  have hrest := hfresh'.split havail
  have htarget : target ∉ avail := (List.nodup_cons.mp hfresh.nodup).1
  have htaken : ∀ f, f = target ∨ f ∈ used → f ∈ taken (target :: avail) vm'.avail := by
    intro f hf
    have hsplit : target :: avail = (target :: used) ++ vm'.avail := by
      rw [havail]
      rfl
    exact mem_taken hfresh.nodup hsplit (List.mem_cons.mpr hf)
  refine ⟨used, .of_dirs hfresh (List.subset_cons_of_subset _ hused)
    ⟨List.subset_cons_of_subset _ hrest.1, hrest.2⟩ fun r' hr' => ?_⟩
  by_cases hne : r' = r
  · rw [hne]
    exact h.map_dir hr hvpn hflags hcow hspec rfl (fun hmem => htarget (hused hmem))
      (fun hmem => htarget (hrest.1 hmem)) fun f hf => hf.imp_right (htaken f)
  · refine h.dirChange_of_same hr' (fun g hg => ?_) fun f _ hf => Or.inl hf
    refine hspec.outside g (fun hg' => h.disjoint r' hr' r hr hne hg hg') fun hg' => ?_
    exact hfresh'.not_table (hused hg') hr' hg rfl

/-- The copy of a directory, in a state where all directories map the devices, has the pages of the
original. -/
theorem Owned.fork_walk (h : Owned cfg s) {child : Nat} {vm' : Vm} {used : List Nat}
    (hr : r ∈ s.roots) (hspec : ForkSpec cfg r child ⟨s.mem, avail, []⟩ vm' used)
    (hvpn : vpn < userPages) :
    walk vm'.mem 3 child vpn = (walk s.mem 3 r vpn).map resetEntry := by
  cases hpresent : isPresent (s.mem r (tableIndex 3 vpn)) with
  | true => exact hspec.childWalk vpn hvpn hpresent
  | false =>
      have hnone : walk s.mem 3 r vpn = none := by
        rw [walk_succ, hpresent, if_neg Bool.false_ne_true]
      rw [hnone, Option.map_none]
      apply hspec.childNone vpn hvpn hpresent
      intro hdevice
      have hsome := h.device r hr vpn hdevice
      rw [hnone] at hsome
      cases hsome

/-- After a fork the child and its parent have the entries of the parent, reset. -/
theorem Owned.fork_walks (h : Owned cfg s) {child r' : Nat} {vm' : Vm} {used : List Nat}
    (hr : r ∈ s.roots) (hspec : ForkSpec cfg r child ⟨s.mem, avail, []⟩ vm' used)
    (hr' : r' = child ∨ r' = r) (hvpn : vpn < userPages) :
    walk vm'.mem 3 r' vpn = (walk s.mem 3 r vpn).map resetEntry := by
  rcases hr' with rfl | rfl
  · exact h.fork_walk hr hspec hvpn
  · exact hspec.parentWalk vpn hvpn

/-- Entries of the parent and of the child come from entries that were reset. -/
theorem Owned.fork_reset (h : Owned cfg s) {child r' : Nat} {vm' : Vm} {used : List Nat}
    (hr : r ∈ s.roots) (hspec : ForkSpec cfg r child ⟨s.mem, avail, []⟩ vm' used)
    (hr' : r' = child ∨ r' = r) {w : Nat} (hvpn : vpn < userPages)
    (hw : walk vm'.mem 3 r' vpn = some w) :
    isCow w = true ∧ ∃ w₀, walk s.mem 3 r vpn = some w₀ ∧ w = resetEntry w₀ ∧
      ∀ w₁, walk vm'.mem 3 r vpn = some w₁ → isCow w₁ = true := by
  rw [h.fork_walks hr hspec hr' hvpn] at hw
  obtain ⟨w₀, hw₀, rfl⟩ := Option.map_eq_some_iff.mp hw
  refine ⟨isCow_resetEntry w₀, w₀, hw₀, rfl, fun w₁ hw₁ => ?_⟩
  rw [hspec.parentWalk vpn hvpn, hw] at hw₁
  obtain rfl := Option.some.inj hw₁
  exact isCow_resetEntry w₀

/-- What the child and its parent see of a fork. -/
theorem Owned.fork_dir (h : Owned cfg s) {child : Nat} {vm' : Vm} {used : List Nat} {s' : Sys}
    {r' : Nat} (hr : r ∈ s.roots) (hspec : ForkSpec cfg r child ⟨s.mem, avail, []⟩ vm' used)
    (hmem : s'.mem = vm'.mem) (hr' : r' = child ∨ r' = r) (hold : ∀ f ∈ s.alloc, f ∈ s'.alloc)
    (hnew : ∀ f ∈ used, f ∈ s'.alloc) :
    DirChange cfg s s' avail used vm'.avail child 0 r' where
  nodup := by
    rw [hmem]
    rcases hr' with rfl | rfl
    · exact hspec.childNodup
    · rw [hspec.parentTables]
      exact h.nodup r' hr
  upper := by
    rw [hmem]
    rcases hr' with rfl | rfl
    · exact hspec.childUpper
    · exact hspec.parentUpper
  kernel := by
    rw [hmem]
    rcases hr' with rfl | rfl
    · exact hspec.childSelf
    · exact (congrFun hspec.parentSelf 511).trans (h.kernel r' hr)
  table g hg := by
    rw [hmem] at hg
    rcases hr' with rfl | rfl
    · exact Or.inr ⟨rfl, hspec.childTables g hg⟩
    · exact Or.inl ⟨hr, hspec.parentTables ▸ hg⟩
  origin vpn hvpn w hw := by
    rw [hmem] at hw
    obtain ⟨-, w₀, hw₀, heq, hcow⟩ := h.fork_reset hr hspec hr' hvpn hw
    exact .reset r w₀ hr hw₀ heq (hmem ▸ hcow)
  alloc g hg := by
    rw [hmem] at hg
    rcases hr' with rfl | rfl
    · exact hnew g (hspec.childTables g hg)
    · exact hold g (h.table r' hr g (hspec.parentTables ▸ hg)).1
  privateAlloc vpn hvpn w hw _ hcow := by
    rw [hmem] at hw
    rw [(h.fork_reset hr hspec hr' hvpn hw).1] at hcow
    cases hcow
  device vpn hdevice := by
    rw [hmem, h.fork_walks hr hspec hr' (cfg.device_lt hdevice), Option.isSome_map]
    exact h.device r hr vpn hdevice

/-- A fork. -/
theorem Owned.fork (h : Owned cfg s) {child : Nat} {vm' : Vm} (hr : r ∈ s.roots)
    (hfresh : Fresh cfg s avail)
    (hfork : mmuNativeDuplicateDir cfg r ⟨s.mem, avail, []⟩ = .ok (child, vm')) :
    ∃ used, Change cfg s ⟨vm'.mem, insert child s.roots, s.alloc ∪ taken avail vm'.avail⟩ avail used
      vm'.avail child 0 := by
  obtain ⟨used, hspec⟩ := mmuNativeDuplicateDir_spec (h.mapPre hr hfresh) hfork
  have havail : avail = used ++ vm'.avail := hspec.avail
  have hused : used ⊆ avail := fun f hf => havail ▸ List.mem_append_left _ hf
  refine ⟨used, .of_dirs hfresh hused (hfresh.split havail) fun r' hr' => ?_⟩
  by_cases hpair : r' = child ∨ r' = r
  · exact h.fork_dir hr hspec rfl hpair (fun f hf => Or.inl hf) fun f hf =>
      Or.inr (mem_taken hfresh.nodup havail hf)
  · obtain ⟨hchild, hne⟩ := not_or.mp hpair
    have hr' : r' ∈ s.roots := hr'.resolve_left hchild
    refine h.dirChange_of_same hr' (fun g hg => ?_) fun f _ hf => Or.inl hf
    refine hspec.outside g (fun hg' => h.disjoint r' hr' r hr hne hg hg') fun hg' => ?_
    exact hfresh.not_table (hused hg') hr' hg rfl

/-! ## Faults -/

/-- What the fault handler does when it returns: it takes the frame `copy`, fills it and stores it
in a word that looks like a page of a fork. -/
theorem mmuPfHandler_eq_ok {mem : PhysMem} {vm' : Vm}
    (hfault : mmuPfHandler r vpn ⟨mem, avail, []⟩ = .ok vm') :
    ∃ pt copy rest, avail = copy :: rest ∧ vm'.avail = rest ∧ vm'.freed = [] ∧
      ptFrame mem 3 r vpn = some pt ∧
      isPresent (mem pt (tableIndex 0 vpn)) = true ∧ isCow (mem pt (tableIndex 0 vpn)) = true ∧
      isReadwrite (mem pt (tableIndex 0 vpn)) = false ∧
      vm'.mem = PhysMem.set (Function.update mem copy (mem (supervisorFrame mem r vpn))) pt
        (tableIndex 0 vpn) (pte copy (mmPresent + mmUser + mmReadwrite)) := by
  rw [mmuPfHandler] at hfault
  dsimp only at hfault
  cases hpt : ptFrame mem 3 r vpn with
  | none =>
      rw [hpt] at hfault
      cases hfault
  | some pt =>
      rw [hpt] at hfault
      dsimp only at hfault
      split at hfault
      · cases hfault
      · next hpresent =>
          split at hfault
          · next hcow =>
              cases havail : avail with
              | nil => simp [mmuPageAlloc, havail] at hfault
              | cons copy rest =>
                  simp only [mmuPageAlloc, havail, Except.ok.injEq] at hfault
                  subst hfault
                  exact ⟨pt, copy, rest, rfl, rfl, rfl, rfl, by simpa using hpresent, hcow.1,
                    by simpa using hcow.2, rfl⟩
          · cases hfault

section Fault

variable {pt i copy w : Nat} {page : Nat → Nat} {mem' : PhysMem}

/-- The tables above the page tables are left alone by a fault. -/
theorem Owned.fault_uppers (h : Owned cfg s) (hi : i < 512)
    (hpresent : isPresent (s.mem pt i) = true) (hrw : isReadwrite (s.mem pt i) = false)
    (hcopy : ∀ r ∈ s.roots, copy ∉ tables s.mem 3 r)
    (hmem' : mem' = PhysMem.set (Function.update s.mem copy page) pt i w) (hr : r ∈ s.roots) :
    ∀ g ∈ uppers s.mem 3 r, mem' g = s.mem g := by
  intro g hg
  have hgc : g ≠ copy := by
    rintro rfl
    exact hcopy r hr (uppers_subset_tables hg)
  have hgp : g ≠ pt := by
    rintro rfl
    -- a present word of such a table is writable
    rcases isReadwrite_of_mem_uppers (le_refl 3) (h.upper r hr) hg hi hpresent with
      hrw' | ⟨-, rfl, rfl⟩
    · rw [hrw] at hrw'
      cases hrw'
    · rw [h.kernel g hr, cfg.kernelEntry_rw] at hrw
      cases hrw
  rw [hmem', set_of_ne_frame _ _ _ hgp]
  exact Function.update_of_ne hgc _ _

/-- A fault changes the page whose entry it stored to, and no other. -/
theorem Owned.fault_walk (h : Owned cfg s) (hi : i < 512)
    (hpresent : isPresent (s.mem pt i) = true) (hrw : isReadwrite (s.mem pt i) = false)
    (hcopy : ∀ r ∈ s.roots, copy ∉ tables s.mem 3 r) (hw : isPresent w = true)
    (hmem' : mem' = PhysMem.set (Function.update s.mem copy page) pt i w) (hr : r ∈ s.roots)
    (hvpn : vpn < userPages) :
    (ptFrame s.mem 3 r vpn = some pt ∧ tableIndex 0 vpn = i ∧ walk mem' 3 r vpn = some w) ∨
      (¬ (ptFrame s.mem 3 r vpn = some pt ∧ tableIndex 0 vpn = i) ∧
        walk mem' 3 r vpn = walk s.mem 3 r vpn) := by
  have hupper := h.fault_uppers hi hpresent hrw hcopy hmem' hr
  have hpt := ptFrame_congr_of_uppers hupper (inRange_of_lt hvpn) (le_refl 3)
  rw [walk_eq_ptFrame, walk_eq_ptFrame, hpt]
  cases hframe : ptFrame s.mem 3 r vpn with
  | none => exact Or.inr ⟨by simp, rfl⟩
  | some pt' =>
      have hne : pt' ≠ copy := by
        rintro rfl
        exact hcopy r hr (ptFrame_mem_tables hframe (inRange_of_lt hvpn) (le_refl 3))
      simp only [Option.bind_some, Option.some.injEq]
      by_cases hslot : pt' = pt ∧ tableIndex 0 vpn = i
      · obtain ⟨rfl, hindex⟩ := hslot
        have hword : mem' pt' i = w := by rw [hmem', set_self]
        refine Or.inl ⟨rfl, hindex, ?_⟩
        rw [hindex, hword, if_pos hw]
      · have hword : mem' pt' (tableIndex 0 vpn) = s.mem pt' (tableIndex 0 vpn) := by
          rw [hmem']
          by_cases hframe' : pt' = pt
          · subst hframe'
            rw [set_of_ne_index _ _ _ fun hindex => hslot ⟨rfl, hindex⟩, Function.update_of_ne hne]
          · rw [set_of_ne_frame _ _ _ hframe', Function.update_of_ne hne]
        exact Or.inr ⟨hslot, by rw [hword]⟩

/-- A slot of a page table belongs to one page of one directory. -/
theorem Owned.slot_once (h : Owned cfg s) (hr : r ∈ s.roots) (hvpn : vpn < userPages)
    (hpt : ptFrame s.mem 3 r vpn = some pt) {r' vpn' : Nat} (hr' : r' ∈ s.roots)
    (hvpn' : vpn' < userPages) (hpt' : ptFrame s.mem 3 r' vpn' = some pt)
    (hindex : tableIndex 0 vpn' = tableIndex 0 vpn) : r' = r ∧ vpn' = vpn := by
  have hmem := ptFrame_mem_tables hpt (inRange_of_lt hvpn) (le_refl 3)
  have hmem' := ptFrame_mem_tables hpt' (inRange_of_lt hvpn') (le_refl 3)
  have hroot : r' = r := by
    by_contra hne
    exact h.disjoint r' hr' r hr hne hmem' hmem
  subst hroot
  have hhigh := ptFrame_inj (h.nodup r' hr) (le_refl 3) (inRange_of_lt hvpn') (inRange_of_lt hvpn)
    hpt' hpt
  have hle := userPages_le
  have hlow : ∀ p, tableIndex 0 p = p % 512 := by
    intro p
    rw [tableIndex, pow_zero, Nat.div_one]
  rw [hlow, hlow] at hindex
  refine ⟨rfl, ?_⟩
  omega

/-- A page fault. -/
theorem Owned.fault (h : Owned cfg s) {vm' : Vm} (hfresh : Fresh cfg s avail)
    (hfault : mmuPfHandler r vpn ⟨s.mem, avail, []⟩ = .ok vm') :
    ∃ r₁ vpn₁, Change cfg s ⟨vm'.mem, s.roots, s.alloc ∪ taken avail vm'.avail⟩ avail []
      vm'.avail r₁ vpn₁ := by
  obtain ⟨pt, copy, rest, rfl, hrest, -, -, hpresent, -, hrw, hmem'⟩ := mmuPfHandler_eq_ok hfault
  have hi := tableIndex_lt 0 vpn
  have hcopy : ∀ r ∈ s.roots, copy ∉ tables s.mem 3 r := fun r hr hmem =>
    hfresh.free copy List.mem_cons_self r hr (Or.inl hmem)
  have hnew : pteFrame (pte copy (mmPresent + mmUser + mmReadwrite)) = copy :=
    pteFrame_pte (by decide)
  have hbit : isPresent (pte copy (mmPresent + mmUser + mmReadwrite)) = true :=
    (testBit_pte (by decide) (by decide)).trans (by decide)
  have htaken : copy ∈ taken (copy :: rest) vm'.avail := by
    rw [hrest]
    exact ⟨List.mem_cons_self, (List.nodup_cons.mp hfresh.nodup).1⟩
  have hupper := fun (r : Nat) (hr : r ∈ s.roots) =>
    h.fault_uppers hi hpresent hrw hcopy hmem' hr
  have hwalk := fun (r : Nat) (hr : r ∈ s.roots) (v : Nat) (hv : v < userPages) =>
    h.fault_walk hi hpresent hrw hcopy hbit hmem' hr hv
  -- the page that the stored word belongs to, if it belongs to one
  obtain ⟨r₁, vpn₁, honce⟩ : ∃ r₁ vpn₁, ∀ r ∈ s.roots, ∀ v < userPages,
      ptFrame s.mem 3 r v = some pt → tableIndex 0 v = tableIndex 0 vpn → r = r₁ ∧ v = vpn₁ := by
    by_cases hslot : ∃ r ∈ s.roots, ∃ v < userPages, ptFrame s.mem 3 r v = some pt ∧
        tableIndex 0 v = tableIndex 0 vpn
    · obtain ⟨r₁, hr₁, vpn₁, hvpn₁, hpt, hindex⟩ := hslot
      exact ⟨r₁, vpn₁, fun r hr v hv hpt' hindex' =>
        h.slot_once hr₁ hvpn₁ hpt hr hv hpt' (hindex'.trans hindex.symm)⟩
    · exact ⟨0, 0, fun r hr v hv hpt hindex => (hslot ⟨r, hr, v, hv, hpt, hindex⟩).elim⟩
  have hcopyRest := List.nodup_cons.mp hfresh.nodup
  refine ⟨r₁, vpn₁, .of_dirs hfresh (List.nil_subset _) ⟨hrest ▸ List.subset_cons_self _ _,
    hrest ▸ hcopyRest.2, fun _ _ => List.not_mem_nil⟩ fun r hr => ?_⟩
  have htables := tables_congr_of_uppers (hupper r hr)
  refine ⟨?_, upperOk_congr_of_uppers (hupper r hr) (h.upper r hr), ?_, ?_, ?_, ?_, ?_, ?_⟩
  · dsimp only
    rw [htables]
    exact h.nodup r hr
  · exact (congrFun (hupper r hr r (mem_uppers_succ.mpr (Or.inl rfl))) 511).trans (h.kernel r hr)
  · exact fun g hg => Or.inl ⟨hr, htables ▸ hg⟩
  · intro v hv w hw
    rcases hwalk r hr v hv with ⟨hpt, hindex, hnewWalk⟩ | ⟨-, hold⟩
    · obtain rfl := Option.some.inj (hnewWalk.symm.trans hw)
      obtain ⟨hr₁, hvpn₁⟩ := honce r hr v hv hpt hindex
      refine .new hr₁ hvpn₁ ?_ List.not_mem_nil ?_ ?_
      · rw [hnew]
        exact List.mem_cons_self
      · rw [hnew, hrest]
        exact hcopyRest.1
      · exact (testBit_pte (by decide) (by decide)).trans (by decide)
    · exact .old hr (hold.symm.trans hw)
  · intro g hg
    exact Or.inl (h.table r hr g (htables ▸ hg)).1
  · intro v hv w hw huser hcow
    rcases hwalk r hr v hv with ⟨-, -, hnewWalk⟩ | ⟨-, hold⟩
    · obtain rfl := Option.some.inj (hnewWalk.symm.trans hw)
      rw [hnew]
      exact Or.inr htaken
    · exact Or.inl (h.privateAlloc r hr v hv w (hold.symm.trans hw) huser hcow).1
  · intro v hdevice
    rcases hwalk r hr v (cfg.device_lt hdevice) with ⟨-, -, hnewWalk⟩ | ⟨-, hold⟩
    · exact Option.isSome_of_eq_some hnewWalk
    · dsimp only
      rw [hold]
      exact h.device r hr v hdevice

end Fault

/-! ## Teardown -/

theorem isPrivate_iff {w : Nat} : isPrivate w = true ↔
    isPresent w = true ∧ isUser w = true ∧ isCow w = false := by
  simp [isPrivate, and_assoc]

/-- What the teardown of a directory does. -/
theorem Owned.destroy_eq (h : Owned cfg s) (hr : r ∈ s.roots) {vm' : Vm}
    (hdestroy : mmuNativeDestroyDir r ⟨s.mem, [], []⟩ = vm') :
    (r :: teardown s.mem 3 r).Nodup ∧ vm'.freed = teardown s.mem 3 r ++ [r] ∧
      ∀ g, g ∉ teardown s.mem 3 r → vm'.mem g = s.mem g := by
  have hnodup : (r :: teardown s.mem 3 r).Nodup := by
    refine nodup_teardown (le_refl 3) (h.nodup r hr) ?_ ?_
    · intro vpn hvpn w hw _
      exact h.page r hr vpn hvpn w hw r hr
    · intro vpn hvpn vpn' hvpn' w w' hw hw' hprivate hframe
      obtain ⟨-, huser, hcow⟩ := isPrivate_iff.mp hprivate
      exact (h.privateOnce r hr vpn hvpn w hw huser hcow r hr vpn' hvpn' w' hw' hframe.symm).2.symm
  obtain ⟨hfreed, hmem⟩ := mmuNativeDestroyDir_eq hnodup hdestroy
  exact ⟨hnodup, hfreed, hmem⟩

/-- A frame that the teardown of a directory frees belongs to this directory alone. -/
theorem Owned.freed_exclusive (h : Owned cfg s) (hr : r ∈ s.roots) {f : Nat}
    (hf : f ∈ teardown s.mem 3 r ++ [r]) :
    f ∈ s.alloc ∧ ¬ cfg.Reserved f ∧ ∀ r' ∈ s.roots, r' ≠ r → ¬ Refers s.mem r' f := by
  have hcases : f ∈ tables s.mem 3 r ∨ ∃ vpn < userPages, ∃ w, walk s.mem 3 r vpn = some w ∧
      isPrivate w = true ∧ pteFrame w = f := by
    rw [List.mem_append, List.mem_singleton] at hf
    rcases hf with hf | rfl
    · exact (mem_teardown (le_refl 3) (h.nodup r hr) hf).imp (fun hf => hf.1) id
    · exact Or.inl (self_mem_tables _ _ _)
  rcases hcases with htable | ⟨vpn, hvpn, w, hw, hprivate, rfl⟩
  · obtain ⟨halloc, hreserved⟩ := h.table r hr f htable
    refine ⟨halloc, hreserved, fun r' hr' hne => ?_⟩
    rintro (htable' | ⟨vpn, hvpn, w, hw, rfl⟩)
    · exact h.disjoint r' hr' r hr hne htable' htable
    · exact h.page r' hr' vpn hvpn w hw r hr htable
  · obtain ⟨-, huser, hcow⟩ := isPrivate_iff.mp hprivate
    obtain ⟨halloc, hreserved⟩ := h.privateAlloc r hr vpn hvpn w hw huser hcow
    refine ⟨halloc, hreserved, fun r' hr' hne => ?_⟩
    rintro (htable' | ⟨vpn', hvpn', w', hw', hframe⟩)
    · exact h.page r hr vpn hvpn w hw r' hr' htable'
    · exact hne (h.privateOnce r hr vpn hvpn w hw huser hcow r' hr' vpn' hvpn' w' hw' hframe).1

/-- The teardown of a directory leaves the tables of the others alone. -/
theorem Owned.destroy_same (h : Owned cfg s) (hr : r ∈ s.roots) {vm' : Vm}
    (hdestroy : mmuNativeDestroyDir r ⟨s.mem, [], []⟩ = vm') {r' : Nat} (hr' : r' ∈ s.roots)
    (hne : r' ≠ r) : ∀ g ∈ tables s.mem 3 r', vm'.mem g = s.mem g := by
  intro g hg
  apply (h.destroy_eq hr hdestroy).2.2
  intro hmem
  exact (h.freed_exclusive hr (List.mem_append_left _ hmem)).2.2 r' hr' hne (Or.inl hg)

/-- The teardown of a directory. -/
theorem Owned.destroy (h : Owned cfg s) (hr : r ∈ s.roots) {vm' : Vm}
    (hdestroy : mmuNativeDestroyDir r ⟨s.mem, [], []⟩ = vm') :
    Change cfg s ⟨vm'.mem, s.roots \ {r}, s.alloc \ {f | f ∈ vm'.freed}⟩ [] [] [] 0 0 := by
  refine h.change_of_same ⟨List.nodup_nil, by simp, by simp⟩ (fun _ hr' => hr'.1) ?_ ?_
  · rintro r' ⟨hr', hne⟩
    exact h.destroy_same hr hdestroy hr' hne
  · rintro r' ⟨hr', hne⟩ f href halloc
    refine ⟨halloc, fun hfreed => ?_⟩
    replace hfreed : f ∈ vm'.freed := hfreed
    rw [(h.destroy_eq hr hdestroy).2.1] at hfreed
    exact (h.freed_exclusive hr hfreed).2.2 r' hr' hne href

end Steps

/-! ## Runs -/

section Runs

variable {cfg : DirConfig} {s t : Sys} {op : Op}

/-- Every step keeps the invariant. -/
theorem Step.owned (h : Owned cfg s) (hstep : Step cfg s op t) : Owned cfg t := by
  cases hstep with
  | build hfresh hbuild =>
      obtain ⟨used, hc⟩ := h.build hfresh hbuild
      exact hc.owned h
  | map hr hvpn hflags _ hcow hsmall hfresh hmap =>
      obtain ⟨used, hc⟩ := h.map hr hvpn hflags hcow hsmall hfresh hmap
      exact hc.owned h
  | fork hr hfresh hfork =>
      obtain ⟨used, hc⟩ := h.fork hr hfresh hfork
      exact hc.owned h
  | fault _ hfresh hfault =>
      obtain ⟨r₁, vpn₁, hc⟩ := h.fault hfresh hfault
      exact hc.owned h
  | write hr hvpn _ hwalk _ _ =>
      exact (h.write ⟨List.nodup_nil, by simp, by simp⟩ hr hvpn hwalk).owned h
  | read => exact h
  | destroy hr hdestroy => exact (h.destroy hr hdestroy).owned h

theorem owned_init (cfg : DirConfig) (mem : PhysMem) : Owned cfg (Sys.init mem) := by
  constructor <;> exact fun r hr => hr.elim

/-- The invariant holds in every state reached. -/
theorem run_owned {mem : PhysMem} {ops : List Op} (hrun : Run (Step cfg) (Sys.init mem) ops s) :
    Owned cfg s :=
  hrun.invariant (Owned cfg) (fun _ _ _ h hstep => hstep.owned h) (owned_init cfg mem)

/-- The teardown of a live directory passes each frame to the allocator once, and only frames that
are allocated and that no other live directory refers to, before or after. -/
theorem destroy_frees_exclusive {mem : PhysMem} {ops : List Op}
    (hrun : Run (Step cfg) (Sys.init mem) ops s) {r : Nat} (hr : r ∈ s.roots) {vm' : Vm}
    (hdestroy : mmuNativeDestroyDir r ⟨s.mem, [], []⟩ = vm') :
    vm'.freed.Nodup ∧ ∀ f ∈ vm'.freed, f ∈ s.alloc ∧ ¬ cfg.Reserved f ∧
      ∀ r' ∈ s.roots, r' ≠ r → ¬ Refers s.mem r' f ∧ ¬ Refers vm'.mem r' f := by
  have h := run_owned hrun
  obtain ⟨hnodup, hfreed, -⟩ := h.destroy_eq hr hdestroy
  rw [hfreed, List.nodup_append_comm, List.singleton_append]
  refine ⟨hnodup, fun f hf => ?_⟩
  obtain ⟨halloc, hreserved, hothers⟩ := h.freed_exclusive hr hf
  refine ⟨halloc, hreserved, fun r' hr' hne => ⟨hothers r' hr' hne, fun href => ?_⟩⟩
  -- the other directory is the same after the teardown
  have hsame := h.destroy_same hr hdestroy hr' hne
  apply hothers r' hr' hne
  rcases href with htable | ⟨vpn, hvpn, w, hw, hframe⟩
  · rw [tables_congr hsame] at htable
    exact Or.inl htable
  · rw [walk_congr hsame (inRange_of_lt hvpn) (le_refl 3)] at hw
    exact Or.inr ⟨vpn, hvpn, w, hw, hframe⟩

/-- The machine of the examples: the kernel's tables are in the frames 300 to 302. -/
def demoConfig : DirConfig where
  kernelEntry := pte 300 (mmPresent + mmReadwrite)
  lapic := 0xfee00000
  ioapic := 0xfec00000
  vga := none
  kernelEntry_rw := by decide
  lapic_lt := by decide
  ioapic_lt := by decide
  vga_lt := by simp

def demoMem : PhysMem := mmuNativeInit 299 300 301 302 fun _ _ => 0

end Runs

/-! ## Runs that can be made -/

section Exists

variable {cfg : DirConfig} {s : Sys}

/-- A frame that no directory uses and that is no device. -/
def Idle (cfg : DirConfig) (s : Sys) (f : Nat) : Prop :=
  (∀ r ∈ s.roots, ¬ Refers s.mem r f) ∧ ¬ cfg.Device f

theorem fresh_of_idle {avail : List Nat} (hnodup : avail.Nodup) (h : ∀ f ∈ avail, Idle cfg s f)
    (hkernel : pteFrame cfg.kernelEntry ∉ avail) : Fresh cfg s avail := by
  refine ⟨hnodup, fun f hf => (h f hf).1, fun f hf => ?_⟩
  rintro (hdevice | rfl)
  · exact (h f hf).2 hdevice
  · exact hkernel hf

/-- With seven free frames there can be a new directory. -/
theorem exists_build (h : Owned cfg s) (hlapic : Mm.pageAligned cfg.lapic)
    (hioapic : Mm.pageAligned cfg.ioapic) (hvga : cfg.vga = none) {root : Nat} {rest : List Nat}
    (hfresh : Fresh cfg s (root :: rest)) (hrest : 6 ≤ rest.length) :
    ∃ t, Step cfg s (.build root) t ∧ Owned cfg t ∧ t.roots = insert root s.roots ∧
      (∀ vpn, cfg.Device vpn → walk t.mem 3 root vpn = some (pte vpn (mmPresent + mmReadwrite))) ∧
      ∀ f, Idle cfg s f → f ∉ root :: rest → Idle cfg t f ∧ t.mem f = s.mem f := by
  obtain ⟨vm', hbuild, -⟩ := mmuNativeBuildDir_returns 0 hlapic hioapic hvga
    (show (Vm.mk s.mem (root :: rest) []).avail = root :: rest from rfl) hrest
  obtain ⟨used, hspec⟩ := mmuNativeBuildDir_spec hfresh.nodup hbuild
  have havail : root :: rest = used ++ vm'.avail := hspec.avail
  obtain ⟨used', hc⟩ := h.build hfresh hbuild
  refine ⟨_, .build hfresh hbuild, hc.owned h, rfl,
    fun vpn hdevice => hspec.mapped vpn (cfg.device_lt hdevice) hdevice, fun f hidle hf => ?_⟩
  refine ⟨⟨hc.idle hidle.1 hf hidle.2, hidle.2⟩, hspec.outside f fun hused => hf ?_⟩
  rw [havail]
  exact List.mem_append_left _ hused

/-- With four free frames there can be a new page. -/
theorem exists_map (h : Owned cfg s) {r vpn flags target : Nat} {rest : List Nat}
    (hr : r ∈ s.roots) (hvpn : vpn < userPages) (hflags : flags < 4096)
    (huser : isUser flags = true) (hcow : isCow flags = false) (hsmall : is2mb flags = false)
    (hfresh : Fresh cfg s (target :: rest)) (hrest : 3 ≤ rest.length) :
    ∃ t, Step cfg s (.map r vpn) t ∧ Owned cfg t ∧ t.roots = s.roots ∧
      walk t.mem 3 r vpn = some (pte target (flags ||| mmPresent)) ∧
      ∀ f, Idle cfg s f → f ∉ target :: rest → Idle cfg t f ∧ t.mem f = s.mem f := by
  have haligned : ∀ n : Nat, Mm.pageAligned (n * 4096) := fun n => Nat.mul_mod_left n 4096
  obtain ⟨vm', hmap, -⟩ := mapPage_returns 0 (haligned target) (haligned vpn)
    (show 3 + 0 ≤ (Vm.mk s.mem rest []).avail.length from hrest)
  have hnumber : vpn * 4096 / 4096 = vpn := Nat.mul_div_cancel _ (by decide)
  have hframe : target * 4096 / 4096 = target := Nat.mul_div_cancel _ (by decide)
  have hfresh' : Fresh cfg s rest := ⟨hfresh.nodup.of_cons,
    fun f hf => hfresh.free f (List.mem_cons_of_mem _ hf),
    fun f hf => hfresh.ordinary f (List.mem_cons_of_mem _ hf)⟩
  obtain ⟨used, hspec⟩ := mapPage_spec (h.mapPre hr hfresh')
    (by rw [hnumber]; exact inRange_of_lt hvpn) hflags hsmall hmap
  rw [hnumber, hframe] at hspec
  have havail : rest = used ++ vm'.avail := hspec.avail
  obtain ⟨used', hc⟩ := h.map hr hvpn hflags hcow hsmall hfresh hmap
  refine ⟨_, .map hr hvpn hflags huser hcow hsmall hfresh hmap, hc.owned h, rfl, hspec.walk_self,
    fun f hidle hf => ?_⟩
  refine ⟨⟨hc.idle hidle.1 hf hidle.2, hidle.2⟩, hspec.outside f (fun hmem => ?_) fun hused => ?_⟩
  · exact hidle.1 r hr (Or.inl hmem)
  · refine hf (List.mem_cons_of_mem _ ?_)
    rw [havail]
    exact List.mem_append_left _ hused

/-- With enough free frames there can be a fork. -/
theorem exists_fork (h : Owned cfg s) (hlapic : Mm.pageAligned cfg.lapic)
    (hioapic : Mm.pageAligned cfg.ioapic) (hvga : cfg.vga = none) {r child : Nat} {rest : List Nat}
    (hr : r ∈ s.roots) (hfresh : Fresh cfg s (child :: rest))
    (hrest : 6 + dupCost 3 ≤ rest.length) :
    ∃ t, Step cfg s (.fork r child) t ∧ Owned cfg t ∧ t.roots = insert child s.roots := by
  obtain ⟨vm', hfork⟩ := mmuNativeDuplicateDir_returns hlapic hioapic hvga
    (show (Vm.mk s.mem (child :: rest) []).avail = child :: rest from rfl) hrest
  have hstep := Step.fork hr hfresh hfork
  exact ⟨_, hstep, hstep.owned h, rfl⟩

end Exists

/-! ## A process that forks -/

theorem demo_idle {f : Nat} (hlapic : f ≠ 0xfee00) (hioapic : f ≠ 0xfec00) :
    Idle demoConfig (Sys.init demoMem) f := by
  refine ⟨fun _ hr => hr.elim, ?_⟩
  rintro (rfl | rfl | ⟨v, hv, -⟩)
  · exact hlapic (by decide)
  · exact hioapic (by decide)
  · cases hv

/-- The frames from {lit}`2 ^ 20` on are enough for a fork. -/
theorem demo_supply {s : Sys} (hidle : ∀ f, 2 ^ 20 ≤ f → Idle demoConfig s f) :
    Fresh demoConfig s (2 ^ 20 :: List.range' (2 ^ 20 + 1) (6 + dupCost 3)) := by
  have hlarge : ∀ f ∈ 2 ^ 20 :: List.range' (2 ^ 20 + 1) (6 + dupCost 3), 2 ^ 20 ≤ f := by
    intro f hf
    simp only [List.mem_cons, List.mem_range'_1] at hf
    omega
  refine fresh_of_idle ?_ (fun f hf => hidle f (hlarge f hf)) fun hf =>
    absurd (hlarge _ hf) (by decide)
  refine List.nodup_cons.mpr ⟨fun hf => ?_, List.nodup_range'⟩
  rw [List.mem_range'_1] at hf
  omega

/-- The first process, with the frames from 2048 on. -/
theorem demo_build : ∃ s, Step demoConfig (Sys.init demoMem) (.build 2048) s ∧ Owned demoConfig s ∧
    2048 ∈ s.roots ∧
    (∀ vpn, demoConfig.Device vpn →
      walk s.mem 3 2048 vpn = some (pte vpn (mmPresent + mmReadwrite))) ∧
    ∀ f, f ≠ 0xfee00 → f ≠ 0xfec00 → (f < 2048 ∨ 2056 ≤ f) →
      Idle demoConfig s f ∧ s.mem f = demoMem f := by
  have hfresh : Fresh demoConfig (Sys.init demoMem) (2048 :: List.range' 2049 7) := by
    refine fresh_of_idle (by decide) (fun f hf => ?_) (by decide)
    simp only [List.mem_cons, List.mem_range'_1] at hf
    exact demo_idle (by omega) (by omega)
  obtain ⟨s, hstep, howned, hroots, hdevices, hnext⟩ := exists_build
    (owned_init demoConfig demoMem) (by decide) (by decide) rfl hfresh (by decide)
  refine ⟨s, hstep, howned, ?_, hdevices, fun f hlapic hioapic hout => ?_⟩
  · rw [hroots]
    exact Or.inl rfl
  · refine hnext f (demo_idle hlapic hioapic) ?_
    simp only [List.mem_cons, List.mem_range'_1]
    omega

/-- A process stores a word and forks. -/
theorem demo_forked : ∃ s, Run (Step demoConfig) (Sys.init demoMem)
    [.build 2048, .map 2048 16, .write 2048 16 7 42, .fork 2048 (2 ^ 20)] s ∧
    2048 ∈ s.roots ∧ 2 ^ 20 ∈ s.roots := by
  obtain ⟨s₁, hstep₁, h₁, hlive₁, -, hidle₁⟩ := demo_build
  obtain ⟨s₂, hstep₂, h₂, hroots₂, hwalk₂, hnext₂⟩ := exists_map h₁ hlive₁
    (show 16 < userPages by decide) (show 7 < 4096 by decide) (by decide) (by decide) (by decide)
    (fresh_of_idle (show (1024 :: List.range' 4096 3).Nodup by decide)
      (fun f hf => (hidle₁ f (by simp [List.mem_range'_1] at hf; omega)
        (by simp [List.mem_range'_1] at hf; omega)
        (by simp [List.mem_range'_1] at hf; omega)).1) (by decide)) (by decide)
  have hlive₂ : 2048 ∈ s₂.roots := by
    rw [hroots₂]
    exact hlive₁
  have hfresh₂ : Fresh demoConfig s₂ (2 ^ 20 :: List.range' (2 ^ 20 + 1) (6 + dupCost 3)) := by
    refine demo_supply fun f hf => ?_
    have hidle := (hidle₁ f (by omega) (by omega) (by omega)).1
    exact (hnext₂ f hidle (by simp [List.mem_range'_1]; omega)).1
  have hwrite := h₂.write (i := 7) (w := 42) hfresh₂ hlive₂ (show 16 < userPages by decide) hwalk₂
  have hstep₃ : Step demoConfig s₂ (.write 2048 16 7 42)
      { s₂ with mem := s₂.mem.set (pteFrame (pte 1024 (7 ||| mmPresent))) 7 42 } :=
    .write hlive₂ (by decide) (by decide) hwalk₂ (by decide) (by decide)
  obtain ⟨s₄, hstep₄, -, hroots₄⟩ := exists_fork (hstep₃.owned h₂) (by decide) (by decide) rfl hlive₂
    hwrite.fresh_rest (by rw [List.length_range'])
  refine ⟨s₄, .snoc (.snoc (.snoc (.snoc .nil hstep₁) hstep₂) hstep₃) hstep₄, ?_, ?_⟩
  · rw [hroots₄]
    exact Or.inr hlive₂
  · rw [hroots₄]
    exact Or.inl rfl

/-- The child of the process is torn down. -/
theorem destroy_frees_exclusive_demo : ∃ s vm', Run (Step demoConfig) (Sys.init demoMem)
    [.build 2048, .map 2048 16, .write 2048 16 7 42, .fork 2048 (2 ^ 20)] s ∧
    2048 ∈ s.roots ∧ 2 ^ 20 ∈ s.roots ∧ mmuNativeDestroyDir (2 ^ 20) ⟨s.mem, [], []⟩ = vm' ∧
    vm'.freed.Nodup ∧ ∀ f ∈ vm'.freed, f ∈ s.alloc ∧ ¬ demoConfig.Reserved f ∧
      ∀ r' ∈ s.roots, r' ≠ 2 ^ 20 → ¬ Refers s.mem r' f ∧ ¬ Refers vm'.mem r' f := by
  obtain ⟨s, hrun, hparent, hchild⟩ := demo_forked
  exact ⟨s, _, hrun, hparent, hchild, rfl, destroy_frees_exclusive hrun hchild rfl⟩

end Arch
end Micael
