import Micael.Arch.Access
import Micael.Foundation.Loop

/-!
# The directory that the kernel boots with

`mmu_native_init` fills three static arrays: a PML4, one page directory pointer table and two page
directories, which map the first 2 GiB of physical memory in pages of 2 MiB.  The pointer table is
entered twice in the PML4 and each page directory twice in the pointer table, so that the memory is
found at 0 and at the top of the address space.

From then on the kernel converts addresses with a constant offset and does not walk tables.

Main results:

- Theorem {lit}`bootDirectory_eq`: what the loops of `mmu_native_init` leave in the tables.
- Theorem {lit}`translate_boot`: what the processor finds for every page.
- Theorem {lit}`boot_directory_agrees`: the tables agree with the conversion on the whole 2 GiB.
-/

namespace Micael
namespace Arch

open Foundation

/-! ## Addresses of the kernel -/

/-- `KPSTART`. -/
def kpstart : Nat := 0x100000

/-- `KVSTART`. -/
def kvstart : Nat := 0xffffffff80100000

/-- `amd64_p_to_v`. -/
def amd64PToV (paddr : Nat) : Nat := u64 (paddr + (kvstart - kpstart))

/-- `amd64_v_to_p`. -/
def amd64VToP (vaddr : Nat) : Nat := u64 (vaddr + 2 ^ 64 - (kvstart - kpstart))

/-- `V_TO_P`. -/
def vToP (addr : Nat) : Nat := u64 (u64 (addr + 2 ^ 64 - kvstart) + kpstart)

/-- `PML4_ATOEI`. -/
def pml4Atoei (addr : Nat) : Nat := addr >>> 39 &&& 0x1ff

/-- `PDPT_ATOEI`. -/
def pdptAtoei (addr : Nat) : Nat := addr >>> 30 &&& 0x1ff

/-- The addresses of the static arrays `__pml4`, `__pdpt` and `__pd`: whole pages of the kernel's
image, which do not overlap. -/
structure BootTables where
  pml4 : Nat
  pdpt : Nat
  pd : Nat
  pml4_aligned : Mm.pageAligned pml4
  pdpt_aligned : Mm.pageAligned pdpt
  pd_aligned : Mm.pageAligned pd
  pml4_image : kvstart ≤ pml4 ∧ pml4 + 4096 ≤ 2 ^ 64
  pdpt_image : kvstart ≤ pdpt ∧ pdpt + 4096 ≤ 2 ^ 64
  pd_image : kvstart ≤ pd ∧ pd + 8192 ≤ 2 ^ 64
  pdpt_apart : pdpt ≠ pml4
  pd_apart : pd ≠ pml4 ∧ pd ≠ pdpt ∧ pd + 4096 ≠ pml4 ∧ pd + 4096 ≠ pdpt

/-- The arrays at the start of the image. -/
instance : Inhabited BootTables where
  default :=
    { pml4 := kvstart
      pdpt := kvstart + 0x1000
      pd := kvstart + 0x2000
      pml4_aligned := by decide
      pdpt_aligned := by decide
      pd_aligned := by decide
      pml4_image := by decide
      pdpt_image := by decide
      pd_image := by decide
      pdpt_apart := by decide
      pd_apart := by decide }

/-- The words of the three arrays. -/
structure BootArrays where
  pml4 : Nat → Nat
  pdpt : Nat → Nat
  pd : Nat → Nat

/-- The entry for 2 MiB of physical memory. -/
def largeEntry (i : Nat) : Nat := i * (1 <<< 21) ||| mmPresent ||| mmReadwrite ||| mm2mb

/-- The entry for a table. -/
def tableEntry (addr : Nat) : Nat := vToP addr ||| mmPresent ||| mmReadwrite

/-- `mmu_native_init`, up to the load of `cr3`. -/
def mmuNativeInitArrays (t : BootTables) : BootArrays :=
  let zeroed : Nat → Nat := fun _ => 0
  let pml4 := Function.update (Function.update zeroed 0 (tableEntry t.pdpt)) (pml4Atoei kvstart)
    (tableEntry t.pdpt)
  let pd := (List.range (512 * 2)).foldl (fun pd i => Function.update pd i (largeEntry i)) zeroed
  let pdpt := (List.range 2).foldl (fun pdpt i =>
    let entry := tableEntry (t.pd + i * 512 * 8)
    Function.update (Function.update pdpt i entry) (pdptAtoei kvstart + i) entry) zeroed
  ⟨pml4, pdpt, pd⟩

/-- Physical memory after `mmu_native_init`.  The array `__pd` fills two frames. -/
def bootDirectory (t : BootTables) (mem : PhysMem) : PhysMem := fun f =>
  let arrays := mmuNativeInitArrays t
  if f = vToP t.pml4 / 4096 then arrays.pml4
  else if f = vToP t.pdpt / 4096 then arrays.pdpt
  else if f = vToP t.pd / 4096 then arrays.pd
  else if f = vToP t.pd / 4096 + 1 then fun i => arrays.pd (i + 512)
  else mem f

/-- The walk of the processor for an address, with 2 MiB pages; `cr3` is the address of the PML4. -/
def hardwareWalk (mem : PhysMem) (cr3 vaddr : Nat) : Option Nat :=
  if ¬ canonical vaddr then none
  else (translate mem 3 (cr3 / 4096) (vaddr / 4096)).map fun frame => frame * 4096 + vaddr % 4096

/-! ## The contents of the arrays -/

/-- In the image of the kernel `V_TO_P` is a subtraction. -/
theorem vToP_eq {addr : Nat} (hlow : kvstart ≤ addr) (hhigh : addr < 2 ^ 64) :
    vToP addr = addr - 0xffffffff80000000 := by
  unfold vToP u64
  unfold kvstart kpstart at *
  omega

/-- The entry for a table has its frame and two flags. -/
theorem tableEntry_eq {addr : Nat} (haligned : Mm.pageAligned addr) (hlow : kvstart ≤ addr)
    (hhigh : addr < 2 ^ 64) :
    tableEntry addr = pte (vToP addr / 4096) (mmPresent + mmReadwrite) := by
  have hpaddr : vToP addr = pte (vToP addr / 4096) 0 := by
    rw [vToP_eq hlow hhigh]
    unfold Mm.pageAligned Mm.pageSize at haligned
    unfold pte
    omega
  calc tableEntry addr
      = pte (vToP addr / 4096) 0 ||| mmPresent ||| mmReadwrite := by rw [tableEntry, ← hpaddr]
    _ = pte (vToP addr / 4096) (0 ||| mmPresent ||| mmReadwrite) := by
        rw [pte_or (by decide) (by decide), pte_or (by decide) (by decide)]

theorem largeEntry_eq (i : Nat) :
    largeEntry i = pte (i * 512) (mmPresent + mmReadwrite + mm2mb) := by
  have hpaddr : i * (1 <<< 21) = pte (i * 512) 0 := by
    unfold pte
    omega
  rw [largeEntry, hpaddr, pte_or (by decide) (by decide), pte_or (by decide) (by decide),
    pte_or (by decide) (by decide)]
  rfl

/-- The loop over the page directories. -/
theorem boot_pd (t : BootTables) {i : Nat} (hi : i < 1024) :
    (mmuNativeInitArrays t).pd i = pte (i * 512) (mmPresent + mmReadwrite + mm2mb) := by
  have hloop : ∀ n, ∀ j < n, (List.range n).foldl (fun (pd : Nat → Nat) i =>
      Function.update pd i (largeEntry i)) (fun _ => 0) j = largeEntry j := by
    intro n
    refine foldl_range_invariant (fun n (pd : Nat → Nat) => ∀ j < n, pd j = largeEntry j) ?_ ?_
    · intro j hj
      omega
    · intro n _ pd hpd j hj
      by_cases hjn : j = n
      · rw [hjn, Function.update_self]
      · rw [Function.update_of_ne hjn]
        exact hpd j (by omega)
  unfold mmuNativeInitArrays
  dsimp only
  rw [hloop (512 * 2) i (by omega), largeEntry_eq]

/-- The loop over the two slots of the pointer table, each written twice. -/
theorem pointer_loop (entry : Nat → Nat) {base : Nat} (hbase : base = 510) (i : Nat) :
    (List.range 2).foldl (fun (pdpt : Nat → Nat) j =>
      Function.update (Function.update pdpt j (entry j)) (base + j) (entry j)) (fun _ => 0) i =
      if i = 0 ∨ i = 510 then entry 0 else if i = 1 ∨ i = 511 then entry 1 else 0 := by
  have hturns : List.range 2 = [0, 1] := rfl
  subst hbase
  rw [hturns, List.foldl_cons, List.foldl_cons, List.foldl_nil]
  simp only [Function.update_apply]
  split_ifs <;> first | rfl | omega

/-- The tables hold what {lit}`mmuNativeInit` says. -/
theorem bootDirectory_eq (t : BootTables) (mem : PhysMem) (f : Nat) {i : Nat} (hi : i < 512) :
    bootDirectory t mem f i = mmuNativeInit (vToP t.pml4 / 4096) (vToP t.pdpt / 4096)
      (vToP t.pd / 4096) (vToP t.pd / 4096 + 1) mem f i := by
  have hpdpt : tableEntry t.pdpt = pte (vToP t.pdpt / 4096) (mmPresent + mmReadwrite) :=
    tableEntry_eq t.pdpt_aligned t.pdpt_image.1 (by have := t.pdpt_image.2; omega)
  have hpd : ∀ j < 2, tableEntry (t.pd + j * 512 * 8) =
      pte (vToP t.pd / 4096 + j) (mmPresent + mmReadwrite) := by
    intro j hj
    have haligned := t.pd_aligned
    have himage := t.pd_image
    have hfirst := vToP_eq himage.1 (by omega)
    have hsecond : vToP (t.pd + j * 512 * 8) = t.pd + j * 512 * 8 - 0xffffffff80000000 :=
      vToP_eq (by omega) (by omega)
    unfold Mm.pageAligned Mm.pageSize at haligned
    have hframe : vToP (t.pd + j * 512 * 8) / 4096 = vToP t.pd / 4096 + j := by
      unfold kvstart at himage
      omega
    rw [tableEntry_eq _ (by omega) (by omega), hframe]
    unfold Mm.pageAligned Mm.pageSize
    omega
  have hkv : pml4Atoei kvstart = 511 ∧ pdptAtoei kvstart = 510 := by decide
  unfold bootDirectory mmuNativeInit
  split
  · -- the PML4
    simp only [mmuNativeInitArrays, hkv.1, hpdpt, Function.update_apply]
    by_cases hlast : i = 511
    · simp [hlast]
    · simp [hlast]
  · split
    · have hloop := pointer_loop (fun j => tableEntry (t.pd + j * 512 * 8)) hkv.2 i
      rw [hpd 0 (by omega), hpd 1 (by omega), Nat.add_zero] at hloop
      exact hloop
    · split
      · exact boot_pd t (by omega)
      · split
        · exact boot_pd t (by omega)
        · rfl

/-! ## The walk of the processor -/

section Walk

variable {pml4 pdpt pd vpn : Nat} {mem : PhysMem}

theorem translate_succ (mem : PhysMem) (k f vpn : Nat) : translate mem (k + 1) f vpn =
    if ¬ isPresent (mem f (tableIndex (k + 1) vpn)) then none
    else if k = 0 ∧ is2mb (mem f (tableIndex (k + 1) vpn)) then
      some (pteFrame (mem f (tableIndex (k + 1) vpn)) + tableIndex 0 vpn)
    else translate mem k (pteFrame (mem f (tableIndex (k + 1) vpn))) vpn :=
  rfl

/-- The walk reads words of the tables only. -/
theorem translate_congr_words {mem mem' : PhysMem} (h : ∀ f, ∀ i < 512, mem' f i = mem f i)
    (k f vpn : Nat) : translate mem' k f vpn = translate mem k f vpn := by
  induction k generalizing f with
  | zero => rw [translate, translate, h f _ (tableIndex_lt 0 vpn)]
  | succ k ih => rw [translate_succ, translate_succ, h f _ (tableIndex_lt (k + 1) vpn), ih]

/-- An entry for a table leads to the table. -/
theorem translate_of_table (next : Nat) {k f : Nat} (hk : 0 < k)
    (hword : mem f (tableIndex (k + 1) vpn) = pte next (mmPresent + mmReadwrite)) :
    translate mem (k + 1) f vpn = translate mem k next vpn := by
  have hpresent : isPresent (pte next (mmPresent + mmReadwrite)) = true :=
    (testBit_pte (by decide) (by decide)).trans (by decide)
  rw [translate_succ, hword, hpresent, pteFrame_pte (by decide), if_neg (by decide),
    if_neg (by omega)]

/-- An entry for 2 MiB. -/
theorem translate_of_large {f frame : Nat}
    (hword : mem f (tableIndex 1 vpn) = pte frame (mmPresent + mmReadwrite + mm2mb)) :
    translate mem 1 f vpn = some (frame + tableIndex 0 vpn) := by
  have hpresent : isPresent (pte frame (mmPresent + mmReadwrite + mm2mb)) = true :=
    (testBit_pte (by decide) (by decide)).trans (by decide)
  have hlarge : is2mb (pte frame (mmPresent + mmReadwrite + mm2mb)) = true :=
    (testBit_pte (by decide) (by decide)).trans (by decide)
  rw [translate_succ, hword, hpresent, hlarge, pteFrame_pte (by decide), if_neg (by decide),
    if_pos ⟨rfl, rfl⟩]

/-- The frame of a page: slots 510 and 511 of the pointer table are like slots 0 and 1, and all other
pages are not mapped. -/
def bootFrame (vpn : Nat) : Option Nat :=
  if tableIndex 3 vpn = 0 ∨ tableIndex 3 vpn = 511 then
    if tableIndex 2 vpn = 0 ∨ tableIndex 2 vpn = 510 then
      some (tableIndex 1 vpn * 512 + tableIndex 0 vpn)
    else if tableIndex 2 vpn = 1 ∨ tableIndex 2 vpn = 511 then
      some ((tableIndex 1 vpn + 512) * 512 + tableIndex 0 vpn)
    else none
  else none

/-- What the processor finds for every page. -/
theorem translate_boot (hpdpt : pdpt ≠ pml4) (hpd : pd ≠ pml4 ∧ pd ≠ pdpt)
    (hpd' : pd + 1 ≠ pml4 ∧ pd + 1 ≠ pdpt) :
    translate (mmuNativeInit pml4 pdpt pd (pd + 1) mem) 3 pml4 vpn = bootFrame vpn := by
  unfold bootFrame
  split
  · next htop =>
      rw [translate_of_table pdpt (by decide) (by simp [mmuNativeInit, htop])]
      split
      · next hlow =>
          rw [translate_of_table pd (by decide) (by simp [mmuNativeInit, hpdpt, hlow])]
          exact translate_of_large (by simp [mmuNativeInit, hpd])
      · next hlow =>
          split
          · next hhigh =>
              rw [translate_of_table (pd + 1) (by decide)
                (by simp [mmuNativeInit, hpdpt, hlow, hhigh])]
              exact translate_of_large (by simp [mmuNativeInit, hpd'])
          · next hhigh => simp [translate_succ, mmuNativeInit, hpdpt, hlow, hhigh]
  · next htop => simp [translate_succ, mmuNativeInit, htop]

end Walk

/-- The boot directory, as the processor walks it. -/
theorem translate_bootDirectory (t : BootTables) (mem : PhysMem) (vpn : Nat) :
    translate (bootDirectory t mem) 3 (vToP t.pml4 / 4096) vpn = bootFrame vpn := by
  rw [translate_congr_words fun f i hi => bootDirectory_eq t mem f hi]
  have haligned := t.pml4_aligned
  have haligned' := t.pdpt_aligned
  have haligned'' := t.pd_aligned
  have himage := t.pml4_image
  have himage' := t.pdpt_image
  have himage'' := t.pd_image
  have hapart := t.pdpt_apart
  have hapart' := t.pd_apart
  have hpml4 := vToP_eq himage.1 (by omega)
  have hpdpt := vToP_eq himage'.1 (by omega)
  have hpd := vToP_eq himage''.1 (by omega)
  unfold Mm.pageAligned Mm.pageSize at *
  unfold kvstart at himage himage' himage''
  refine translate_boot ?_ ⟨?_, ?_⟩ ⟨?_, ?_⟩ <;> omega

/-- The processor finds a physical address at every address whose lower indices are its own. -/
theorem hardwareWalk_boot (t : BootTables) (mem : PhysMem) {v x : Nat} (hx : x < 2 ^ 31)
    (hcanonical : canonical v)
    (htop : tableIndex 3 (v / 4096) = 0 ∨ tableIndex 3 (v / 4096) = 511)
    (hslot : tableIndex 2 (v / 4096) = x / 2 ^ 30 ∨ tableIndex 2 (v / 4096) = 510 + x / 2 ^ 30)
    (hlarge : tableIndex 1 (v / 4096) = x / 2 ^ 21 % 512)
    (hpage : tableIndex 0 (v / 4096) = x / 2 ^ 12 % 512) (hbyte : v % 4096 = x % 4096) :
    hardwareWalk (bootDirectory t mem) (vToP t.pml4) v = some x := by
  have hframe : translate (bootDirectory t mem) 3 (vToP t.pml4 / 4096) (v / 4096) =
      some (x / 4096) := by
    rw [translate_bootDirectory, bootFrame, if_pos htop, hlarge, hpage]
    by_cases hlow : x < 2 ^ 30
    · have hpd : x / 2 ^ 21 % 512 * 512 + x / 2 ^ 12 % 512 = x / 4096 := by omega
      rw [if_pos (by omega), hpd]
    · have hpd : (x / 2 ^ 21 % 512 + 512) * 512 + x / 2 ^ 12 % 512 = x / 4096 := by omega
      rw [if_neg (by omega), if_pos (by omega), hpd]
  have haddr : x / 4096 * 4096 + v % 4096 = x := by omega
  rw [hardwareWalk, if_neg (not_not.mpr hcanonical), hframe, Option.map_some, haddr]

/-- For every physical address below 2 GiB, the processor finds it at its address in the kernel and at
itself, and the conversion takes it back; an address of another entry of the PML4 is not mapped. -/
theorem boot_directory_agrees (t : BootTables) (mem : PhysMem) :
    (∀ x < 2 ^ 31, hardwareWalk (bootDirectory t mem) (vToP t.pml4) (amd64PToV x) = some x ∧
      hardwareWalk (bootDirectory t mem) (vToP t.pml4) x = some x ∧ amd64VToP (amd64PToV x) = x) ∧
    ∀ a, pml4Atoei a ≠ 0 → pml4Atoei a ≠ 511 →
      hardwareWalk (bootDirectory t mem) (vToP t.pml4) a = none := by
  constructor
  · intro x hx
    have hvirt : amd64PToV x = x + 0xffffffff80000000 := by
      unfold amd64PToV u64 kvstart kpstart
      omega
    refine ⟨hardwareWalk_boot t mem hx ?_ (.inr ?_) (.inr ?_) ?_ ?_ ?_,
      hardwareWalk_boot t mem hx ?_ (.inl ?_) (.inl ?_) ?_ ?_ rfl, ?_⟩
    · unfold canonical
      omega
    · unfold tableIndex
      omega
    · unfold tableIndex
      omega
    · unfold tableIndex
      omega
    · unfold tableIndex
      omega
    · omega
    · unfold canonical
      omega
    · unfold tableIndex
      omega
    · unfold tableIndex
      omega
    · unfold tableIndex
      omega
    · unfold tableIndex
      omega
    · rw [hvirt]
      unfold amd64VToP u64 kvstart kpstart
      omega
  · intro a hzero hlast
    have hindex : tableIndex 3 (a / 4096) = pml4Atoei a := by
      unfold tableIndex pml4Atoei
      rw [Nat.shiftRight_eq_div_pow, show (0x1ff : Nat) = 2 ^ 9 - 1 from rfl,
        Nat.and_two_pow_sub_one_eq_mod]
      omega
    unfold hardwareWalk
    split
    · rfl
    · rw [translate_bootDirectory, bootFrame, hindex, if_neg (by omega), Option.map_none]

end Arch
end Micael
