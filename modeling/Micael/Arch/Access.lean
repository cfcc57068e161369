import Micael.Arch.MapPage
import Micael.Foundation.Loop

/-!
# Accesses of the processor through a directory

A byte of a frame is a byte of one of its words.  The processor finds the frame of an address by
reading one entry of a table after the other; an access of user code needs the user bit in each of
them, and a write of user code the write bit.  The kernel does not set the bit of `cr0` that would
make the processor heed the write bit for the kernel's own accesses.

An access to a page that is not present ends in the endless loop of `mmu_pf_handler`, one to an
address that is not canonical in that of `gpf_handler`.

Main results:

- Theorem {lit}`translate_eq_walk`: outside pages of 2 MiB the processor arrives where a walk ends.
- Theorem {lit}`mapTable_user`: a user page gets the user bit in every entry on the way to it.
- Theorem {lit}`copyBytes_spec`: what a copy to a page that is mapped leaves behind.
-/

namespace Micael
namespace Arch

open Foundation

/-! ## Bytes -/

/-- The byte `j` of a word. -/
def wordByte (w j : Nat) : UInt8 := UInt8.ofNat (w / 256 ^ j)

/-- The word with another byte `j`. -/
def putWordByte (w j : Nat) (b : UInt8) : Nat :=
  w % 256 ^ j + 256 ^ j * (b.toNat + 256 * (w / 256 ^ (j + 1)))

/-- The byte `o` of a frame. -/
def frameByte (mem : PhysMem) (f o : Nat) : UInt8 := wordByte (mem f (o / 8)) (o % 8)

/-- Memory with another byte `o` of a frame. -/
def putFrameByte (mem : PhysMem) (f o : Nat) (b : UInt8) : PhysMem :=
  mem.set f (o / 8) (putWordByte (mem f (o / 8)) (o % 8) b)

section Bytes

variable {w i j : Nat} {b : UInt8}

theorem wordByte_putWordByte_self : wordByte (putWordByte w j b) j = b := by
  have hlow : w % 256 ^ j < 256 ^ j := Nat.mod_lt _ (by positivity)
  have hdiv : putWordByte w j b / 256 ^ j = b.toNat + 256 * (w / 256 ^ (j + 1)) := by
    rw [putWordByte, Nat.add_mul_div_left _ _ (by positivity), Nat.div_eq_of_lt hlow, Nat.zero_add]
  apply UInt8.toNat.inj
  have hbyte := b.toNat_lt
  rw [wordByte, hdiv, UInt8.toNat_ofNat']
  omega

/-- The bytes below the one that changes. -/
theorem putWordByte_mod : putWordByte w j b % 256 ^ j = w % 256 ^ j := by
  rw [putWordByte, Nat.add_mul_mod_self_left, Nat.mod_mod]

/-- The bytes above the one that changes. -/
theorem putWordByte_div : putWordByte w j b / 256 ^ (j + 1) = w / 256 ^ (j + 1) := by
  have hlow : w % 256 ^ j < 256 ^ j := Nat.mod_lt _ (by positivity)
  have hbyte := b.toNat_lt
  rw [pow_succ, ← Nat.div_div_eq_div_mul, putWordByte, Nat.add_mul_div_left _ _ (by positivity),
    Nat.div_eq_of_lt hlow, Nat.zero_add, ← pow_succ]
  omega

theorem wordByte_putWordByte_of_ne (hne : i ≠ j) :
    wordByte (putWordByte w j b) i = wordByte w i := by
  rcases Nat.lt_or_gt_of_ne hne with hlt | hlt
  · -- the byte is a digit of the part below
    have hdigit : ∀ v : Nat, wordByte v i = wordByte (v % 256 ^ j) i := by
      intro v
      apply UInt8.toNat.inj
      obtain ⟨m, rfl⟩ := Nat.exists_eq_add_of_lt hlt
      have hpow : 256 ^ (i + m + 1) = 256 ^ i * (256 * 256 ^ m) := by ring
      rw [wordByte, wordByte, UInt8.toNat_ofNat', UInt8.toNat_ofNat', hpow,
        Nat.mod_mul_right_div_self, Nat.mod_mul_right_mod]
    rw [hdigit, putWordByte_mod, ← hdigit]
  · obtain ⟨m, rfl⟩ := Nat.exists_eq_add_of_lt hlt
    have hpow : 256 ^ (j + m + 1) = 256 ^ (j + 1) * 256 ^ m := by ring
    rw [wordByte, wordByte, hpow, ← Nat.div_div_eq_div_mul, ← Nat.div_div_eq_div_mul,
      putWordByte_div]

theorem frameByte_putFrameByte (mem : PhysMem) (f o p : Nat) (b : UInt8) :
    frameByte (putFrameByte mem f o b) f p = if p = o then b else frameByte mem f p := by
  unfold frameByte putFrameByte
  by_cases hword : p / 8 = o / 8
  · rw [hword, set_self]
    by_cases hbyte : p % 8 = o % 8
    · have hp : p = o := by omega
      rw [hp, if_pos rfl, wordByte_putWordByte_self]
    · have hp : p ≠ o := fun h => hbyte (h ▸ rfl)
      rw [if_neg hp, wordByte_putWordByte_of_ne hbyte]
  · have hp : p ≠ o := fun h => hword (h ▸ rfl)
    rw [set_of_ne_index _ _ _ hword, if_neg hp]

theorem putFrameByte_of_ne (mem : PhysMem) {f g : Nat} (o : Nat) (b : UInt8) (h : g ≠ f) :
    putFrameByte mem f o b g = mem g :=
  set_of_ne_frame mem _ _ h

end Bytes

/-! ## Translation -/

/-- Bits 47 to 63 of an address are equal. -/
def canonical (a : Nat) : Prop := a < 2 ^ 47 ∨ 2 ^ 64 - 2 ^ 47 ≤ a

instance (a : Nat) : Decidable (canonical a) :=
  inferInstanceAs (Decidable (a < 2 ^ 47 ∨ 2 ^ 64 - 2 ^ 47 ≤ a))

/-- The page has addresses that the processor takes, and is not in the kernel's part of a directory. -/
def UserPage (page : Nat) : Prop :=
  page < 2 ^ 35 ∨ 2 ^ 52 - 2 ^ 35 ≤ page ∧ page < 2 ^ 52 - 2 ^ 27

theorem UserPage.succ_lt {page : Nat} (h : UserPage page) : page + 1 < 2 ^ 52 := by
  unfold UserPage at h
  omega

theorem UserPage.canonical {page o : Nat} (h : UserPage page) (ho : o < 4096) :
    canonical (page * 4096 + o) := by
  unfold UserPage at h
  unfold Arch.canonical
  omega

theorem UserPage.inRange {page : Nat} (h : UserPage page) : InRange 3 page := by
  unfold UserPage at h
  have hcount : entryCount 3 = 511 := rfl
  unfold InRange tableIndex
  omega

/-- Two such pages differ in an index. -/
theorem UserPage.mod_ne {p q : Nat} (hp : UserPage p) (hq : UserPage q) (hne : p ≠ q) :
    p % 512 ^ (3 + 1) ≠ q % 512 ^ (3 + 1) := by
  unfold UserPage at hp hq
  omega

/-- The frame of a page, from the table `f` of a level on. -/
def translate (mem : PhysMem) : Nat → Nat → Nat → Option Nat
  | 0, f, vpn =>
      let w := mem f (tableIndex 0 vpn)
      if isPresent w then some (pteFrame w) else none
  | k + 1, f, vpn =>
      let w := mem f (tableIndex (k + 1) vpn)
      if ¬ isPresent w then none
      else if k = 0 ∧ is2mb w then some (pteFrame w + tableIndex 0 vpn)
      else translate mem k (pteFrame w) vpn

/-- The entries that the processor reads on the way to a page. -/
def entries (mem : PhysMem) : Nat → Nat → Nat → List Nat
  | 0, f, vpn => [mem f (tableIndex 0 vpn)]
  | k + 1, f, vpn =>
      let w := mem f (tableIndex (k + 1) vpn)
      w :: if isPresent w ∧ ¬ (k = 0 ∧ is2mb w) then entries mem k (pteFrame w) vpn else []

section Translation

variable {mem mem' : PhysMem} {k f g vpn w : Nat}

/-- The processor stops at an absent entry. -/
theorem translate_of_absent (h : isPresent (mem f (tableIndex (k + 1) vpn)) = false) :
    translate mem (k + 1) f vpn = none := by
  rw [translate, h]
  exact if_pos Bool.false_ne_true

/-- Outside pages of 2 MiB the processor arrives where a walk ends. -/
theorem translate_eq_walk (hbelow : k ≤ 3) (hok : UpperOk mem k f) (hrange : InRange k vpn) :
    translate mem k f vpn = (walk mem k f vpn).map pteFrame := by
  induction k generalizing f with
  | zero =>
      rw [translate, walk]
      split <;> rfl
  | succ k ih =>
      rw [translate, walk]
      by_cases hpresent : isPresent (mem f (tableIndex (k + 1) vpn)) = true
      · obtain ⟨_, h2mb, hrest⟩ := hok _ hrange hpresent
        have hsmall : ¬ (k = 0 ∧ is2mb (mem f (tableIndex (k + 1) vpn)) = true) := by simp [h2mb]
        rw [if_neg (not_not_intro hpresent), if_neg hsmall, if_pos hpresent]
        exact ih (by omega) hrest (inRange_of_ne (by omega))
      · rw [if_pos hpresent, if_neg hpresent]
        rfl

/-- Translation depends on the words of the tables only. -/
theorem translate_congr (h : ∀ g ∈ tables mem k f, mem' g = mem g) (hok : UpperOk mem k f)
    (hbelow : k ≤ 3) (hrange : InRange k vpn) :
    translate mem' k f vpn = translate mem k f vpn := by
  rw [translate_eq_walk hbelow (upperOk_congr h hok) hrange, translate_eq_walk hbelow hok hrange,
    walk_congr h hrange hbelow]

/-- The entries of a page depend on the words of the tables only. -/
theorem entries_congr (h : ∀ g ∈ tables mem k f, mem' g = mem g) (hbelow : k ≤ 3)
    (hrange : InRange k vpn) : entries mem' k f vpn = entries mem k f vpn := by
  induction k generalizing f with
  | zero => rw [entries, entries, h f (self_mem_tables mem 0 f)]
  | succ k ih =>
      rw [entries, entries, h f (self_mem_tables mem (k + 1) f)]
      congr 1
      split
      · next hpresent =>
          apply ih _ (by omega) (inRange_of_ne (by omega))
          intro g hg
          exact h g (tables_subset_of_entry hrange hpresent.1 hg)
      · rfl

end Translation

theorem isUser_or {w flags : Nat} : isUser (w ||| flags) = (isUser w || isUser flags) :=
  Nat.testBit_or ..

/-- A user page gets the user bit in every entry on the way to it. -/
theorem mapTable_user {target vpn flags k f : Nat} {vm vm' : Vm} (hk : k ≤ 3)
    (hpre : MapPre k f vm) (hrange : InRange k vpn) (hflags : flags < 4096)
    (h2mb : is2mb flags = false) (huser : isUser flags = true)
    (hmap : mapTable target vpn flags k f vm = .ok vm') :
    ∀ w ∈ entries vm'.mem k f vpn, isUser w = true := by
  induction k generalizing f vm with
  | zero =>
      obtain rfl := Except.ok.inj hmap
      intro w hw
      have hw : w = pte target (flags ||| mmPresent) :=
        (List.mem_singleton.mp hw).trans (set_self _ _ _ _)
      rw [hw]
      have hbit := testBit_pte (f := target) (or_mmPresent_lt hflags) (show 2 < 12 by decide)
      have hor : isUser (flags ||| mmPresent) = true := by rw [isUser_or, huser, Bool.true_or]
      exact hbit.trans hor
  | succ k ih =>
      rw [mapTable] at hmap
      cases hensure : ensureEntry f (tableIndex (k + 1) vpn) vm with
      | error e =>
          rw [hensure] at hmap
          cases hmap
      | ok vm₁ =>
          rw [hensure] at hmap
          dsimp only at hmap
          obtain ⟨used, hgrow, hpresent, -⟩ := ensureEntry_spec hpre hk hrange hensure
          have hpre₁ := hgrow.pre hpre
          obtain ⟨hor, -⟩ := grow_or hpre₁ hk hpresent hflags h2mb rfl
          have hpre₂ := hor.pre hpre₁
          generalize hvm₂ : ({ vm₁ with
            mem := vm₁.mem.set f (tableIndex (k + 1) vpn)
              (vm₁.mem f (tableIndex (k + 1) vpn) ||| flags) } : Vm) = vm₂ at hmap hor hpre₂
          have hword : vm₂.mem f (tableIndex (k + 1) vpn) =
              vm₁.mem f (tableIndex (k + 1) vpn) ||| flags := by
            rw [← hvm₂]
            exact set_self _ _ _ _
          have hmem₂ : vm₁.mem.set f (tableIndex (k + 1) vpn)
              (vm₁.mem f (tableIndex (k + 1) vpn) ||| flags) = vm₂.mem := by rw [← hvm₂]
          rw [hmem₂] at hmap
          have hpresent₂ : isPresent (vm₂.mem f (tableIndex (k + 1) vpn)) = true := by
            rw [hword, isPresent_or, hpresent, Bool.true_or]
          have hbelow := hpre₂.below hrange hpresent₂
          obtain ⟨used₁, hspec⟩ := mapTable_spec (by omega) hbelow (inRange_of_ne (by omega)) hflags
            h2mb hmap
          -- what is done below leaves the entry
          have hself := hspec.toGrow.self_eq hpre₂ hrange hpresent₂
          intro w hw
          rw [entries, hself] at hw
          rcases List.mem_cons.mp hw with rfl | hw
          · rw [hword, isUser_or, huser, Bool.or_true]
          · split at hw
            · exact ih (by omega) hbelow (inRange_of_ne (by omega)) hmap w hw
            · cases hw

/-! ## Copies -/

/-- A write of the kernel to a virtual address. -/
def storeByte (pml4 : Nat) (vm : Vm) (a : Nat) (b : UInt8) : Except Halt Vm :=
  if ¬ canonical a then .error .hang
  else
    match translate vm.mem 3 pml4 (a / 4096) with
    | none => .error .hang
    | some f => .ok { vm with mem := putFrameByte vm.mem f (a % 4096) b }

/-- `kmemcpy` to a virtual address, from bytes that the copy does not change. -/
def copyBytes (pml4 dst : Nat) (src : Nat → UInt8) (size : Nat) (vm : Vm) : Except Halt Vm :=
  (List.range size).foldlM (fun vm i => storeByte pml4 vm (u64 (dst + i)) (src i)) vm

/-- What a copy to the frame `f`, from its offset `o` on, leaves behind. -/
structure Copied (f o size : Nat) (src : Nat → UInt8) (vm vm' : Vm) : Prop where
  avail : vm'.avail = vm.avail
  freed : vm'.freed = vm.freed
  other : ∀ g, g ≠ f → vm'.mem g = vm.mem g
  bytes : ∀ p, frameByte vm'.mem f p =
    if o ≤ p ∧ p < o + size then src (p - o) else frameByte vm.mem f p

section Copies

variable {pml4 dst size f o page : Nat} {src : Nat → UInt8} {vm vm' : Vm}

theorem Copied.refl (f o : Nat) (src : Nat → UInt8) (vm : Vm) : Copied f o 0 src vm vm where
  avail := rfl
  freed := rfl
  other _ _ := rfl
  bytes p := by rw [if_neg (by omega)]

/-- One more byte. -/
theorem Copied.step (h : Copied f o size src vm vm') : Copied f o (size + 1) src vm
    { vm' with mem := putFrameByte vm'.mem f (o + size) (src size) } where
  avail := h.avail
  freed := h.freed
  other g hg := (putFrameByte_of_ne _ _ _ hg).trans (h.other g hg)
  bytes p := by
    rw [frameByte_putFrameByte, h.bytes p]
    by_cases hp : p = o + size
    · subst hp
      simp
    · have hiff : (o ≤ p ∧ p < o + (size + 1)) ↔ (o ≤ p ∧ p < o + size) := by omega
      simp only [hp, if_false, hiff]

/-- A copy to a frame that is no table keeps the directory. -/
theorem Copied.tables_eq (h : Copied f o size src vm vm') (hf : f ∉ tables vm.mem 3 pml4) :
    ∀ g ∈ tables vm.mem 3 pml4, vm'.mem g = vm.mem g :=
  fun g hg => h.other g fun hgf => hf (hgf ▸ hg)

theorem Copied.pre (h : Copied f o size src vm vm') (hf : f ∉ tables vm.mem 3 pml4)
    (hpre : MapPre 3 pml4 vm) : MapPre 3 pml4 vm' := by
  have heq := h.tables_eq hf
  refine ⟨?_, upperOk_congr heq hpre.upper, h.avail ▸ hpre.avail, ?_⟩
  · rw [tables_congr heq]
    exact hpre.nodup
  · rw [tables_congr heq, h.avail]
    exact hpre.fresh

/-- What a copy to a page that is mapped leaves behind. -/
theorem copyBytes_spec (hpre : MapPre 3 pml4 vm) (hpage : UserPage page)
    (htranslate : translate vm.mem 3 pml4 page = some f) (hf : f ∉ tables vm.mem 3 pml4)
    (hsize : o + size ≤ 4096) :
    ∃ vm', copyBytes pml4 (page * 4096 + o) src size vm = .ok vm' ∧ Copied f o size src vm vm' := by
  apply foldlM_range_returns (fun i vm' => Copied f o i src vm vm') (Copied.refl f o src vm)
  intro i hi u hu
  have hlt := hpage.succ_lt
  have haddr : u64 (page * 4096 + o + i) = page * 4096 + (o + i) := by
    rw [u64_eq_of_lt (by omega), Nat.add_assoc]
  have hcanonical : canonical (page * 4096 + (o + i)) := hpage.canonical (by omega)
  have hdiv : (page * 4096 + (o + i)) / 4096 = page := by omega
  have hmod : (page * 4096 + (o + i)) % 4096 = o + i := by omega
  have hframe : translate u.mem 3 pml4 page = some f := by
    rw [translate_congr (hu.tables_eq hf) hpre.upper (le_refl 3) hpage.inRange, htranslate]
  refine ⟨_, ?_, hu.step⟩
  rw [storeByte, haddr, if_neg (not_not_intro hcanonical), hdiv, hframe, hmod]

end Copies

end Arch
end Micael
