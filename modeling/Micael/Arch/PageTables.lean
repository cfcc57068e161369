import Micael.Arch.Mmu

/-!
# Directories as trees of tables

A directory is described by the list of its tables, in the order a depth-first walk meets
them, and by what the walk of each page ends at.

Main results:

- Theorem {lit}`tables_congr`, {lit}`walk_congr`: both depend on the words of the tables only.
- Theorem {lit}`mem_tables_succ`, {lit}`nodup_tables_succ`: the tables below different entries of a
  table are different when no table occurs twice.
-/

namespace Micael
namespace Arch

/-! ## Words -/

section Words

variable {w f i j flags : Nat}

theorem pteFrame_pte (hflags : flags < 4096) : pteFrame (pte f flags) = f := by
  unfold pteFrame pte
  omega

theorem testBit_pte (hflags : flags < 4096) (hi : i < 12) :
    (pte f flags).testBit i = flags.testBit i := by
  have := Nat.testBit_two_pow_mul_add f (show flags < 2 ^ 12 by omega) i
  rw [if_pos hi] at this
  rwa [pte, Nat.mul_comm f 4096]

theorem pteFrame_or (hflags : flags < 4096) : pteFrame (w ||| flags) = pteFrame w := by
  have hshift : ∀ n : Nat, n / 4096 = n >>> 12 := fun n => by
    rw [Nat.shiftRight_eq_div_pow]
  have hzero : flags >>> 12 = 0 := by
    rw [← hshift]
    omega
  rw [pteFrame, pteFrame, hshift, hshift, Nat.shiftRight_or_distrib, hzero, Nat.or_zero]

theorem pte_or {flags' : Nat} (hflags : flags < 4096) (hflags' : flags' < 4096) :
    pte f flags ||| flags' = pte f (flags ||| flags') := by
  apply Nat.eq_of_testBit_eq
  intro i
  have hor : flags ||| flags' < 2 ^ 12 := Nat.or_lt_two_pow (by omega) (by omega)
  rw [pte, pte, Nat.mul_comm, Nat.testBit_or, show (4096 : Nat) = 2 ^ 12 from rfl,
    Nat.testBit_two_pow_mul_add f (by omega), Nat.testBit_two_pow_mul_add f hor, Nat.testBit_or]
  split
  · rfl
  · next hi =>
      rw [Nat.testBit_lt_two_pow (lt_of_lt_of_le (show flags' < 2 ^ 12 by omega)
        (Nat.pow_le_pow_right (by omega) (by omega))), Bool.or_false]

theorem isPresent_or : isPresent (w ||| flags) = (isPresent w || isPresent flags) :=
  Nat.testBit_or ..

theorem isReadwrite_or : isReadwrite (w ||| flags) = (isReadwrite w || isReadwrite flags) :=
  Nat.testBit_or ..

theorem is2mb_or : is2mb (w ||| flags) = (is2mb w || is2mb flags) :=
  Nat.testBit_or ..

@[simp]
theorem isPresent_zero : isPresent 0 = false :=
  Nat.zero_testBit 0

theorem set_self (mem : PhysMem) (f i w : Nat) : mem.set f i w f i = w := by
  simp [PhysMem.set]

theorem set_of_ne_frame (mem : PhysMem) {f g : Nat} (i w : Nat) (h : g ≠ f) :
    mem.set f i w g = mem g :=
  Function.update_of_ne h _ _

theorem set_of_ne_index (mem : PhysMem) (f : Nat) {i j : Nat} (w : Nat) (h : j ≠ i) :
    mem.set f i w f j = mem f j := by
  simp [PhysMem.set, Function.update_of_ne h]

theorem zero_self (mem : PhysMem) (f i : Nat) : mem.zero f f i = 0 := by
  simp [PhysMem.zero]

theorem zero_of_ne (mem : PhysMem) {f g : Nat} (h : g ≠ f) : mem.zero f g = mem g :=
  Function.update_of_ne h _ _

theorem tableIndex_lt (level vpn : Nat) : tableIndex level vpn < 512 :=
  Nat.mod_lt _ (by decide)

theorem entryCount_le (level : Nat) : entryCount level ≤ 512 := by
  unfold entryCount
  split <;> omega

end Words

/-! ## Tables and walks -/

/-- The tables below the table `f` of a level, `f` included. -/
def tables (mem : PhysMem) : Nat → Nat → List Nat
  | 0, f => [f]
  | k + 1, f => f :: (List.range (entryCount (k + 1))).flatMap fun i =>
      if isPresent (mem f i) then tables mem k (pteFrame (mem f i)) else []

/-- The tables above the page tables. -/
def uppers (mem : PhysMem) : Nat → Nat → List Nat
  | 0, _ => []
  | k + 1, f => f :: (List.range (entryCount (k + 1))).flatMap fun i =>
      if isPresent (mem f i) then uppers mem k (pteFrame (mem f i)) else []

/-- The entry that the walk of a page ends at, if all entries on the way are present. -/
def walk (mem : PhysMem) : Nat → Nat → Nat → Option Nat
  | 0, f, vpn => if isPresent (mem f (tableIndex 0 vpn)) then some (mem f (tableIndex 0 vpn)) else none
  | k + 1, f, vpn =>
      if isPresent (mem f (tableIndex (k + 1) vpn)) then
        walk mem k (pteFrame (mem f (tableIndex (k + 1) vpn))) vpn
      else none

/-- Every present entry above the page tables is writable and maps no 2 MiB page. -/
def UpperOk (mem : PhysMem) : Nat → Nat → Prop
  | 0, _ => True
  | k + 1, f => ∀ i < entryCount (k + 1), isPresent (mem f i) = true →
      isReadwrite (mem f i) = true ∧ is2mb (mem f i) = false ∧ UpperOk mem k (pteFrame (mem f i))

/-- The page is not in the part of a table that belongs to the kernel. -/
def InRange (level vpn : Nat) : Prop := tableIndex level vpn < entryCount level

section Trees

variable {mem mem' : PhysMem} {k f g vpn : Nat}

theorem inRange_of_ne (hk : k ≠ 3) : InRange k vpn := by
  unfold InRange entryCount
  rw [if_neg hk]
  exact tableIndex_lt k vpn

theorem walk_succ (mem : PhysMem) (k f vpn : Nat) : walk mem (k + 1) f vpn =
    if isPresent (mem f (tableIndex (k + 1) vpn)) then
      walk mem k (pteFrame (mem f (tableIndex (k + 1) vpn))) vpn
    else none :=
  rfl

theorem self_mem_tables (mem : PhysMem) (k f : Nat) : f ∈ tables mem k f := by
  cases k with
  | zero => simp [tables]
  | succ k => simp [tables]

/-- A table below an entry is a table of the directory. -/
theorem tables_subset_of_entry {i : Nat} (hi : i < entryCount (k + 1))
    (hpresent : isPresent (mem f i) = true) (hg : g ∈ tables mem k (pteFrame (mem f i))) :
    g ∈ tables mem (k + 1) f := by
  rw [tables]
  refine List.mem_cons_of_mem _ (List.mem_flatMap.mpr ⟨i, List.mem_range.mpr hi, ?_⟩)
  rwa [if_pos hpresent]

theorem mem_tables_succ : g ∈ tables mem (k + 1) f ↔ g = f ∨ ∃ i < entryCount (k + 1),
    isPresent (mem f i) = true ∧ g ∈ tables mem k (pteFrame (mem f i)) := by
  simp only [tables, List.mem_cons, List.mem_flatMap, List.mem_range, List.mem_ite_nil_right]

theorem mem_uppers_succ : g ∈ uppers mem (k + 1) f ↔ g = f ∨ ∃ i < entryCount (k + 1),
    isPresent (mem f i) = true ∧ g ∈ uppers mem k (pteFrame (mem f i)) := by
  simp only [uppers, List.mem_cons, List.mem_flatMap, List.mem_range, List.mem_ite_nil_right]

/-- The lists below the indices of a range are pairwise disjoint and without repetition. -/
theorem nodup_flatMap_range {n : Nat} {below : Nat → List Nat} :
    ((List.range n).flatMap below).Nodup ↔ (∀ i < n, (below i).Nodup) ∧
      ∀ i < n, ∀ j < n, i ≠ j → List.Disjoint (below i) (below j) := by
  rw [List.nodup_flatMap]
  constructor
  · rintro ⟨hnodup, hpair⟩
    refine ⟨fun i hi => hnodup i (List.mem_range.mpr hi), fun i hi j hj hne => ?_⟩
    rcases Nat.lt_or_gt_of_ne hne with hlt | hlt
    · have := List.pairwise_iff_getElem.mp hpair i j (by simpa using hi) (by simpa using hj) hlt
      simpa [Function.onFun] using this
    · have := List.pairwise_iff_getElem.mp hpair j i (by simpa using hj) (by simpa using hi) hlt
      simpa [Function.onFun] using this.symm
  · rintro ⟨hnodup, hdisjoint⟩
    refine ⟨fun i hi => hnodup i (List.mem_range.mp hi), ?_⟩
    refine List.pairwise_iff_getElem.mpr fun i j hi hj hlt => ?_
    simp only [List.getElem_range, Function.onFun]
    simp only [List.length_range] at hi hj
    exact hdisjoint i hi j hj (by omega)

/-- What it means for the tables of a directory to be pairwise different. -/
theorem nodup_tables_succ : (tables mem (k + 1) f).Nodup ↔
    (∀ i < entryCount (k + 1), isPresent (mem f i) = true →
      f ∉ tables mem k (pteFrame (mem f i)) ∧ (tables mem k (pteFrame (mem f i))).Nodup) ∧
    ∀ i < entryCount (k + 1), ∀ j < entryCount (k + 1), i ≠ j → isPresent (mem f i) = true →
      isPresent (mem f j) = true →
      List.Disjoint (tables mem k (pteFrame (mem f i))) (tables mem k (pteFrame (mem f j))) := by
  rw [tables, List.nodup_cons, nodup_flatMap_range]
  simp only [List.mem_flatMap, List.mem_range, List.mem_ite_nil_right, not_exists, not_and]
  constructor
  · rintro ⟨hf, hnodup, hdisjoint⟩
    refine ⟨fun i hi hpresent => ⟨hf i hi hpresent, ?_⟩, fun i hi j hj hne hpi hpj => ?_⟩
    · simpa only [if_pos hpresent] using hnodup i hi
    · simpa only [if_pos hpi, if_pos hpj] using hdisjoint i hi j hj hne
  · rintro ⟨hself, hdisjoint⟩
    refine ⟨fun i hi hpresent => (hself i hi hpresent).1, fun i hi => ?_, fun i hi j hj hne => ?_⟩
    · split
      · next hpresent => exact (hself i hi hpresent).2
      · exact List.nodup_nil
    · split
      · next hpi =>
          split
          · next hpj => exact hdisjoint i hi j hj hne hpi hpj
          · exact List.disjoint_nil_right _
      · exact List.disjoint_nil_left _

theorem uppers_subset_tables (hg : g ∈ uppers mem k f) : g ∈ tables mem k f := by
  induction k generalizing f with
  | zero => cases hg
  | succ k ih =>
      rcases mem_uppers_succ.mp hg with rfl | ⟨i, hi, hpresent, hg⟩
      · exact self_mem_tables mem (k + 1) g
      · exact tables_subset_of_entry hi hpresent (ih hg)

/-- The tables of a directory depend on the words above the page tables only. -/
theorem tables_congr_of_uppers (h : ∀ g ∈ uppers mem k f, mem' g = mem g) :
    tables mem' k f = tables mem k f := by
  induction k generalizing f with
  | zero => rfl
  | succ k ih =>
      have hf : mem' f = mem f := h f (mem_uppers_succ.mpr (Or.inl rfl))
      rw [tables, tables, hf]
      congr 1
      apply List.flatMap_congr
      intro i hi
      split
      · next hpresent =>
          apply ih
          intro g hg
          exact h g (mem_uppers_succ.mpr (Or.inr ⟨i, List.mem_range.mp hi, hpresent, hg⟩))
      · rfl

theorem upperOk_congr_of_uppers (h : ∀ g ∈ uppers mem k f, mem' g = mem g)
    (hok : UpperOk mem k f) : UpperOk mem' k f := by
  induction k generalizing f with
  | zero => trivial
  | succ k ih =>
      have hf : mem' f = mem f := h f (mem_uppers_succ.mpr (Or.inl rfl))
      intro i hi hpresent
      rw [hf] at hpresent ⊢
      obtain ⟨hrw, h2mb, hrest⟩ := hok i hi hpresent
      refine ⟨hrw, h2mb, ih (fun g hg => h g ?_) hrest⟩
      exact mem_uppers_succ.mpr (Or.inr ⟨i, hi, hpresent, hg⟩)

theorem ptFrame_congr_of_uppers (h : ∀ g ∈ uppers mem k f, mem' g = mem g)
    (hrange : InRange k vpn) (hbelow : k ≤ 3) : ptFrame mem' k f vpn = ptFrame mem k f vpn := by
  induction k generalizing f with
  | zero => rfl
  | succ k ih =>
      have hf : mem' f = mem f := h f (mem_uppers_succ.mpr (Or.inl rfl))
      rw [ptFrame, ptFrame, hf]
      split
      · next hpresent =>
          apply ih _ (inRange_of_ne (by omega)) (by omega)
          intro g hg
          exact h g (mem_uppers_succ.mpr (Or.inr ⟨_, hrange, hpresent, hg⟩))
      · rfl

/-- The tables of a directory depend on their own words only. -/
theorem tables_congr (h : ∀ g ∈ tables mem k f, mem' g = mem g) :
    tables mem' k f = tables mem k f :=
  tables_congr_of_uppers fun g hg => h g (uppers_subset_tables hg)

theorem upperOk_congr (h : ∀ g ∈ tables mem k f, mem' g = mem g) (hok : UpperOk mem k f) :
    UpperOk mem' k f :=
  upperOk_congr_of_uppers (fun g hg => h g (uppers_subset_tables hg)) hok

/-- A walk depends on the words of the tables only. -/
theorem walk_congr (h : ∀ g ∈ tables mem k f, mem' g = mem g) (hrange : InRange k vpn)
    (hbelow : k ≤ 3) : walk mem' k f vpn = walk mem k f vpn := by
  induction k generalizing f with
  | zero =>
      have hf : mem' f = mem f := h f (self_mem_tables mem 0 f)
      rw [walk, walk, hf]
  | succ k ih =>
      have hf : mem' f = mem f := h f (self_mem_tables mem (k + 1) f)
      rw [walk, walk, hf]
      split
      · next hpresent =>
          apply ih _ (inRange_of_ne (by omega)) (by omega)
          intro g hg
          exact h g (tables_subset_of_entry hrange hpresent hg)
      · rfl

/-! ## Page tables -/

/-- A walk ends in the page table that it arrives at. -/
theorem walk_eq_ptFrame (mem : PhysMem) (k f vpn : Nat) : walk mem k f vpn =
    (ptFrame mem k f vpn).bind fun pt =>
      if isPresent (mem pt (tableIndex 0 vpn)) then some (mem pt (tableIndex 0 vpn)) else none := by
  induction k generalizing f with
  | zero => rfl
  | succ k ih =>
      rw [walk, ptFrame]
      split
      · exact ih _
      · rfl

theorem ptFrame_mem_tables {pt : Nat} (h : ptFrame mem k f vpn = some pt) (hrange : InRange k vpn)
    (hbelow : k ≤ 3) : pt ∈ tables mem k f := by
  induction k generalizing f with
  | zero =>
      obtain rfl := Option.some.inj h
      exact self_mem_tables mem 0 f
  | succ k ih =>
      rw [ptFrame] at h
      split at h
      · next hpresent =>
          exact tables_subset_of_entry hrange hpresent
            (ih h (inRange_of_ne (by omega)) (by omega))
      · cases h

/-- Present words of a table above the page tables are writable, except for the kernel's. -/
theorem isReadwrite_of_mem_uppers {i : Nat} (hbelow : k ≤ 3) (hok : UpperOk mem k f)
    (hg : g ∈ uppers mem k f) (hi : i < 512) (hpresent : isPresent (mem g i) = true) :
    isReadwrite (mem g i) = true ∨ (k = 3 ∧ g = f ∧ i = 511) := by
  induction k generalizing f with
  | zero => cases hg
  | succ k ih =>
      rcases mem_uppers_succ.mp hg with rfl | ⟨j, hj, hp, hg⟩
      · by_cases hlt : i < entryCount (k + 1)
        · exact Or.inl (hok i hlt hpresent).1
        · unfold entryCount at hlt
          split at hlt
          · next hk => exact Or.inr ⟨hk, rfl, by omega⟩
          · omega
      · rcases ih (by omega) (hok j hj hp).2.2 hg with hrw | ⟨hk, -, -⟩
        · exact Or.inl hrw
        · omega

/-- The pages that a table of a level maps, without the kernel's. -/
def pageCount (level : Nat) : Nat := entryCount level * 512 ^ level

theorem inRange_of_lt (h : vpn < pageCount k) : InRange k vpn := by
  have hlt : vpn / 512 ^ k < entryCount k :=
    Nat.div_lt_of_lt_mul (by rwa [pageCount, Nat.mul_comm] at h)
  unfold InRange tableIndex
  rwa [Nat.mod_eq_of_lt (lt_of_lt_of_le hlt (entryCount_le k))]

/-- Two pages that share a page table differ in its index only. -/
theorem ptFrame_inj {pt vpn' : Nat} (hnodup : (tables mem k f).Nodup) (hbelow : k ≤ 3)
    (hrange : InRange k vpn) (hrange' : InRange k vpn') (h : ptFrame mem k f vpn = some pt)
    (h' : ptFrame mem k f vpn' = some pt) :
    vpn / 512 % 512 ^ k = vpn' / 512 % 512 ^ k := by
  induction k generalizing f with
  | zero => rw [pow_zero, Nat.mod_one, Nat.mod_one]
  | succ k ih =>
      obtain ⟨hself, hdisjoint⟩ := nodup_tables_succ.mp hnodup
      rw [ptFrame] at h h'
      split at h
      · next hpresent =>
          split at h'
          · next hpresent' =>
              have hmem := ptFrame_mem_tables h (inRange_of_ne (by omega)) (by omega)
              have hmem' := ptFrame_mem_tables h' (inRange_of_ne (by omega)) (by omega)
              have hindex : tableIndex (k + 1) vpn = tableIndex (k + 1) vpn' := by
                by_contra hne
                exact hdisjoint _ hrange _ hrange' hne hpresent hpresent' hmem hmem'
              rw [← hindex] at h'
              have hrest := ih (hself _ hrange hpresent).2 (by omega) (inRange_of_ne (by omega))
                (inRange_of_ne (by omega)) h h'
              -- the index in this table and those below make up the page number
              have hsplit : ∀ p : Nat, p / 512 % 512 ^ (k + 1) =
                  p / 512 % 512 ^ k + 512 ^ k * tableIndex (k + 1) p := by
                intro p
                rw [tableIndex, pow_succ, Nat.mod_mul, Nat.div_div_eq_div_mul,
                  Nat.mul_comm (512 ^ k) 512]
              rw [hsplit, hsplit, hrest, hindex]
          · cases h'
      · cases h

end Trees

end Arch
end Micael
