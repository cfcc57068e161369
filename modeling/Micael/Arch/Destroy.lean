import Micael.Arch.PageTables
import Micael.Foundation.Loop

/-!
# What the teardown of a directory frees

Main results:

- Theorem {lit}`destroyTable_eq`: the teardown of a table zeroes and frees the frames of a list that
  is determined by memory at its start, in order.
- Theorem {lit}`mem_teardown`: these frames are tables below it or private pages.
- Theorem {lit}`nodup_teardown`: no frame is freed twice if no frame is used twice.
-/

namespace Micael
namespace Arch

open Foundation

/-- The frames that the teardown of the table `f` passes to `mmu_page_free`, in order. -/
def teardown (mem : PhysMem) : Nat → Nat → List Nat
  | 0, f => (List.range 512).flatMap fun i =>
      if isPrivate (mem f i) then [pteFrame (mem f i)] else []
  | k + 1, f => (List.range (entryCount (k + 1))).flatMap fun i =>
      if isPresent (mem f i) then teardown mem k (pteFrame (mem f i)) ++ [pteFrame (mem f i)] else []

/-- What is freed below one entry of a table. -/
def entryTeardown (mem : PhysMem) (k f i : Nat) : List Nat :=
  if isPresent (mem f i) then teardown mem k (pteFrame (mem f i)) ++ [pteFrame (mem f i)] else []

theorem teardown_succ (mem : PhysMem) (k f : Nat) : teardown mem (k + 1) f =
    (List.range (entryCount (k + 1))).flatMap (entryTeardown mem k f) :=
  rfl

/-- Zero and free frames. -/
def releaseAll (vm : Vm) (l : List Nat) : Vm := l.foldl releaseFrame vm

section Release

variable {k f g : Nat} {vm : Vm} {mem mem' : PhysMem} {l : List Nat}

theorem releaseAll_append (vm : Vm) (l l' : List Nat) :
    releaseAll vm (l ++ l') = releaseAll (releaseAll vm l) l' :=
  List.foldl_append

theorem releaseAll_singleton (vm : Vm) (g : Nat) : releaseAll vm [g] = releaseFrame vm g :=
  rfl

theorem releaseAll_mem_of_not_mem (hg : g ∉ l) : (releaseAll vm l).mem g = vm.mem g := by
  induction l generalizing vm with
  | nil => rfl
  | cons a l ih =>
      rw [List.mem_cons, not_or] at hg
      rw [releaseAll, List.foldl_cons, ← releaseAll, ih hg.2]
      exact zero_of_ne _ hg.1

theorem releaseAll_freed (vm : Vm) (l : List Nat) : (releaseAll vm l).freed = vm.freed ++ l := by
  induction l generalizing vm with
  | nil => rw [List.append_nil]; rfl
  | cons a l ih =>
      rw [releaseAll, List.foldl_cons, ← releaseAll, ih]
      simp [releaseFrame, mmuPageFree]

/-- A loop each of whose turns releases the frames of a list. -/
theorem releaseAll_loop {body : Vm → Nat → Vm} {below : Nat → List Nat} (n : Nat)
    (hbody : ∀ i < n, body (releaseAll vm ((List.range i).flatMap below)) i =
      releaseAll (releaseAll vm ((List.range i).flatMap below)) (below i)) :
    (List.range n).foldl body vm = releaseAll vm ((List.range n).flatMap below) := by
  refine foldl_range_invariant (fun i v => v = releaseAll vm ((List.range i).flatMap below)) rfl ?_
  rintro i hi v rfl
  rw [hbody i hi, List.range_succ, List.flatMap_append, List.flatMap_singleton, releaseAll_append]

/-- The tables are among the frames that are freed. -/
theorem tables_subset_teardown (hg : g ∈ tables mem k f) : g = f ∨ g ∈ teardown mem k f := by
  induction k generalizing f with
  | zero => exact Or.inl (List.mem_singleton.mp hg)
  | succ k ih =>
      rcases mem_tables_succ.mp hg with rfl | ⟨i, hi, hpresent, hg⟩
      · exact Or.inl rfl
      · refine Or.inr (List.mem_flatMap.mpr ⟨i, List.mem_range.mpr hi, ?_⟩)
        rw [if_pos hpresent, List.mem_append, List.mem_singleton]
        exact (ih hg).symm

/-- The frames that are freed depend on the words of the tables only. -/
theorem teardown_congr (h : ∀ g ∈ tables mem k f, mem' g = mem g) :
    teardown mem' k f = teardown mem k f := by
  induction k generalizing f with
  | zero => rw [teardown, teardown, h f (self_mem_tables mem 0 f)]
  | succ k ih =>
      rw [teardown, teardown, h f (self_mem_tables mem (k + 1) f)]
      apply List.flatMap_congr
      intro i hi
      split
      · next hpresent =>
          rw [ih fun g hg => h g (tables_subset_of_entry (List.mem_range.mp hi) hpresent hg)]
      · rfl

/-- What the turns before the turn `i` release is released in no later turn. -/
theorem disjoint_range_flatMap {below : Nat → List Nat} {n i : Nat} (hi : i < n)
    (hnodup : ((List.range n).flatMap below).Nodup) :
    List.Disjoint ((List.range i).flatMap below) (below i) := by
  intro g hg hg'
  obtain ⟨j, hj, hg⟩ := List.mem_flatMap.mp hg
  have hlt := List.mem_range.mp hj
  exact (nodup_flatMap_range.mp hnodup).2 j (by omega) i hi (by omega) hg hg'

/-- The teardown of a table. -/
theorem destroyTable_eq (hnodup : (f :: teardown vm.mem k f).Nodup) :
    destroyTable k f vm = releaseAll vm (teardown vm.mem k f) := by
  induction k generalizing f vm with
  | zero =>
      rw [destroyTable, teardown]
      apply releaseAll_loop
      intro i hi
      have hf : f ∉ (List.range i).flatMap fun i =>
          if isPrivate (vm.mem f i) then [pteFrame (vm.mem f i)] else [] := by
        intro hmem
        obtain ⟨j, hj, hmem⟩ := List.mem_flatMap.mp hmem
        have hlt := List.mem_range.mp hj
        exact (List.nodup_cons.mp hnodup).1
          (List.mem_flatMap.mpr ⟨j, List.mem_range.mpr (by omega), hmem⟩)
      rw [destroyPage, releaseAll_mem_of_not_mem hf]
      split
      · rfl
      · rfl
  | succ k ih =>
      rw [teardown_succ, List.nodup_cons] at hnodup
      obtain ⟨hself, hnodup⟩ := hnodup
      rw [destroyTable, teardown_succ]
      apply releaseAll_loop
      intro i hi
      have hdisjoint := disjoint_range_flatMap hi hnodup
      have hf : ∀ j < entryCount (k + 1), f ∉ entryTeardown vm.mem k f j := fun j hj hmem =>
        hself (List.mem_flatMap.mpr ⟨j, List.mem_range.mpr hj, hmem⟩)
      have hfirst : f ∉ (List.range i).flatMap (entryTeardown vm.mem k f) := by
        intro hmem
        obtain ⟨j, hj, hmem⟩ := List.mem_flatMap.mp hmem
        have hlt := List.mem_range.mp hj
        exact hf j (by omega) hmem
      generalize hvm₁ : releaseAll vm ((List.range i).flatMap (entryTeardown vm.mem k f)) = vm₁
      have hword : vm₁.mem f = vm.mem f := hvm₁ ▸ releaseAll_mem_of_not_mem hfirst
      rw [hword]
      cases hpresent : isPresent (vm.mem f i) with
      | false =>
          rw [if_neg Bool.false_ne_true, entryTeardown, hpresent, if_neg Bool.false_ne_true]
          rfl
      | true =>
          have hentry : entryTeardown vm.mem k f i =
              teardown vm.mem k (pteFrame (vm.mem f i)) ++ [pteFrame (vm.mem f i)] := by
            rw [entryTeardown, if_pos hpresent]
          -- the tables below the entry are still as they were at the start
          have hsame : ∀ g ∈ tables vm.mem k (pteFrame (vm.mem f i)), vm₁.mem g = vm.mem g := by
            intro g hg
            rw [← hvm₁]
            apply releaseAll_mem_of_not_mem
            intro hmem
            refine hdisjoint hmem ?_
            rw [hentry, List.mem_append, List.mem_singleton]
            exact (tables_subset_teardown hg).symm
          have hteardown := teardown_congr hsame
          have hnodup' := (nodup_flatMap_range.mp hnodup).1 i hi
          rw [hentry, List.nodup_append_comm] at hnodup'
          have hlast : (releaseAll vm₁ (teardown vm.mem k (pteFrame (vm.mem f i)))).mem f =
              vm.mem f := by
            rw [releaseAll_mem_of_not_mem, hword]
            intro hmem
            refine hf i hi ?_
            rw [hentry]
            exact List.mem_append_left _ hmem
          rw [if_pos rfl, ih (by rwa [hteardown]), hteardown, hentry, releaseAll_append,
            releaseAll_singleton]
          dsimp only
          rw [hlast]

/-- The teardown of a directory. -/
theorem mmuNativeDestroyDir_eq {r : Nat} {vm' : Vm} (hnodup : (r :: teardown mem 3 r).Nodup)
    (hdestroy : mmuNativeDestroyDir r ⟨mem, [], []⟩ = vm') :
    vm'.freed = teardown mem 3 r ++ [r] ∧ ∀ g, g ∉ teardown mem 3 r → vm'.mem g = mem g := by
  have heq : destroyTable 3 r ⟨mem, [], []⟩ = releaseAll ⟨mem, [], []⟩ (teardown mem 3 r) :=
    destroyTable_eq hnodup
  rw [mmuNativeDestroyDir, heq, mmuPageFree] at hdestroy
  subst hdestroy
  dsimp only
  refine ⟨?_, fun g hg => releaseAll_mem_of_not_mem hg⟩
  rw [releaseAll_freed, List.nil_append]

end Release

/-! ## Which frames are freed -/

section Frames

variable {mem : PhysMem} {k f g : Nat}

/-- An index below a level depends on the low digits of a page number only. -/
theorem tableIndex_congr {j vpn vpn' : Nat} (hj : j ≤ k)
    (h : vpn % 512 ^ (k + 1) = vpn' % 512 ^ (k + 1)) : tableIndex j vpn = tableIndex j vpn' := by
  have hlow : ∀ p : Nat, tableIndex j p = p % 512 ^ (k + 1) % 512 ^ (j + 1) / 512 ^ j := by
    intro p
    rw [Nat.mod_mod_of_dvd _ (Nat.pow_dvd_pow 512 (by omega)), pow_succ,
      Nat.mod_mul_right_div_self, tableIndex]
  rw [hlow, hlow, h]

theorem walk_congr_mod {vpn vpn' : Nat} (h : vpn % 512 ^ (k + 1) = vpn' % 512 ^ (k + 1)) :
    walk mem k f vpn = walk mem k f vpn' := by
  induction k generalizing f with
  | zero => rw [walk, walk, tableIndex_congr (le_refl 0) h]
  | succ k ih =>
      have hlow : vpn % 512 ^ (k + 1) = vpn' % 512 ^ (k + 1) := by
        rw [← Nat.mod_mod_of_dvd vpn (Nat.pow_dvd_pow 512 (by omega : k + 1 ≤ k + 1 + 1)), h,
          Nat.mod_mod_of_dvd _ (Nat.pow_dvd_pow 512 (by omega))]
      rw [walk_succ, walk_succ, tableIndex_congr (le_refl (k + 1)) h, ih hlow]

/-- The page below the entry `i` of a table. -/
theorem walk_below {i v : Nat} (hi : i < entryCount (k + 1)) (hv : v < 512 ^ (k + 1))
    (hpresent : isPresent (mem f i) = true) :
    walk mem (k + 1) f (512 ^ (k + 1) * i + v) = walk mem k (pteFrame (mem f i)) v ∧
      512 ^ (k + 1) * i + v < pageCount (k + 1) := by
  have hpos : 0 < 512 ^ (k + 1) := Nat.pow_pos (by decide)
  have hindex : tableIndex (k + 1) (512 ^ (k + 1) * i + v) = i := by
    rw [tableIndex, Nat.mul_add_div hpos, Nat.div_eq_of_lt hv, Nat.add_zero]
    exact Nat.mod_eq_of_lt (lt_of_lt_of_le hi (entryCount_le (k + 1)))
  constructor
  · rw [walk_succ, hindex, if_pos hpresent]
    apply walk_congr_mod
    rw [Nat.mul_add_mod]
  · rw [pageCount]
    calc 512 ^ (k + 1) * i + v < 512 ^ (k + 1) * i + 512 ^ (k + 1) := by omega
      _ = (i + 1) * 512 ^ (k + 1) := by ring
      _ ≤ entryCount (k + 1) * 512 ^ (k + 1) := Nat.mul_le_mul_right _ hi

theorem pageCount_eq (hk : k < 3) : pageCount k = 512 ^ (k + 1) := by
  rw [pageCount, entryCount, if_neg (by omega), pow_succ, Nat.mul_comm]

/-- A frame that is freed is a table or a private page. -/
theorem mem_teardown (hk : k ≤ 3) (hnodup : (tables mem k f).Nodup) (hg : g ∈ teardown mem k f) :
    (g ∈ tables mem k f ∧ g ≠ f) ∨ ∃ vpn < pageCount k, ∃ w, walk mem k f vpn = some w ∧
      isPrivate w = true ∧ pteFrame w = g := by
  induction k generalizing f with
  | zero =>
      obtain ⟨i, hi, hg⟩ := List.mem_flatMap.mp hg
      have hlt : i < 512 := List.mem_range.mp hi
      rw [List.mem_ite_nil_right, List.mem_singleton] at hg
      obtain ⟨hprivate, rfl⟩ := hg
      have hindex : tableIndex 0 i = i := by
        rw [tableIndex, pow_zero, Nat.div_one, Nat.mod_eq_of_lt hlt]
      have hpresent : isPresent (mem f i) = true := by
        simp only [isPrivate, Bool.and_eq_true] at hprivate
        exact hprivate.1.1
      refine Or.inr ⟨i, hlt, mem f i, ?_, hprivate, rfl⟩
      rw [walk, hindex, if_pos hpresent]
  | succ k ih =>
      obtain ⟨hself, -⟩ := nodup_tables_succ.mp hnodup
      obtain ⟨i, hi, hg⟩ := List.mem_flatMap.mp hg
      have hlt := List.mem_range.mp hi
      rw [List.mem_ite_nil_right, List.mem_append, List.mem_singleton] at hg
      obtain ⟨hpresent, hg⟩ := hg
      have hbelow : ∀ g ∈ tables mem k (pteFrame (mem f i)), g ∈ tables mem (k + 1) f ∧ g ≠ f := by
        intro g hg
        refine ⟨tables_subset_of_entry hlt hpresent hg, ?_⟩
        rintro rfl
        exact (hself i hlt hpresent).1 hg
      rcases hg with hg | rfl
      · rcases ih (by omega) (hself i hlt hpresent).2 hg with ⟨hg, -⟩ | ⟨v, hv, w, hw, hrest⟩
        · exact Or.inl (hbelow g hg)
        · rw [pageCount_eq (by omega)] at hv
          obtain ⟨hwalk, hcount⟩ := walk_below hlt hv hpresent
          exact Or.inr ⟨_, hcount, w, hwalk.trans hw, hrest⟩
      · exact Or.inl (hbelow _ (self_mem_tables _ _ _))

/-- No frame is freed twice if no private page is a table or mapped twice. -/
theorem nodup_teardown (hk : k ≤ 3) (hnodup : (tables mem k f).Nodup)
    (htable : ∀ vpn < pageCount k, ∀ w, walk mem k f vpn = some w → isPrivate w = true →
      pteFrame w ∉ tables mem k f)
    (honce : ∀ vpn < pageCount k, ∀ vpn' < pageCount k, ∀ w w', walk mem k f vpn = some w →
      walk mem k f vpn' = some w' → isPrivate w = true → pteFrame w = pteFrame w' → vpn = vpn') :
    (f :: teardown mem k f).Nodup := by
  have hfirst : f ∉ teardown mem k f := by
    intro hmem
    rcases mem_teardown hk hnodup hmem with ⟨-, hne⟩ | ⟨vpn, hvpn, w, hw, hprivate, hframe⟩
    · exact hne rfl
    · exact htable vpn hvpn w hw hprivate (hframe ▸ self_mem_tables _ _ _)
  refine List.nodup_cons.mpr ⟨hfirst, ?_⟩
  clear hfirst
  induction k generalizing f with
  | zero =>
      rw [teardown, nodup_flatMap_range]
      have hwalk : ∀ i < 512, isPrivate (mem f i) = true → walk mem 0 f i = some (mem f i) := by
        intro i hi hprivate
        have hindex : tableIndex 0 i = i := by
          rw [tableIndex, pow_zero, Nat.div_one, Nat.mod_eq_of_lt hi]
        simp only [isPrivate, Bool.and_eq_true] at hprivate
        rw [walk, hindex, if_pos hprivate.1.1]
      constructor
      · intro i _
        split
        · exact List.nodup_singleton _
        · exact List.nodup_nil
      · intro i hi j hj hne g hg hg'
        rw [List.mem_ite_nil_right, List.mem_singleton] at hg hg'
        exact hne (honce i hi j hj _ _ (hwalk i hi hg.1) (hwalk j hj hg'.1) hg.1
          (hg.2.symm.trans hg'.2))
  | succ k ih =>
      obtain ⟨hself, hdisjoint⟩ := nodup_tables_succ.mp hnodup
      rw [teardown_succ, nodup_flatMap_range]
      -- a frame freed below an entry is a table or a private page there
      have hcases : ∀ i < entryCount (k + 1), ∀ g ∈ entryTeardown mem k f i,
          isPresent (mem f i) = true ∧ (g ∈ tables mem k (pteFrame (mem f i)) ∨
            ∃ v < 512 ^ (k + 1), ∃ w, walk mem (k + 1) f (512 ^ (k + 1) * i + v) = some w ∧
              512 ^ (k + 1) * i + v < pageCount (k + 1) ∧ isPrivate w = true ∧ pteFrame w = g) := by
        intro i hi g hg
        rw [entryTeardown, List.mem_ite_nil_right, List.mem_append, List.mem_singleton] at hg
        obtain ⟨hpresent, hg⟩ := hg
        refine ⟨hpresent, ?_⟩
        rcases hg with hg | rfl
        · rcases mem_teardown (by omega) (hself i hi hpresent).2 hg with
            ⟨hg, -⟩ | ⟨v, hv, w, hw, hprivate, hframe⟩
          · exact Or.inl hg
          · rw [pageCount_eq (by omega)] at hv
            obtain ⟨hwalk, hcount⟩ := walk_below hi hv hpresent
            exact Or.inr ⟨v, hv, w, hwalk.trans hw, hcount, hprivate, hframe⟩
        · exact Or.inl (self_mem_tables _ _ _)
      constructor
      · intro i hi
        cases hpresent : isPresent (mem f i) with
        | false =>
            rw [entryTeardown, hpresent, if_neg Bool.false_ne_true]
            exact List.nodup_nil
        | true =>
            have hcount : pageCount k = 512 ^ (k + 1) := pageCount_eq (by omega)
            have htable' : ∀ v < pageCount k, ∀ w, walk mem k (pteFrame (mem f i)) v = some w →
                isPrivate w = true → pteFrame w ∉ tables mem k (pteFrame (mem f i)) := by
              intro v hv w hw hprivate hmem
              obtain ⟨hwalk, hlt⟩ := walk_below hi (hcount ▸ hv) hpresent
              exact htable _ hlt w (hwalk.trans hw) hprivate (tables_subset_of_entry hi hpresent hmem)
            have hbelow := ih (by omega) (hself i hi hpresent).2 htable' (by
              intro v hv v' hv' w w' hw hw' hprivate hframe
              obtain ⟨hwalk, hlt⟩ := walk_below hi (hcount ▸ hv) hpresent
              obtain ⟨hwalk', hlt'⟩ := walk_below hi (hcount ▸ hv') hpresent
              have := honce _ hlt _ hlt' w w' (hwalk.trans hw) (hwalk'.trans hw') hprivate hframe
              omega)
            rw [entryTeardown, if_pos hpresent, List.nodup_append]
            refine ⟨hbelow, List.nodup_singleton _, ?_⟩
            rintro g hg h hh rfl
            rw [List.mem_singleton] at hh
            rcases mem_teardown (by omega) (hself i hi hpresent).2 hg with
              ⟨-, hne⟩ | ⟨v, hv, w, hw, hprivate, hframe⟩
            · exact hne hh
            · refine htable' v hv w hw hprivate ?_
              rw [hframe, hh]
              exact self_mem_tables _ _ _
      · intro i hi j hj hne g hg hg'
        obtain ⟨hpi, hgi⟩ := hcases i hi g hg
        obtain ⟨hpj, hgj⟩ := hcases j hj g hg'
        rcases hgi with hgi | ⟨v, hv, w, hw, hlt, hprivate, hframe⟩
        · rcases hgj with hgj | ⟨v', hv', w', hw', hlt', hprivate', hframe'⟩
          · exact hdisjoint i hi j hj hne hpi hpj hgi hgj
          · exact htable _ hlt' w' hw' hprivate' (hframe' ▸ tables_subset_of_entry hi hpi hgi)
        · rcases hgj with hgj | ⟨v', hv', w', hw', hlt', hprivate', hframe'⟩
          · exact htable _ hlt w hw hprivate (hframe ▸ tables_subset_of_entry hj hpj hgj)
          · have heq := honce _ hlt _ hlt' w w' hw hw' hprivate (hframe.trans hframe'.symm)
            apply hne
            have hpos : 0 < 512 ^ (k + 1) := Nat.pow_pos (by decide)
            have hdiv := congrArg (· / 512 ^ (k + 1)) heq
            simpa [Nat.mul_add_div hpos, Nat.div_eq_of_lt hv, Nat.div_eq_of_lt hv'] using hdiv

end Frames

end Arch
end Micael
