import Micael.Arch.PageTables
import Micael.Foundation.Loop

/-!
# What a mapping does to a directory

Main results:

- Theorem {lit}`mapTable_spec`: mapping a page adds free frames as tables, changes the walk of that
  page and of no other.
- Theorem {lit}`mmuNativeBuildDir_spec`: a new directory maps the devices, for the kernel only.
- Theorem {lit}`mapPage_returns`, {lit}`mmuNativeBuildDir_returns`: both return if there are enough
  free frames.
-/

namespace Micael
namespace Arch

open Foundation

/-- What a mapping relies on: no table occurs twice, and the frames that are going to be
allocated are none of the tables. -/
structure MapPre (k f : Nat) (vm : Vm) : Prop where
  nodup : (tables vm.mem k f).Nodup
  upper : UpperOk vm.mem k f
  avail : vm.avail.Nodup
  fresh : ∀ a ∈ vm.avail, a ∉ tables vm.mem k f

/-- The table `f` may have got new tables below its entry `i`, in the frames `used`; nothing else
has changed. -/
structure Grow (k f i : Nat) (vm vm' : Vm) (used : List Nat) : Prop where
  avail : vm.avail = used ++ vm'.avail
  freed : vm'.freed = vm.freed
  outside : ∀ g, g ∉ tables vm.mem k f → g ∉ used → vm'.mem g = vm.mem g
  entry : ∀ j, j ≠ i → vm'.mem f j = vm.mem f j
  mem_tables : ∀ g, g ∈ tables vm'.mem k f ↔ g ∈ tables vm.mem k f ∨ g ∈ used
  nodup : (tables vm'.mem k f).Nodup
  upper : UpperOk vm'.mem k f

section Grow

variable {k f i : Nat} {vm vm₁ vm' : Vm} {used used₁ : List Nat}

theorem Grow.pre (hpre : MapPre k f vm) (h : Grow k f i vm vm' used) : MapPre k f vm' := by
  have hnodup : (used ++ vm'.avail).Nodup := h.avail ▸ hpre.avail
  refine ⟨h.nodup, h.upper, (List.nodup_append.mp hnodup).2.1, fun a ha hmem => ?_⟩
  rcases (h.mem_tables a).mp hmem with hold | hused
  · exact hpre.fresh a (h.avail ▸ List.mem_append_right _ ha) hold
  · exact (List.nodup_append.mp hnodup).2.2 a hused a ha rfl

theorem Grow.trans (h : Grow k f i vm vm₁ used) (h' : Grow k f i vm₁ vm' used₁) :
    Grow k f i vm vm' (used ++ used₁) where
  avail := by rw [h.avail, h'.avail, List.append_assoc]
  freed := h'.freed.trans h.freed
  outside g hg hused := by
    rw [List.mem_append, not_or] at hused
    rw [h'.outside g (fun hmem => ((h.mem_tables g).mp hmem).elim hg hused.1) hused.2,
      h.outside g hg hused.1]
  entry j hj := (h'.entry j hj).trans (h.entry j hj)
  mem_tables g := by rw [h'.mem_tables, h.mem_tables, List.mem_append, or_assoc]
  nodup := h'.nodup
  upper := h'.upper

end Grow

/-! ## Steps of the walk -/

section Steps

variable {k f i flags : Nat} {vm vm₁ vm' : Vm}

/-- An empty table. -/
theorem tables_of_empty {mem : PhysMem} {a : Nat} (hempty : ∀ i < entryCount k, mem a i = 0) :
    tables mem k a = [a] := by
  cases k with
  | zero => rfl
  | succ k =>
      rw [tables, List.flatMap_eq_nil_iff.mpr]
      intro i hi
      rw [hempty i (List.mem_range.mp hi), isPresent_zero, if_neg Bool.false_ne_true]

theorem upperOk_of_empty {mem : PhysMem} {a : Nat} (hempty : ∀ i < entryCount k, mem a i = 0) :
    UpperOk mem k a := by
  cases k with
  | zero => trivial
  | succ k =>
      intro i hi hpresent
      rw [hempty i hi, isPresent_zero] at hpresent
      cases hpresent

theorem walk_of_empty {mem : PhysMem} {a vpn : Nat} (hempty : ∀ i < entryCount k, mem a i = 0)
    (hrange : InRange k vpn) : walk mem k a vpn = none := by
  cases k with
  | zero => rw [walk, hempty _ hrange, isPresent_zero, if_neg Bool.false_ne_true]
  | succ k => rw [walk, hempty _ hrange, isPresent_zero, if_neg Bool.false_ne_true]

/-- Setting flags of a present entry. -/
theorem grow_or (hpre : MapPre (k + 1) f vm) (hk : k + 1 ≤ 3)
    (hpresent : isPresent (vm.mem f i) = true) (hflags : flags < 4096)
    (h2mb : is2mb flags = false)
    (hvm' : vm' = { vm with mem := vm.mem.set f i (vm.mem f i ||| flags) }) :
    Grow (k + 1) f i vm vm' [] ∧
      ∀ vpn, InRange (k + 1) vpn → walk vm'.mem (k + 1) f vpn = walk vm.mem (k + 1) f vpn := by
  obtain ⟨hself, hdisjoint⟩ := nodup_tables_succ.mp hpre.nodup
  have hmem : vm'.mem = vm.mem.set f i (vm.mem f i ||| flags) := by rw [hvm']
  have hentry : ∀ j, j ≠ i → vm'.mem f j = vm.mem f j := by
    intro j hj
    rw [hmem, set_of_ne_index _ _ _ hj]
  have hword : vm'.mem f i = vm.mem f i ||| flags := by rw [hmem, set_self]
  have hother : ∀ g, g ≠ f → vm'.mem g = vm.mem g := by
    intro g hg
    rw [hmem, set_of_ne_frame _ _ _ hg]
  have hframe : ∀ j, pteFrame (vm'.mem f j) = pteFrame (vm.mem f j) := by
    intro j
    by_cases hj : j = i
    · rw [hj, hword, pteFrame_or hflags]
    · rw [hentry j hj]
  have hiff : ∀ j, isPresent (vm'.mem f j) = isPresent (vm.mem f j) := by
    intro j
    by_cases hj : j = i
    · rw [hj, hword, isPresent_or, hpresent, Bool.true_or]
    · rw [hentry j hj]
  -- the tables below do not contain `f`
  have hbelow : ∀ j < entryCount (k + 1), isPresent (vm.mem f j) = true →
      ∀ g ∈ tables vm.mem k (pteFrame (vm.mem f j)), vm'.mem g = vm.mem g := by
    intro j hj hp g hg
    apply hother
    rintro rfl
    exact (hself j hj hp).1 hg
  have htables : tables vm'.mem (k + 1) f = tables vm.mem (k + 1) f := by
    rw [tables, tables]
    congr 1
    apply List.flatMap_congr
    intro j hj
    rw [hiff, hframe]
    split
    · next hp => exact tables_congr (hbelow j (List.mem_range.mp hj) hp)
    · rfl
  refine ⟨⟨by rw [hvm', List.nil_append], by rw [hvm'], fun g hg _ => hother g ?_, hentry, ?_, ?_,
    ?_⟩, ?_⟩
  · rintro rfl
    exact hg (self_mem_tables _ _ _)
  · intro g
    rw [htables]
    simp
  · rw [htables]
    exact hpre.nodup
  · intro j hj hp
    rw [hiff] at hp
    obtain ⟨hrw, hsmall, hrest⟩ := hpre.upper j hj hp
    rw [hframe]
    refine ⟨?_, ?_, upperOk_congr (hbelow j hj hp) hrest⟩
    · by_cases hji : j = i
      · rw [hji] at hrw ⊢
        rw [hword, isReadwrite_or, hrw, Bool.true_or]
      · rwa [hentry j hji]
    · by_cases hji : j = i
      · rw [hji] at hsmall ⊢
        rw [hword, is2mb_or, hsmall, h2mb, Bool.or_false]
      · rwa [hentry j hji]
  · intro vpn hrange
    rw [walk, walk, hiff, hframe]
    split
    · next hp => exact walk_congr (hbelow _ hrange hp) (inRange_of_ne (by omega)) (by omega)
    · rfl

/-- The entry `i`, which was absent, leads to the empty table `a`, and nothing else is different. -/
structure NewEntry (k f i a : Nat) (vm vm' : Vm) : Prop where
  index : i < entryCount (k + 1)
  absent : isPresent (vm.mem f i) = false
  fresh : a ∉ tables vm.mem (k + 1) f
  entry : ∀ j, j ≠ i → vm'.mem f j = vm.mem f j
  word : vm'.mem f i = pte a (mmPresent + mmReadwrite)
  empty : ∀ j < entryCount k, vm'.mem a j = 0
  other : ∀ g, g ≠ f → g ≠ a → vm'.mem g = vm.mem g

section NewEntry

variable {a j : Nat}

theorem NewEntry.ne (h : NewEntry k f i a vm vm') : a ≠ f := by
  rintro rfl
  exact h.fresh (self_mem_tables _ _ _)

theorem NewEntry.frame (h : NewEntry k f i a vm vm') : pteFrame (vm'.mem f i) = a := by
  rw [h.word]
  exact pteFrame_pte (by decide)

theorem NewEntry.present (h : NewEntry k f i a vm vm') : isPresent (vm'.mem f i) = true := by
  rw [h.word]
  exact (testBit_pte (by decide) (by decide)).trans (by decide)

theorem NewEntry.tables_new (h : NewEntry k f i a vm vm') :
    tables vm'.mem k (pteFrame (vm'.mem f i)) = [a] := by
  rw [h.frame]
  exact tables_of_empty h.empty

/-- The tables below the old entries are as they were. -/
theorem NewEntry.below (h : NewEntry k f i a vm vm') (hpre : MapPre (k + 1) f vm)
    (hj : j < entryCount (k + 1)) (hp : isPresent (vm.mem f j) = true) :
    ∀ g ∈ tables vm.mem k (pteFrame (vm.mem f j)), vm'.mem g = vm.mem g := by
  intro g hg
  refine h.other g ?_ ?_
  · rintro rfl
    exact ((nodup_tables_succ.mp hpre.nodup).1 j hj hp).1 hg
  · rintro rfl
    exact h.fresh (tables_subset_of_entry hj hp hg)

/-- The other entries that are present were so before. -/
theorem NewEntry.old (h : NewEntry k f i a vm vm') (hpre : MapPre (k + 1) f vm)
    (hj : j < entryCount (k + 1)) (hp : isPresent (vm'.mem f j) = true) (hji : j ≠ i) :
    isPresent (vm.mem f j) = true ∧ vm'.mem f j = vm.mem f j ∧
      tables vm'.mem k (pteFrame (vm'.mem f j)) = tables vm.mem k (pteFrame (vm.mem f j)) := by
  rw [h.entry j hji] at hp ⊢
  exact ⟨hp, rfl, tables_congr (h.below hpre hj hp)⟩

theorem NewEntry.mem_tables (h : NewEntry k f i a vm vm') (hpre : MapPre (k + 1) f vm) (g : Nat) :
    g ∈ tables vm'.mem (k + 1) f ↔ g ∈ tables vm.mem (k + 1) f ∨ g ∈ [a] := by
  have hne : ∀ j, isPresent (vm.mem f j) = true → j ≠ i := by
    rintro j hp rfl
    rw [h.absent] at hp
    cases hp
  rw [mem_tables_succ, mem_tables_succ, List.mem_singleton]
  constructor
  · rintro (rfl | ⟨j, hj, hp, hg⟩)
    · exact Or.inl (Or.inl rfl)
    · by_cases hji : j = i
      · rw [hji, h.tables_new, List.mem_singleton] at hg
        exact Or.inr hg
      · obtain ⟨hp', -, ht⟩ := h.old hpre hj hp hji
        rw [ht] at hg
        exact Or.inl (Or.inr ⟨j, hj, hp', hg⟩)
  · rintro ((rfl | ⟨j, hj, hp, hg⟩) | rfl)
    · exact Or.inl rfl
    · refine Or.inr ⟨j, hj, ?_, ?_⟩
      · rwa [h.entry j (hne j hp)]
      · rw [h.entry j (hne j hp)]
        rwa [tables_congr (h.below hpre hj hp)]
    · exact Or.inr ⟨i, h.index, h.present, by rw [h.tables_new]; exact List.mem_singleton.mpr rfl⟩

theorem NewEntry.nodup (h : NewEntry k f i a vm vm') (hpre : MapPre (k + 1) f vm) :
    (tables vm'.mem (k + 1) f).Nodup := by
  obtain ⟨hself, hdisjoint⟩ := nodup_tables_succ.mp hpre.nodup
  rw [nodup_tables_succ]
  constructor
  · intro j hj hp
    by_cases hji : j = i
    · rw [hji, h.tables_new]
      exact ⟨fun hmem => h.ne (List.mem_singleton.mp hmem).symm, List.nodup_singleton a⟩
    · obtain ⟨hp', -, ht⟩ := h.old hpre hj hp hji
      rw [ht]
      exact hself j hj hp'
  · intro j hj l hl hjl hpj hpl
    -- at most one of the two is the new entry
    by_cases hji : j = i
    · obtain ⟨hpl', -, htl⟩ := h.old hpre hl hpl (by omega)
      rw [hji, h.tables_new, htl]
      intro g hg hgl
      rw [List.mem_singleton.mp hg] at hgl
      exact h.fresh (tables_subset_of_entry hl hpl' hgl)
    · obtain ⟨hpj', -, htj⟩ := h.old hpre hj hpj hji
      by_cases hli : l = i
      · rw [hli, h.tables_new, htj]
        intro g hg hgl
        rw [List.mem_singleton.mp hgl] at hg
        exact h.fresh (tables_subset_of_entry hj hpj' hg)
      · obtain ⟨hpl', -, htl⟩ := h.old hpre hl hpl hli
        rw [htj, htl]
        exact hdisjoint j hj l hl hjl hpj' hpl'

theorem NewEntry.upper (h : NewEntry k f i a vm vm') (hpre : MapPre (k + 1) f vm) :
    UpperOk vm'.mem (k + 1) f := by
  intro j hj hp
  by_cases hji : j = i
  · rw [hji, h.frame]
    refine ⟨?_, ?_, upperOk_of_empty h.empty⟩
    · rw [h.word]
      exact (testBit_pte (by decide) (by decide)).trans (by decide)
    · rw [h.word]
      exact (testBit_pte (by decide) (by decide)).trans (by decide)
  · obtain ⟨hp', hw, -⟩ := h.old hpre hj hp hji
    obtain ⟨hrw, hsmall, hrest⟩ := hpre.upper j hj hp'
    rw [hw]
    exact ⟨hrw, hsmall, upperOk_congr (h.below hpre hj hp') hrest⟩

theorem NewEntry.walk_eq (h : NewEntry k f i a vm vm') (hpre : MapPre (k + 1) f vm)
    (hk : k + 1 ≤ 3) {vpn : Nat} (hrange : InRange (k + 1) vpn) :
    walk vm'.mem (k + 1) f vpn = walk vm.mem (k + 1) f vpn := by
  rw [walk, walk]
  by_cases hindex : tableIndex (k + 1) vpn = i
  · rw [hindex, if_pos h.present, h.frame, walk_of_empty h.empty (inRange_of_ne (by omega)),
      h.absent, if_neg Bool.false_ne_true]
  · rw [h.entry _ hindex]
    split
    · next hp => exact walk_congr (h.below hpre hrange hp) (inRange_of_ne (by omega)) (by omega)
    · rfl

end NewEntry

/-- Allocating an entry that is absent. -/
theorem grow_alloc {a : Nat} {rest : List Nat} (hpre : MapPre (k + 1) f vm) (hk : k + 1 ≤ 3)
    (hi : i < entryCount (k + 1)) (habsent : isPresent (vm.mem f i) = false)
    (havail : vm.avail = a :: rest)
    (hmem : vm'.mem = (vm.mem.zero a).set f i (pte a (mmPresent + mmReadwrite)))
    (hrest : vm'.avail = rest) (hfreed : vm'.freed = vm.freed) :
    Grow (k + 1) f i vm vm' [a] ∧ isPresent (vm'.mem f i) = true ∧
      ∀ vpn, InRange (k + 1) vpn → walk vm'.mem (k + 1) f vpn = walk vm.mem (k + 1) f vpn := by
  have hfresh : a ∉ tables vm.mem (k + 1) f := hpre.fresh a (havail ▸ List.mem_cons_self)
  have haf : a ≠ f := by
    rintro rfl
    exact hfresh (self_mem_tables _ _ _)
  have hnew : NewEntry k f i a vm vm' := by
    refine ⟨hi, habsent, hfresh, ?_, ?_, ?_, ?_⟩
    · intro j hj
      rw [hmem, set_of_ne_index _ _ _ hj, zero_of_ne _ (Ne.symm haf)]
    · rw [hmem, set_self]
    · intro j _
      rw [hmem, set_of_ne_frame _ _ _ haf, zero_self]
    · intro g hg hga
      rw [hmem, set_of_ne_frame _ _ _ hg, zero_of_ne _ hga]
  refine ⟨⟨by rw [havail, hrest]; rfl, hfreed, ?_, hnew.entry, hnew.mem_tables hpre,
    hnew.nodup hpre, hnew.upper hpre⟩, hnew.present, fun vpn => hnew.walk_eq hpre hk⟩
  intro g hg hga
  refine hnew.other g ?_ (by simpa using hga)
  rintro rfl
  exact hg (self_mem_tables _ _ _)

/-- The entry is there, or a cleared page frame is put into it. -/
theorem ensureEntry_cases (hensure : ensureEntry f i vm = .ok vm') :
    (isPresent (vm.mem f i) = true ∧ vm' = vm) ∨
    ∃ a rest, isPresent (vm.mem f i) = false ∧ vm.avail = a :: rest ∧
      vm' = { vm with
        mem := (vm.mem.zero a).set f i (pte a (mmPresent + mmReadwrite))
        avail := rest } := by
  rw [ensureEntry] at hensure
  cases hpresent : isPresent (vm.mem f i) with
  | true =>
      rw [if_pos hpresent] at hensure
      exact Or.inl ⟨rfl, (Except.ok.inj hensure).symm⟩
  | false =>
      rw [if_neg (by simp [hpresent])] at hensure
      cases havail : vm.avail with
      | nil => simp [allocEntry, mmuPageAlloc, havail] at hensure
      | cons a rest =>
          simp only [allocEntry, mmuPageAlloc, havail, Except.ok.injEq] at hensure
          exact Or.inr ⟨a, rest, rfl, rfl, hensure.symm⟩

/-- What `mapTable` does before it descends. -/
theorem ensureEntry_spec (hpre : MapPre (k + 1) f vm) (hk : k + 1 ≤ 3)
    (hi : i < entryCount (k + 1)) (hensure : ensureEntry f i vm = .ok vm') :
    ∃ used, Grow (k + 1) f i vm vm' used ∧ isPresent (vm'.mem f i) = true ∧
      ∀ vpn, InRange (k + 1) vpn → walk vm'.mem (k + 1) f vpn = walk vm.mem (k + 1) f vpn := by
  rcases ensureEntry_cases hensure with ⟨hpresent, rfl⟩ | ⟨a, rest, hpresent, havail, rfl⟩
  · exact ⟨[], ⟨rfl, rfl, fun _ _ _ => rfl, fun _ _ => rfl, by simp, hpre.nodup, hpre.upper⟩,
      hpresent, fun _ _ => rfl⟩
  · exact ⟨[a], grow_alloc hpre hk hi hpresent havail rfl rfl rfl⟩

end Steps

/-! ## Below an entry -/

section Lift

variable {k f i j : Nat} {vm vm' : Vm} {used : List Nat}

/-- The table below an entry is fit for a mapping if the directory is. -/
theorem MapPre.below (hpre : MapPre (k + 1) f vm) (hi : i < entryCount (k + 1))
    (hpresent : isPresent (vm.mem f i) = true) : MapPre k (pteFrame (vm.mem f i)) vm where
  nodup := ((nodup_tables_succ.mp hpre.nodup).1 i hi hpresent).2
  upper := (hpre.upper i hi hpresent).2.2
  avail := hpre.avail
  fresh a ha hmem := hpre.fresh a ha (tables_subset_of_entry hi hpresent hmem)

/-- A change below an entry leaves the table itself alone. -/
theorem Grow.self_eq (hpre : MapPre (k + 1) f vm) (hi : i < entryCount (k + 1))
    (hpresent : isPresent (vm.mem f i) = true)
    (h : Grow k (pteFrame (vm.mem f i)) j vm vm' used) : vm'.mem f = vm.mem f := by
  refine h.outside f ((nodup_tables_succ.mp hpre.nodup).1 i hi hpresent).1 fun hused => ?_
  exact hpre.fresh f (h.avail ▸ List.mem_append_left _ hused) (self_mem_tables _ _ _)

/-- A change below an entry leaves the tables below the other entries alone. -/
theorem Grow.other_eq (hpre : MapPre (k + 1) f vm) (hi : i < entryCount (k + 1))
    (hpresent : isPresent (vm.mem f i) = true)
    (h : Grow k (pteFrame (vm.mem f i)) j vm vm' used) {l : Nat} (hl : l < entryCount (k + 1))
    (hli : l ≠ i) (hp : isPresent (vm.mem f l) = true) :
    ∀ g ∈ tables vm.mem k (pteFrame (vm.mem f l)), vm'.mem g = vm.mem g := by
  intro g hg
  refine h.outside g (fun hmem => ?_) fun hused => ?_
  · exact (nodup_tables_succ.mp hpre.nodup).2 l hl i hi hli hp hpresent hg hmem
  · exact hpre.fresh g (h.avail ▸ List.mem_append_left _ hused) (tables_subset_of_entry hl hp hg)

/-- A table grows when the table below one of its entries does. -/
theorem Grow.lift (hpre : MapPre (k + 1) f vm) (hi : i < entryCount (k + 1))
    (hpresent : isPresent (vm.mem f i) = true)
    (h : Grow k (pteFrame (vm.mem f i)) j vm vm' used) : Grow (k + 1) f i vm vm' used := by
  obtain ⟨hself, hdisjoint⟩ := nodup_tables_succ.mp hpre.nodup
  have hf : vm'.mem f = vm.mem f := h.self_eq hpre hi hpresent
  have htables : ∀ l < entryCount (k + 1), l ≠ i → isPresent (vm.mem f l) = true →
      tables vm'.mem k (pteFrame (vm.mem f l)) = tables vm.mem k (pteFrame (vm.mem f l)) :=
    fun l hl hli hp => tables_congr (h.other_eq hpre hi hpresent hl hli hp)
  have hfresh : ∀ g ∈ used, g ∉ tables vm.mem (k + 1) f :=
    fun g hg => hpre.fresh g (h.avail ▸ List.mem_append_left _ hg)
  refine ⟨h.avail, h.freed, ?_, fun l _ => by rw [hf], ?_, ?_, ?_⟩
  · exact fun g hg hused => h.outside g (fun hmem => hg (tables_subset_of_entry hi hpresent hmem)) hused
  · intro g
    rw [mem_tables_succ, mem_tables_succ, hf]
    constructor
    · rintro (rfl | ⟨l, hl, hp, hg⟩)
      · exact Or.inl (Or.inl rfl)
      · by_cases hli : l = i
        · rw [hli, h.mem_tables] at hg
          exact hg.imp (fun hg => Or.inr ⟨i, hi, hpresent, hg⟩) id
        · rw [htables l hl hli hp] at hg
          exact Or.inl (Or.inr ⟨l, hl, hp, hg⟩)
    · rintro ((rfl | ⟨l, hl, hp, hg⟩) | hused)
      · exact Or.inl rfl
      · by_cases hli : l = i
        · rw [hli] at hg
          exact Or.inr ⟨i, hi, hpresent, (h.mem_tables g).mpr (Or.inl hg)⟩
        · exact Or.inr ⟨l, hl, hp, by rwa [htables l hl hli hp]⟩
      · exact Or.inr ⟨i, hi, hpresent, (h.mem_tables g).mpr (Or.inr hused)⟩
  · rw [nodup_tables_succ, hf]
    -- the grown table against the table below another entry
    have hsep : ∀ l < entryCount (k + 1), l ≠ i → isPresent (vm.mem f l) = true →
        ∀ g ∈ tables vm'.mem k (pteFrame (vm.mem f i)),
          g ∉ tables vm.mem k (pteFrame (vm.mem f l)) := by
      intro l hl hli hp g hg hmem
      rcases (h.mem_tables g).mp hg with hold | hused
      · exact hdisjoint i hi l hl (Ne.symm hli) hpresent hp hold hmem
      · exact hfresh g hused (tables_subset_of_entry hl hp hmem)
    constructor
    · intro l hl hp
      by_cases hli : l = i
      · rw [hli]
        refine ⟨fun hmem => ?_, h.nodup⟩
        rcases (h.mem_tables f).mp hmem with hold | hused
        · exact (hself i hi hpresent).1 hold
        · exact hfresh f hused (self_mem_tables _ _ _)
      · rw [htables l hl hli hp]
        exact hself l hl hp
    · intro l hl m hm hlm hpl hpm
      by_cases hli : l = i
      · have hmi : m ≠ i := by omega
        rw [hli, htables m hm hmi hpm]
        exact fun g hg => hsep m hm hmi hpm g hg
      · rw [htables l hl hli hpl]
        by_cases hmi : m = i
        · rw [hmi]
          exact fun g hg hg' => hsep l hl hli hpl g hg' hg
        · rw [htables m hm hmi hpm]
          exact hdisjoint l hl m hm hlm hpl hpm
  · intro l hl hp
    rw [hf] at hp ⊢
    obtain ⟨hrw, hsmall, hrest⟩ := hpre.upper l hl hp
    refine ⟨hrw, hsmall, ?_⟩
    by_cases hli : l = i
    · rw [hli]
      exact h.upper
    · exact upperOk_congr (h.other_eq hpre hi hpresent hl hli hp) hrest

end Lift

/-! ## Mapping a page -/

/-- What a mapping does to a table. -/
structure MapSpec (target vpn flags k f : Nat) (vm vm' : Vm) (used : List Nat) : Prop extends
    Grow k f (tableIndex k vpn) vm vm' used where
  walk_self : walk vm'.mem k f vpn = some (pte target (flags ||| mmPresent))
  walk_other : ∀ vpn', InRange k vpn' → vpn' % 512 ^ (k + 1) ≠ vpn % 512 ^ (k + 1) →
    walk vm'.mem k f vpn' = walk vm.mem k f vpn'

section Map

variable {target vpn flags k f : Nat} {vm vm' : Vm}

theorem isPresent_or_mmPresent (flags : Nat) : isPresent (flags ||| mmPresent) = true := by
  rw [isPresent_or]
  exact Bool.or_true _

theorem or_mmPresent_lt (hflags : flags < 4096) : flags ||| mmPresent < 4096 :=
  Nat.or_lt_two_pow (n := 12) hflags (by decide)

theorem walk_zero_of_present {mem : PhysMem} {w : Nat} (hword : mem f (tableIndex 0 vpn) = w)
    (hpresent : isPresent w = true) : walk mem 0 f vpn = some w := by
  rw [walk, hword, if_pos hpresent]

theorem walk_zero_congr {mem mem' : PhysMem}
    (hword : mem' f (tableIndex 0 vpn) = mem f (tableIndex 0 vpn)) :
    walk mem' 0 f vpn = walk mem 0 f vpn := by
  rw [walk, walk, hword]

/-- Mapping a page in a page table. -/
theorem mapTable_zero (vm : Vm) (hflags : flags < 4096) :
    MapSpec target vpn flags 0 f vm
      { vm with
        mem := vm.mem.set f (tableIndex 0 vpn) (pte target (flags ||| mmPresent)) } [] where
  avail := rfl
  freed := rfl
  outside g hg _ := set_of_ne_frame _ _ _ fun hgf => hg (hgf ▸ self_mem_tables _ _ _)
  entry j hj := set_of_ne_index _ _ _ hj
  mem_tables g := by simp [tables]
  nodup := List.nodup_singleton f
  upper := trivial
  walk_self := by
    have hpresent : isPresent (pte target (flags ||| mmPresent)) = true :=
      (testBit_pte (or_mmPresent_lt hflags) (by decide)).trans (isPresent_or_mmPresent flags)
    exact walk_zero_of_present (set_self _ _ _ _) hpresent
  walk_other vpn' _ hne := by
    have hindex : tableIndex 0 vpn' ≠ tableIndex 0 vpn := by
      simpa [tableIndex] using hne
    exact walk_zero_congr (set_of_ne_index _ _ _ hindex)

/-- Mapping a page in a table of any level. -/
theorem mapTable_spec (hk : k ≤ 3) (hpre : MapPre k f vm) (hrange : InRange k vpn)
    (hflags : flags < 4096) (h2mb : is2mb flags = false)
    (hmap : mapTable target vpn flags k f vm = .ok vm') :
    ∃ used, MapSpec target vpn flags k f vm vm' used := by
  induction k generalizing f vm with
  | zero =>
      obtain rfl := Except.ok.inj hmap
      exact ⟨[], mapTable_zero vm hflags⟩
  | succ k ih =>
      rw [mapTable] at hmap
      cases hensure : ensureEntry f (tableIndex (k + 1) vpn) vm with
      | error e =>
          rw [hensure] at hmap
          cases hmap
      | ok vm₁ =>
          rw [hensure] at hmap
          dsimp only at hmap
          obtain ⟨used, hgrow, hpresent, hwalk⟩ := ensureEntry_spec hpre hk hrange hensure
          have hpre₁ := hgrow.pre hpre
          -- the entry gets the flags of the page
          obtain ⟨hor, hwalk'⟩ := grow_or hpre₁ hk hpresent hflags h2mb rfl
          have hpre₂ := hor.pre hpre₁
          have hpresent₂ : isPresent ((vm₁.mem.set f (tableIndex (k + 1) vpn)
              (vm₁.mem f (tableIndex (k + 1) vpn) ||| flags)) f (tableIndex (k + 1) vpn)) =
              true := by
            rw [set_self, isPresent_or, hpresent, Bool.true_or]
          generalize hvm₂ : ({ vm₁ with
            mem := vm₁.mem.set f (tableIndex (k + 1) vpn)
              (vm₁.mem f (tableIndex (k + 1) vpn) ||| flags) } : Vm) = vm₂ at hmap hor hwalk' hpre₂
          have hmem₂ : vm₁.mem.set f (tableIndex (k + 1) vpn)
              (vm₁.mem f (tableIndex (k + 1) vpn) ||| flags) = vm₂.mem := by rw [← hvm₂]
          rw [hmem₂] at hmap hpresent₂
          obtain ⟨used₁, hspec⟩ := ih (by omega) (hpre₂.below hrange hpresent₂)
            (inRange_of_ne (by omega)) hmap
          have hself := hspec.toGrow.self_eq hpre₂ hrange hpresent₂
          refine ⟨used ++ ([] ++ used₁),
            hgrow.trans (hor.trans (hspec.toGrow.lift hpre₂ hrange hpresent₂)), ?_, ?_⟩
          · rw [walk, hself, if_pos hpresent₂]
            exact hspec.walk_self
          · intro vpn' hrange' hne
            rw [← hwalk vpn' hrange', ← hwalk' vpn' hrange', walk, walk, hself]
            by_cases hindex : tableIndex (k + 1) vpn' = tableIndex (k + 1) vpn
            · rw [hindex, if_pos hpresent₂, if_pos hpresent₂]
              apply hspec.walk_other vpn' (inRange_of_ne (by omega))
              intro hlow
              rw [Nat.pow_succ _ (k + 1), Nat.mod_mul, Nat.mod_mul, hlow] at hne
              exact hne (by rw [← tableIndex, ← tableIndex, hindex])
            · split
              · next hp =>
                  exact walk_congr (hspec.toGrow.other_eq hpre₂ hrange hpresent₂ hrange' hindex hp)
                    (inRange_of_ne (by omega)) (by omega)
              · rfl

/-- Mapping a page in a directory. -/
theorem mapPage_spec {pml4 paddr vaddr : Nat} (hpre : MapPre 3 pml4 vm)
    (hrange : InRange 3 (vaddr / 4096)) (hflags : flags < 4096) (h2mb : is2mb flags = false)
    (hmap : mapPage vm pml4 paddr vaddr flags = .ok vm') :
    ∃ used, MapSpec (paddr / 4096) (vaddr / 4096) flags 3 pml4 vm vm' used := by
  rw [mapPage] at hmap
  split at hmap
  · cases hmap
  · split at hmap
    · cases hmap
    · exact mapTable_spec (le_refl 3) hpre hrange hflags h2mb hmap

/-- A mapping takes at most one frame for each level above the page tables. -/
theorem mapTable_returns (m : Nat) (havail : k + m ≤ vm.avail.length) :
    ∃ vm', mapTable target vpn flags k f vm = .ok vm' ∧ m ≤ vm'.avail.length := by
  induction k generalizing f vm with
  | zero => exact ⟨_, rfl, by simpa using havail⟩
  | succ k ih =>
      have hensure : ∃ vm₁, ensureEntry f (tableIndex (k + 1) vpn) vm = .ok vm₁ ∧
          k + m ≤ vm₁.avail.length := by
        rw [ensureEntry]
        split
        · exact ⟨vm, rfl, by omega⟩
        · cases hlist : vm.avail with
          | nil =>
              rw [hlist, List.length_nil] at havail
              omega
          | cons a rest =>
              rw [hlist, List.length_cons] at havail
              refine ⟨_, by simp only [allocEntry, mmuPageAlloc, hlist]; rfl, ?_⟩
              dsimp only
              omega
      obtain ⟨vm₁, hvm₁, hlen⟩ := hensure
      rw [mapTable, hvm₁]
      exact ih hlen

theorem mapPage_returns (m : Nat) {pml4 paddr vaddr : Nat} (hpaddr : Mm.pageAligned paddr)
    (hvaddr : Mm.pageAligned vaddr) (havail : 3 + m ≤ vm.avail.length) :
    ∃ vm', mapPage vm pml4 paddr vaddr flags = .ok vm' ∧ m ≤ vm'.avail.length := by
  rw [mapPage, if_neg (not_not_intro hpaddr), if_neg (not_not_intro hvaddr)]
  exact mapTable_returns m havail

end Map

/-! ## New directories -/

/-- The pages that a new directory maps. -/
def DirConfig.Device (cfg : DirConfig) (p : Nat) : Prop :=
  p = cfg.lapic / 4096 ∨ p = cfg.ioapic / 4096 ∨
    ∃ v, cfg.vga = some v ∧ v / 4096 ≤ p ∧ p < v / 4096 + 4096

/-- Pages below the kernel's part of the address space. -/
def userPages : Nat := pageCount 3

theorem userPages_le : userPages ≤ 512 ^ 4 := by decide

theorem DirConfig.device_lt (cfg : DirConfig) {p : Nat} (hp : cfg.Device p) : p < userPages := by
  have hlarge : 2 ^ 20 + 4096 ≤ userPages := by decide
  have hlapic := cfg.lapic_lt
  have hioapic := cfg.ioapic_lt
  rcases hp with rfl | rfl | ⟨v, hv, _, hp⟩
  · omega
  · omega
  · have := cfg.vga_lt v hv
    omega

/-- A directory in the frames `used` that maps the pages in `pages`, each to the frame of the same
number and for the kernel only. -/
structure DirSpec (cfg : DirConfig) (pages : Nat → Prop) (root : Nat) (vm vm' : Vm)
    (used : List Nat) : Prop where
  avail : vm.avail = used ++ vm'.avail
  freed : vm'.freed = vm.freed
  outside : ∀ g, g ∉ used → vm'.mem g = vm.mem g
  mem_tables : ∀ g, g ∈ tables vm'.mem 3 root ↔ g ∈ used
  nodup : (tables vm'.mem 3 root).Nodup
  upper : UpperOk vm'.mem 3 root
  kernel : vm'.mem root 511 = cfg.kernelEntry
  mapped : ∀ vpn < userPages, pages vpn →
    walk vm'.mem 3 root vpn = some (pte vpn (mmPresent + mmReadwrite))
  unmapped : ∀ vpn < userPages, ¬ pages vpn → walk vm'.mem 3 root vpn = none

section Build

variable {cfg : DirConfig} {pages : Nat → Prop} {root : Nat} {vm vm₁ vm' : Vm} {used : List Nat}

theorem DirSpec.pre (hnodup : vm.avail.Nodup) (h : DirSpec cfg pages root vm vm' used) :
    MapPre 3 root vm' := by
  rw [h.avail, List.nodup_append] at hnodup
  refine ⟨h.nodup, h.upper, hnodup.2.1, fun a ha hmem => ?_⟩
  exact hnodup.2.2 a ((h.mem_tables a).mp hmem) a ha rfl

/-- One more page. -/
theorem DirSpec.map (hnodup : vm.avail.Nodup) (h : DirSpec cfg pages root vm vm₁ used)
    {addr : Nat} (hlt : addr / 4096 < userPages)
    (hmap : mapPage vm₁ root addr addr (mmPresent + mmReadwrite) = .ok vm') :
    ∃ used', DirSpec cfg (fun p => p = addr / 4096 ∨ pages p) root vm vm' (used ++ used') := by
  obtain ⟨used', hspec⟩ := mapPage_spec (h.pre hnodup) (inRange_of_lt hlt) (by decide) (by decide)
    hmap
  have hlast : tableIndex 3 (addr / 4096) ≠ 511 := by
    have := inRange_of_lt hlt
    unfold InRange entryCount at this
    simp only [if_true] at this
    omega
  have hmod : ∀ p < userPages, p % 512 ^ (3 + 1) = p :=
    fun p hp => Nat.mod_eq_of_lt (lt_of_lt_of_le hp userPages_le)
  refine ⟨used', ⟨?_, ?_, ?_, ?_, hspec.nodup, hspec.upper, ?_, ?_, ?_⟩⟩
  · rw [h.avail, hspec.avail, List.append_assoc]
  · rw [hspec.freed, h.freed]
  · intro g hg
    rw [List.mem_append, not_or] at hg
    rw [hspec.outside g (fun hmem => hg.1 ((h.mem_tables g).mp hmem)) hg.2, h.outside g hg.1]
  · intro g
    rw [hspec.mem_tables, h.mem_tables, List.mem_append]
  · rw [hspec.entry 511 (Ne.symm hlast), h.kernel]
  · intro vpn hvpn hpage
    by_cases heq : vpn = addr / 4096
    · rw [heq]
      exact hspec.walk_self
    · rw [hspec.walk_other vpn (inRange_of_lt hvpn) (by rwa [hmod vpn hvpn, hmod _ hlt])]
      exact h.mapped vpn hvpn (hpage.resolve_left heq)
  · intro vpn hvpn hpage
    rw [not_or] at hpage
    rw [hspec.walk_other vpn (inRange_of_lt hvpn) (by rw [hmod vpn hvpn, hmod _ hlt]; exact hpage.1)]
    exact h.unmapped vpn hvpn hpage.2

/-- The pages of a range. -/
theorem DirSpec.mapRange (hnodup : vm.avail.Nodup) (n addr : Nat)
    (h : DirSpec cfg pages root vm vm₁ used) (hlt : addr / 4096 + n ≤ userPages)
    (hmap : mapRange root (mmPresent + mmReadwrite) n addr addr vm₁ = .ok vm') :
    ∃ used', DirSpec cfg (fun p => (addr / 4096 ≤ p ∧ p < addr / 4096 + n) ∨ pages p) root vm vm'
      (used ++ used') := by
  induction n generalizing addr pages vm₁ used with
  | zero =>
      obtain rfl := Except.ok.inj hmap
      refine ⟨[], ?_⟩
      have hpages : (fun p => (addr / 4096 ≤ p ∧ p < addr / 4096 + 0) ∨ pages p) = pages := by
        funext p
        apply propext
        constructor
        · rintro (hp | hp)
          · omega
          · exact hp
        · exact Or.inr
      rwa [List.append_nil, hpages]
  | succ n ih =>
      rw [Arch.mapRange] at hmap
      cases hfirst : mapPage vm₁ root addr addr (mmPresent + mmReadwrite) with
      | error e =>
          rw [hfirst] at hmap
          cases hmap
      | ok vm₂ =>
          rw [hfirst] at hmap
          have hnext : (addr + Mm.pageSize) / 4096 = addr / 4096 + 1 := by
            rw [Mm.pageSize]
            omega
          obtain ⟨used₁, h₁⟩ := h.map hnodup (by omega) hfirst
          obtain ⟨used₂, h₂⟩ := ih (addr + Mm.pageSize) h₁ (by omega) hmap
          refine ⟨used₁ ++ used₂, ?_⟩
          have hpages : (fun p => ((addr + Mm.pageSize) / 4096 ≤ p ∧
              p < (addr + Mm.pageSize) / 4096 + n) ∨ p = addr / 4096 ∨ pages p) =
              fun p => (addr / 4096 ≤ p ∧ p < addr / 4096 + (n + 1)) ∨ pages p := by
            funext p
            apply propext
            rw [← or_assoc, hnext]
            apply or_congr_left
            omega
          rwa [hpages, List.append_assoc] at h₂

/-- A directory with no page. -/
theorem DirSpec.empty {rest : List Nat} (havail : vm.avail = root :: rest)
    (hmem : vm'.mem = Function.update vm.mem root fun i =>
      if i < 511 then 0 else if i = 511 then cfg.kernelEntry else vm.mem root i)
    (hrest : vm'.avail = rest) (hfreed : vm'.freed = vm.freed) :
    DirSpec cfg (fun _ => False) root vm vm' [root] := by
  have hempty : ∀ i < entryCount 3, vm'.mem root i = 0 := by
    intro i hi
    have hlt : i < 511 := hi
    rw [hmem, Function.update_self, if_pos hlt]
  constructor
  case avail =>
    rw [havail, hrest]
    rfl
  case freed => exact hfreed
  case upper => exact upperOk_of_empty hempty
  case outside =>
    intro g hg
    rw [hmem]
    exact Function.update_of_ne (by simpa using hg) _ _
  case mem_tables =>
    intro g
    rw [tables_of_empty hempty]
  case nodup =>
    rw [tables_of_empty hempty]
    exact List.nodup_singleton root
  case kernel => rw [hmem, Function.update_self, if_neg (by omega), if_pos rfl]
  case mapped => exact fun _ _ hfalse => hfalse.elim
  case unmapped => exact fun vpn hvpn _ => walk_of_empty hempty (inRange_of_lt hvpn)

/-- A new directory maps the devices. -/
theorem mmuNativeBuildDir_spec (hnodup : vm.avail.Nodup)
    (hbuild : mmuNativeBuildDir cfg vm = .ok (root, vm')) :
    ∃ used, DirSpec cfg cfg.Device root vm vm' used := by
  rw [mmuNativeBuildDir] at hbuild
  obtain ⟨⟨pml4, vm₁⟩, halloc, hmaps⟩ := Halt.bind_eq_ok.mp hbuild
  obtain ⟨vm₂, hlapic, hmaps⟩ := Halt.bind_eq_ok.mp hmaps
  obtain ⟨vm₃, hioapic, hlast⟩ := Halt.bind_eq_ok.mp hmaps
  cases havail : vm.avail with
  | nil => simp [mmuPageAlloc, havail] at halloc
  | cons a rest =>
      simp only [mmuPageAlloc, havail, Except.ok.injEq, Prod.mk.injEq] at halloc
      obtain ⟨rfl, rfl⟩ := halloc
      have h₁ : DirSpec cfg (fun _ => False) a vm
          { vm with
            mem := Function.update vm.mem a fun i =>
              if i < 511 then 0 else if i = 511 then cfg.kernelEntry else vm.mem a i
            avail := rest } [a] := DirSpec.empty havail rfl rfl rfl
      obtain ⟨used₂, h₂⟩ := h₁.map hnodup (cfg.device_lt (Or.inl rfl)) hlapic
      obtain ⟨used₃, h₃⟩ := h₂.map hnodup (cfg.device_lt (Or.inr (Or.inl rfl))) hioapic
      cases hvga : cfg.vga with
      | none =>
          rw [hvga] at hlast
          simp only [Halt.pure_eq_ok, Except.ok.injEq, Prod.mk.injEq] at hlast
          obtain ⟨rfl, rfl⟩ := hlast
          have hpages : (fun p => p = cfg.ioapic / 4096 ∨ p = cfg.lapic / 4096 ∨ False) =
              cfg.Device := by
            funext p
            simp only [DirConfig.Device, hvga, or_false, reduceCtorEq, false_and, exists_false]
            exact propext or_comm
          exact ⟨_, hpages ▸ h₃⟩
      | some v =>
          rw [hvga] at hlast
          obtain ⟨vm₄, hrange, hlast⟩ := Halt.bind_eq_ok.mp hlast
          simp only [Halt.pure_eq_ok, Except.ok.injEq, Prod.mk.injEq] at hlast
          obtain ⟨rfl, rfl⟩ := hlast
          have hlt : v / 4096 + 4096 ≤ userPages := by
            have hlarge : 2 ^ 20 + 4096 ≤ userPages := by decide
            have := cfg.vga_lt v hvga
            omega
          obtain ⟨used₄, h₄⟩ := h₃.mapRange hnodup 4096 v hlt hrange
          have hpages : (fun p => (v / 4096 ≤ p ∧ p < v / 4096 + 4096) ∨
              p = cfg.ioapic / 4096 ∨ p = cfg.lapic / 4096 ∨ False) = cfg.Device := by
            funext p
            simp only [DirConfig.Device, hvga, or_false, Option.some.injEq, exists_eq_left']
            apply propext
            tauto
          exact ⟨_, hpages ▸ h₄⟩

/-- A new directory takes at most seven frames if there is no framebuffer. -/
theorem mmuNativeBuildDir_returns (m : Nat) (hlapic : Mm.pageAligned cfg.lapic)
    (hioapic : Mm.pageAligned cfg.ioapic) (hvga : cfg.vga = none) {rest : List Nat}
    (havail : vm.avail = root :: rest) (hrest : 6 + m ≤ rest.length) :
    ∃ vm', mmuNativeBuildDir cfg vm = .ok (root, vm') ∧ m ≤ vm'.avail.length := by
  let vm₁ : Vm :=
    { vm with
      mem := Function.update vm.mem root fun i =>
        if i < 511 then 0 else if i = 511 then cfg.kernelEntry else vm.mem root i
      avail := rest }
  have hlen : 3 + (3 + m) ≤ vm₁.avail.length := le_trans (by omega) hrest
  obtain ⟨vm₂, h₂, hlen₂⟩ := mapPage_returns (3 + m) hlapic hlapic hlen
  obtain ⟨vm₃, h₃, hlen₃⟩ := mapPage_returns m hioapic hioapic hlen₂
  refine ⟨vm₃, ?_, hlen₃⟩
  rw [mmuNativeBuildDir]
  refine Halt.bind_eq_ok.mpr ⟨(root, { vm with avail := rest }), by rw [mmuPageAlloc, havail], ?_⟩
  refine Halt.bind_eq_ok.mpr ⟨vm₂, h₂, Halt.bind_eq_ok.mpr ⟨vm₃, h₃, ?_⟩⟩
  rw [hvga]
  rfl

end Build

end Arch
end Micael
