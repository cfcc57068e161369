import Micael.Arch.MapPage
import Mathlib.Order.CompletePartialOrder

/-!
# Mapping a page as a point update

A page table is a tree of tables if the tables below different entries of a table have no frame in
common.  The walk of a page ends at a frame with the flags of the last entry, or nowhere; an entry
with `MM_2MB` ends it early.

Then `__map_page` changes the walk of its page and of no other, wherever on the way it has to create
tables, and with whatever flags it adds to the entries on the way.  All 512 entries of a PML4 are
treated alike, and there may be large pages everywhere but on the way to the page.

Main results:

- Theorem {lit}`TableTree.congr`: a tree and its walks depend on its own frames only.
- Theorem {lit}`mapTable_point`: what `__map_page` does below a table of any level.
- Theorem {lit}`map_page_point_update`: `__map_page` is a point update of the walk, and `__map_range`
  the composition of these.
-/

namespace Micael
namespace Arch

/-! ## Trees and walks -/

/-- The entry leads to a table. -/
def descends (w : Nat) : Bool := isPresent w && !is2mb w

/-- The table `f` of a level has the tables `frames` below it, itself included, and none of them is
reached through two entries. -/
def TableTree (mem : PhysMem) : Nat → Nat → Set Nat → Prop
  | 0, f, frames => frames = {f}
  | k + 1, f, frames => ∃ sub : Nat → Set Nat,
      (frames = {g | g = f ∨ ∃ i < 512, g ∈ sub i}) ∧ (∀ i < 512, f ∉ sub i) ∧
      (∀ i < 512, ∀ j < 512, i ≠ j → Disjoint (sub i) (sub j)) ∧
      ∀ i < 512, (descends (mem f i) = true → TableTree mem k (pteFrame (mem f i)) (sub i)) ∧
        (descends (mem f i) = false → sub i = ∅)

/-- The frame and the flags that the walk of a page ends with. -/
def leafWalk (mem : PhysMem) : Nat → Nat → Nat → Option (Nat × Nat)
  | 0, f, vpn =>
      let w := mem f (tableIndex 0 vpn)
      if isPresent w then some (pteFrame w, w % 4096) else none
  | k + 1, f, vpn =>
      let w := mem f (tableIndex (k + 1) vpn)
      if ¬ isPresent w then none
      else if is2mb w then some (pteFrame w + vpn % 512 ^ (k + 1), w % 4096)
      else leafWalk mem k (pteFrame w) vpn

/-- No entry on the walk of a page has `MM_2MB`. -/
def NoLarge (mem : PhysMem) : Nat → Nat → Nat → Prop
  | 0, _, _ => True
  | k + 1, f, vpn => isPresent (mem f (tableIndex (k + 1) vpn)) = true →
      is2mb (mem f (tableIndex (k + 1) vpn)) = false ∧
        NoLarge mem k (pteFrame (mem f (tableIndex (k + 1) vpn))) vpn

section Trees

variable {mem mem' : PhysMem} {k f vpn : Nat} {frames : Set Nat}

theorem descends_iff {w : Nat} : descends w = true ↔ isPresent w = true ∧ is2mb w = false := by
  simp [descends]

theorem TableTree.self_mem (h : TableTree mem k f frames) : f ∈ frames := by
  cases k with
  | zero =>
      obtain rfl : frames = {f} := h
      exact Set.mem_singleton f
  | succ k =>
      obtain ⟨sub, rfl, -⟩ := h
      exact .inl rfl

/-- An entry that leads to a table leads the walk there. -/
theorem leafWalk_of_descends (h : descends (mem f (tableIndex (k + 1) vpn)) = true) :
    leafWalk mem (k + 1) f vpn = leafWalk mem k (pteFrame (mem f (tableIndex (k + 1) vpn))) vpn := by
  obtain ⟨hpresent, hsmall⟩ := descends_iff.mp h
  rw [leafWalk, if_neg (not_not.mpr hpresent), hsmall, if_neg Bool.false_ne_true]

theorem noLarge_of_descends (h : descends (mem f (tableIndex (k + 1) vpn)) = true) :
    NoLarge mem (k + 1) f vpn ↔ NoLarge mem k (pteFrame (mem f (tableIndex (k + 1) vpn))) vpn := by
  obtain ⟨hpresent, hsmall⟩ := descends_iff.mp h
  constructor
  · exact fun hno => (hno hpresent).2
  · exact fun hno _ => ⟨hsmall, hno⟩

/-- Elsewhere a walk depends on the word of the entry only. -/
theorem leafWalk_of_not_descends (h : descends (mem f (tableIndex (k + 1) vpn)) = false)
    (hword : mem' f (tableIndex (k + 1) vpn) = mem f (tableIndex (k + 1) vpn)) :
    leafWalk mem' (k + 1) f vpn = leafWalk mem (k + 1) f vpn ∧
      (NoLarge mem (k + 1) f vpn → NoLarge mem' (k + 1) f vpn) := by
  cases hpresent : isPresent (mem f (tableIndex (k + 1) vpn)) with
  | false =>
      constructor
      · simp [leafWalk, hword, hpresent]
      · intro _ hp
        rw [hword, hpresent] at hp
        cases hp
  | true =>
      have hlarge : is2mb (mem f (tableIndex (k + 1) vpn)) = true := by
        simpa [descends, hpresent] using h
      constructor
      · simp [leafWalk, hword, hpresent, hlarge]
      · intro hno
        rw [(hno hpresent).1] at hlarge
        cases hlarge

/-- A tree and its walks depend on its own frames only. -/
theorem TableTree.congr (h : TableTree mem k f frames) (hmem : ∀ g ∈ frames, mem' g = mem g) :
    TableTree mem' k f frames ∧ ∀ vpn, leafWalk mem' k f vpn = leafWalk mem k f vpn ∧
      (NoLarge mem k f vpn → NoLarge mem' k f vpn) := by
  induction k generalizing f frames with
  | zero =>
      have hf : mem' f = mem f := hmem f h.self_mem
      refine ⟨h, fun vpn => ⟨?_, fun hno => hno⟩⟩
      rw [leafWalk, leafWalk, hf]
  | succ k ih =>
      have hf : mem' f = mem f := hmem f h.self_mem
      obtain ⟨sub, rfl, hself, hdisjoint, hsub⟩ := h
      have hbelow : ∀ i < 512, descends (mem f i) = true →
          TableTree mem' k (pteFrame (mem f i)) (sub i) ∧ ∀ vpn,
            leafWalk mem' k (pteFrame (mem f i)) vpn = leafWalk mem k (pteFrame (mem f i)) vpn ∧
            (NoLarge mem k (pteFrame (mem f i)) vpn → NoLarge mem' k (pteFrame (mem f i)) vpn) :=
        fun i hi hdesc => ih ((hsub i hi).1 hdesc) fun g hg => hmem g (.inr ⟨i, hi, hg⟩)
      constructor
      · refine ⟨sub, rfl, hself, hdisjoint, fun i hi => ?_⟩
        rw [hf]
        exact ⟨fun hdesc => (hbelow i hi hdesc).1, (hsub i hi).2⟩
      · intro vpn
        cases hdesc : descends (mem f (tableIndex (k + 1) vpn)) with
        | false => exact leafWalk_of_not_descends hdesc (by rw [hf])
        | true =>
            have hdesc' : descends (mem' f (tableIndex (k + 1) vpn)) = true := by rw [hf, hdesc]
            obtain ⟨hwalk, hno⟩ := (hbelow _ (tableIndex_lt _ _) hdesc).2 vpn
            rw [leafWalk_of_descends hdesc, leafWalk_of_descends hdesc', noLarge_of_descends hdesc,
              noLarge_of_descends hdesc', hf]
            exact ⟨hwalk, hno⟩

/-- The table below an entry may have grown. -/
theorem TableTree.grow {sub : Nat → Set Nat} {i : Nat} {grown : Set Nat} (hi : i < 512)
    (hself : ∀ j < 512, f ∉ sub j)
    (hdisjoint : ∀ j < 512, ∀ l < 512, j ≠ l → Disjoint (sub j) (sub l)) (hf : f ∉ grown)
    (hapart : ∀ j < 512, j ≠ i → Disjoint grown (sub j)) (hle : sub i ⊆ grown)
    (hdesc : descends (mem f i) = true) (htree : TableTree mem k (pteFrame (mem f i)) grown)
    (hrest : ∀ j < 512, j ≠ i →
      (descends (mem f j) = true → TableTree mem k (pteFrame (mem f j)) (sub j)) ∧
        (descends (mem f j) = false → sub j = ∅)) :
    TableTree mem (k + 1) f ({g | g = f ∨ ∃ j < 512, g ∈ sub j} ∪ grown) := by
  refine ⟨Function.update sub i grown, ?_, ?_, ?_, ?_⟩
  · ext g
    constructor
    · rintro ((rfl | ⟨j, hj, hg⟩) | hg)
      · exact .inl rfl
      · refine .inr ⟨j, hj, ?_⟩
        by_cases hji : j = i
        · rw [hji, Function.update_self]
          exact hle (hji ▸ hg)
        · rwa [Function.update_of_ne hji]
      · refine .inr ⟨i, hi, ?_⟩
        rwa [Function.update_self]
    · rintro (rfl | ⟨j, hj, hg⟩)
      · exact .inl (.inl rfl)
      · by_cases hji : j = i
        · rw [hji, Function.update_self] at hg
          exact .inr hg
        · rw [Function.update_of_ne hji] at hg
          exact .inl (.inr ⟨j, hj, hg⟩)
  · intro j hj
    by_cases hji : j = i
    · rwa [hji, Function.update_self]
    · rw [Function.update_of_ne hji]
      exact hself j hj
  · intro j hj l hl hjl
    by_cases hji : j = i
    · have hli : l ≠ i := fun h => hjl (hji.trans h.symm)
      rw [hji, Function.update_self, Function.update_of_ne hli]
      exact hapart l hl hli
    · rw [Function.update_of_ne hji]
      by_cases hli : l = i
      · rw [hli, Function.update_self]
        exact (hapart j hj hji).symm
      · rw [Function.update_of_ne hli]
        exact hdisjoint j hj l hl hjl
  · intro j hj
    by_cases hji : j = i
    · rw [hji, Function.update_self]
      refine ⟨fun _ => htree, fun hnot => ?_⟩
      rw [hdesc] at hnot
      cases hnot
    · rw [Function.update_of_ne hji]
      exact hrest j hj hji

/-- An empty table is a tree without pages. -/
theorem tableTree_of_empty {a : Nat} (hempty : ∀ i, mem a i = 0) (k : Nat) :
    TableTree mem k a {a} ∧ ∀ vpn, leafWalk mem k a vpn = none ∧ NoLarge mem k a vpn := by
  cases k with
  | zero =>
      refine ⟨rfl, fun vpn => ⟨?_, trivial⟩⟩
      rw [leafWalk, hempty, isPresent_zero, if_neg Bool.false_ne_true]
  | succ k =>
      constructor
      · refine ⟨fun _ => ∅, ?_, fun _ _ => Set.notMem_empty _, fun _ _ _ _ _ => disjoint_bot_left, ?_⟩
        · ext g
          simp
        · intro i _
          rw [hempty]
          exact ⟨fun hdesc => absurd hdesc (by decide), fun _ => rfl⟩
      · intro vpn
        constructor
        · rw [leafWalk, hempty, isPresent_zero, if_pos Bool.false_ne_true]
        · intro hp
          rw [hempty] at hp
          exact absurd hp (by decide)

end Trees

/-! ## One table -/

/-- The frames of a list. -/
def framesOf (list : List Nat) : Set Nat := {g | g ∈ list}

/-- The entry `i` of the table `f` leads to a table, which is new if it did not before: its frames are
those that were below the entry and the new ones, and nothing else has changed. -/
structure Entered (k f i : Nat) (sub : Set Nat) (vm vm' : Vm) (new : List Nat) : Prop where
  avail : vm.avail = new ++ vm'.avail
  desc : descends (vm'.mem f i) = true
  entry : ∀ j, j ≠ i → vm'.mem f j = vm.mem f j
  outside : ∀ g, g ≠ f → g ∉ new → vm'.mem g = vm.mem g
  tree : TableTree vm'.mem k (pteFrame (vm'.mem f i)) (sub ∪ framesOf new)
  walks : ∀ vpn, tableIndex (k + 1) vpn = i →
    leafWalk vm'.mem (k + 1) f vpn = leafWalk vm.mem (k + 1) f vpn ∧
      (NoLarge vm.mem (k + 1) f vpn → NoLarge vm'.mem (k + 1) f vpn)

section Entry

variable {k f i vpn flags : Nat} {sub : Set Nat} {vm vm' : Vm} {new : List Nat}

/-- `__alloc_entry` for an absent entry. -/
theorem Entered.alloc {a : Nat} {rest : List Nat} (havail : vm.avail = a :: rest) (haf : a ≠ f)
    (habsent : isPresent (vm.mem f i) = false) (hsub : sub = ∅) :
    Entered k f i sub vm
      { vm with
        mem := (vm.mem.zero a).set f i (pte a (mmPresent + mmReadwrite))
        avail := rest } [a] := by
  have hword : ((vm.mem.zero a).set f i (pte a (mmPresent + mmReadwrite))) f i =
      pte a (mmPresent + mmReadwrite) := set_self _ _ _ _
  have hempty : ∀ j, ((vm.mem.zero a).set f i (pte a (mmPresent + mmReadwrite))) a j = 0 := by
    intro j
    rw [set_of_ne_frame _ _ _ haf, zero_self]
  have hdesc : descends (pte a (mmPresent + mmReadwrite)) = true := by
    apply descends_iff.mpr
    constructor
    · exact (testBit_pte (by decide) (by decide)).trans (by decide)
    · exact (testBit_pte (by decide) (by decide)).trans (by decide)
  obtain ⟨htree, hnone⟩ := tableTree_of_empty hempty k
  constructor
  case avail => exact havail
  case desc =>
    dsimp only
    rw [hword, hdesc]
  case entry =>
    intro j hj
    dsimp only
    rw [set_of_ne_index _ _ _ hj, zero_of_ne _ haf.symm]
  case outside =>
    intro g hg hga
    have hne : g ≠ a := fun h => hga (List.mem_singleton.mpr h)
    dsimp only
    rw [set_of_ne_frame _ _ _ hg, zero_of_ne _ hne]
  case tree =>
    have hframes : sub ∪ framesOf [a] = {a} := by
      rw [hsub, Set.empty_union]
      ext g
      simp [framesOf]
    dsimp only
    rw [hword, pteFrame_pte (by decide), hframes]
    exact htree
  case walks =>
    rintro vpn rfl
    have hdesc' := hdesc
    rw [← hword] at hdesc'
    dsimp only
    rw [leafWalk_of_descends hdesc', noLarge_of_descends hdesc', hword, pteFrame_pte (by decide)]
    refine ⟨?_, fun _ => (hnone vpn).2⟩
    rw [(hnone vpn).1, leafWalk, habsent, if_pos Bool.false_ne_true]

/-- What `ensureEntry` does to an entry on a walk without large pages. -/
theorem ensureEntry_entered (hensure : ensureEntry f i vm = .ok vm') (hfresh : f ∉ vm.avail)
    (hlarge : isPresent (vm.mem f i) = true → is2mb (vm.mem f i) = false)
    (htree : descends (vm.mem f i) = true → TableTree vm.mem k (pteFrame (vm.mem f i)) sub)
    (hempty : descends (vm.mem f i) = false → sub = ∅) :
    ∃ new, Entered k f i sub vm vm' new := by
  rcases ensureEntry_cases hensure with ⟨hpresent, rfl⟩ | ⟨a, rest, hpresent, havail, rfl⟩
  · have hdesc : descends (vm'.mem f i) = true := descends_iff.mpr ⟨hpresent, hlarge hpresent⟩
    have htree' : TableTree vm'.mem k (pteFrame (vm'.mem f i)) (sub ∪ framesOf []) := by
      have hframes : sub ∪ framesOf [] = sub := by simp [framesOf]
      rw [hframes]
      exact htree hdesc
    exact ⟨[], rfl, hdesc, fun _ _ => rfl, fun _ _ _ => rfl, htree',
      fun _ _ => ⟨rfl, fun hno => hno⟩⟩
  · have haf : a ≠ f := fun h => hfresh (h ▸ havail ▸ List.mem_cons_self)
    exact ⟨[a], .alloc havail haf hpresent (hempty (by simp [descends, hpresent]))⟩

/-- Setting flags of the entry keeps the table that it leads to. -/
theorem Entered.setFlags (h : Entered k f i sub vm vm' new) (hf : f ∉ sub) (hnew : f ∉ new)
    (hflags : flags < 4096) (h2mb : is2mb flags = false) :
    Entered k f i sub vm { vm' with mem := vm'.mem.set f i (vm'.mem f i ||| flags) } new := by
  obtain ⟨hpresent, hsmall⟩ := descends_iff.mp h.desc
  have hword : (vm'.mem.set f i (vm'.mem f i ||| flags)) f i = vm'.mem f i ||| flags :=
    set_self _ _ _ _
  have hdesc : descends ((vm'.mem.set f i (vm'.mem f i ||| flags)) f i) = true := by
    rw [hword]
    apply descends_iff.mpr
    rw [isPresent_or, hpresent, is2mb_or, hsmall, h2mb]
    exact ⟨rfl, rfl⟩
  have hframe : pteFrame ((vm'.mem.set f i (vm'.mem f i ||| flags)) f i) =
      pteFrame (vm'.mem f i) := by
    rw [hword, pteFrame_or hflags]
  have hsame : ∀ g ∈ sub ∪ framesOf new,
      (vm'.mem.set f i (vm'.mem f i ||| flags)) g = vm'.mem g := by
    intro g hg
    apply set_of_ne_frame
    rintro rfl
    exact hg.elim hf hnew
  obtain ⟨htree, hwalks⟩ := h.tree.congr hsame
  constructor
  case avail => exact h.avail
  case desc => exact hdesc
  case entry => exact fun j hj => (set_of_ne_index _ _ _ hj).trans (h.entry j hj)
  case outside => exact fun g hg hgnew => (set_of_ne_frame _ _ _ hg).trans (h.outside g hg hgnew)
  case tree =>
    dsimp only
    rw [hframe]
    exact htree
  case walks =>
    rintro vpn rfl
    obtain ⟨hwalk, hno⟩ := h.walks vpn rfl
    dsimp only
    rw [← hwalk, leafWalk_of_descends hdesc, leafWalk_of_descends h.desc, noLarge_of_descends hdesc,
      hframe]
    exact ⟨(hwalks vpn).1, fun hold => (hwalks vpn).2 ((noLarge_of_descends h.desc).mp (hno hold))⟩

end Entry

/-! ## Mapping a page -/

/-- What a mapping does to the tree below a table: the tables `used` are new, the page is mapped, and
every other page is as it was. -/
structure MapPoint (target vpn flags k f : Nat) (frames : Set Nat) (vm vm' : Vm) (used : List Nat) :
    Prop where
  avail : vm.avail = used ++ vm'.avail
  tree : TableTree vm'.mem k f (frames ∪ framesOf used)
  outside : ∀ g, g ∉ frames → g ∉ used → vm'.mem g = vm.mem g
  self : leafWalk vm'.mem k f vpn = some (target, flags ||| mmPresent)
  other : ∀ vpn', vpn' % 512 ^ (k + 1) ≠ vpn % 512 ^ (k + 1) →
    leafWalk vm'.mem k f vpn' = leafWalk vm.mem k f vpn'
  small : ∀ vpn', NoLarge vm.mem k f vpn' → NoLarge vm'.mem k f vpn'

section Point

variable {target vpn flags k f : Nat} {frames : Set Nat} {vm vm' : Vm}

theorem leafWalk_zero_of_present {mem : PhysMem} {w : Nat} (hword : mem f (tableIndex 0 vpn) = w)
    (hpresent : isPresent w = true) : leafWalk mem 0 f vpn = some (pteFrame w, w % 4096) := by
  rw [leafWalk, hword, if_pos hpresent]

theorem leafWalk_zero_congr {mem mem' : PhysMem}
    (hword : mem' f (tableIndex 0 vpn) = mem f (tableIndex 0 vpn)) :
    leafWalk mem' 0 f vpn = leafWalk mem 0 f vpn := by
  rw [leafWalk, leafWalk, hword]

/-- The new entry of a page table. -/
theorem MapPoint.leaf (vm : Vm) (hflags : flags < 4096) :
    MapPoint target vpn flags 0 f {f} vm
      { vm with
        mem := vm.mem.set f (tableIndex 0 vpn) (pte target (flags ||| mmPresent)) } [] := by
  have hlt := or_mmPresent_lt hflags
  have hpresent : isPresent (pte target (flags ||| mmPresent)) = true :=
    (testBit_pte hlt (by decide)).trans (isPresent_or_mmPresent flags)
  constructor
  case avail => rfl
  case tree =>
    have hframes : ({f} : Set Nat) ∪ framesOf [] = {f} := by simp [framesOf]
    exact hframes
  case outside => exact fun g hg _ => set_of_ne_frame _ _ _ hg
  case self =>
    have hlow : pte target (flags ||| mmPresent) % 4096 = flags ||| mmPresent := by
      unfold pte
      omega
    rw [leafWalk_zero_of_present (set_self _ _ _ _) hpresent, pteFrame_pte hlt, hlow]
  case other =>
    intro vpn' hne
    have hindex : tableIndex 0 vpn' ≠ tableIndex 0 vpn := by
      simpa [tableIndex] using hne
    exact leafWalk_zero_congr (set_of_ne_index _ _ _ hindex)
  case small => exact fun _ _ => trivial

/-- A walk through an entry that stays, with the tables below it, stays too. -/
theorem leafWalk_of_kept {mem mem' : PhysMem} {below : Set Nat}
    (hword : mem' f (tableIndex (k + 1) vpn) = mem f (tableIndex (k + 1) vpn))
    (htree : descends (mem f (tableIndex (k + 1) vpn)) = true →
      TableTree mem k (pteFrame (mem f (tableIndex (k + 1) vpn))) below)
    (hbelow : ∀ g ∈ below, mem' g = mem g) :
    leafWalk mem' (k + 1) f vpn = leafWalk mem (k + 1) f vpn ∧
      (NoLarge mem (k + 1) f vpn → NoLarge mem' (k + 1) f vpn) := by
  cases hdesc : descends (mem f (tableIndex (k + 1) vpn)) with
  | false => exact leafWalk_of_not_descends hdesc hword
  | true =>
      have hcongr := ((htree hdesc).congr hbelow).2 vpn
      have hdesc' : descends (mem' f (tableIndex (k + 1) vpn)) = true := by rw [hword, hdesc]
      rw [leafWalk_of_descends hdesc, leafWalk_of_descends hdesc', noLarge_of_descends hdesc,
        noLarge_of_descends hdesc', hword]
      exact hcongr

/-- A walk through the entry that was entered goes on in the table below it. -/
theorem Entered.leads {vm₁ : Vm} {below : Set Nat} {new : List Nat}
    (h : Entered k f (tableIndex (k + 1) vpn) below vm vm₁ new) (hf : vm'.mem f = vm₁.mem f) :
    leafWalk vm'.mem (k + 1) f vpn =
        leafWalk vm'.mem k (pteFrame (vm₁.mem f (tableIndex (k + 1) vpn))) vpn ∧
      (NoLarge vm'.mem (k + 1) f vpn ↔
        NoLarge vm'.mem k (pteFrame (vm₁.mem f (tableIndex (k + 1) vpn))) vpn) ∧
      leafWalk vm.mem (k + 1) f vpn =
        leafWalk vm₁.mem k (pteFrame (vm₁.mem f (tableIndex (k + 1) vpn))) vpn ∧
      (NoLarge vm.mem (k + 1) f vpn →
        NoLarge vm₁.mem k (pteFrame (vm₁.mem f (tableIndex (k + 1) vpn))) vpn) := by
  have hdesc : descends (vm'.mem f (tableIndex (k + 1) vpn)) = true := by rw [hf, h.desc]
  obtain ⟨hwalk, hno⟩ := h.walks vpn rfl
  rw [leafWalk_of_descends hdesc, noLarge_of_descends hdesc, hf, ← hwalk,
    leafWalk_of_descends h.desc]
  exact ⟨rfl, Iff.rfl, rfl, fun hold => (noLarge_of_descends h.desc).mp (hno hold)⟩

/-- Pages that differ and have the same index at a level differ below it. -/
theorem mod_ne_of_tableIndex_eq {vpn' : Nat} (hindex : tableIndex (k + 1) vpn' = tableIndex (k + 1) vpn)
    (hne : vpn' % 512 ^ (k + 1 + 1) ≠ vpn % 512 ^ (k + 1 + 1)) :
    vpn' % 512 ^ (k + 1) ≠ vpn % 512 ^ (k + 1) := by
  intro hlow
  rw [Nat.pow_succ _ (k + 1), Nat.mod_mul, Nat.mod_mul, hlow] at hne
  exact hne (by rw [← tableIndex, ← tableIndex, hindex])

/-- The frames of a table and those that were allocated, by the entry below which they are. -/
theorem grown_tables {sub : Nat → Set Nat} {new used : List Nat} {i : Nat} (hlt : i < 512) :
    {g | g = f ∨ ∃ j < 512, g ∈ sub j} ∪ framesOf (new ++ used) =
      {g | g = f ∨ ∃ j < 512, g ∈ sub j} ∪ (sub i ∪ framesOf new ∪ framesOf used) := by
  ext g
  constructor
  · rintro (hold | hmem)
    · exact .inl hold
    · rcases List.mem_append.mp hmem with hmem | hmem
      · exact .inr (.inl (.inr hmem))
      · exact .inr (.inr hmem)
  · rintro (hold | (hmem | hmem) | hmem)
    · exact .inl hold
    · exact .inl (.inr ⟨i, hlt, hmem⟩)
    · exact .inr (List.mem_append_left _ hmem)
    · exact .inr (List.mem_append_right _ hmem)

/-- A table grows when the table below one of its entries does. -/
theorem MapPoint.lift {sub : Nat → Set Nat} {vm₁ : Vm} {new used : List Nat}
    (hself : ∀ i < 512, f ∉ sub i)
    (hdisjoint : ∀ i < 512, ∀ j < 512, i ≠ j → Disjoint (sub i) (sub j))
    (hsub : ∀ i < 512, (descends (vm.mem f i) = true →
        TableTree vm.mem k (pteFrame (vm.mem f i)) (sub i)) ∧
      (descends (vm.mem f i) = false → sub i = ∅))
    (hfresh : ∀ a ∈ vm.avail, a ≠ f ∧ ∀ i < 512, a ∉ sub i)
    (henter : Entered k f (tableIndex (k + 1) vpn) (sub (tableIndex (k + 1) vpn)) vm vm₁ new)
    (hpoint : MapPoint target vpn flags k (pteFrame (vm₁.mem f (tableIndex (k + 1) vpn)))
      (sub (tableIndex (k + 1) vpn) ∪ framesOf new) vm₁ vm' used) :
    MapPoint target vpn flags (k + 1) f {g | g = f ∨ ∃ i < 512, g ∈ sub i} vm vm' (new ++ used) := by
  generalize hi : tableIndex (k + 1) vpn = i at henter hpoint
  have hlt : i < 512 := hi ▸ tableIndex_lt _ _
  have havail : vm.avail = new ++ used ++ vm'.avail := by
    rw [henter.avail, hpoint.avail, List.append_assoc]
  have hnew : ∀ a, a ∈ new ++ used → a ≠ f ∧ ∀ j < 512, a ∉ sub j :=
    fun a ha => hfresh a (havail ▸ List.mem_append_left _ ha)
  -- the table itself is outside of what changes below the entry
  have hf : vm'.mem f = vm₁.mem f := by
    apply hpoint.outside
    · rintro (hmem | hmem)
      · exact hself i hlt hmem
      · exact (hnew f (List.mem_append_left _ hmem)).1 rfl
    · exact fun hmem => (hnew f (List.mem_append_right _ hmem)).1 rfl
  have hdesc : descends (vm'.mem f i) = true := by rw [hf, henter.desc]
  -- and so are the tables below the other entries
  have hother : ∀ j < 512, j ≠ i → ∀ g ∈ sub j, vm'.mem g = vm.mem g := by
    intro j hj hji g hg
    have hgnew : g ∉ new ++ used := fun hmem => (hnew g hmem).2 j hj hg
    have hgf : g ≠ f := by
      rintro rfl
      exact hself j hj hg
    rw [hpoint.outside g ?_ fun hmem => hgnew (List.mem_append_right _ hmem),
      henter.outside g hgf fun hmem => hgnew (List.mem_append_left _ hmem)]
    rintro (hmem | hmem)
    · exact Set.disjoint_left.mp (hdisjoint j hj i hlt hji) hg hmem
    · exact hgnew (List.mem_append_left _ hmem)
  have hentry : ∀ j, j ≠ i → vm'.mem f j = vm.mem f j := by
    intro j hji
    rw [hf, henter.entry j hji]
  have hwalk : ∀ vpn', tableIndex (k + 1) vpn' ≠ i →
      leafWalk vm'.mem (k + 1) f vpn' = leafWalk vm.mem (k + 1) f vpn' ∧
        (NoLarge vm.mem (k + 1) f vpn' → NoLarge vm'.mem (k + 1) f vpn') := by
    intro vpn' hindex
    have hj := tableIndex_lt (k + 1) vpn'
    exact leafWalk_of_kept (hentry _ hindex) (hsub _ hj).1 (hother _ hj hindex)
  constructor
  case avail => exact havail
  case tree =>
    rw [grown_tables hlt]
    refine TableTree.grow hlt hself hdisjoint ?_ ?_ (fun _ hg => .inl (.inl hg)) hdesc ?_ ?_
    · rintro ((hmem | hmem) | hmem)
      · exact hself i hlt hmem
      · exact (hnew f (List.mem_append_left _ hmem)).1 rfl
      · exact (hnew f (List.mem_append_right _ hmem)).1 rfl
    · -- the new tables are below no other entry
      intro j hj hji
      apply Set.disjoint_left.mpr
      rintro g ((hmem | hmem) | hmem) hg
      · exact Set.disjoint_left.mp (hdisjoint i hlt j hj hji.symm) hmem hg
      · exact (hnew g (List.mem_append_left _ hmem)).2 j hj hg
      · exact (hnew g (List.mem_append_right _ hmem)).2 j hj hg
    · rw [hf]
      exact hpoint.tree
    · intro j hj hji
      rw [hentry j hji]
      exact ⟨fun hdesc' => (((hsub j hj).1 hdesc').congr (hother j hj hji)).1, (hsub j hj).2⟩
  case outside =>
    intro g hg hgnew
    obtain ⟨hgf, hgsub⟩ := not_or.mp hg
    rw [hpoint.outside g ?_ fun hmem => hgnew (List.mem_append_right _ hmem),
      henter.outside g hgf fun hmem => hgnew (List.mem_append_left _ hmem)]
    rintro (hmem | hmem)
    · exact hgsub ⟨i, hlt, hmem⟩
    · exact hgnew (List.mem_append_left _ hmem)
  case self =>
    subst hi
    rw [(henter.leads hf).1]
    exact hpoint.self
  case other =>
    intro vpn' hne
    by_cases hindex : tableIndex (k + 1) vpn' = i
    · have hsame := hindex.trans hi.symm
      subst hindex
      obtain ⟨hafter, -, hbefore, -⟩ := henter.leads hf
      rw [hafter, hbefore]
      exact hpoint.other vpn' (mod_ne_of_tableIndex_eq hsame hne)
    · exact (hwalk vpn' hindex).1
  case small =>
    intro vpn' hno
    by_cases hindex : tableIndex (k + 1) vpn' = i
    · subst hindex
      obtain ⟨-, hafter, -, hbefore⟩ := henter.leads hf
      exact hafter.mpr (hpoint.small vpn' (hbefore hno))
    · exact (hwalk vpn' hindex).2 hno

/-- Mapping a page below a table of any level, on a walk without large pages. -/
theorem mapTable_point (htree : TableTree vm.mem k f frames) (hno : NoLarge vm.mem k f vpn)
    (hnodup : vm.avail.Nodup) (hfresh : ∀ a ∈ vm.avail, a ∉ frames) (hflags : flags < 4096)
    (h2mb : is2mb flags = false) (hmap : mapTable target vpn flags k f vm = .ok vm') :
    ∃ used, MapPoint target vpn flags k f frames vm vm' used := by
  induction k generalizing f frames vm with
  | zero =>
      obtain rfl : frames = {f} := htree
      obtain rfl := Except.ok.inj hmap
      exact ⟨[], .leaf vm hflags⟩
  | succ k ih =>
      have hself : f ∉ vm.avail := fun hmem => hfresh f hmem htree.self_mem
      obtain ⟨sub, rfl, hbelow, hdisjoint, hsub⟩ := htree
      have hi := tableIndex_lt (k + 1) vpn
      rw [mapTable] at hmap
      cases hensure : ensureEntry f (tableIndex (k + 1) vpn) vm with
      | error e =>
          rw [hensure] at hmap
          cases hmap
      | ok vm₁ =>
          rw [hensure] at hmap
          dsimp only at hmap
          obtain ⟨new, henter⟩ := ensureEntry_entered hensure hself (fun hp => (hno hp).1)
            (hsub _ hi).1 (hsub _ hi).2
          have hnew : f ∉ new := fun hmem => hself (henter.avail ▸ List.mem_append_left _ hmem)
          have henter₂ := henter.setFlags (hbelow _ hi) hnew hflags h2mb
          generalize hvm₂ : ({ vm₁ with
            mem := vm₁.mem.set f (tableIndex (k + 1) vpn)
              (vm₁.mem f (tableIndex (k + 1) vpn) ||| flags) } : Vm) = vm₂ at hmap henter₂
          have hmem₂ : vm₁.mem.set f (tableIndex (k + 1) vpn)
              (vm₁.mem f (tableIndex (k + 1) vpn) ||| flags) = vm₂.mem := by rw [← hvm₂]
          rw [hmem₂] at hmap
          have hno₂ : NoLarge vm₂.mem k (pteFrame (vm₂.mem f (tableIndex (k + 1) vpn))) vpn :=
            (noLarge_of_descends henter₂.desc).mp ((henter₂.walks vpn rfl).2 hno)
          have hsplit : (new ++ vm₂.avail).Nodup := henter₂.avail ▸ hnodup
          have hfresh₂ : ∀ a ∈ vm₂.avail, a ∉ sub (tableIndex (k + 1) vpn) ∪ framesOf new := by
            rintro a ha (hmem | hmem)
            · have hold : a ∈ vm.avail := henter₂.avail ▸ List.mem_append_right _ ha
              exact hfresh a hold (.inr ⟨_, hi, hmem⟩)
            · exact (List.nodup_append.mp hsplit).2.2 a hmem a ha rfl
          obtain ⟨used, hpoint⟩ :=
            ih henter₂.tree hno₂ (List.nodup_append.mp hsplit).2.1 hfresh₂ hmap
          refine ⟨new ++ used, .lift hbelow hdisjoint hsub (fun a ha => ?_) henter₂ hpoint⟩
          obtain ⟨haf, hasub⟩ := not_or.mp (hfresh a ha)
          exact ⟨haf, fun i hi hmem => hasub ⟨i, hi, hmem⟩⟩

end Point

/-! ## Pages and ranges of a directory -/

/-- A combination of `MM_PAGE_FLAGS`, which are in the low twelve bits of an entry. -/
structure PageFlags where
  bits : Nat
  bits_lt : bits < 4096

/-- `mmu_native_map_page`, for the directory in `cr3`: the return value and memory. -/
def mmuNativeMapPage (pml4 paddr vaddr flags : Nat) (vm : Vm) : Except Halt (Int × Vm) :=
  match mapPage vm pml4 paddr vaddr flags with
  | .error e => .error e
  | .ok vm => .ok (0, vm)

/-- `mmu_map_page`. -/
def mmuMapPage (pml4 paddr vaddr flags : Nat) (vm : Vm) : Except Halt (Int × Vm) :=
  mmuNativeMapPage pml4 paddr vaddr flags vm

/-- `mmu_map_range`, with `n` pages left. -/
def mmuMapRange (pml4 flags : Nat) : Nat → Nat → Nat → Vm → Except Halt (Int × Vm)
  | 0, _, _, vm => .ok (0, vm)
  | n + 1, pstart, vstart, vm =>
      match mmuNativeMapPage pml4 pstart vstart flags vm with
      | .error e => .error e
      | .ok (ret, vm) =>
          if ret ≠ 0 then .ok (ret, vm)
          else mmuMapRange pml4 flags n (pstart + Mm.pageSize) (vstart + Mm.pageSize) vm

/-- The page is mapped to the frame with the flags, and nothing else is changed. -/
def pointUpdate (frame vpn flags : Nat) (walk : Nat → Option (Nat × Nat)) : Nat → Option (Nat × Nat) :=
  Function.update walk vpn (some (frame, flags ||| mmPresent))

/-- The composition of the updates for `n` pages. -/
def pointUpdates (flags : Nat) : Nat → Nat → Nat → (Nat → Option (Nat × Nat)) →
    Nat → Option (Nat × Nat)
  | 0, _, _, walk => walk
  | n + 1, frame, vpn, walk =>
      pointUpdates flags n (frame + 1) (vpn + 1) (pointUpdate frame vpn flags walk)

/-- The directory is a tree, and the frames that are going to be allocated are none of its tables. -/
structure FreshTree (pml4 : Nat) (vm : Vm) : Prop where
  tree : ∃ frames, TableTree vm.mem 3 pml4 frames ∧ ∀ a ∈ vm.avail, a ∉ frames
  nodup : vm.avail.Nodup

section Directory

variable {pml4 paddr vaddr n : Nat} {flags : PageFlags} {vm vm' : Vm}

/-- What a mapping does to a directory. -/
theorem mapPage_point (hready : FreshTree pml4 vm) (h2mb : is2mb flags.bits = false)
    (hno : NoLarge vm.mem 3 pml4 (vaddr / 4096)) (hvaddr : vaddr < 2 ^ 48)
    (hmap : mapPage vm pml4 paddr vaddr flags.bits = .ok vm') :
    FreshTree pml4 vm' ∧ (∀ vpn, NoLarge vm.mem 3 pml4 vpn → NoLarge vm'.mem 3 pml4 vpn) ∧
      ∀ vpn < 2 ^ 36, leafWalk vm'.mem 3 pml4 vpn =
        pointUpdate (paddr / 4096) (vaddr / 4096) flags.bits (leafWalk vm.mem 3 pml4) vpn := by
  obtain ⟨⟨frames, htree, hfresh⟩, hnodup⟩ := hready
  rw [mapPage] at hmap
  split at hmap
  · cases hmap
  · split at hmap
    · cases hmap
    · obtain ⟨used, hpoint⟩ := mapTable_point htree hno hnodup hfresh flags.bits_lt h2mb hmap
      have hsplit : (used ++ vm'.avail).Nodup := hpoint.avail ▸ hnodup
      refine ⟨⟨⟨_, hpoint.tree, ?_⟩, (List.nodup_append.mp hsplit).2.1⟩, hpoint.small, ?_⟩
      · rintro a ha (hmem | hmem)
        · exact hfresh a (hpoint.avail ▸ List.mem_append_right _ ha) hmem
        · exact (List.nodup_append.mp hsplit).2.2 a hmem a ha rfl
      · intro vpn hvpn
        by_cases hpage : vpn = vaddr / 4096
        · rw [hpage, pointUpdate, Function.update_self, hpoint.self]
        · rw [pointUpdate, Function.update_of_ne hpage]
          apply hpoint.other
          intro hmod
          omega

theorem mmuMapRange_eq (pml4 flags n paddr vaddr : Nat) (vm : Vm) :
    mmuMapRange pml4 flags n paddr vaddr vm =
      match mapRange pml4 flags n paddr vaddr vm with
      | .error e => .error e
      | .ok vm => .ok (0, vm) := by
  induction n generalizing paddr vaddr vm with
  | zero => rfl
  | succ n ih =>
      rw [mmuMapRange, mapRange, mmuNativeMapPage]
      cases mapPage vm pml4 paddr vaddr flags with
      | error e => rfl
      | ok vm => exact ih _ _ vm

/-- The updates of a range depend on the pages below the end of the address space only. -/
theorem pointUpdates_congr {flags frame vpn m : Nat} {walk walk' : Nat → Option (Nat × Nat)}
    (h : ∀ page < m, walk' page = walk page) :
    ∀ page < m, pointUpdates flags n frame vpn walk' page = pointUpdates flags n frame vpn walk page := by
  induction n generalizing frame vpn walk walk' with
  | zero => exact h
  | succ n ih =>
      apply ih
      intro page hpage
      unfold pointUpdate
      by_cases heq : page = vpn
      · rw [heq, Function.update_self, Function.update_self]
      · rw [Function.update_of_ne heq, Function.update_of_ne heq, h page hpage]

/-- What mapping a range does to a directory. -/
theorem mapRange_point (hready : FreshTree pml4 vm) (h2mb : is2mb flags.bits = false)
    (hpaddr : Mm.pageAligned paddr) (hvaddr : Mm.pageAligned vaddr)
    (hno : ∀ i < n, NoLarge vm.mem 3 pml4 (vaddr / 4096 + i)) (hend : vaddr + n * 4096 ≤ 2 ^ 48)
    (havail : 3 * n ≤ vm.avail.length) :
    ∃ vm', mapRange pml4 flags.bits n paddr vaddr vm = .ok vm' ∧ ∀ vpn < 2 ^ 36,
      leafWalk vm'.mem 3 pml4 vpn =
        pointUpdates flags.bits n (paddr / 4096) (vaddr / 4096) (leafWalk vm.mem 3 pml4) vpn := by
  induction n generalizing paddr vaddr vm with
  | zero => exact ⟨vm, rfl, fun _ _ => rfl⟩
  | succ n ih =>
      have hreturns : ∃ vm₁, mapPage vm pml4 paddr vaddr flags.bits = .ok vm₁ ∧
          3 * n ≤ vm₁.avail.length := mapPage_returns (3 * n) hpaddr hvaddr (by omega)
      obtain ⟨vm₁, hmap, hlen⟩ := hreturns
      obtain ⟨hready₁, hno₁, hwalk₁⟩ := mapPage_point hready h2mb (hno 0 (by omega)) (by omega) hmap
      have hnext : (paddr + Mm.pageSize) / 4096 = paddr / 4096 + 1 ∧
          (vaddr + Mm.pageSize) / 4096 = vaddr / 4096 + 1 := by
        unfold Mm.pageSize
        omega
      have haligned : Mm.pageAligned (paddr + Mm.pageSize) ∧ Mm.pageAligned (vaddr + Mm.pageSize) := by
        unfold Mm.pageAligned Mm.pageSize at *
        omega
      have hsmall : ∀ i < n, NoLarge vm₁.mem 3 pml4 ((vaddr + Mm.pageSize) / 4096 + i) := by
        intro i hi
        rw [hnext.2, Nat.add_assoc, Nat.add_comm 1 i]
        exact hno₁ _ (hno (i + 1) (by omega))
      obtain ⟨vm', hrange, hwalk⟩ := ih hready₁ haligned.1 haligned.2 hsmall
        (by unfold Mm.pageSize; omega) hlen
      refine ⟨vm', ?_, fun vpn hvpn => ?_⟩
      · rw [mapRange, hmap]
        exact hrange
      · rw [hwalk vpn hvpn, hnext.1, hnext.2]
        exact pointUpdates_congr hwalk₁ vpn hvpn

/-- In a directory that is a tree, with free frames for its tables, mapping a page whose walk has no
large page changes the walk of that page and of no other, and mapping a range of pages does what
mapping one after the other does.  Both return. -/
theorem map_page_point_update (flags : PageFlags) (hready : FreshTree pml4 vm)
    (h2mb : is2mb flags.bits = false) :
    (∀ p v, Mm.pageAligned p → Mm.pageAligned v → p < 2 ^ 64 → v < 2 ^ 48 →
      NoLarge vm.mem 3 pml4 (v / 4096) → 3 ≤ vm.avail.length →
      ∃ vm', mapPage vm pml4 p v flags.bits = .ok vm' ∧
        mmuMapPage pml4 p v flags.bits vm = .ok (0, vm') ∧
        leafWalk vm'.mem 3 pml4 (v / 4096) = some (p / 4096, flags.bits ||| mmPresent) ∧
        ∀ vpn < 2 ^ 36, vpn ≠ v / 4096 → leafWalk vm'.mem 3 pml4 vpn = leafWalk vm.mem 3 pml4 vpn) ∧
    ∀ n p v, Mm.pageAligned p → Mm.pageAligned v → p + n * 4096 ≤ 2 ^ 64 → v + n * 4096 ≤ 2 ^ 48 →
      (∀ i < n, NoLarge vm.mem 3 pml4 (v / 4096 + i)) → 3 * n ≤ vm.avail.length →
      ∃ vm', mapRange pml4 flags.bits n p v vm = .ok vm' ∧
        mmuMapRange pml4 flags.bits n p v vm = .ok (0, vm') ∧
        ∀ vpn < 2 ^ 36, leafWalk vm'.mem 3 pml4 vpn =
          pointUpdates flags.bits n (p / 4096) (v / 4096) (leafWalk vm.mem 3 pml4) vpn := by
  constructor
  · intro p v hp hv _ hlt hno havail
    obtain ⟨vm', hmap, -⟩ := mapPage_returns 0 hp hv havail
    obtain ⟨-, -, hwalk⟩ := mapPage_point hready h2mb hno hlt hmap
    refine ⟨vm', hmap, ?_, ?_, ?_⟩
    · rw [mmuMapPage, mmuNativeMapPage, hmap]
    · rw [hwalk _ (by omega), pointUpdate, Function.update_self]
    · intro vpn hvpn hne
      rw [hwalk vpn hvpn, pointUpdate, Function.update_of_ne hne]
  · intro n p v hp hv _ hend hno havail
    obtain ⟨vm', hmap, hwalk⟩ := mapRange_point hready h2mb hp hv hno hend havail
    refine ⟨vm', hmap, ?_, hwalk⟩
    rw [mmuMapRange_eq, hmap]

end Directory

/-- A page is mapped in an empty directory, and its neighbour is not. -/
theorem first_page_point_update :
    ∃ vm', mapPage ⟨fun _ _ => 0, [2, 3, 4], []⟩ 1 0x5000 0x400000 (mmReadwrite + mmUser) = .ok vm' ∧
      leafWalk vm'.mem 3 1 0x400 = some (5, mmPresent + mmReadwrite + mmUser) ∧
      leafWalk vm'.mem 3 1 0x401 = none := by
  have hempty : TableTree (fun _ _ => 0) 3 1 {1} ∧
      ∀ vpn, leafWalk (fun _ _ => 0) 3 1 vpn = none ∧ NoLarge (fun _ _ => 0) 3 1 vpn :=
    tableTree_of_empty (fun _ => rfl) 3
  have hready : FreshTree 1 ⟨fun _ _ => 0, [2, 3, 4], []⟩ := ⟨⟨{1}, hempty.1, by simp⟩, by decide⟩
  obtain ⟨vm', hmap, -, hself, hother⟩ :=
    (map_page_point_update ⟨mmReadwrite + mmUser, by decide⟩ hready (by decide)).1
      0x5000 0x400000 (by decide) (by decide) (by decide) (by decide) (hempty.2 _).2 (by decide)
  refine ⟨vm', hmap, hself, ?_⟩
  rw [hother 0x401 (by decide) (by decide)]
  exact (hempty.2 _).1

end Arch
end Micael
