import Micael.Arch.MapPage
import Micael.Foundation.Loop

/-!
# What a fork does to a directory

Main results:

- Theorem {lit}`dupTable_spec`: duplicating a table that shares nothing gives a copy with the same
  walks, in frames that were free, and resets the entries of the original.
- Theorem {lit}`dupLoop_spec`: the same for one table, whose entries in the copy need not be empty.
- Theorem {lit}`mmuNativeDuplicateDir_spec`: the copy of a directory.
- Theorem {lit}`dupTable_returns`: a duplication returns if there are enough free frames.
-/

namespace Micael
namespace Arch

open Foundation

theorem forkFlags_lt : forkFlags < 4096 := by decide

theorem pteFrame_resetEntry (w : Nat) : pteFrame (resetEntry w) = pteFrame w :=
  pteFrame_pte forkFlags_lt

theorem isPresent_resetEntry (w : Nat) : isPresent (resetEntry w) = true :=
  (testBit_pte forkFlags_lt (by decide)).trans (by decide)

theorem isUser_resetEntry (w : Nat) : isUser (resetEntry w) = true :=
  (testBit_pte forkFlags_lt (by decide)).trans (by decide)

theorem isCow_resetEntry (w : Nat) : isCow (resetEntry w) = true :=
  (testBit_pte forkFlags_lt (by decide)).trans (by decide)

theorem isReadwrite_resetEntry (w : Nat) : isReadwrite (resetEntry w) = false :=
  (testBit_pte forkFlags_lt (by decide)).trans (by decide)

/-! ## Page tables -/

/-- The loop over a page table. -/
theorem dupPages_spec {mem : PhysMem} {o c : Nat} (hne : o ≠ c) (n : Nat) :
    (∀ g, g ≠ o → g ≠ c → (List.range n).foldl (dupPage o c) mem g = mem g) ∧
      (∀ i, (List.range n).foldl (dupPage o c) mem o i =
        if i < n ∧ isPresent (mem o i) then resetEntry (mem o i) else mem o i) ∧
      ∀ i, (List.range n).foldl (dupPage o c) mem c i =
        if i < n ∧ isPresent (mem o i) then resetEntry (mem o i) else mem c i := by
  induction n with
  | zero => simp
  | succ n ih =>
      obtain ⟨hother, hold, hcopy⟩ := ih
      rw [List.range_succ, List.foldl_append, List.foldl_cons, List.foldl_nil]
      set mem' := (List.range n).foldl (dupPage o c) mem with hmem'
      have hentry : mem' o n = mem o n := by rw [hold, if_neg (by omega)]
      by_cases hpresent : isPresent (mem o n)
      · have hbody : dupPage o c mem' n =
            (mem'.set o n (resetEntry (mem o n))).set c n (resetEntry (mem o n)) := by
          rw [dupPage, hentry, if_pos hpresent]
          dsimp only
          rw [set_self]
        rw [hbody]
        refine ⟨fun g hgo hgc => ?_, fun i => ?_, fun i => ?_⟩
        · rw [set_of_ne_frame _ _ _ hgc, set_of_ne_frame _ _ _ hgo, hother g hgo hgc]
        · rw [set_of_ne_frame _ _ _ hne]
          by_cases hi : i = n
          · subst hi
            rw [set_self, if_pos ⟨by omega, hpresent⟩]
          · rw [set_of_ne_index _ _ _ hi, hold]
            have hiff : i < n + 1 ↔ i < n := by omega
            simp only [hiff]
        · by_cases hi : i = n
          · subst hi
            rw [set_self, if_pos ⟨by omega, hpresent⟩]
          · rw [set_of_ne_index _ _ _ hi, set_of_ne_frame _ _ _ (Ne.symm hne), hcopy]
            have hiff : i < n + 1 ↔ i < n := by omega
            simp only [hiff]
      · have hbody : dupPage o c mem' n = mem' := by rw [dupPage, hentry, if_neg hpresent]
        rw [hbody]
        -- the absent entry makes no difference
        have hiff : ∀ i, (i < n + 1 ∧ isPresent (mem o i)) ↔ (i < n ∧ isPresent (mem o i)) := by
          intro i
          by_cases hi : i = n
          · subst hi
            simp [hpresent]
          · have : i < n + 1 ↔ i < n := by omega
            rw [this]
        refine ⟨hother, fun i => ?_, fun i => ?_⟩
        · rw [hold]
          simp only [hiff]
        · rw [hcopy]
          simp only [hiff]

/-! ## Duplication of a table -/

/-- What a duplication relies on: the original shares no table, and the copy and the frames
that are going to be allocated are none of its tables. -/
structure DupPre (k o c : Nat) (vm : Vm) : Prop where
  nodup : (tables vm.mem k o).Nodup
  upper : UpperOk vm.mem k o
  copy : c ∉ tables vm.mem k o
  avail : vm.avail.Nodup
  fresh : ∀ f ∈ vm.avail, f ∉ tables vm.mem k o ∧ f ≠ c

/-- What a duplication does to the original and to the rest of memory, with the frames it
allocated. -/
structure DupSpec (k o c : Nat) (vm vm' : Vm) (used : List Nat) : Prop where
  avail : vm.avail = used ++ vm'.avail
  freed : vm'.freed = vm.freed
  outside : ∀ g, g ∉ tables vm.mem k o → g ≠ c → g ∉ used → vm'.mem g = vm.mem g
  parentTables : tables vm'.mem k o = tables vm.mem k o
  parentUpper : UpperOk vm'.mem k o
  parentWalk : ∀ vpn, InRange k vpn → walk vm'.mem k o vpn = (walk vm.mem k o vpn).map resetEntry

/-- What a duplication makes of the copy. -/
structure CopySpec (k o c : Nat) (vm vm' : Vm) (used : List Nat) : Prop where
  childTables : tables vm'.mem k c = c :: used
  childUpper : UpperOk vm'.mem k c
  childWalk : ∀ vpn, InRange k vpn → walk vm'.mem k c vpn = (walk vm.mem k o vpn).map resetEntry

/-- The duplication of a page table into an empty one. -/
theorem dupTable_zero {o c : Nat} {vm vm' : Vm} (hpre : DupPre 0 o c vm)
    (hempty : ∀ i < 512, vm.mem c i = 0) (hdup : dupTable 0 o c vm = .ok vm') :
    DupSpec 0 o c vm vm' [] ∧ CopySpec 0 o c vm vm' [] := by
  have hne : o ≠ c := by
    rintro rfl
    exact hpre.copy (self_mem_tables _ _ _)
  rw [dupTable] at hdup
  obtain rfl := Except.ok.inj hdup
  obtain ⟨hother, hold, hcopy⟩ := @dupPages_spec vm.mem o c hne 512
  generalize (List.range 512).foldl (dupPage o c) vm.mem = mem' at hother hold hcopy ⊢
  have hwalk : ∀ vpn, walk mem' 0 o vpn =
      (walk vm.mem 0 o vpn).map resetEntry := by
    intro vpn
    have hword := hold (tableIndex 0 vpn)
    by_cases hpresent : isPresent (vm.mem o (tableIndex 0 vpn)) = true
    · rw [if_pos ⟨tableIndex_lt 0 vpn, hpresent⟩] at hword
      rw [walk, walk, hword, if_pos (isPresent_resetEntry _), if_pos hpresent, Option.map_some]
    · rw [if_neg fun h => hpresent h.2] at hword
      rw [walk, walk, hword, if_neg hpresent, Option.map_none]
  have hwalk' : ∀ vpn, walk mem' 0 c vpn =
      (walk vm.mem 0 o vpn).map resetEntry := by
    intro vpn
    have hword := hcopy (tableIndex 0 vpn)
    by_cases hpresent : isPresent (vm.mem o (tableIndex 0 vpn)) = true
    · rw [if_pos ⟨tableIndex_lt 0 vpn, hpresent⟩] at hword
      rw [walk, walk, hword, if_pos (isPresent_resetEntry _), if_pos hpresent, Option.map_some]
    · rw [if_neg fun h => hpresent h.2, hempty _ (tableIndex_lt 0 vpn)] at hword
      rw [walk, walk, hword, if_neg hpresent, isPresent_zero, Option.map_none]
      rfl
  refine ⟨⟨rfl, rfl, fun g hg hgc _ => ?_, rfl, trivial,
    fun vpn _ => hwalk vpn⟩, rfl, trivial, fun vpn _ => hwalk' vpn⟩
  refine hother g (fun hgo => hg ?_) hgc
  rw [hgo]
  exact self_mem_tables _ _ _

/-- The state of the loop over the entries of a table above the page tables, after `n` turns:
the first `n` entries are done, the others untouched. -/
structure DupLoop (k o c : Nat) (vm : Vm) (n : Nat) (vm' : Vm) (used : List Nat) : Prop where
  avail : vm.avail = used ++ vm'.avail
  freed : vm'.freed = vm.freed
  outside : ∀ g, g ∉ tables vm.mem (k + 1) o → g ≠ c → g ∉ used → vm'.mem g = vm.mem g
  original : vm'.mem o = vm.mem o
  copy : ∀ i, (n ≤ i ∨ isPresent (vm.mem o i) = false) → vm'.mem c i = vm.mem c i
  todo : ∀ i, n ≤ i → i < entryCount (k + 1) → isPresent (vm.mem o i) = true →
    ∀ g ∈ tables vm.mem k (pteFrame (vm.mem o i)), vm'.mem g = vm.mem g
  parent : ∀ i < n, isPresent (vm.mem o i) = true →
    tables vm'.mem k (pteFrame (vm.mem o i)) = tables vm.mem k (pteFrame (vm.mem o i)) ∧
    UpperOk vm'.mem k (pteFrame (vm.mem o i)) ∧
    ∀ vpn, walk vm'.mem k (pteFrame (vm.mem o i)) vpn =
      (walk vm.mem k (pteFrame (vm.mem o i)) vpn).map resetEntry
  child : ∀ i < n, isPresent (vm.mem o i) = true →
    (∃ e, vm'.mem c i = pte e (mmPresent + mmUser + mmReadwrite)) ∧
    UpperOk vm'.mem k (pteFrame (vm'.mem c i)) ∧
    ∀ vpn, walk vm'.mem k (pteFrame (vm'.mem c i)) vpn =
      (walk vm.mem k (pteFrame (vm.mem o i)) vpn).map resetEntry
  list : used = (List.range n).flatMap fun i =>
    if isPresent (vm.mem o i) then tables vm'.mem k (pteFrame (vm'.mem c i)) else []

/-- The tables of the copy below one of the first entries have been allocated. -/
theorem DupLoop.childTables {k o c n : Nat} {vm vm' : Vm} {used : List Nat}
    (h : DupLoop k o c vm n vm' used) {i : Nat} (hi : i < n)
    (hpresent : isPresent (vm.mem o i) = true) {g : Nat}
    (hg : g ∈ tables vm'.mem k (pteFrame (vm'.mem c i))) : g ∈ used := by
  rw [h.list]
  exact List.mem_flatMap.mpr ⟨i, List.mem_range.mpr hi, by rwa [if_pos hpresent]⟩

section Turn

variable {k o c n : Nat} {vm vm₁ vm' : Vm} {used : List Nat}

/-- A turn that leaves memory alone: the entry is absent. -/
theorem DupLoop.skip (h : DupLoop k o c vm n vm' used) (habsent : isPresent (vm.mem o n) = false) :
    DupLoop k o c vm (n + 1) vm' used where
  avail := h.avail
  freed := h.freed
  outside := h.outside
  original := h.original
  copy i hi := h.copy i (by
    rcases hi with hi | hi
    · exact Or.inl (by omega)
    · exact Or.inr hi)
  todo i hi := h.todo i (by omega)
  parent i hi hpresent := by
    refine h.parent i ?_ hpresent
    rcases Nat.lt_succ_iff_lt_or_eq.mp hi with hlt | rfl
    · exact hlt
    · rw [habsent] at hpresent
      cases hpresent
  child i hi hpresent := by
    refine h.child i ?_ hpresent
    rcases Nat.lt_succ_iff_lt_or_eq.mp hi with hlt | rfl
    · exact hlt
    · rw [habsent] at hpresent
      cases hpresent
  list := by
    rw [List.range_succ, List.flatMap_append, ← h.list]
    simp [habsent]

/-- Memory with the new table `a` in the entry `n` of the copy. -/
def addTable (vm : Vm) (c n a : Nat) (rest : List Nat) : Vm :=
  { vm with
    mem := (vm.mem.zero a).set c n (pte a (mmPresent + mmUser + mmReadwrite))
    avail := rest }

theorem addTable_mem (vm : Vm) (c n a : Nat) (rest : List Nat) : (addTable vm c n a rest).mem =
    (vm.mem.zero a).set c n (pte a (mmPresent + mmUser + mmReadwrite)) :=
  rfl

theorem addTable_mem_of_ne {a g : Nat} {rest : List Nat} (hgc : g ≠ c) (hga : g ≠ a) :
    (addTable vm c n a rest).mem g = vm.mem g := by
  rw [addTable_mem, set_of_ne_frame _ _ _ hgc, zero_of_ne _ hga]

/-- The frames that the loop allocates next are not in use. -/
theorem DupLoop.fresh (h : DupLoop k o c vm n vm₁ used) (hpre : DupPre (k + 1) o c vm) {g : Nat}
    (hg : g ∈ vm₁.avail) : g ∉ tables vm.mem (k + 1) o ∧ g ≠ c := by
  apply hpre.fresh g
  rw [h.avail]
  exact List.mem_append_right _ hg

/-- The tables below the next entry are as they were at the start of the loop. -/
theorem DupLoop.same {a : Nat} {rest : List Nat} (hpre : DupPre (k + 1) o c vm)
    (hn : n < entryCount (k + 1)) (h : DupLoop k o c vm n vm₁ used)
    (hpresent : isPresent (vm.mem o n) = true) (havail : vm₁.avail = a :: rest) :
    ∀ g ∈ tables vm.mem k (pteFrame (vm.mem o n)), (addTable vm₁ c n a rest).mem g = vm.mem g := by
  intro g hg
  have hmem : g ∈ tables vm.mem (k + 1) o := tables_subset_of_entry hn hpresent hg
  have ha := h.fresh hpre (havail ▸ List.mem_cons_self)
  have hga : g ≠ a := fun hga => ha.1 (hga ▸ hmem)
  have hgc : g ≠ c := fun hgc => hpre.copy (hgc ▸ hmem)
  rw [addTable_mem_of_ne hgc hga, h.todo n (le_refl n) hn hpresent g hg]

/-- The next entry can be duplicated into the new table. -/
theorem DupLoop.pre {a : Nat} {rest : List Nat} (hpre : DupPre (k + 1) o c vm)
    (hn : n < entryCount (k + 1)) (h : DupLoop k o c vm n vm₁ used)
    (hpresent : isPresent (vm.mem o n) = true) (havail : vm₁.avail = a :: rest) :
    DupPre k (pteFrame (vm.mem o n)) a (addTable vm₁ c n a rest) := by
  have hsame := h.same hpre hn hpresent havail
  have htables := tables_congr hsame
  obtain ⟨hself, -⟩ := nodup_tables_succ.mp hpre.nodup
  have hsub : ∀ g ∈ tables vm.mem k (pteFrame (vm.mem o n)), g ∈ tables vm.mem (k + 1) o :=
    fun g hg => tables_subset_of_entry hn hpresent hg
  have hnodup : (a :: rest).Nodup := by
    have hall := hpre.avail
    rw [h.avail, havail] at hall
    exact (List.nodup_append.mp hall).2.1
  refine ⟨?_, upperOk_congr hsame (hpre.upper n hn hpresent).2.2, ?_, ?_, ?_⟩
  · rw [htables]
    exact (hself n hn hpresent).2
  · rw [htables]
    exact fun hmem => (h.fresh hpre (havail ▸ List.mem_cons_self)).1 (hsub a hmem)
  · exact hnodup.of_cons
  · intro f hf
    have hfresh := h.fresh hpre (havail ▸ List.mem_cons_of_mem a hf)
    rw [htables]
    exact ⟨fun hmem => hfresh.1 (hsub f hmem), fun hfa => (List.nodup_cons.mp hnodup).1 (hfa ▸ hf)⟩

/-- What the turn for the entry `n` leaves alone, when it allocates the table `a` for the copy and
then the tables `used₁` below it. -/
structure TurnFrame (k o c : Nat) (vm : Vm) (n a : Nat) (vm₁ vm' : Vm) (used used₁ : List Nat) :
    Prop where
  outside : ∀ g, g ∉ tables vm.mem k (pteFrame (vm.mem o n)) → g ≠ a → g ∉ used₁ → g ≠ c →
    vm'.mem g = vm₁.mem g
  original : vm'.mem o = vm₁.mem o
  copy : ∀ i, i ≠ n → vm'.mem c i = vm₁.mem c i
  entry : vm'.mem c n = pte a (mmPresent + mmUser + mmReadwrite)
  other : ∀ i < entryCount (k + 1), i ≠ n → isPresent (vm.mem o i) = true →
    ∀ g ∈ tables vm.mem k (pteFrame (vm.mem o i)), vm'.mem g = vm₁.mem g
  done : ∀ g ∈ used, vm'.mem g = vm₁.mem g

theorem TurnFrame.child {a : Nat} {used₁ : List Nat}
    (hframe : TurnFrame k o c vm n a vm₁ vm' used used₁) : pteFrame (vm'.mem c n) = a := by
  rw [hframe.entry]
  exact pteFrame_pte (by decide)

/-- The frames that a turn takes are neither tables of the original nor the copy, and no frame is
taken twice. -/
theorem DupLoop.fresh_turn {a : Nat} {used₁ : List Nat} (hpre : DupPre (k + 1) o c vm)
    (hall : vm.avail = used ++ a :: (used₁ ++ vm'.avail)) :
    (∀ g ∈ used ++ a :: used₁, g ∉ tables vm.mem (k + 1) o ∧ g ≠ c) ∧
      ∀ g ∈ used, g ≠ a ∧ g ∉ used₁ := by
  have hnodup : (used ++ a :: (used₁ ++ vm'.avail)).Nodup := hall ▸ hpre.avail
  refine ⟨fun g hg => ?_, fun g hg => ?_⟩
  · apply hpre.fresh g
    rw [hall]
    simp only [List.mem_append, List.mem_cons] at hg ⊢
    tauto
  · have hsep := (List.nodup_append.mp hnodup).2.2 g hg
    exact ⟨hsep a (by simp), fun hgu => hsep g (by simp [hgu]) rfl⟩

/-- A turn that duplicates an entry leaves the rest alone. -/
theorem DupLoop.turnFrame {a : Nat} {used₁ : List Nat} {rest : List Nat}
    (hpre : DupPre (k + 1) o c vm) (hn : n < entryCount (k + 1))
    (h : DupLoop k o c vm n vm₁ used) (hpresent : isPresent (vm.mem o n) = true)
    (havail : vm₁.avail = a :: rest)
    (hall : vm.avail = used ++ a :: (used₁ ++ vm'.avail))
    (hdup : DupSpec k (pteFrame (vm.mem o n)) a (addTable vm₁ c n a rest) vm' used₁) :
    TurnFrame k o c vm n a vm₁ vm' used used₁ := by
  obtain ⟨hself, hdisjoint⟩ := nodup_tables_succ.mp hpre.nodup
  obtain ⟨hfresh, hsep⟩ := DupLoop.fresh_turn hpre hall
  have ha := hfresh a (by simp)
  have hsub : ∀ i < entryCount (k + 1), isPresent (vm.mem o i) = true →
      ∀ g ∈ tables vm.mem k (pteFrame (vm.mem o i)), g ∈ tables vm.mem (k + 1) o :=
    fun i hi hp g hg => tables_subset_of_entry hi hp hg
  have hc : c ∉ tables vm.mem (k + 1) o := hpre.copy
  have htables := tables_congr (h.same hpre hn hpresent havail)
  have houtside : ∀ g, g ∉ tables vm.mem k (pteFrame (vm.mem o n)) → g ≠ a → g ∉ used₁ → g ≠ c →
      vm'.mem g = vm₁.mem g := by
    intro g hg hga hgu hgc
    rw [hdup.outside g (by rwa [htables]) hga hgu, addTable_mem_of_ne hgc hga]
  have hword : vm'.mem c = (addTable vm₁ c n a rest).mem c := by
    refine hdup.outside c ?_ (Ne.symm ha.2) fun hmem => (hfresh c (by simp [hmem])).2 rfl
    rw [htables]
    exact fun hmem => hc (hsub n hn hpresent c hmem)
  -- tables of the original outside this entry
  have horiginal : ∀ g ∈ tables vm.mem (k + 1) o,
      g ∉ tables vm.mem k (pteFrame (vm.mem o n)) → vm'.mem g = vm₁.mem g := by
    intro g hmem hg
    refine houtside g hg ?_ ?_ ?_
    · exact fun hga => ha.1 (hga ▸ hmem)
    · exact fun hgu => (hfresh g (by simp [hgu])).1 hmem
    · exact fun hgc => hc (hgc ▸ hmem)
  refine ⟨houtside, ?_, ?_, ?_, ?_, ?_⟩
  · exact horiginal o (self_mem_tables vm.mem (k + 1) o) (hself n hn hpresent).1
  · intro i hi
    rw [hword, addTable_mem, set_of_ne_index _ _ _ hi, zero_of_ne _ (Ne.symm ha.2)]
  · rw [hword, addTable_mem, set_self]
  · intro i hi hne hp g hg
    exact horiginal g (hsub i hi hp g hg)
      fun hg' => hdisjoint i hi n hn hne hp hpresent hg hg'
  · intro g hg
    have hgf := hfresh g (by simp [hg])
    exact houtside g (fun hmem => hgf.1 (hsub n hn hpresent g hmem)) (hsep g hg).1 (hsep g hg).2
      hgf.2

/-- The tables of the original below the entries that are done, after a turn. -/
theorem DupLoop.turn_parent {a : Nat} {used₁ : List Nat} {rest : List Nat}
    (hpre : DupPre (k + 1) o c vm) (hk : k + 1 ≤ 3) (hn : n < entryCount (k + 1))
    (h : DupLoop k o c vm n vm₁ used) (hpresent : isPresent (vm.mem o n) = true)
    (havail : vm₁.avail = a :: rest) (hframe : TurnFrame k o c vm n a vm₁ vm' used used₁)
    (hdup : DupSpec k (pteFrame (vm.mem o n)) a (addTable vm₁ c n a rest) vm' used₁) {i : Nat}
    (hi : i < n + 1) (hp : isPresent (vm.mem o i) = true) :
    tables vm'.mem k (pteFrame (vm.mem o i)) = tables vm.mem k (pteFrame (vm.mem o i)) ∧
      UpperOk vm'.mem k (pteFrame (vm.mem o i)) ∧
      ∀ vpn, walk vm'.mem k (pteFrame (vm.mem o i)) vpn =
        (walk vm.mem k (pteFrame (vm.mem o i)) vpn).map resetEntry := by
  rcases Nat.lt_succ_iff_lt_or_eq.mp hi with hlt | rfl
  · obtain ⟨ht, hupper, hw⟩ := h.parent i hlt hp
    have hcongr : ∀ g ∈ tables vm₁.mem k (pteFrame (vm.mem o i)), vm'.mem g = vm₁.mem g := by
      rw [ht]
      exact hframe.other i (by omega) (by omega) hp
    refine ⟨(tables_congr hcongr).trans ht, upperOk_congr hcongr hupper, fun vpn => ?_⟩
    rw [walk_congr hcongr (inRange_of_ne (by omega)) (by omega), hw]
  · have hsame := h.same hpre hn hpresent havail
    refine ⟨hdup.parentTables.trans (tables_congr hsame), hdup.parentUpper, fun vpn => ?_⟩
    rw [hdup.parentWalk vpn (inRange_of_ne (by omega)),
      walk_congr hsame (inRange_of_ne (by omega)) (by omega)]

/-- The entries of the copy that are done, after a turn. -/
theorem DupLoop.turn_child {a : Nat} {used₁ : List Nat} {rest : List Nat}
    (hpre : DupPre (k + 1) o c vm) (hk : k + 1 ≤ 3) (hn : n < entryCount (k + 1))
    (h : DupLoop k o c vm n vm₁ used) (hpresent : isPresent (vm.mem o n) = true)
    (havail : vm₁.avail = a :: rest) (hframe : TurnFrame k o c vm n a vm₁ vm' used used₁)
    (hcopy : CopySpec k (pteFrame (vm.mem o n)) a (addTable vm₁ c n a rest) vm' used₁) {i : Nat}
    (hi : i < n + 1) (hp : isPresent (vm.mem o i) = true) :
    (∃ e, vm'.mem c i = pte e (mmPresent + mmUser + mmReadwrite)) ∧
      UpperOk vm'.mem k (pteFrame (vm'.mem c i)) ∧
      ∀ vpn, walk vm'.mem k (pteFrame (vm'.mem c i)) vpn =
        (walk vm.mem k (pteFrame (vm.mem o i)) vpn).map resetEntry := by
  rcases Nat.lt_succ_iff_lt_or_eq.mp hi with hlt | rfl
  · obtain ⟨he, hupper, hw⟩ := h.child i hlt hp
    rw [hframe.copy i (by omega)]
    have hcongr : ∀ g ∈ tables vm₁.mem k (pteFrame (vm₁.mem c i)), vm'.mem g = vm₁.mem g :=
      fun g hg => hframe.done g (h.childTables hlt hp hg)
    refine ⟨he, upperOk_congr hcongr hupper, fun vpn => ?_⟩
    rw [walk_congr hcongr (inRange_of_ne (by omega)) (by omega), hw]
  · rw [hframe.child]
    refine ⟨⟨a, hframe.entry⟩, hcopy.childUpper, fun vpn => ?_⟩
    rw [hcopy.childWalk vpn (inRange_of_ne (by omega)),
      walk_congr (h.same hpre hn hpresent havail) (inRange_of_ne (by omega)) (by omega)]

/-- The frames that the loop has taken are the tables of the copy, after a turn. -/
theorem DupLoop.turn_list {a : Nat} {used₁ : List Nat} (h : DupLoop k o c vm n vm₁ used)
    (hpresent : isPresent (vm.mem o n) = true)
    (hframe : TurnFrame k o c vm n a vm₁ vm' used used₁)
    (hchild : tables vm'.mem k a = a :: used₁) :
    used ++ a :: used₁ = (List.range (n + 1)).flatMap fun i =>
      if isPresent (vm.mem o i) then tables vm'.mem k (pteFrame (vm'.mem c i)) else [] := by
  rw [List.range_succ, List.flatMap_append, List.flatMap_singleton, if_pos hpresent, hframe.child,
    hchild]
  congr 1
  rw [h.list]
  apply List.flatMap_congr
  intro i hi
  have hlt := List.mem_range.mp hi
  split
  · next hp =>
      rw [hframe.copy i (by omega)]
      exact (tables_congr fun g hg => hframe.done g (h.childTables hlt hp hg)).symm
  · rfl

/-- A turn that allocates a table `a` for the copy and duplicates the entry into it. -/
theorem DupLoop.turn {a : Nat} {used₁ : List Nat} {rest : List Nat}
    (hpre : DupPre (k + 1) o c vm) (hk : k + 1 ≤ 3) (hn : n < entryCount (k + 1))
    (h : DupLoop k o c vm n vm₁ used) (hpresent : isPresent (vm.mem o n) = true)
    (havail : vm₁.avail = a :: rest) {vm₂ : Vm} (hvm₂ : vm₂ = addTable vm₁ c n a rest)
    (hdup : DupSpec k (pteFrame (vm.mem o n)) a vm₂ vm' used₁)
    (hcopy : CopySpec k (pteFrame (vm.mem o n)) a vm₂ vm' used₁) :
    DupLoop k o c vm (n + 1) vm' (used ++ a :: used₁) := by
  subst hvm₂
  have hrest : rest = used₁ ++ vm'.avail := hdup.avail
  have hall : vm.avail = used ++ a :: (used₁ ++ vm'.avail) := by rw [h.avail, havail, hrest]
  have hframe := h.turnFrame hpre hn hpresent havail hall hdup
  constructor
  case avail =>
    rw [hall]
    simp
  case freed =>
    rw [hdup.freed]
    exact h.freed
  case outside =>
    intro g hg hgc hgu
    simp only [List.mem_append, List.mem_cons, not_or] at hgu
    rw [hframe.outside g (fun hmem => hg (tables_subset_of_entry hn hpresent hmem)) hgu.2.1 hgu.2.2
      hgc, h.outside g hg hgc hgu.1]
  case original => rw [hframe.original, h.original]
  case copy =>
    intro i hi
    have hne : i ≠ n := by
      rintro rfl
      rcases hi with hi | hi
      · omega
      · rw [hpresent] at hi
        cases hi
    rw [hframe.copy i hne]
    apply h.copy i
    rcases hi with hi | hi
    · exact Or.inl (by omega)
    · exact Or.inr hi
  case todo =>
    intro i hi hlt hp g hg
    rw [hframe.other i hlt (by omega) hp g hg, h.todo i (by omega) hlt hp g hg]
  case parent => exact fun i hi hp => h.turn_parent hpre hk hn hpresent havail hframe hdup hi hp
  case child => exact fun i hi hp => h.turn_child hpre hk hn hpresent havail hframe hcopy hi hp
  case list => exact h.turn_list hpresent hframe hcopy.childTables

/-- The table that a turn of the loop allocates. -/
theorem allocEntry_eq_ok {vm vm' : Vm} {e : Nat} (halloc : allocEntry vm = .ok (e, vm')) :
    ∃ a rest, vm.avail = a :: rest ∧ e = pte a (mmPresent + mmReadwrite) ∧
      vm' = { vm with
        mem := vm.mem.zero a
        avail := rest } := by
  cases havail : vm.avail with
  | nil => simp [allocEntry, mmuPageAlloc, havail] at halloc
  | cons a rest =>
      simp only [allocEntry, mmuPageAlloc, havail, Except.ok.injEq, Prod.mk.injEq] at halloc
      exact ⟨a, rest, rfl, halloc.1.symm, halloc.2.symm⟩

/-- The loop of a duplication, if the duplication of the tables below is right. -/
theorem dupLoop_spec (hk : k + 1 ≤ 3) (hpre : DupPre (k + 1) o c vm)
    (hbelow : ∀ o c vm vm', DupPre k o c vm → (∀ i < 512, vm.mem c i = 0) →
      dupTable k o c vm = .ok vm' → ∃ used, DupSpec k o c vm vm' used ∧ CopySpec k o c vm vm' used)
    (hdup : dupTable (k + 1) o c vm = .ok vm') :
    ∃ used, DupLoop k o c vm (entryCount (k + 1)) vm' used := by
  rw [dupTable] at hdup
  refine foldlM_range_invariant (fun n v => ∃ used, DupLoop k o c vm n v used) ?_ ?_ hdup
  · refine ⟨[], rfl, rfl, fun _ _ _ _ => rfl, rfl, fun _ _ => rfl, fun _ _ _ _ _ _ => rfl, ?_, ?_,
      rfl⟩
    · intro i hi
      omega
    · intro i hi
      omega
  rintro n hn vm₁ v ⟨used, h⟩ hbody
  rw [h.original] at hbody
  cases hpresent : isPresent (vm.mem o n) with
  | false =>
      rw [if_neg (by simp [hpresent])] at hbody
      obtain rfl := Except.ok.inj hbody
      exact ⟨used, h.skip hpresent⟩
  | true =>
      have hsmall : ¬ (k = 0 ∧ is2mb (vm.mem o n) = true) := by
        rw [(hpre.upper n hn hpresent).2.1]
        simp
      rw [if_pos hpresent, if_neg hsmall] at hbody
      obtain ⟨⟨e, vm₂⟩, halloc, hbody⟩ := Halt.bind_eq_ok.mp hbody
      obtain ⟨a, rest, havail, rfl, rfl⟩ := allocEntry_eq_ok halloc
      have hflags : pte a (mmPresent + mmReadwrite) ||| mmPresent ||| mmUser =
          pte a (mmPresent + mmUser + mmReadwrite) := by
        rw [pte_or (by decide) (by decide), pte_or (by decide) (by decide)]
        rfl
      dsimp only at hbody
      rw [hflags] at hbody
      have ho := self_mem_tables vm.mem (k + 1) o
      have ha := h.fresh hpre (havail ▸ List.mem_cons_self)
      have hoc : o ≠ c := fun hoc => hpre.copy (hoc ▸ ho)
      have hoa : o ≠ a := fun hoa => ha.1 (hoa ▸ ho)
      have hframe : (addTable vm₁ c n a rest).mem o n = vm.mem o n := by
        rw [addTable_mem_of_ne hoc hoa, h.original]
      have hcopy : pteFrame ((addTable vm₁ c n a rest).mem c n) = a := by
        rw [addTable_mem, set_self]
        exact pteFrame_pte (by decide)
      change dupTable k (pteFrame ((addTable vm₁ c n a rest).mem o n))
        (pteFrame ((addTable vm₁ c n a rest).mem c n)) (addTable vm₁ c n a rest) = _ at hbody
      rw [hframe, hcopy] at hbody
      have hempty : ∀ i < 512, (addTable vm₁ c n a rest).mem a i = 0 := by
        intro i _
        rw [addTable_mem, set_of_ne_frame _ _ _ ha.2]
        exact zero_self _ _ _
      obtain ⟨used₁, hdup, hcopy⟩ := hbelow _ _ _ _ (h.pre hpre hn hpresent havail) hempty hbody
      exact ⟨_, h.turn hpre hk hn hpresent havail rfl hdup hcopy⟩

end Turn

/-! ## The whole duplication -/

section Whole

variable {k o c : Nat} {vm vm' : Vm} {used : List Nat}

/-- The original after the loop. -/
theorem DupLoop.dupSpec (hpre : DupPre (k + 1) o c vm)
    (h : DupLoop k o c vm (entryCount (k + 1)) vm' used) : DupSpec (k + 1) o c vm vm' used where
  avail := h.avail
  freed := h.freed
  outside := h.outside
  parentTables := by
    rw [tables, tables, h.original]
    congr 1
    apply List.flatMap_congr
    intro i hi
    split
    · next hpresent => exact (h.parent i (List.mem_range.mp hi) hpresent).1
    · rfl
  parentUpper := by
    intro i hi hpresent
    rw [h.original] at hpresent ⊢
    obtain ⟨hrw, h2mb, -⟩ := hpre.upper i hi hpresent
    exact ⟨hrw, h2mb, (h.parent i hi hpresent).2.1⟩
  parentWalk vpn hrange := by
    rw [walk, walk, h.original]
    split
    · next hpresent => exact (h.parent _ hrange hpresent).2.2 vpn
    · rfl

/-- The entries of the copy. -/
theorem DupLoop.child_entry (h : DupLoop k o c vm (entryCount (k + 1)) vm' used) {i : Nat}
    (hi : i < entryCount (k + 1)) (hpresent : isPresent (vm.mem o i) = true) :
    isPresent (vm'.mem c i) = true ∧ isReadwrite (vm'.mem c i) = true ∧
      is2mb (vm'.mem c i) = false := by
  obtain ⟨⟨e, he⟩, -⟩ := h.child i hi hpresent
  rw [he]
  exact ⟨(testBit_pte (by decide) (by decide)).trans (by decide),
    (testBit_pte (by decide) (by decide)).trans (by decide),
    (testBit_pte (by decide) (by decide)).trans (by decide)⟩

/-- The copy after the loop, if it was empty before. -/
theorem DupLoop.copySpec (hempty : ∀ i < 512, vm.mem c i = 0)
    (h : DupLoop k o c vm (entryCount (k + 1)) vm' used) : CopySpec (k + 1) o c vm vm' used := by
  have hcount := entryCount_le (k + 1)
  have hiff : ∀ i < entryCount (k + 1), isPresent (vm'.mem c i) = isPresent (vm.mem o i) := by
    intro i hi
    cases hpresent : isPresent (vm.mem o i) with
    | false => rw [h.copy i (Or.inr hpresent), hempty i (by omega), isPresent_zero]
    | true => exact (h.child_entry hi hpresent).1
  refine ⟨?_, fun i hi hpresent => ?_, fun vpn hrange => ?_⟩
  · rw [tables, h.list]
    congr 1
    apply List.flatMap_congr
    intro i hi
    rw [hiff i (List.mem_range.mp hi)]
  · rw [hiff i hi] at hpresent
    obtain ⟨-, hrw, h2mb⟩ := h.child_entry hi hpresent
    exact ⟨hrw, h2mb, (h.child i hi hpresent).2.1⟩
  · rw [walk, walk, hiff _ hrange]
    split
    · next hpresent => exact (h.child _ hrange hpresent).2.2 vpn
    · rfl

/-- The duplication of a table below the PML4 into an empty one. -/
theorem dupTable_spec (hk : k < 3) (hpre : DupPre k o c vm) (hempty : ∀ i < 512, vm.mem c i = 0)
    (hdup : dupTable k o c vm = .ok vm') :
    ∃ used, DupSpec k o c vm vm' used ∧ CopySpec k o c vm vm' used := by
  induction k generalizing o c vm vm' with
  | zero => exact ⟨[], dupTable_zero hpre hempty hdup⟩
  | succ k ih =>
      obtain ⟨used, hloop⟩ := dupLoop_spec (by omega) hpre
        (fun o c vm vm' hpre hempty hdup => ih (by omega) hpre hempty hdup) hdup
      exact ⟨used, hloop.dupSpec hpre, hloop.copySpec hempty⟩

end Whole

/-! ## Forks -/

/-- What a fork does to the directory `pml4` and to memory, with the copy `child` in frames that
were free. -/
structure ForkSpec (cfg : DirConfig) (pml4 child : Nat) (vm vm' : Vm) (used : List Nat) : Prop where
  avail : vm.avail = used ++ vm'.avail
  freed : vm'.freed = vm.freed
  outside : ∀ g, g ∉ tables vm.mem 3 pml4 → g ∉ used → vm'.mem g = vm.mem g
  parentSelf : vm'.mem pml4 = vm.mem pml4
  parentTables : tables vm'.mem 3 pml4 = tables vm.mem 3 pml4
  parentUpper : UpperOk vm'.mem 3 pml4
  parentWalk : ∀ vpn < userPages,
    walk vm'.mem 3 pml4 vpn = (walk vm.mem 3 pml4 vpn).map resetEntry
  childTables : ∀ g ∈ tables vm'.mem 3 child, g ∈ used
  childNodup : (tables vm'.mem 3 child).Nodup
  childUpper : UpperOk vm'.mem 3 child
  childSelf : vm'.mem child 511 = cfg.kernelEntry
  childWalk : ∀ vpn < userPages, isPresent (vm.mem pml4 (tableIndex 3 vpn)) = true →
    walk vm'.mem 3 child vpn = (walk vm.mem 3 pml4 vpn).map resetEntry
  childDevice : ∀ vpn < userPages, isPresent (vm.mem pml4 (tableIndex 3 vpn)) = false →
    cfg.Device vpn → walk vm'.mem 3 child vpn = some (pte vpn (mmPresent + mmReadwrite))
  childNone : ∀ vpn < userPages, isPresent (vm.mem pml4 (tableIndex 3 vpn)) = false →
    ¬ cfg.Device vpn → walk vm'.mem 3 child vpn = none

section Fork

variable {cfg : DirConfig} {pages : Nat → Prop} {pml4 child : Nat} {vm vm₁ vm' : Vm}
  {used used' : List Nat}

/-- Building a directory leaves the others alone. -/
theorem DirSpec.tables_eq (hpre : MapPre 3 pml4 vm) (h : DirSpec cfg pages child vm vm₁ used) :
    ∀ g ∈ tables vm.mem 3 pml4, vm₁.mem g = vm.mem g := by
  intro g hg
  apply h.outside
  exact fun hused => hpre.fresh g (h.avail ▸ List.mem_append_left _ hused) hg

/-- A directory can be duplicated into a new one. -/
theorem DirSpec.dupPre (hpre : MapPre 3 pml4 vm) (h : DirSpec cfg pages child vm vm₁ used) :
    DupPre 3 pml4 child vm₁ := by
  have hsame := h.tables_eq hpre
  have htables := tables_congr hsame
  have hnodup : (used ++ vm₁.avail).Nodup := h.avail ▸ hpre.avail
  have hchild : child ∈ used := (h.mem_tables child).mp (self_mem_tables _ _ _)
  refine ⟨?_, upperOk_congr hsame hpre.upper, ?_, (List.nodup_append.mp hnodup).2.1, ?_⟩
  · rw [htables]
    exact hpre.nodup
  · rw [htables]
    exact hpre.fresh child (h.avail ▸ List.mem_append_left _ hchild)
  · intro f hf
    rw [htables]
    refine ⟨hpre.fresh f (h.avail ▸ List.mem_append_right _ hf), ?_⟩
    rintro rfl
    exact (List.nodup_append.mp hnodup).2.2 f hchild f hf rfl

/-- The entries of a new directory that the duplication does not replace. -/
theorem DupLoop.kept (hpre : MapPre 3 pml4 vm) (hdir : DirSpec cfg pages child vm vm₁ used)
    (h : DupLoop 2 pml4 child vm₁ 511 vm' used') {i : Nat} (hi : i < 511)
    (hpresent : isPresent (vm₁.mem child i) = true) :
    ∀ g ∈ tables vm₁.mem 2 (pteFrame (vm₁.mem child i)), vm'.mem g = vm₁.mem g := by
  intro g hg
  have hmem : g ∈ tables vm₁.mem 3 child := tables_subset_of_entry hi hpresent hg
  have hused : g ∈ used := (hdir.mem_tables g).mp hmem
  have hnodup : (used ++ (used' ++ vm'.avail)).Nodup := by
    rw [← h.avail, ← hdir.avail]
    exact hpre.avail
  refine h.outside g ?_ ?_ ?_
  · rw [tables_congr (hdir.tables_eq hpre)]
    exact hpre.fresh g (hdir.avail ▸ List.mem_append_left _ hused)
  · rintro rfl
    exact ((nodup_tables_succ.mp hdir.nodup).1 i hi hpresent).1 hg
  · exact fun hused' => (List.nodup_append.mp hnodup).2.2 g hused g
      (List.mem_append_left _ hused') rfl

/-- The tables of the copy are pairwise different. -/
theorem DupLoop.child_nodup (hpre : MapPre 3 pml4 vm) (hdir : DirSpec cfg pages child vm vm₁ used)
    (h : DupLoop 2 pml4 child vm₁ 511 vm' used') : (tables vm'.mem 3 child).Nodup := by
  have hnodup : (used ++ (used' ++ vm'.avail)).Nodup := by
    rw [← h.avail, ← hdir.avail]
    exact hpre.avail
  obtain ⟨hself, hdisjoint⟩ := nodup_tables_succ.mp hdir.nodup
  have hchild : child ∈ used := (hdir.mem_tables child).mp (self_mem_tables _ _ _)
  have hsep : ∀ g ∈ used, g ∉ used' := fun g hg hg' =>
    (List.nodup_append.mp hnodup).2.2 g hg g (List.mem_append_left _ hg') rfl
  have hnew := (List.nodup_append.mp (List.nodup_append.mp hnodup).2.1).1
  rw [h.list, nodup_flatMap_range] at hnew
  -- an entry of the copy is new or one of the devices' entries
  have hcases : ∀ i < 511, isPresent (vm'.mem child i) = true →
      (isPresent (vm₁.mem pml4 i) = true ∧
        ∀ g ∈ tables vm'.mem 2 (pteFrame (vm'.mem child i)), g ∈ used') ∨
      (isPresent (vm₁.mem pml4 i) = false ∧ isPresent (vm₁.mem child i) = true ∧
        tables vm'.mem 2 (pteFrame (vm'.mem child i)) =
          tables vm₁.mem 2 (pteFrame (vm₁.mem child i)) ∧
        ∀ g ∈ tables vm'.mem 2 (pteFrame (vm'.mem child i)), g ∈ used) := by
    intro i hi hp
    cases hparent : isPresent (vm₁.mem pml4 i) with
    | true => exact Or.inl ⟨rfl, fun g hg => h.childTables hi hparent hg⟩
    | false =>
        have hword := h.copy i (Or.inr hparent)
        rw [hword] at hp ⊢
        have ht := tables_congr (h.kept hpre hdir hi hp)
        refine Or.inr ⟨rfl, hp, ht, fun g hg => ?_⟩
        rw [ht] at hg
        exact (hdir.mem_tables g).mp (tables_subset_of_entry hi hp hg)
  rw [nodup_tables_succ]
  constructor
  · intro i hi hp
    rcases hcases i hi hp with ⟨hparent, hused⟩ | ⟨-, hold, ht, -⟩
    · refine ⟨fun hmem => hsep child hchild (hused child hmem), ?_⟩
      have := hnew.1 i hi
      rwa [if_pos hparent] at this
    · rw [ht]
      exact hself i hi hold
  · intro i hi j hj hij hpi hpj g hg hg'
    rcases hcases i hi hpi with ⟨hpari, husedi⟩ | ⟨-, holdi, hti, husedi⟩
    · rcases hcases j hj hpj with ⟨hparj, -⟩ | ⟨-, -, -, husedj⟩
      · have := hnew.2 i hi j hj hij
        rw [if_pos hpari, if_pos hparj] at this
        exact this hg hg'
      · exact hsep g (husedj g hg') (husedi g hg)
    · rcases hcases j hj hpj with ⟨-, husedj⟩ | ⟨-, holdj, htj, -⟩
      · exact hsep g (husedi g hg) (husedj g hg')
      · rw [hti] at hg
        rw [htj] at hg'
        exact hdisjoint i hi j hj hij holdi holdj hg hg'

/-- The copy of a directory. -/
theorem mmuNativeDuplicateDir_spec (hpre : MapPre 3 pml4 vm)
    (hfork : mmuNativeDuplicateDir cfg pml4 vm = .ok (child, vm')) :
    ∃ used, ForkSpec cfg pml4 child vm vm' used := by
  rw [mmuNativeDuplicateDir] at hfork
  obtain ⟨⟨copy, vm₁⟩, hbuild, hrest⟩ := Halt.bind_eq_ok.mp hfork
  obtain ⟨vm₂, hdup, hlast⟩ := Halt.bind_eq_ok.mp hrest
  rw [Halt.pure_eq_ok, Except.ok.injEq, Prod.mk.injEq] at hlast
  obtain ⟨rfl, rfl⟩ := hlast
  obtain ⟨used, hdir⟩ := mmuNativeBuildDir_spec hpre.avail hbuild
  have hdupPre := hdir.dupPre hpre
  obtain ⟨used', h⟩ := dupLoop_spec (le_refl 3) hdupPre
    (fun o c vm vm' hpre hempty hdup => dupTable_spec (by omega) hpre hempty hdup) hdup
  have hspec := h.dupSpec hdupPre
  have hsame := hdir.tables_eq hpre
  have htables := tables_congr hsame
  have hself : vm₁.mem pml4 = vm.mem pml4 := hsame pml4 (self_mem_tables _ _ _)
  have hwalk : ∀ vpn < userPages, walk vm₁.mem 3 pml4 vpn = walk vm.mem 3 pml4 vpn :=
    fun vpn hvpn => walk_congr hsame (inRange_of_lt hvpn) (le_refl 3)
  -- the walks that end in what the new directory had before
  have hkept : ∀ vpn < userPages, isPresent (vm.mem pml4 (tableIndex 3 vpn)) = false →
      walk vm₂.mem 3 copy vpn = walk vm₁.mem 3 copy vpn := by
    intro vpn hvpn habsent
    rw [← hself] at habsent
    rw [walk_succ vm₂.mem 2 copy, walk_succ vm₁.mem 2 copy, h.copy _ (Or.inr habsent)]
    split
    · next hp =>
        exact walk_congr (h.kept hpre hdir (inRange_of_lt hvpn) hp) (inRange_of_ne (by omega))
          (by omega)
    · rfl
  refine ⟨used ++ used', ?_, ?_, ?_, ?_, ?_, hspec.parentUpper, ?_, ?_, h.child_nodup hpre hdir, ?_,
    ?_, ?_, ?_, ?_⟩
  · rw [hdir.avail, h.avail, List.append_assoc]
  · rw [h.freed, hdir.freed]
  · intro g hg hused
    rw [List.mem_append, not_or] at hused
    rw [h.outside g (by rwa [htables]) ?_ hused.2, hdir.outside g hused.1]
    rintro rfl
    exact hused.1 ((hdir.mem_tables g).mp (self_mem_tables _ _ _))
  · rw [h.original, hself]
  · rw [hspec.parentTables, htables]
  · intro vpn hvpn
    rw [hspec.parentWalk vpn (inRange_of_lt hvpn), hwalk vpn hvpn]
  · intro g hg
    rw [List.mem_append]
    rcases mem_tables_succ.mp hg with rfl | ⟨i, hi, hp, hg⟩
    · exact Or.inl ((hdir.mem_tables g).mp (self_mem_tables _ _ _))
    · cases hparent : isPresent (vm₁.mem pml4 i) with
      | true => exact Or.inr (h.childTables hi hparent hg)
      | false =>
          rw [h.copy i (Or.inr hparent)] at hp hg
          rw [tables_congr (h.kept hpre hdir hi hp)] at hg
          exact Or.inl ((hdir.mem_tables g).mp (tables_subset_of_entry hi hp hg))
  · intro i hi hp
    cases hparent : isPresent (vm₁.mem pml4 i) with
    | true =>
        obtain ⟨-, hrw, h2mb⟩ := h.child_entry hi hparent
        exact ⟨hrw, h2mb, (h.child i hi hparent).2.1⟩
    | false =>
        rw [h.copy i (Or.inr hparent)] at hp ⊢
        obtain ⟨hrw, h2mb, hbelow⟩ := hdir.upper i hi hp
        exact ⟨hrw, h2mb, upperOk_congr (h.kept hpre hdir hi hp) hbelow⟩
  · rw [h.copy 511 (Or.inl (by decide)), hdir.kernel]
  · intro vpn hvpn hpresent
    rw [← hself] at hpresent
    have hindex := inRange_of_lt hvpn
    rw [← hwalk vpn hvpn, walk_succ vm₂.mem 2 copy, if_pos (h.child_entry hindex hpresent).1,
      (h.child _ hindex hpresent).2.2, walk_succ vm₁.mem 2 pml4, if_pos hpresent]
  · intro vpn hvpn habsent hdevice
    rw [hkept vpn hvpn habsent]
    exact hdir.mapped vpn hvpn hdevice
  · intro vpn hvpn habsent hdevice
    rw [hkept vpn hvpn habsent]
    exact hdir.unmapped vpn hvpn hdevice

end Fork

/-! ## Termination -/

/-- A bound on the frames that the duplication of a table takes. -/
def dupCost : Nat → Nat
  | 0 => 0
  | k + 1 => entryCount (k + 1) * (1 + dupCost k)

/-- A duplication fails only when it runs out of frames. -/
theorem dupTable_returns (k m : Nat) {o c : Nat} {vm : Vm}
    (havail : dupCost k + m ≤ vm.avail.length) :
    ∃ vm', dupTable k o c vm = .ok vm' ∧ m ≤ vm'.avail.length := by
  induction k generalizing o c vm m with
  | zero => exact ⟨_, rfl, by simpa [dupCost] using havail⟩
  | succ k ih =>
      -- what the turns that are left need, and `m` more
      have hend : ∀ v : Vm, m ≤ v.avail.length ↔
          (entryCount (k + 1) - entryCount (k + 1)) * (1 + dupCost k) + m ≤ v.avail.length := by
        intro v
        rw [Nat.sub_self, Nat.zero_mul, Nat.zero_add]
      rw [dupTable]
      simp only [hend]
      refine foldlM_range_returns (fun i (v : Vm) =>
        (entryCount (k + 1) - i) * (1 + dupCost k) + m ≤ v.avail.length) ?_ ?_
      · simpa [dupCost] using havail
      · intro i hi v hv
        have hsplit : (entryCount (k + 1) - i) * (1 + dupCost k) =
            (1 + dupCost k) + (entryCount (k + 1) - (i + 1)) * (1 + dupCost k) := by
          rw [show entryCount (k + 1) - i = entryCount (k + 1) - (i + 1) + 1 by omega]
          ring
        by_cases hpresent : isPresent (v.mem o i) = true
        · rw [if_pos hpresent]
          generalize hv₁ : (if k = 0 ∧ is2mb (v.mem o i) = true then
            ({ v with mem := dup2mb o c i v.mem } : Vm) else v) = v₁
          have hlen : v₁.avail = v.avail := by
            rw [← hv₁]
            split <;> rfl
          cases hlist : v.avail with
          | nil =>
              rw [hlist, List.length_nil] at hv
              omega
          | cons a rest =>
              rw [hlist, List.length_cons] at hv
              have halloc : allocEntry v₁ = .ok (pte a (mmPresent + mmReadwrite),
                  { v₁ with
                    mem := v₁.mem.zero a
                    avail := rest }) := by
                simp only [allocEntry, mmuPageAlloc, hlen, hlist]
              rw [halloc]
              exact ih _ (by dsimp only; omega)
        · rw [if_neg hpresent]
          exact ⟨v, rfl, by omega⟩

/-- So does a fork. -/
theorem mmuNativeDuplicateDir_returns {cfg : DirConfig} (hlapic : Mm.pageAligned cfg.lapic)
    (hioapic : Mm.pageAligned cfg.ioapic) (hvga : cfg.vga = none) {vm : Vm} {pml4 child : Nat}
    {rest : List Nat} (havail : vm.avail = child :: rest) (hrest : 6 + dupCost 3 ≤ rest.length) :
    ∃ vm', mmuNativeDuplicateDir cfg pml4 vm = .ok (child, vm') := by
  obtain ⟨vm₁, hbuild, hlen⟩ := mmuNativeBuildDir_returns (dupCost 3) hlapic hioapic hvga havail hrest
  obtain ⟨vm', hdup, -⟩ := dupTable_returns 3 0 (show dupCost 3 + 0 ≤ vm₁.avail.length from hlen)
  exact ⟨vm', Halt.bind_eq_ok.mpr ⟨_, hbuild, Halt.bind_eq_ok.mpr ⟨_, hdup, rfl⟩⟩⟩

end Arch
end Micael
