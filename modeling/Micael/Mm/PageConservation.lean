import Micael.Mm.Page

/-!
# Conservation of page frames

The allocator neither loses a page nor hands one out twice.  The free blocks of
`zone_normal` and the blocks that callers hold tile the memory the zone started
with, and the page array marks every page of it accordingly.

Main results:

- Theorem {lit}`splitLoop_spec`: the pieces that a split files, together with the
  piece it returns, tile the block that was cut.
- Theorem {lit}`mmuBlockAlloc_spec`: an allocation exchanges one free block for
  the returned block and smaller free blocks.
- Theorem {lit}`pfaStep_inv`: both operations keep the allocator's invariant.
- Theorem {lit}`pfa_conservation`: the invariant in every state of every run.
-/

namespace Micael
namespace Mm

open Foundation

/-! ## The free blocks of a zone -/

/-- The free blocks of all orders. -/
def MmZone.free (zone : MmZone) : List PageBlock :=
  (List.range buddyMaxOrder).flatMap fun order =>
    (zone.blocks order).map fun block => ⟨block.start, order⟩

theorem MmZone.mem_free {zone : MmZone} {block : PageBlock} :
    block ∈ zone.free ↔
      block.order < buddyMaxOrder ∧ ∃ b ∈ zone.blocks block.order, b.start = block.start := by
  simp only [MmZone.free, List.mem_flatMap, List.mem_range, List.mem_map]
  constructor
  · rintro ⟨order, horder, b, hb, rfl⟩
    exact ⟨horder, b, hb, rfl⟩
  · rintro ⟨horder, b, hb, hstart⟩
    exact ⟨block.order, horder, b, hb, by rw [hstart]⟩

/-- Changing one entry of a family of lists changes the concatenation by exactly
that entry. -/
theorem flatMap_range_update_perm {α : Type*} {f : Nat → List α} {n o : Nat} (ho : o < n)
    (list : List α) :
    ∃ rest, ((List.range n).flatMap f).Perm (f o ++ rest) ∧
      ((List.range n).flatMap (Function.update f o list)).Perm (list ++ rest) := by
  induction n with
  | zero => omega
  | succ n ih =>
      simp only [List.range_succ, List.flatMap_append, List.flatMap_singleton]
      by_cases hlast : o = n
      · subst hlast
        have hsame : (List.range o).flatMap (Function.update f o list) =
            (List.range o).flatMap f := by
          apply List.flatMap_congr
          intro i hi
          have : i ≠ o := (List.mem_range.mp hi).ne
          simp [this]
        refine ⟨(List.range o).flatMap f, List.perm_append_comm, ?_⟩
        rw [hsame, Function.update_self]
        exact List.perm_append_comm
      · obtain ⟨rest, hold, hnew⟩ := ih (by omega)
        have hn : n ≠ o := fun h => hlast h.symm
        refine ⟨rest ++ f n, ?_, ?_⟩
        · rw [← List.append_assoc]
          exact hold.append_right _
        · rw [Function.update_of_ne hn, ← List.append_assoc]
          exact hnew.append_right _

/-- Replacing the list of one order exchanges its blocks and no others. -/
theorem MmZone.free_setOrder (zone : MmZone) {order : Nat} (horder : order < buddyMaxOrder)
    (list : List MmBlock) :
    ∃ rest, zone.free.Perm
        ((zone.blocks order).map (fun b => (⟨b.start, order⟩ : PageBlock)) ++ rest) ∧
      (zone.setOrder order list).free.Perm
        (list.map (fun b => (⟨b.start, order⟩ : PageBlock)) ++ rest) := by
  obtain ⟨rest, hold, hnew⟩ := flatMap_range_update_perm
    (f := fun o => (zone.blocks o).map fun b => (⟨b.start, o⟩ : PageBlock)) horder
    (list.map fun b => ⟨b.start, order⟩)
  refine ⟨rest, hold, ?_⟩
  have hfamily : (fun o => ((zone.setOrder order list).blocks o).map
      fun b => (⟨b.start, o⟩ : PageBlock)) =
      Function.update (fun o => (zone.blocks o).map fun b => ⟨b.start, o⟩) order
        (list.map fun b => ⟨b.start, order⟩) := by
    funext o
    by_cases ho : o = order
    · subst ho
      simp
    · simp [MmZone.setOrder_of_ne zone list ho, ho]
  unfold MmZone.free
  rw [hfamily]
  exact hnew

theorem MmZone.free_push (zone : MmZone) {order : Nat} (horder : order < buddyMaxOrder)
    (block : MmBlock) :
    (zone.push order block).free.Perm (⟨block.start, order⟩ :: zone.free) := by
  obtain ⟨rest, hold, hnew⟩ := zone.free_setOrder horder (block :: zone.blocks order)
  refine hnew.trans ?_
  rw [List.map_cons, List.cons_append]
  exact hold.symm.cons _

theorem MmZone.free_pop (zone : MmZone) {order : Nat} (horder : order < buddyMaxOrder)
    {block : MmBlock} {rest : List MmBlock} (hblocks : zone.blocks order = block :: rest) :
    zone.free.Perm (⟨block.start, order⟩ :: (zone.setOrder order rest).free) := by
  obtain ⟨others, hold, hnew⟩ := zone.free_setOrder horder rest
  rw [hblocks, List.map_cons, List.cons_append] at hold
  exact hold.trans (hnew.symm.cons _)

/-! ## Splitting a block -/

/-- A filed block has the size of its order. -/
def MmBlock.SizedFor (block : MmBlock) (order : Nat) : Prop :=
  block.stop + 1 = block.start + blockSize order

theorem PageBlock.addrs_mk (start order : Nat) :
    (⟨start, order⟩ : PageBlock).addrs = Set.Ico start (start + blockSize order) :=
  rfl

/-- The two halves of a block tile it. -/
theorem tiles_halves (start order : Nat) :
    Tiles [(⟨start, order⟩ : PageBlock).addrs,
        (⟨start + blockSize order, order⟩ : PageBlock).addrs]
      (⟨start, order + 1⟩ : PageBlock).addrs := by
  have hend : start + blockSize (order + 1) = start + blockSize order + blockSize order := by
    rw [blockSize_succ, Nat.add_assoc]
  simp only [PageBlock.addrs_mk, hend]
  exact tiles_Ico_Ico (Nat.le_add_right _ _) (Nat.le_add_right _ _)

theorem pageAligned_add_blockSize {start order : Nat} (h : pageAligned start) :
    pageAligned (start + blockSize order) := by
  unfold pageAligned at *
  obtain ⟨c, hc⟩ := pageSize_dvd_blockSize order
  rw [hc, Nat.add_mul_mod_self_left, h]

/-- What a split leaves behind: a returned block and newly filed blocks, which
together tile the block that was cut, all of them aligned and correctly sized. -/
structure SplitOf (zone zone' : MmZone) (start order : Nat) (cut : Set Nat) (bottom : Nat) :
    Prop where
  aligned : pageAligned start
  above : bottom ≤ start
  parts : ∃ parts : List PageBlock, zone'.free.Perm (parts ++ zone.free) ∧
    Tiles ((⟨start, order⟩ :: parts).map PageBlock.addrs) cut ∧
    ∀ part ∈ parts, pageAligned part.start ∧ bottom ≤ part.start
  sized : (∀ o, ∀ b ∈ zone.blocks o, b.SizedFor o) → ∀ o, ∀ b ∈ zone'.blocks o, b.SizedFor o

theorem MmZone.push_sized {zone : MmZone} {order : Nat} {block : MmBlock}
    (hblock : block.SizedFor order) (hzone : ∀ o, ∀ b ∈ zone.blocks o, b.SizedFor o) :
    ∀ o, ∀ b ∈ (zone.push order block).blocks o, b.SizedFor o := by
  intro o b hb
  by_cases ho : o = order
  · subst ho
    rw [MmZone.push, MmZone.setOrder_self] at hb
    rcases List.mem_cons.mp hb with rfl | hb
    · exact hblock
    · exact hzone o b hb
  · rw [MmZone.push, MmZone.setOrder_of_ne zone _ ho] at hb
    exact hzone o b hb

/-- The loop cuts the block at `splitStart` down to the order asked for. -/
theorem splitLoop_spec {reqOrder splitOrder splitStart : Nat} {zone : MmZone}
    (hle : reqOrder ≤ splitOrder) (hlt : splitOrder < buddyMaxOrder)
    (haligned : pageAligned splitStart) (hfit : splitStart + blockSize splitOrder < 2 ^ 64)
    {start : Nat} {zone' : MmZone}
    (hloop : splitLoop reqOrder splitOrder splitStart zone = (start, zone')) :
    SplitOf zone zone' start reqOrder (⟨splitStart, splitOrder⟩ : PageBlock).addrs splitStart := by
  induction splitOrder generalizing splitStart zone with
  | zero =>
      have hreq : reqOrder = 0 := by omega
      subst hreq
      simp only [splitLoop, Prod.mk.injEq] at hloop
      obtain ⟨rfl, rfl⟩ := hloop
      exact ⟨haligned, le_rfl, ⟨[], by simp, by simpa using tiles_singleton _, by simp⟩, id⟩
  | succ order ih =>
      rw [splitLoop] at hloop
      split at hloop
      · next hreq =>
          subst hreq
          simp only [Prod.mk.injEq] at hloop
          obtain ⟨rfl, rfl⟩ := hloop
          exact ⟨haligned, le_rfl, ⟨[], by simp, by simpa using tiles_singleton _, by simp⟩, id⟩
      · next hreq =>
          have hsize := blockSize_succ order
          have hpos := blockSize_pos order
          have hnext : u64 (splitStart + blockSize order) = splitStart + blockSize order :=
            u64_eq_of_lt (by omega)
          have hstop : u64 (splitStart + blockSize order + 2 ^ 64 - 1) + 1 =
              splitStart + blockSize order := by
            unfold u64
            omega
          simp only [hnext] at hloop
          have hrec := ih (by omega) (by omega) (pageAligned_add_blockSize haligned)
            (by omega) hloop
          obtain ⟨parts, hperm, htiles, hparts⟩ := hrec.parts
          refine ⟨hrec.aligned, (Nat.le_add_right _ _).trans hrec.above, ?_, ?_⟩
          · refine ⟨parts ++ [⟨splitStart, order⟩], ?_, ?_, ?_⟩
            · -- the first half has just been filed
              refine hperm.trans ?_
              rw [List.append_assoc]
              exact (zone.free_push (by omega) _).append_left parts
            · -- the second half is what the rest of the loop cuts
              have hhalves := (tiles_halves splitStart order).perm (List.Perm.swap _ _ _)
              have hcut := hhalves.refine htiles
              rw [List.map_cons, List.cons_append] at hcut
              simpa using hcut
            · intro part hpart
              rcases List.mem_append.mp hpart with hpart | hpart
              · exact ⟨(hparts part hpart).1, (Nat.le_add_right _ _).trans (hparts part hpart).2⟩
              · rw [List.mem_singleton] at hpart
                subst hpart
                exact ⟨haligned, le_rfl⟩
          · intro hzone
            exact hrec.sized (MmZone.push_sized hstop hzone)

/-! ## One allocation -/

/-- The free blocks of a zone are aligned, correctly sized, inside the address
range of `zone_normal`, and end below the top of the address space. -/
structure MmZone.WellFormed (zone : MmZone) : Prop where
  sized : ∀ o, ∀ b ∈ zone.blocks o, b.SizedFor o
  aligned : ∀ block ∈ zone.free, pageAligned block.start
  inRange : ∀ block ∈ zone.free, mmZoneNormalStart ≤ block.start
  fits : ∀ block ∈ zone.free, block.start + blockSize block.order < 2 ^ 64

/-- An allocation takes one free block, returns a part of it and files the rest. -/
structure TakenFrom (zone zone' : MmZone) (address order : Nat) (source : PageBlock)
    (parts : List PageBlock) (rest : List PageBlock) : Prop where
  before : zone.free.Perm (source :: rest)
  after : zone'.free.Perm (parts ++ rest)
  tiles : Tiles ((⟨address, order⟩ :: parts).map PageBlock.addrs) source.addrs
  aligned : ∀ block ∈ (⟨address, order⟩ :: parts : List PageBlock), pageAligned block.start
  above : ∀ block ∈ (⟨address, order⟩ :: parts : List PageBlock), source.start ≤ block.start
  sized : ∀ o, ∀ b ∈ zone'.blocks o, b.SizedFor o

theorem getFreeEntry_ok {zone zone' : MmZone} {order : Nat} {block : MmBlock}
    (h : getFreeEntry zone order = .ok (block, zone')) :
    order < buddyMaxOrder ∧ ∃ rest, zone.blocks order = block :: rest ∧
      zone' = zone.setOrder order rest := by
  unfold getFreeEntry at h
  split at h
  · next horder =>
      split at h
      · cases h
      · next b rest hblocks =>
          cases h
          exact ⟨horder, rest, hblocks, rfl⟩
  · cases h

theorem MmZone.setOrder_sized {zone : MmZone} {order : Nat} {block : MmBlock}
    {rest : List MmBlock} (hblocks : zone.blocks order = block :: rest)
    (hzone : ∀ o, ∀ b ∈ zone.blocks o, b.SizedFor o) :
    ∀ o, ∀ b ∈ (zone.setOrder order rest).blocks o, b.SizedFor o := by
  intro o b hb
  by_cases ho : o = order
  · subst ho
    rw [MmZone.setOrder_self] at hb
    exact hzone o b (by rw [hblocks]; exact List.mem_cons_of_mem _ hb)
  · rw [MmZone.setOrder_of_ne zone rest ho] at hb
    exact hzone o b hb

/-- `__split_block` cuts the first block of its order in two, files the lower half and goes on with the upper one. -/
theorem splitBlock_ok {zone zone' : MmZone} {reqOrder splitOrder address : Nat}
    (h : splitBlock zone reqOrder splitOrder = .ok (address, zone')) :
    ∃ order b list, splitOrder = order + 1 ∧ order + 1 < buddyMaxOrder ∧ zone.blocks (order + 1) = b :: list ∧
      splitLoop reqOrder order (u64 (b.start + blockSize order))
        ((zone.setOrder (order + 1) list).push order ⟨b.start, u64 (b.stop + 2 ^ 64 - blockSize order)⟩) =
          (address, zone') := by
  unfold splitBlock at h
  simp only [bind, Except.bind, pure, Except.pure] at h
  split at h
  · rename_i horders
    split at h
    · cases h
    · next entry hentry =>
        obtain ⟨b, zone₁⟩ := entry
        simp only [Except.ok.injEq] at h
        obtain ⟨horder, list, hblocks, rfl⟩ := getFreeEntry_ok hentry
        obtain ⟨order, rfl⟩ : ∃ order, splitOrder = order + 1 := ⟨splitOrder - 1, by omega⟩
        rw [Nat.add_sub_cancel] at h
        exact ⟨order, b, list, rfl, horder, hblocks, h⟩
  · cases h

theorem splitBlock_spec {zone zone' : MmZone} {reqOrder splitOrder address : Nat}
    (hwf : zone.WellFormed) (hlt : reqOrder < splitOrder)
    (h : splitBlock zone reqOrder splitOrder = .ok (address, zone')) :
    ∃ source ∈ zone.free, ∃ parts rest,
      TakenFrom zone zone' address reqOrder source parts rest := by
  obtain ⟨order, b, list, rfl, horder, hblocks, h⟩ := splitBlock_ok h
  have hmem : (⟨b.start, order + 1⟩ : PageBlock) ∈ zone.free :=
    MmZone.mem_free.mpr ⟨horder, b, by rw [hblocks]; exact List.mem_cons_self, rfl⟩
  have hb : b.SizedFor (order + 1) :=
    hwf.sized _ b (by rw [hblocks]; exact List.mem_cons_self)
  have hfit := hwf.fits _ hmem
  have haligned := hwf.aligned _ hmem
  have hsize := blockSize_succ order
  simp only at hfit haligned
  have hhalf : u64 (b.start + blockSize order) = b.start + blockSize order :=
    u64_eq_of_lt (by omega)
  -- cutting the upper half off leaves a correctly sized lower half
  have hlower : (⟨b.start, u64 (b.stop + 2 ^ 64 - blockSize order)⟩ : MmBlock).SizedFor
      order := by
    unfold MmBlock.SizedFor u64 at *
    simp only
    omega
  rw [hhalf] at h
  have hsplit := splitLoop_spec (by omega) (by omega)
    (pageAligned_add_blockSize haligned) (by omega) h
  obtain ⟨parts, hperm, htiles, hparts⟩ := hsplit.parts
  have habove := hsplit.above
  have hpush := (zone.setOrder (order + 1) list).free_push
    (by omega : order < buddyMaxOrder)
    ⟨b.start, u64 (b.stop + 2 ^ 64 - blockSize order)⟩
  refine ⟨⟨b.start, order + 1⟩, hmem, parts ++ [⟨b.start, order⟩],
    (zone.setOrder (order + 1) list).free, ?_⟩
  constructor
  · exact zone.free_pop horder hblocks
  · refine hperm.trans ?_
    rw [List.append_assoc]
    exact hpush.append_left parts
  · have hhalves := (tiles_halves b.start order).perm (List.Perm.swap _ _ _)
    have hcut := hhalves.refine htiles
    simpa using hcut
  · intro block hblock
    rcases List.mem_cons.mp hblock with rfl | hblock
    · exact hsplit.aligned
    · rcases List.mem_append.mp hblock with hblock | hblock
      · exact (hparts block hblock).1
      · rw [List.mem_singleton] at hblock
        subst hblock
        exact haligned
  · intro block hblock
    rcases List.mem_cons.mp hblock with rfl | hblock
    · exact (Nat.le_add_right _ _).trans habove
    · rcases List.mem_append.mp hblock with hblock | hblock
      · exact (Nat.le_add_right _ _).trans (hparts block hblock).2
      · rw [List.mem_singleton] at hblock
        subst hblock
        exact le_rfl
  · exact hsplit.sized (MmZone.push_sized hlower
      (MmZone.setOrder_sized hblocks hwf.sized))

/-- The search of `__alloc_mem` returns a free block of the order asked for, or splits a larger one. -/
theorem allocMemLoop_ok {zone zone' : MmZone} {order address n o : Nat} (hle : order ≤ o)
    (h : allocMemLoop zone order n o = .ok (some address, zone')) :
    (∃ b list, order < buddyMaxOrder ∧ zone.blocks order = b :: list ∧
      address = b.start ∧ zone' = zone.setOrder order list) ∨
    ∃ splitOrder, order < splitOrder ∧ splitBlock zone order splitOrder = .ok (address, zone') := by
  induction n generalizing o with
  | zero => simp [allocMemLoop] at h
  | succ n ih =>
      rw [allocMemLoop] at h
      split at h
      · exact ih (by omega) h
      · split at h
        · next horder =>
            subst horder
            simp only [bind, Except.bind, pure, Except.pure] at h
            split at h
            · cases h
            · next entry hentry =>
                obtain ⟨b, zone₁⟩ := entry
                obtain ⟨horder, list, hblocks, rfl⟩ := getFreeEntry_ok hentry
                cases h
                exact Or.inl ⟨b, list, horder, hblocks, rfl, rfl⟩
        · next horder =>
            simp only [bind, Except.bind, pure, Except.pure] at h
            split at h
            · cases h
            · next entry hentry =>
                obtain ⟨start, zone₁⟩ := entry
                cases h
                exact Or.inr ⟨o, by omega, hentry⟩

/-- The search of `__alloc_mem` takes the first block of the smallest order that
has one. -/
theorem allocMemLoop_spec {zone zone' : MmZone} {order address n o : Nat}
    (hwf : zone.WellFormed) (hle : order ≤ o)
    (h : allocMemLoop zone order n o = .ok (some address, zone')) :
    ∃ source ∈ zone.free, ∃ parts rest,
      TakenFrom zone zone' address order source parts rest := by
  rcases allocMemLoop_ok hle h with ⟨b, list, horder, hblocks, rfl, rfl⟩ | ⟨splitOrder, hlt, hsplit⟩
  · have hmem : (⟨b.start, order⟩ : PageBlock) ∈ zone.free :=
      MmZone.mem_free.mpr ⟨horder, b, by rw [hblocks]; exact List.mem_cons_self, rfl⟩
    refine ⟨_, hmem, [], (zone.setOrder order list).free, ?_⟩
    constructor
    · exact zone.free_pop horder hblocks
    · rfl
    · simpa using tiles_singleton _
    · simpa using hwf.aligned _ hmem
    · simp
    · exact MmZone.setOrder_sized hblocks hwf.sized
  · exact splitBlock_spec hwf hlt hsplit

/-- `mmu_block_alloc` exchanges one free block of `zone_normal` for the block it
returns and smaller free blocks, and marks the returned pages. -/
theorem mmuBlockAlloc_spec {pfa pfa' : Pfa} {order address : Nat}
    (hwf : pfa.zoneNormal.WellFormed)
    (h : mmuBlockAlloc pfa .normal order = .ok (address, pfa')) :
    (∃ source ∈ pfa.zoneNormal.free, ∃ parts rest,
      TakenFrom pfa.zoneNormal pfa'.zoneNormal address order source parts rest) ∧
    pfa'.pageArray = pageArrayAddBlock pfa.pageArray .inUse address order := by
  unfold mmuBlockAlloc allocMem at h
  simp only [bind, Except.bind, pure, Except.pure, ne_eq, not_true_eq_false, if_false] at h
  split at h
  · cases h
  · next result hresult =>
      obtain ⟨found, pfa₁⟩ := result
      split at hresult
      · cases hresult
        cases h
      · split at hresult
        · cases hresult
        · next entry hentry =>
            obtain ⟨found', zone₁⟩ := entry
            cases hresult
            cases found' with
            | none => cases h
            | some start =>
                cases h
                exact ⟨allocMemLoop_spec hwf le_rfl hentry, rfl⟩

/-! ## The page array -/

/-- The type a page is marked with, if the array has an entry for it. -/
def PageArray.typeOf (array : PageArray) (pfn : Nat) : Option MmPageType :=
  (array.get? pfn).map PageT.type

theorem PageArray.lt_of_typeOf {array : PageArray} {pfn : Nat} {type : MmPageType}
    (h : array.typeOf pfn = some type) : pfn < pageArraySize := by
  by_contra hge
  have hnone : array.get? pfn = none := by
    rw [PageArray.get?, Array.getElem?_eq_none]
    rw [array.size_eq]
    exact not_lt.mp hge
  simp [PageArray.typeOf, hnone] at h

theorem PageArray.typeOf_set (array : PageArray) (pfn i : Nat) (page : PageT) :
    (array.set pfn page).typeOf i =
      if pfn = i then (if i < pageArraySize then some page.type else none)
      else array.typeOf i := by
  simp only [PageArray.typeOf, PageArray.get?_set]
  split
  · split <;> rfl
  · rfl

theorem pageArrayLoop_typeOf (array : PageArray) (type : MmPageType) (order pfn n i : Nat)
    (hfit : pfn + n < 2 ^ 32) :
    (pageArrayLoop type order pfn n array).typeOf i =
      if pfn < i ∧ i ≤ pfn + n then (if i < pageArraySize then some type else none)
      else array.typeOf i := by
  induction n with
  | zero => simp [pageArrayLoop]
  | succ n ih =>
      rw [pageArrayLoop, PageArray.typeOf_set, u32_eq_of_lt hfit, ih (by omega)]
      by_cases hlast : pfn + (n + 1) = i
      · have hin : pfn < i ∧ i ≤ pfn + (n + 1) := by omega
        simp [hlast, hin]
      · have hiff : (pfn < i ∧ i ≤ pfn + (n + 1)) ↔ (pfn < i ∧ i ≤ pfn + n) := by omega
        simp [hlast, hiff]

/-- `__page_array_add_block` marks the pages of the block and no others. -/
theorem pageArrayAddBlock_typeOf (array : PageArray) (type : MmPageType) {start order : Nat}
    (hfit : start / pageSize + 2 ^ order ≤ 2 ^ 32) (i : Nat) :
    (pageArrayAddBlock array type start order).typeOf i =
      if start / pageSize ≤ i ∧ i < start / pageSize + 2 ^ order then
        (if i < pageArraySize then some type else none)
      else array.typeOf i := by
  have hpos : 0 < 2 ^ order := by positivity
  have hshift : start / 2 ^ pageShift = start / pageSize := rfl
  have hpfn : u32 (start / pageSize) = start / pageSize := u32_eq_of_lt (by omega)
  simp only [pageArrayAddBlock, hshift, hpfn]
  rw [pageArrayLoop_typeOf _ _ _ _ _ _ (by omega), PageArray.typeOf_set]
  by_cases hfirst : start / pageSize = i
  · have hnot : ¬ (start / pageSize < i ∧ i ≤ start / pageSize + (2 ^ order - 1)) := by omega
    have hin : start / pageSize ≤ i ∧ i < start / pageSize + 2 ^ order := by omega
    rw [if_neg hnot, if_pos hin, if_pos hfirst]
  · have hiff : (start / pageSize < i ∧ i ≤ start / pageSize + (2 ^ order - 1)) ↔
        (start / pageSize ≤ i ∧ i < start / pageSize + 2 ^ order) := by omega
    simp only [hiff, hfirst, if_false]

/-- The pages of an aligned block, by number. -/
theorem mul_pageSize_mem_addrs {start order i : Nat} (haligned : pageAligned start) :
    i * pageSize ∈ (⟨start, order⟩ : PageBlock).addrs ↔
      start / pageSize ≤ i ∧ i < start / pageSize + 2 ^ order := by
  have hstart : start = start / pageSize * pageSize :=
    (Nat.div_mul_cancel (Nat.dvd_of_mod_eq_zero haligned)).symm
  have hpos : 0 < pageSize := by decide
  rw [PageBlock.addrs_mk, Set.mem_Ico, blockSize]
  constructor
  · rintro ⟨hlo, hhi⟩
    rw [hstart, ← Nat.add_mul] at hhi
    rw [hstart] at hlo
    exact ⟨Nat.le_of_mul_le_mul_right hlo hpos, Nat.lt_of_mul_lt_mul_right hhi⟩
  · rintro ⟨hlo, hhi⟩
    constructor
    · rw [hstart]
      exact Nat.mul_le_mul_right _ hlo
    · rw [hstart, ← Nat.add_mul]
      exact Nat.mul_lt_mul_of_pos_right hhi hpos

/-! ## Runs of the allocator -/

/-- The allocator and the blocks that callers hold. -/
structure PfaState where
  pfa : Pfa
  live : List PageBlock

/-- The calls a run is made of, with the address an allocation returned. -/
inductive PfaOp where
  | alloc (order address : Nat)
  | free (block : PageBlock)
deriving DecidableEq, Repr

/-- An allocation that returns, or the release of a block that is held. -/
inductive PfaStep : PfaState → PfaOp → PfaState → Prop
  | alloc {s : PfaState} {order address : Nat} {pfa : Pfa} (horder : order < buddyMaxOrder)
      (hcall : mmuBlockAlloc s.pfa .normal order = .ok (address, pfa)) :
      PfaStep s (.alloc order address) ⟨pfa, ⟨address, order⟩ :: s.live⟩
  | free {s : PfaState} {block : PageBlock} (hheld : block ∈ s.live) :
      PfaStep s (.free block)
        ⟨(mmuBlockFree s.pfa block.start block.order).2, s.live.erase block⟩

/-- The bytes of a list of blocks. -/
def bytesOf (blocks : List PageBlock) : Set Nat :=
  covered (blocks.map PageBlock.addrs)

theorem bytesOf_perm {left right : List PageBlock} (h : left.Perm right) :
    bytesOf left = bytesOf right :=
  covered_perm (h.map _)

theorem bytesOf_append (left right : List PageBlock) :
    bytesOf (left ++ right) = bytesOf left ∪ bytesOf right := by
  rw [bytesOf, List.map_append, covered_append]
  rfl

theorem bytesOf_cons (block : PageBlock) (blocks : List PageBlock) :
    bytesOf (block :: blocks) = block.addrs ∪ bytesOf blocks := by
  rw [bytesOf, List.map_cons, covered_cons]
  rfl

/-- The page array marks the pages of a region free exactly inside `free` and in
use exactly inside `held`. -/
def PageArray.Agrees (array : PageArray) (region free held : Set Nat) : Prop :=
  ∀ i, i * pageSize ∈ region →
    (array.typeOf i = some .free ↔ i * pageSize ∈ free) ∧
      (array.typeOf i = some .inUse ↔ i * pageSize ∈ held)

/-- The invariant of the allocator over the memory `region`. -/
structure PfaInv (region : Set Nat) (s : PfaState) : Prop where
  sized : ∀ o, ∀ b ∈ s.pfa.zoneNormal.blocks o, b.SizedFor o
  orders : ∀ block ∈ s.live, block.order < buddyMaxOrder
  aligned : ∀ block ∈ s.pfa.zoneNormal.free ++ s.live, pageAligned block.start
  inRange : ∀ block ∈ s.pfa.zoneNormal.free ++ s.live, mmZoneNormalStart ≤ block.start
  tiles : Tiles ((s.pfa.zoneNormal.free ++ s.live).map PageBlock.addrs) region
  marks : s.pfa.pageArray.Agrees region (bytesOf s.pfa.zoneNormal.free) (bytesOf s.live)

/-- A region whose pages all have an entry in the page array. -/
def Mapped (region : Set Nat) : Prop :=
  ∀ x ∈ region, x < pageArraySize * pageSize

theorem mapped_end {region : Set Nat} (hmapped : Mapped region) {block : PageBlock}
    (hsub : block.addrs ⊆ region) :
    block.start + blockSize block.order ≤ pageArraySize * pageSize := by
  have hpos := blockSize_pos block.order
  have hlast : block.start + blockSize block.order - 1 ∈ block.addrs := by
    rw [PageBlock.addrs, blockAddrs, Set.mem_Ico]
    omega
  have := hmapped _ (hsub hlast)
  omega

theorem mapped_page {region : Set Nat} (hmapped : Mapped region) {i : Nat}
    (hi : i * pageSize ∈ region) : i < pageArraySize :=
  Nat.lt_of_mul_lt_mul_right (hmapped _ hi)

/-- Marking one block of a mapped region. -/
theorem typeOf_addBlock {region : Set Nat} (hmapped : Mapped region) (array : PageArray)
    (type : MmPageType) {block : PageBlock} (haligned : pageAligned block.start)
    (hsub : block.addrs ⊆ region) {i : Nat} (hi : i * pageSize ∈ region) :
    (pageArrayAddBlock array type block.start block.order).typeOf i =
      if i * pageSize ∈ block.addrs then some type else array.typeOf i := by
  have hend := mapped_end hmapped hsub
  have hsize : pageArraySize = 699050 := by decide
  have hfit : block.start / pageSize + 2 ^ block.order ≤ 2 ^ 32 := by
    have hle : (block.start + blockSize block.order) / pageSize ≤ pageArraySize :=
      Nat.div_le_of_le_mul (by rw [Nat.mul_comm]; exact hend)
    rw [blockSize, Nat.add_mul_div_right _ _ (by decide : 0 < pageSize)] at hle
    omega
  rw [pageArrayAddBlock_typeOf array type hfit]
  have hmem := @mul_pageSize_mem_addrs block.start block.order i haligned
  by_cases hin : i * pageSize ∈ block.addrs
  · rw [if_pos (hmem.mp hin), if_pos hin, if_pos (mapped_page hmapped hi)]
  · rw [if_neg (fun h => hin (hmem.mpr h)), if_neg hin]

/-- The zone part of the invariant, in the form the allocation lemmas take. -/
theorem PfaInv.wellFormed {region : Set Nat} (hmapped : Mapped region) {s : PfaState}
    (h : PfaInv region s) : s.pfa.zoneNormal.WellFormed where
  sized := h.sized
  aligned block hblock := h.aligned block (List.mem_append_left _ hblock)
  inRange block hblock := h.inRange block (List.mem_append_left _ hblock)
  fits block hblock := by
    have hsub : block.addrs ⊆ region :=
      h.tiles.subset (List.mem_map_of_mem (List.mem_append_left _ hblock))
    have hend := mapped_end hmapped hsub
    have hbound : pageArraySize * pageSize < 2 ^ 64 := by decide
    omega

/-- Agreement survives moving one block from the free to the held pages. -/
theorem PageArray.Agrees.hold {region free held : Set Nat} {array : PageArray}
    (hmapped : Mapped region) (h : array.Agrees region free held) {block : PageBlock}
    (haligned : pageAligned block.start) (hsub : block.addrs ⊆ region) :
    (pageArrayAddBlock array .inUse block.start block.order).Agrees region
      (free \ block.addrs) (held ∪ block.addrs) := by
  intro i hi
  rw [typeOf_addBlock hmapped array _ haligned hsub hi]
  by_cases hin : i * pageSize ∈ block.addrs
  · simp [hin]
  · simpa [hin] using h i hi

/-- Agreement survives moving one block from the held to the free pages. -/
theorem PageArray.Agrees.release {region free held : Set Nat} {array : PageArray}
    (hmapped : Mapped region) (h : array.Agrees region free held) {block : PageBlock}
    (haligned : pageAligned block.start) (hsub : block.addrs ⊆ region) :
    (pageArrayAddBlock array .free block.start block.order).Agrees region
      (free ∪ block.addrs) (held \ block.addrs) := by
  intro i hi
  rw [typeOf_addBlock hmapped array _ haligned hsub hi]
  by_cases hin : i * pageSize ∈ block.addrs
  · simp [hin]
  · simpa [hin] using h i hi

/-- A piece that a tiling lists is disjoint from the bytes of the blocks that
stand elsewhere in the list. -/
theorem Tiles.disjoint_bytesOf {block : PageBlock} {blocks others : List PageBlock}
    {region : Set Nat} (h : Tiles ((block :: (others ++ blocks)).map PageBlock.addrs) region) :
    Disjoint block.addrs (bytesOf others) := by
  have hpair := h.disjoint
  rw [List.map_cons, List.pairwise_cons] at hpair
  refine disjoint_covered_iff.mpr ?_
  intro q hq
  refine hpair.1 q ?_
  rw [List.map_append]
  exact List.mem_append_left _ hq

theorem pfaStep_alloc_inv {region : Set Nat} (hmapped : Mapped region) {s : PfaState}
    {order address : Nat} {pfa : Pfa} (hinv : PfaInv region s)
    (horder : order < buddyMaxOrder)
    (hcall : mmuBlockAlloc s.pfa .normal order = .ok (address, pfa)) :
    PfaInv region ⟨pfa, ⟨address, order⟩ :: s.live⟩ := by
  obtain ⟨⟨source, hsource, parts, rest, htaken⟩, hmarks⟩ :=
    mmuBlockAlloc_spec (hinv.wellFormed hmapped) hcall
  let block : PageBlock := ⟨address, order⟩
  -- the free block is exchanged for the returned block and the filed parts
  have hnew : Tiles ((block :: parts ++ (rest ++ s.live)).map PageBlock.addrs) region := by
    have hold : Tiles ((source :: (rest ++ s.live)).map PageBlock.addrs) region :=
      hinv.tiles.perm ((htaken.before.append_right s.live).map _)
    rw [List.map_append]
    exact hold.refine htaken.tiles
  have hperm : (block :: parts ++ (rest ++ s.live)).Perm
      (pfa.zoneNormal.free ++ block :: s.live) := by
    have hfree : (parts ++ rest ++ block :: s.live).Perm
        (pfa.zoneNormal.free ++ block :: s.live) := htaken.after.symm.append_right _
    refine List.Perm.trans ?_ hfree
    rw [List.cons_append, ← List.append_assoc]
    exact (List.perm_middle).symm
  have hsub : block.addrs ⊆ region := hnew.subset (by simp)
  have haligned : pageAligned block.start := htaken.aligned block List.mem_cons_self
  have hsourceLow : mmZoneNormalStart ≤ source.start :=
    hinv.inRange source (List.mem_append_left _ hsource)
  -- every block of the new state is one of the cut pieces or was there before
  have hmem : ∀ b ∈ pfa.zoneNormal.free ++ block :: s.live,
      b ∈ block :: parts ∨ b ∈ s.pfa.zoneNormal.free ++ s.live := by
    intro b hb
    rcases List.mem_append.mp (hperm.mem_iff.mpr hb) with hb | hb
    · exact Or.inl hb
    · rcases List.mem_append.mp hb with hb | hb
      · exact Or.inr (List.mem_append_left _
          (htaken.before.mem_iff.mpr (List.mem_cons_of_mem _ hb)))
      · exact Or.inr (List.mem_append_right _ hb)
  have hfreeBytes : bytesOf pfa.zoneNormal.free = bytesOf s.pfa.zoneNormal.free \ block.addrs := by
    have hcut : bytesOf s.pfa.zoneNormal.free = bytesOf (block :: (parts ++ rest)) := by
      rw [bytesOf_perm htaken.before, bytesOf_cons, ← List.cons_append, bytesOf_append]
      exact congrArg (· ∪ bytesOf rest) htaken.tiles.cover.symm
    have hdisj : Disjoint block.addrs (bytesOf (parts ++ rest)) := by
      rw [List.cons_append, ← List.append_assoc] at hnew
      exact Tiles.disjoint_bytesOf hnew
    rw [hcut, bytesOf_perm htaken.after, bytesOf_cons block, Set.union_sdiff_left,
      hdisj.symm.sdiff_eq_left]
  have hliveBytes : bytesOf (block :: s.live) = bytesOf s.live ∪ block.addrs := by
    rw [bytesOf_cons, Set.union_comm]
  constructor
  · exact htaken.sized
  · intro b hb
    rcases List.mem_cons.mp hb with rfl | hb
    · exact horder
    · exact hinv.orders b hb
  · intro b hb
    rcases hmem b hb with hb | hb
    · exact htaken.aligned b hb
    · exact hinv.aligned b hb
  · intro b hb
    rcases hmem b hb with hb | hb
    · exact hsourceLow.trans (htaken.above b hb)
    · exact hinv.inRange b hb
  · exact hnew.perm (hperm.map _)
  · rw [hmarks, hfreeBytes, hliveBytes]
    exact hinv.marks.hold hmapped haligned hsub

theorem zoneAddBlock_free (zone : MmZone) {start order : Nat} (horder : order < buddyMaxOrder) :
    (zoneAddBlock zone start order).free.Perm (⟨start, order⟩ :: zone.free) :=
  zone.free_push horder _

/-- A held block of `zone_normal` goes back to `zone_normal`. -/
theorem mmuBlockFree_normal (pfa : Pfa) {block : PageBlock} (haligned : pageAligned block.start)
    (hlow : mmZoneNormalStart ≤ block.start)
    (hend : block.start + blockSize block.order ≤ pageArraySize * pageSize) :
    mmuBlockFree pfa block.start block.order =
      (none, { pfa with
        pageArray := pageArrayAddBlock pfa.pageArray .free block.start block.order
        zoneNormal := zoneAddBlock pfa.zoneNormal block.start block.order }) := by
  have hbound : pageArraySize * pageSize < 2 ^ 63 := by decide
  have hstop : u64 (block.start + blockSize block.order) =
      block.start + blockSize block.order := u64_eq_of_lt (by omega)
  have hzone : getZone block.start (u64 (block.start + blockSize block.order)) = some .normal := by
    unfold getZone mmZoneNormalEnd
    rw [hstop, if_neg (by omega), if_pos (by omega)]
  simp only [mmuBlockFree, haligned, not_true_eq_false, if_false, hzone]
  rfl

theorem pfaStep_free_inv {region : Set Nat} (hmapped : Mapped region) {s : PfaState}
    {block : PageBlock} (hinv : PfaInv region s) (hheld : block ∈ s.live) :
    PfaInv region
      ⟨(mmuBlockFree s.pfa block.start block.order).2, s.live.erase block⟩ := by
  have hall : block ∈ s.pfa.zoneNormal.free ++ s.live := List.mem_append_right _ hheld
  have haligned := hinv.aligned block hall
  have hlow := hinv.inRange block hall
  have horder := hinv.orders block hheld
  have hsub : block.addrs ⊆ region := hinv.tiles.subset (List.mem_map_of_mem hall)
  have hend := mapped_end hmapped hsub
  rw [mmuBlockFree_normal s.pfa haligned hlow hend]
  have hlive : s.live.Perm (block :: s.live.erase block) := List.perm_cons_erase hheld
  have hfree : (zoneAddBlock s.pfa.zoneNormal block.start block.order).free.Perm
      (block :: s.pfa.zoneNormal.free) := zoneAddBlock_free s.pfa.zoneNormal horder
  have hperm : (s.pfa.zoneNormal.free ++ s.live).Perm
      ((zoneAddBlock s.pfa.zoneNormal block.start block.order).free ++ s.live.erase block) :=
    ((hlive.append_left _).trans List.perm_middle).trans (hfree.symm.append_right _)
  have hpos := blockSize_pos block.order
  have hbound : pageArraySize * pageSize < 2 ^ 63 := by decide
  have hsized : (⟨block.start, u64 (block.start + blockSize block.order + 2 ^ 64 - 1)⟩ :
      MmBlock).SizedFor block.order := by
    unfold MmBlock.SizedFor u64
    simp only
    omega
  have hfreeBytes : bytesOf (zoneAddBlock s.pfa.zoneNormal block.start block.order).free =
      bytesOf s.pfa.zoneNormal.free ∪ block.addrs := by
    rw [bytesOf_perm hfree, bytesOf_cons, Set.union_comm]
  have hliveBytes : bytesOf (s.live.erase block) = bytesOf s.live \ block.addrs := by
    have htiles : Tiles ((block :: s.live.erase block ++ s.pfa.zoneNormal.free).map
        PageBlock.addrs) region :=
      hinv.tiles.perm ((List.perm_append_comm.trans (hlive.append_right _)).map _)
    rw [bytesOf_perm hlive, bytesOf_cons, Set.union_sdiff_left,
      (Tiles.disjoint_bytesOf htiles).symm.sdiff_eq_left]
  constructor
  · exact MmZone.push_sized hsized hinv.sized
  · exact fun b hb => hinv.orders b (List.mem_of_mem_erase hb)
  · exact fun b hb => hinv.aligned b (hperm.mem_iff.mpr hb)
  · exact fun b hb => hinv.inRange b (hperm.mem_iff.mpr hb)
  · exact hinv.tiles.perm (hperm.map _)
  · simp only [hfreeBytes, hliveBytes]
    exact hinv.marks.release hmapped haligned hsub

/-- Both operations keep the invariant. -/
theorem pfaStep_inv {region : Set Nat} (hmapped : Mapped region) {s t : PfaState} {op : PfaOp}
    (hinv : PfaInv region s) (hstep : PfaStep s op t) : PfaInv region t := by
  cases hstep with
  | alloc horder hcall => exact pfaStep_alloc_inv hmapped hinv horder hcall
  | free hheld => exact pfaStep_free_inv hmapped hinv hheld

/-! ## Conservation -/

/-- A first state in which nothing is held: the free blocks of `zone_normal` are
page aligned, pairwise disjoint and of the size of their order, and the page array
marks exactly their pages free. -/
structure PfaInitial (pfa : Pfa) : Prop where
  sized : ∀ o, ∀ b ∈ pfa.zoneNormal.blocks o, b.SizedFor o
  aligned : ∀ block ∈ pfa.zoneNormal.free, pageAligned block.start
  disjoint : (pfa.zoneNormal.free.map PageBlock.addrs).Pairwise Disjoint
  marks : pfa.pageArray.Agrees (bytesOf pfa.zoneNormal.free) (bytesOf pfa.zoneNormal.free) ∅

/-- What is conserved between the first state and a later one. -/
structure PfaConserved (pfa : Pfa) (s : PfaState) : Prop where
  /-- Free and held blocks are disjoint and make up the memory of the first state. -/
  tiles : Tiles ((s.pfa.zoneNormal.free ++ s.live).map PageBlock.addrs)
    (bytesOf pfa.zoneNormal.free)
  /-- The page array tells free from held pages. -/
  marks : s.pfa.pageArray.Agrees (bytesOf pfa.zoneNormal.free)
    (bytesOf s.pfa.zoneNormal.free) (bytesOf s.live)
  /-- An allocation returns whole pages of one block that is free before it. -/
  source : ∀ order address pfa', order < buddyMaxOrder →
    mmuBlockAlloc s.pfa .normal order = .ok (address, pfa') →
    pageAligned address ∧ ∃ source ∈ s.pfa.zoneNormal.free,
      blockAddrs address order ⊆ source.addrs

/-- Agreement means that the array has an entry for every page. -/
theorem PfaInitial.mapped {pfa : Pfa} (h : PfaInitial pfa) :
    Mapped (bytesOf pfa.zoneNormal.free) := by
  intro x hx
  obtain ⟨p, hp, hxp⟩ := hx
  obtain ⟨block, hblock, rfl⟩ := List.mem_map.mp hp
  have haligned := h.aligned block hblock
  have hpage : x / pageSize * pageSize ∈ block.addrs := by
    have hxp' : block.start ≤ x ∧ x < block.start + blockSize block.order := hxp
    refine ⟨?_, (Nat.div_mul_le_self x pageSize).trans_lt hxp'.2⟩
    unfold pageAligned pageSize at *
    omega
  have hmem : x / pageSize * pageSize ∈ bytesOf pfa.zoneNormal.free := ⟨_, hp, hpage⟩
  have hlt := PageArray.lt_of_typeOf (((h.marks _ hmem).1).mpr hmem)
  unfold pageSize at *
  omega

theorem PfaInitial.inv {pfa : Pfa} (h : PfaInitial pfa)
    (hrange : ∀ block ∈ pfa.zoneNormal.free, mmZoneNormalStart ≤ block.start) :
    PfaInv (bytesOf pfa.zoneNormal.free) ⟨pfa, []⟩ where
  sized := h.sized
  orders := by simp
  aligned := by simpa using h.aligned
  inRange := by simpa using hrange
  tiles := by simpa using ⟨h.disjoint, rfl⟩
  marks := by simpa [bytesOf] using h.marks

/-- From any first state whose free blocks lie in the address range of
`zone_normal`, every run conserves the page frames. -/
theorem pfa_conservation {pfa : Pfa} {ops : List PfaOp} {s : PfaState} (hinit : PfaInitial pfa)
    (hrange : ∀ block ∈ pfa.zoneNormal.free, mmZoneNormalStart ≤ block.start)
    (hrun : Run PfaStep ⟨pfa, []⟩ ops s) : PfaConserved pfa s := by
  have hmapped := hinit.mapped
  have hinv : PfaInv (bytesOf pfa.zoneNormal.free) s :=
    hrun.invariant _ (fun _ _ _ h hstep => pfaStep_inv hmapped h hstep) (hinit.inv hrange)
  refine ⟨hinv.tiles, hinv.marks, ?_⟩
  intro order address pfa' _ hcall
  obtain ⟨⟨source, hsource, parts, rest, htaken⟩, -⟩ :=
    mmuBlockAlloc_spec (hinv.wellFormed hmapped) hcall
  refine ⟨htaken.aligned _ List.mem_cons_self, source, hsource, ?_⟩
  exact htaken.tiles.subset (p := blockAddrs address order) (by simp [PageBlock.addrs])

/-! ## Small first states -/

/-- A zone as `mmu_zones_init` leaves it before memory is claimed. -/
def emptyZone : MmZone := ⟨0, fun _ => []⟩

/-- A page array that marks every page free. -/
def freePageArray : PageArray where
  pages := Array.replicate pageArraySize ⟨.free, 0, true⟩
  size_eq := by simp

/-- An allocator whose `zone_normal` holds one free block. -/
def oneBlockPfa (start order : Nat) : Pfa where
  zoneDma := emptyZone
  zoneNormal := zoneAddBlock emptyZone start order
  zoneHigh := emptyZone
  pageArray := freePageArray

theorem freePageArray_typeOf {i : Nat} (hi : i < pageArraySize) :
    freePageArray.typeOf i = some .free := by
  simp [PageArray.typeOf, PageArray.get?, freePageArray, hi]

theorem oneBlockPfa_free {start order : Nat} (horder : order < buddyMaxOrder) :
    (oneBlockPfa start order).zoneNormal.free = [⟨start, order⟩] := by
  have hempty : emptyZone.free = [] := by simp [MmZone.free, emptyZone]
  have hperm : (oneBlockPfa start order).zoneNormal.free.Perm (⟨start, order⟩ :: emptyZone.free) :=
    zoneAddBlock_free emptyZone horder
  rw [hempty] at hperm
  exact List.perm_singleton.mp hperm

theorem oneBlockPfa_initial {start order : Nat} (horder : order < buddyMaxOrder)
    (haligned : pageAligned start) (hend : start + blockSize order ≤ pageArraySize * pageSize) :
    PfaInitial (oneBlockPfa start order) := by
  have hfree : (oneBlockPfa start order).zoneNormal.free = [⟨start, order⟩] :=
    oneBlockPfa_free horder
  have hpos := blockSize_pos order
  have hbound : pageArraySize * pageSize < 2 ^ 63 := by decide
  constructor
  · refine MmZone.push_sized ?_ (by simp [emptyZone])
    unfold MmBlock.SizedFor u64
    simp only
    omega
  · simpa [hfree] using haligned
  · simp [hfree]
  · intro i hi
    rw [hfree] at hi ⊢
    have hlt : i < pageArraySize := by
      simp only [bytesOf, List.map_cons, List.map_nil, covered_cons, covered_nil,
        Set.union_empty, PageBlock.addrs_mk, Set.mem_Ico] at hi
      exact Nat.lt_of_mul_lt_mul_right (hi.2.trans_le hend)
    have htype : (oneBlockPfa start order).pageArray.typeOf i = some .free :=
      freePageArray_typeOf hlt
    simp [htype, hi]

/-- Two pages at 16 MiB, of which one is allocated: conservation at work. -/
theorem pfa_conservation_one_page :
    ∃ s, Run PfaStep ⟨oneBlockPfa 0x1000000 1, []⟩ [.alloc 0 0x1001000] s ∧
      s.live = [⟨0x1001000, 0⟩] ∧ PfaConserved (oneBlockPfa 0x1000000 1) s := by
  have hrun : Run PfaStep ⟨oneBlockPfa 0x1000000 1, []⟩ ([] ++ [.alloc 0 0x1001000])
      ⟨_, [⟨0x1001000, 0⟩]⟩ :=
    .snoc .nil (.alloc (by decide) rfl)
  refine ⟨_, hrun, rfl, pfa_conservation ?_ ?_ hrun⟩
  · exact oneBlockPfa_initial (by decide) (by decide) (by decide)
  · rw [oneBlockPfa_free (by decide)]
    simp [mmZoneNormalStart]

/-- A free page just below 16 MiB is lost when it is released again: it is in no
zone's address range, so `mmu_block_free` refuses it. -/
theorem pfa_loses_page_below_zone :
    PfaInitial (oneBlockPfa 0xfff000 0) ∧
      ∃ s, Run PfaStep ⟨oneBlockPfa 0xfff000 0, []⟩
          [.alloc 0 0xfff000, .free ⟨0xfff000, 0⟩] s ∧
        ¬ PfaConserved (oneBlockPfa 0xfff000 0) s := by
  refine ⟨oneBlockPfa_initial (by decide) (by decide) (by decide), ?_⟩
  have halloc : PfaStep ⟨oneBlockPfa 0xfff000 0, []⟩ (.alloc 0 0xfff000)
      ⟨_, [⟨0xfff000, 0⟩]⟩ := .alloc (by decide) rfl
  refine ⟨_, (Run.nil.snoc halloc).snoc (@PfaStep.free _ ⟨0xfff000, 0⟩ (by simp)), ?_⟩
  intro hconserved
  have hcover := hconserved.tiles.cover
  rw [oneBlockPfa_free (by decide)] at hcover
  -- nothing is free or held any more, but the page was free at first
  have hgone : (0xfff000 : Nat) ∈ covered (([] : List PageBlock).map PageBlock.addrs) := by
    refine hcover.symm ▸ ⟨_, List.mem_singleton.mpr rfl, ?_⟩
    exact ⟨le_rfl, Nat.lt_add_of_pos_right (blockSize_pos _)⟩
  simp at hgone

end Mm
end Micael
