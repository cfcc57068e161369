import Micael.Mm.Bootmem
import Micael.Mm.PageConservation

/-!
# Memory that is handed out while the kernel boots

`mmu_init` gives the heap and the slab allocator their first pages from the boot memory allocator,
`mmu_heap_preinit` and `mmu_slab_preinit`, and then files the usable memory in the zones of the page
frame allocator, `mmu_zones_init`.

Two things go wrong.  `mmu_heap_preinit` asks for two pages, gets three marked, and uses four, so that
the slab's first page is the last one of the heap.  And `mmu_zones_init` asks for the map of the pages
that were used, `mmu_bootmem_release`, and then ignores it, so that they are filed as free memory.

The descriptors of the blocks come from the slab's pages: 128 fit in one.  When both are full, the
slab allocator takes a page from the zone that is being filled, if there is a single one; otherwise a
block would have to be split, which needs a descriptor, and the call waits for its own lock.  The boot
heap is taken to be large enough for the few objects of these calls, and the page array, which the
last step only writes to, is left out but for the block that it occupies.

Main results:

- Theorem {lit}`bootPages_cases`: where the pages of the heap and of the slab allocator come from.
- Theorem {lit}`zonesInit_covered`: what the zones hold and what was taken from them is together what
  the calls of `__claim_range` named.
- Theorem {lit}`boot_memory_once_iff`: the maps for which no page is handed out twice.
-/

namespace Micael
namespace Mm

open Foundation

/-! ## The first pages of the heap and of the slab allocator -/

/-- The addresses that the boot memory allocator gave the heap and the slab allocator. -/
structure BootPages where
  heap : Nat
  slab : Nat
  slab' : Nat
deriving DecidableEq, Repr

/-- `mmu_heap_preinit` and `mmu_slab_preinit`.  Without an arena the heap panics in the first
`kzalloc` of the slab allocator.  A missing page of the slab allocator is touched for the first
descriptor, in a part of the address space that is not mapped. -/
def bootPages (info : MemInfo) : Except Halt BootPages :=
  let heap := mmuBootmemAllocBlock info 2
  let slab := mmuBootmemAllocPage heap.2
  let slab' := mmuBootmemAllocPage slab.2
  if heap.1 = invalidAddress then
    .error (.kpanic "__alloc_arena() not implemented for booting!")
  else if slab.1 = invalidAddress ∨ slab'.1 = invalidAddress then .error .hang
  else .ok ⟨heap.1, slab.1, slab'.1⟩

/-- Some pages. -/
def pagesAt (addr npages : Nat) : Set Nat := Set.Ico addr (addr + pageSize * npages)

/-- The 16 KiB that `mmu_heap_preinit` makes the first arena. -/
def BootPages.heapArea (pages : BootPages) : Set Nat := pagesAt pages.heap 4

/-- All pages that the heap and the slab allocator use. -/
def BootPages.all (pages : BootPages) : Set Nat :=
  pages.heapArea ∪ pagesAt pages.slab 1 ∪ pagesAt pages.slab' 1

/-! ## Filling the zones -/

/-- A call of `__zone_add_block`: the zone and the block. -/
structure ZoneCall where
  zone : MmZoneId
  block : PageBlock
deriving DecidableEq, Repr

/-- The calls of `__zone_add_block` that a `__claim_range` makes for a zone. -/
def zoneCalls (zone : MmZoneId) (start stop : Nat) : List ZoneCall :=
  (claimRange start stop).map fun block => ⟨zone, block⟩

/-- The same for the result of `__get_zone`, if it is a zone. -/
def zoneCallsIn : Option MmZoneId → Nat → Nat → List ZoneCall
  | some zone, start, stop => zoneCalls zone start stop
  | none, _, _ => []

/-- `MM_ZONE_DMA_END`. -/
def mmZoneDmaEnd : Nat := mmZoneNormalStart

/-- The calls that `mmu_claim_range` makes. -/
def mmuClaimRange (address len : Nat) : List ZoneCall :=
  let stop := u64 (address + len)
  let inside := zoneCallsIn (getZone address stop) (roundUp address pageSize) (roundDown stop pageSize)
  if address < mmZoneNormalStart ∧ mmZoneDmaEnd < stop then
    inside ++ zoneCalls .dma (roundUp address pageSize) mmZoneDmaEnd ++
      zoneCalls .normal mmZoneNormalStart (roundDown stop pageSize)
  else inside

/-- `__claim_range_preinit`. -/
def claimRangePreinit (type : MultibootMemory) (address len : Nat) : List ZoneCall :=
  if type ≠ .available ∧ type ≠ .acpiReclaimable then [] else mmuClaimRange address len

/-- The zones, the descriptors that are left in the page that the block cache fills, the pages on the
slab allocator's list, and the blocks that the page frame allocator gave away. -/
structure ZoneBoot where
  zones : MmZoneId → MmZone
  spare : Nat
  reserve : List Nat
  handed : List PageBlock

/-- The items of the size of a `mm_block_t` in a page. -/
def descriptorsPerPage : Nat := pageSize / 32

/-- `alloc_fixed_entry` for the block cache, under the lock of the cache: a page of the list, or
`mmu_page_alloc`.  That frees the descriptor of the page for the next call; to split a larger block it
would need one. -/
def fixedPage (st : ZoneBoot) : Except Halt ZoneBoot :=
  match st.reserve with
  | _ :: rest => .ok { st with reserve := rest, spare := st.spare + descriptorsPerPage }
  | [] =>
      match (st.zones .normal).blocks 0 with
      | b :: rest =>
          .ok
            { zones := Function.update st.zones .normal ((st.zones .normal).setOrder 0 rest)
              spare := st.spare + descriptorsPerPage + 1
              reserve := []
              handed := ⟨b.start, 0⟩ :: st.handed }
      | [] =>
          if (st.zones .normal).free = [] then .error (.kpanic "out of memory") else .error .hang

/-- `mmu_cache_alloc_entry` of the block cache. -/
def newDescriptor (st : ZoneBoot) : Except Halt ZoneBoot :=
  (if 0 < st.spare then .ok st else fixedPage st).map fun st => { st with spare := st.spare - 1 }

/-- `__zone_add_block`. -/
def bootAddBlock (st : ZoneBoot) (call : ZoneCall) : Except Halt ZoneBoot :=
  (newDescriptor st).map fun st =>
    { st with
      zones := Function.update st.zones call.zone
        (zoneAddBlock (st.zones call.zone) call.block.start call.block.order) }

/-- The first walk of `mmu_zones_init` over the memory map. -/
def claimZones (entries : List MmapEntry) (after : MmapEntry) (st : ZoneBoot) :
    Except Halt ZoneBoot :=
  multiboot2MapMemory entries after
    (fun st type address len =>
      st >>= (claimRangePreinit type address len).foldlM bootAddBlock) (.ok st)

/-- The order of the page array. -/
def pageArrayOrder : Nat := 12

/-- The descriptors that `__split_block` draws for the page array, with the lock of the zone held. -/
def splitDescriptors (zone : MmZone) : Nat :=
  match (List.range' pageArrayOrder (buddyMaxOrder - pageArrayOrder)).find? fun o =>
    zone.blocks o ≠ [] with
  | some o => o - pageArrayOrder - 1
  | none => 0

/-- `__alloc_mem` for the page array; the descriptors that are left then are not followed. -/
def allocPageArray (st : ZoneBoot) : Except Halt ZoneBoot :=
  if st.spare + descriptorsPerPage * st.reserve.length < splitDescriptors (st.zones .normal) then
    .error .hang
  else
    allocMemLoop (st.zones .normal) pageArrayOrder (buddyMaxOrder - pageArrayOrder) pageArrayOrder
      >>= fun done =>
        match done.1 with
        | none => .error (.kpanic "failed to allocate memory for page array")
        | some address =>
            .ok { st with
              zones := Function.update st.zones .normal done.2
              handed := ⟨address, pageArrayOrder⟩ :: st.handed }

/-- The zones at the start of `mmu_zones_init`; the slab allocator's list holds its pages, the last one
first. -/
def emptyZones (pages : BootPages) : ZoneBoot where
  zones _ := ⟨0, fun _ => []⟩
  spare := 0
  reserve := [pages.slab', pages.slab]
  handed := []

/-- `mmu_zones_init`. -/
def mmuZonesInit (entries : List MmapEntry) (after : MmapEntry) (pages : BootPages) :
    Except Halt ZoneBoot :=
  claimZones entries after (emptyZones pages) >>= allocPageArray

/-- The parts of `mmu_init` up to `mmu_zones_init`. -/
def mmuInit (info : MemInfo) (entries : List MmapEntry) (after : MmapEntry) :
    Except Halt (BootPages × ZoneBoot) :=
  bootPages (mmuBootmemInit info entries after) >>= fun pages =>
    (mmuZonesInit entries after pages).map fun st => (pages, st)

/-! ## What is handed out once -/

/-- The addresses of a block that may reach over the end of the address space. -/
def PageBlock.ring (block : PageBlock) : Set Nat :=
  { x | x < 2 ^ 64 ∧ u64 (x + 2 ^ 64 - u64 block.start) < blockSize block.order }

/-- The heap area and the slab allocator's pages are disjoint, and none of them is filed as free memory
or given away by the page frame allocator. -/
structure BootMemoryOnce (pages : BootPages) (st : ZoneBoot) : Prop where
  heap_slab : Disjoint pages.heapArea (pagesAt pages.slab 1)
  heap_slab' : Disjoint pages.heapArea (pagesAt pages.slab' 1)
  slab_slab' : Disjoint (pagesAt pages.slab 1) (pagesAt pages.slab' 1)
  not_free : ∀ zone, ∀ block ∈ (st.zones zone).free, Disjoint block.ring pages.all
  not_handed : ∀ block ∈ st.handed, Disjoint block.ring pages.all

/-- The calls of `__zone_add_block` for the entries of a map. -/
def mapCalls (visited : List MmapEntry) : List ZoneCall :=
  visited.flatMap fun entry =>
    claimRangePreinit entry.type (foldHalves entry.addr) (foldHalves entry.len)

/-- The ranges of the boot memory allocator that have a page. -/
def usedClaims (visited : List MmapEntry) : List BootClaim :=
  (bootmemClaims visited).filter fun claim => 0 < claim.free

/-- The first range has at most two pages, which with the two behind them are apart from the first two
pages of the second one, and no block of a zone meets these six pages. -/
def BootMapApart (visited : List MmapEntry) : Prop :=
  ∃ first second rest, usedClaims visited = first :: second :: rest ∧ first.free ≤ 3 ∧
    Disjoint (pagesAt first.start 4) (pagesAt second.start 2) ∧
    ∀ call ∈ mapCalls visited,
      Disjoint call.block.ring (pagesAt first.start 4 ∪ pagesAt second.start 2)

/-! ## Where the first pages come from -/

/-- The elements that pass a test, from the first one on. -/
theorem filter_eq_cons_of_first {α : Type} {p : α → Bool} {l : List α} {i : Nat}
    (hi : i < l.length) (hp : p l[i] = true)
    (hfirst : ∀ k (hk : k < l.length), k < i → p l[k] = false) :
    l.filter p = l[i] :: (l.drop (i + 1)).filter p := by
  have hnone : (l.take i).filter p = [] := by
    apply List.filter_eq_nil_iff.mpr
    intro a ha
    obtain ⟨k, hk, rfl⟩ := List.mem_iff_getElem.mp ha
    rw [List.length_take] at hk
    rw [List.getElem_take, hfirst k (by omega) (by omega)]
    exact Bool.false_ne_true
  calc
    l.filter p = (l.take i ++ l.drop i).filter p := by rw [List.take_append_drop]
    _ = (l.drop i).filter p := by rw [List.filter_append, hnone, List.nil_append]
    _ = l[i] :: (l.drop (i + 1)).filter p := by
        rw [List.drop_eq_getElem_cons hi, List.filter_cons_of_pos hp]

/-- The elements behind one of a list that pass a test, from the first one on. -/
theorem filter_drop_eq_cons {α : Type} {p : α → Bool} {l : List α} {i j : Nat} (hij : i < j)
    (hj : j < l.length) (hp : p l[j] = true)
    (hfirst : ∀ k (hk : k < l.length), i < k → k < j → p l[k] = false) :
    (l.drop (i + 1)).filter p = l[j] :: ((l.drop (i + 1)).drop (j - i - 1 + 1)).filter p := by
  have hindex : i + 1 + (j - i - 1) = j := by omega
  have hlen : j - i - 1 < (l.drop (i + 1)).length := by
    rw [List.length_drop]
    omega
  have hget : (l.drop (i + 1))[j - i - 1] = l[j] := by
    simp only [List.getElem_drop, hindex]
  rw [← hget]
  apply filter_eq_cons_of_first hlen
  · rw [hget]
    exact hp
  · intro k hk hlt
    rw [List.length_drop] at hk
    rw [List.getElem_drop]
    exact hfirst (i + 1 + k) (by omega) (by omega) (by omega)

/-- A range without pages, or with two at least. -/
theorem MmapEntry.claim_free {entry : MmapEntry} (hkept : entry.Kept) :
    entry.claim.free = 0 ∨ 2 ≤ entry.claim.free := by
  have hpages : 1 ≤ foldHalves entry.len / pageSize := Nat.div_pos hkept.2 (by decide)
  rw [MmapEntry.claim]
  dsimp only
  split
  · exact Or.inr (by omega)
  · exact Or.inl rfl

theorem bootmemClaims_free {visited : List MmapEntry} :
    ∀ claim ∈ bootmemClaims visited, claim.free = 0 ∨ 2 ≤ claim.free := by
  intro claim hclaim
  obtain ⟨entry, hentry, rfl⟩ := List.mem_map.mp hclaim
  have hkept := (List.mem_filter.mp (List.mem_of_mem_take hentry)).2
  exact MmapEntry.claim_free (by simpa using hkept)

section Pages

variable {info : MemInfo} {claims : List BootClaim} {next : Nat → Nat}

/-- A page that is not missing comes from the first range with one left. -/
theorem Tracks.takes_of_ne (htracks : Tracks info claims next) {npages : Nat} (hpos : 0 < npages)
    (hsome : (mmuBootmemAllocBlock info npages).1 ≠ invalidAddress) :
    ∃ j, ∃ hj : j < claims.length,
      (∀ k (hk : k < claims.length), k < j → claims[k].free < next k + npages) ∧
      TakesFrom claims next npages j hj (mmuBootmemAllocBlock info npages) := by
  rcases mmuBootmemAllocBlock_cases htracks hpos with htakes | ⟨hfail, -⟩
  · exact htakes
  · rw [hfail] at hsome
    exact absurd rfl hsome

/-- Where the pages of the heap and of the slab allocator come from: the heap's from the first range
that has pages, the slab allocator's from behind them, which is the heap area's last page, or from the
second such range. -/
theorem bootPages_cases (htracks : Tracks info claims fun _ => 0)
    (hfree : ∀ claim ∈ claims, claim.free = 0 ∨ 2 ≤ claim.free) {pages : BootPages}
    (h : bootPages info = .ok pages) :
    ∃ first rest, (claims.filter fun claim => 0 < claim.free) = first :: rest ∧
      pages.heap = first.start ∧
      ((4 ≤ first.free ∧ pages.slab = first.start + pageSize * 3) ∨
        (first.free ≤ 3 ∧ ∃ second rest', rest = second :: rest' ∧ pages.slab = second.start ∧
          pages.slab' = second.start + pageSize)) := by
  rw [bootPages] at h
  obtain ⟨hheap, h⟩ := guard_eq_ok.mp h
  obtain ⟨hslabs, h⟩ := guard_eq_ok.mp h
  rw [not_or] at hslabs
  obtain ⟨i, hi, hearlier, htakes⟩ := htracks.takes_of_ne (by decide) hheap
  obtain ⟨j, hj, hearlier', htakes'⟩ := htakes.tracks.takes_of_ne (by decide) hslabs.1
  obtain ⟨k, hk, hearlier'', htakes''⟩ := htakes'.tracks.takes_of_ne (by decide) hslabs.2
  obtain rfl := Except.ok.inj h
  have hself : advance (fun _ => 0) i 2 i = 3 := Function.update_self ..
  have hother : ∀ m, m ≠ i → advance (fun _ => 0) i 2 m = 0 := fun m hm =>
    Function.update_of_ne hm _ _
  have hfits : 2 ≤ claims[i].free := by simpa using htakes.fits
  have hnone : ∀ m (hm : m < claims.length), m < i → claims[m].free = 0 := by
    intro m hm hlt
    have := hearlier m hm hlt
    have := hfree _ (List.getElem_mem hm)
    omega
  have hfirst := filter_eq_cons_of_first (p := fun claim : BootClaim => 0 < claim.free) hi
    (by simpa using show 0 < claims[i].free by omega)
    (by
      intro m hm hlt
      simpa using hnone m hm hlt)
  refine ⟨claims[i], _, hfirst, ?_, ?_⟩
  · rw [htakes.addr_eq, Nat.mul_zero, Nat.add_zero]
  · have hfits' := htakes'.fits
    by_cases hji : j = i
    · subst hji
      rw [hself] at hfits'
      refine Or.inl ⟨hfits', ?_⟩
      have haddr := htakes'.addr_eq
      rw [hself] at haddr
      exact haddr
    · -- the first range is used up, and so the second one serves both calls
      rw [hother j hji] at hfits'
      have hij : i < j := by
        by_contra hle
        have := hnone j hj (by omega)
        omega
      have hsmall := hearlier' i hi hij
      rw [hself] at hsmall
      have hnone' : ∀ m (hm : m < claims.length), m < j → m ≠ i → claims[m].free = 0 := by
        intro m hm hlt hne
        have := hearlier' m hm hlt
        rw [hother m hne] at this
        omega
      have hsecond := filter_drop_eq_cons (p := fun claim : BootClaim => 0 < claim.free) hij hj
        (by simpa using show 0 < claims[j].free by omega)
        (by
          intro m hm hlt hlt'
          simpa using hnone' m hm hlt' (by omega))
      refine Or.inr ⟨by omega, claims[j], _, hsecond, ?_, ?_⟩
      · have haddr := htakes'.addr_eq
        rw [hother j hji, Nat.mul_zero, Nat.add_zero] at haddr
        exact haddr
      · have hfits'' := htakes''.fits
        have hself' : advance (advance (fun _ => 0) i 2) j 1 j = 1 := by
          unfold advance
          rw [Function.update_self, Function.update_of_ne hji]
          rfl
        have hother' : ∀ m, m ≠ j → advance (advance (fun _ => 0) i 2) j 1 m =
            advance (fun _ => 0) i 2 m := fun m hm => Function.update_of_ne hm _ _
        have hkj : k = j := by
          have hpages := hfree _ (List.getElem_mem hj)
          rcases Nat.lt_trichotomy k j with hlt | rfl | hgt
          · rw [hother' k hlt.ne] at hfits''
            by_cases hki : k = i
            · subst hki
              rw [hself] at hfits''
              omega
            · have := hnone' k hk hlt hki
              omega
          · rfl
          · have := hearlier'' j hj hgt
            rw [hself'] at this
            omega
        subst hkj
        have haddr := htakes''.addr_eq
        rw [hself', Nat.mul_one] at haddr
        exact haddr

end Pages

/-! ## What the zones hold -/

/-- An address is in a free block of a zone. -/
def MmZone.Covers (zone : MmZone) (x : Nat) : Prop := ∃ block ∈ zone.free, x ∈ block.ring

/-- An address is in a free block or in one that was given away. -/
def ZoneBoot.Covers (st : ZoneBoot) (x : Nat) : Prop :=
  (∃ zone, (st.zones zone).Covers x) ∨ ∃ block ∈ st.handed, x ∈ block.ring

section Zones

variable {zone zone' : MmZone} {st st' : ZoneBoot} {order start x : Nat}

/-- The two halves of a block. -/
theorem ring_halves (start : Nat) (horder : order < buddyMaxOrder) :
    x ∈ (⟨start, order + 1⟩ : PageBlock).ring ↔
      x ∈ (⟨start, order⟩ : PageBlock).ring ∨
        x ∈ (⟨u64 (start + blockSize order), order⟩ : PageBlock).ring := by
  have hsize : blockSize order ≤ 2 ^ 28 := by
    unfold buddyMaxOrder at horder
    have : 2 ^ order ≤ 2 ^ 16 := Nat.pow_le_pow_right (by decide) (by omega)
    unfold blockSize pageSize
    omega
  simp only [PageBlock.ring, Set.mem_ofPred_eq, blockSize_succ]
  generalize blockSize order = size at *
  unfold u64
  omega

theorem MmZone.covers_push (horder : order < buddyMaxOrder) (block : MmBlock) :
    (zone.push order block).Covers x ↔
      x ∈ (⟨block.start, order⟩ : PageBlock).ring ∨ zone.Covers x := by
  unfold MmZone.Covers
  simp only [(zone.free_push horder block).mem_iff, List.mem_cons, exists_eq_or_imp]

theorem MmZone.covers_pop (horder : order < buddyMaxOrder) {block : MmBlock} {rest : List MmBlock}
    (hblocks : zone.blocks order = block :: rest) :
    zone.Covers x ↔
      x ∈ (⟨block.start, order⟩ : PageBlock).ring ∨ (zone.setOrder order rest).Covers x := by
  unfold MmZone.Covers
  simp only [(zone.free_pop horder hblocks).mem_iff, List.mem_cons, exists_eq_or_imp]

/-- Splitting files what it does not return. -/
theorem splitLoop_covers {reqOrder splitOrder splitStart : Nat} (hle : reqOrder ≤ splitOrder)
    (hlt : splitOrder < buddyMaxOrder)
    (h : splitLoop reqOrder splitOrder splitStart zone = (start, zone')) :
    x ∈ (⟨start, reqOrder⟩ : PageBlock).ring ∨ zone'.Covers x ↔
      x ∈ (⟨splitStart, splitOrder⟩ : PageBlock).ring ∨ zone.Covers x := by
  induction splitOrder generalizing splitStart zone with
  | zero =>
      obtain rfl : reqOrder = 0 := by omega
      obtain ⟨rfl, rfl⟩ := Prod.mk.inj h
      rfl
  | succ splitOrder ih =>
      rw [splitLoop] at h
      by_cases hreq : reqOrder = splitOrder + 1
      · rw [if_pos hreq] at h
        obtain ⟨rfl, rfl⟩ := Prod.mk.inj h
        rw [hreq]
      · rw [if_neg hreq] at h
        rw [ih (by omega) (by omega) h, MmZone.covers_push (by omega),
          ring_halves splitStart (by omega), or_left_comm, or_assoc]

theorem splitBlock_covers {reqOrder splitOrder : Nat} (hlt : reqOrder < splitOrder)
    (h : splitBlock zone reqOrder splitOrder = .ok (start, zone')) :
    x ∈ (⟨start, reqOrder⟩ : PageBlock).ring ∨ zone'.Covers x ↔ zone.Covers x := by
  obtain ⟨half, b, list, rfl, horder, hblocks, h⟩ := splitBlock_ok h
  rw [splitLoop_covers (by omega) (by omega) h, MmZone.covers_push (by omega),
    MmZone.covers_pop horder hblocks, ring_halves b.start (by omega), or_assoc, or_left_comm]

/-- An allocation takes its block from the zone and leaves the rest. -/
theorem allocMemLoop_covers {n o : Nat} (hle : order ≤ o)
    (h : allocMemLoop zone order n o = .ok (some start, zone')) :
    x ∈ (⟨start, order⟩ : PageBlock).ring ∨ zone'.Covers x ↔ zone.Covers x := by
  rcases allocMemLoop_ok hle h with ⟨b, list, horder, hblocks, rfl, rfl⟩ | ⟨splitOrder, hlt, hsplit⟩
  · exact (MmZone.covers_pop horder hblocks).symm
  · exact splitBlock_covers hlt hsplit

/-! ## What the boot leaves -/

/-- A change of one zone. -/
theorem ZoneBoot.covers_update (id : MmZoneId) (zone : MmZone) (x : Nat) :
    (∃ z, (Function.update st.zones id zone z).Covers x) ↔
      zone.Covers x ∨ ∃ z, z ≠ id ∧ (st.zones z).Covers x := by
  constructor
  · rintro ⟨z, hz⟩
    by_cases hid : z = id
    · subst hid
      rw [Function.update_self] at hz
      exact Or.inl hz
    · rw [Function.update_of_ne hid] at hz
      exact Or.inr ⟨z, hid, hz⟩
  · rintro (hz | ⟨z, hid, hz⟩)
    · exact ⟨id, by rwa [Function.update_self]⟩
    · exact ⟨z, by rwa [Function.update_of_ne hid]⟩

theorem ZoneBoot.covers_split (st : ZoneBoot) (id : MmZoneId) (x : Nat) :
    (∃ z, (st.zones z).Covers x) ↔
      (st.zones id).Covers x ∨ ∃ z, z ≠ id ∧ (st.zones z).Covers x := by
  have h := st.covers_update id (st.zones id) x
  rwa [Function.update_eq_self] at h

/-- A block moves from a zone to what was given away. -/
theorem or_move {block zone zones handed : Prop} :
    (zone ∨ zones) ∨ block ∨ handed ↔ ((block ∨ zone) ∨ zones) ∨ handed := by
  tauto

/-- Taking a page for descriptors moves it from the zone to what was given away. -/
theorem fixedPage_covers (h : fixedPage st = .ok st') : st'.Covers x ↔ st.Covers x := by
  rw [fixedPage] at h
  split at h
  · obtain rfl := Except.ok.inj h
    rfl
  · split at h
    · next b rest hblocks =>
        obtain rfl := Except.ok.inj h
        unfold ZoneBoot.Covers
        simp only [List.mem_cons, exists_eq_or_imp]
        rw [ZoneBoot.covers_update, st.covers_split .normal,
          MmZone.covers_pop (by decide) hblocks]
        exact or_move
    · split at h
      · cases h
      · cases h

theorem newDescriptor_covers (h : newDescriptor st = .ok st') : st'.Covers x ↔ st.Covers x := by
  rw [newDescriptor] at h
  obtain ⟨st₁, hpage, rfl⟩ := Halt.map_eq_ok.mp h
  by_cases hspare : 0 < st.spare
  · rw [if_pos hspare] at hpage
    obtain rfl := Except.ok.inj hpage
    rfl
  · rw [if_neg hspare] at hpage
    have hsame : st₁.Covers x ↔ st.Covers x := fixedPage_covers hpage
    exact hsame

theorem bootAddBlock_covers {call : ZoneCall} (horder : call.block.order < buddyMaxOrder)
    (h : bootAddBlock st call = .ok st') :
    st'.Covers x ↔ x ∈ call.block.ring ∨ st.Covers x := by
  rw [bootAddBlock] at h
  obtain ⟨st₁, hdesc, rfl⟩ := Halt.map_eq_ok.mp h
  have hpush : ∀ zone : MmZone,
      (zoneAddBlock zone call.block.start call.block.order).Covers x ↔
        x ∈ call.block.ring ∨ zone.Covers x :=
    fun zone => MmZone.covers_push horder _
  rw [← newDescriptor_covers hdesc]
  unfold ZoneBoot.Covers
  rw [ZoneBoot.covers_update, hpush, st₁.covers_split call.zone, or_assoc, or_assoc, or_assoc]

theorem foldlM_bootAddBlock_covers {calls : List ZoneCall}
    (horder : ∀ call ∈ calls, call.block.order < buddyMaxOrder)
    (h : calls.foldlM bootAddBlock st = .ok st') :
    st'.Covers x ↔ (∃ call ∈ calls, x ∈ call.block.ring) ∨ st.Covers x := by
  induction calls generalizing st with
  | nil =>
      obtain rfl := Except.ok.inj h
      simp
  | cons call calls ih =>
      rw [List.foldlM_cons] at h
      obtain ⟨st₁, hcall, hrest⟩ := Halt.bind_eq_ok.mp h
      rw [ih (fun c hc => horder c (List.mem_cons_of_mem _ hc)) hrest,
        bootAddBlock_covers (horder call List.mem_cons_self) hcall]
      simp only [List.mem_cons, exists_eq_or_imp]
      rw [or_left_comm, or_assoc]

/-- The walk over the map makes the calls of its entries, one after the other. -/
theorem claimZones_eq (entries : List MmapEntry) (after : MmapEntry) (st : ZoneBoot) :
    claimZones entries after st = (mapCalls (mmapVisited entries after)).foldlM bootAddBlock st := by
  unfold claimZones multiboot2MapMemory
  have hfold : ∀ (visited : List MmapEntry) (acc : Except Halt ZoneBoot),
      visited.foldl (fun s entry => if entry.type = .other then s else
        s >>= (claimRangePreinit entry.type (foldHalves entry.addr)
          (foldHalves entry.len)).foldlM bootAddBlock) acc =
        acc >>= (mapCalls visited).foldlM bootAddBlock := by
    intro visited
    induction visited with
    | nil =>
        intro acc
        cases acc with
        | error e => rfl
        | ok st => rfl
    | cons entry visited ih =>
        intro acc
        have hcalls : mapCalls (entry :: visited) = claimRangePreinit entry.type
            (foldHalves entry.addr) (foldHalves entry.len) ++ mapCalls visited := rfl
        rw [List.foldl_cons, ih, hcalls]
        cases acc with
        | error e =>
            split
            · rfl
            · rfl
        | ok st =>
            split
            · next hother =>
                have hnone : claimRangePreinit entry.type (foldHalves entry.addr)
                    (foldHalves entry.len) = [] := by
                  rw [hother]
                  rfl
                rw [hnone]
                rfl
            · rw [Halt.ok_bind, Halt.ok_bind, List.foldlM_append]
  exact hfold _ (.ok st)

theorem zoneCalls_order {id : MmZoneId} {start stop : Nat} :
    ∀ call ∈ zoneCalls id start stop, call.block.order < buddyMaxOrder := by
  intro call hcall
  obtain ⟨block, hblock, rfl⟩ := List.mem_map.mp hcall
  rw [claimRange] at hblock
  split at hblock
  · cases hblock
  · exact claimOrders_order_lt block hblock

theorem zoneCallsIn_order {id : Option MmZoneId} {start stop : Nat} :
    ∀ call ∈ zoneCallsIn id start stop, call.block.order < buddyMaxOrder := by
  cases id with
  | none =>
      intro call hcall
      cases hcall
  | some id => exact zoneCalls_order

theorem mapCalls_order {visited : List MmapEntry} :
    ∀ call ∈ mapCalls visited, call.block.order < buddyMaxOrder := by
  intro call hcall
  obtain ⟨entry, -, hcall⟩ := List.mem_flatMap.mp hcall
  rw [claimRangePreinit] at hcall
  split at hcall
  · cases hcall
  · rw [mmuClaimRange] at hcall
    split at hcall
    · rcases List.mem_append.mp hcall with hleft | hright
      · rcases List.mem_append.mp hleft with hleft | hright
        · exact zoneCallsIn_order call hleft
        · exact zoneCalls_order call hright
      · exact zoneCalls_order call hright
    · exact zoneCallsIn_order call hcall

/-- The page array is taken from the normal zone. -/
theorem allocPageArray_covers (h : allocPageArray st = .ok st') :
    st'.Covers x ↔ st.Covers x := by
  rw [allocPageArray] at h
  obtain ⟨-, h⟩ := guard_eq_ok.mp h
  obtain ⟨⟨address, zone⟩, halloc, hlast⟩ := Halt.bind_eq_ok.mp h
  cases address with
  | none => cases hlast
  | some address =>
      obtain rfl := Except.ok.inj hlast
      unfold ZoneBoot.Covers
      simp only [List.mem_cons, exists_eq_or_imp]
      rw [ZoneBoot.covers_update, st.covers_split .normal, ← allocMemLoop_covers (le_refl _) halloc]
      exact or_move

/-- What the zones hold after `mmu_zones_init` and what was taken from them is together what the calls
of `__zone_add_block` named. -/
theorem zonesInit_covered {entries : List MmapEntry} {after : MmapEntry} {pages : BootPages}
    (h : mmuZonesInit entries after pages = .ok st) :
    st.Covers x ↔ ∃ call ∈ mapCalls (mmapVisited entries after), x ∈ call.block.ring := by
  rw [mmuZonesInit] at h
  obtain ⟨st₁, hclaim, halloc⟩ := Halt.bind_eq_ok.mp h
  rw [claimZones_eq] at hclaim
  rw [allocPageArray_covers halloc, foldlM_bootAddBlock_covers mapCalls_order hclaim]
  have hempty : ¬ (emptyZones pages).Covers x := by
    rintro (⟨zone, block, hblock, -⟩ | ⟨block, hblock, -⟩)
    · obtain ⟨-, b, hb, -⟩ := MmZone.mem_free.mp hblock
      cases hb
    · cases hblock
  rw [or_iff_left hempty]

end Zones

/-! ## The maps that are safe -/

/-- No free block and none that was given away meets a set of addresses. -/
theorem not_covers_iff {st : ZoneBoot} {area : Set Nat} :
    ((∀ zone, ∀ block ∈ (st.zones zone).free, Disjoint block.ring area) ∧
      ∀ block ∈ st.handed, Disjoint block.ring area) ↔ ∀ x ∈ area, ¬ st.Covers x := by
  constructor
  · rintro ⟨hfree, hhanded⟩ x hx (⟨zone, block, hblock, hmem⟩ | ⟨block, hblock, hmem⟩)
    · exact Set.disjoint_left.mp (hfree zone block hblock) hmem hx
    · exact Set.disjoint_left.mp (hhanded block hblock) hmem hx
  · intro h
    constructor
    · intro zone block hblock
      rw [Set.disjoint_left]
      intro x hmem hx
      exact h x hx (Or.inl ⟨zone, block, hblock, hmem⟩)
    · intro block hblock
      rw [Set.disjoint_left]
      intro x hmem hx
      exact h x hx (Or.inr ⟨block, hblock, hmem⟩)

theorem pagesAt_two (addr : Nat) :
    pagesAt addr 2 = pagesAt addr 1 ∪ pagesAt (addr + pageSize) 1 := by
  ext x
  simp only [pagesAt, Set.mem_union, Set.mem_Ico]
  omega

/-- The maps for which no page is handed out twice while the kernel boots. -/
theorem boot_memory_once_iff (info : MemInfo) (entries : List MmapEntry) (after : MmapEntry)
    (pages : BootPages) (st : ZoneBoot) (hboot : mmuInit info entries after = .ok (pages, st)) :
    BootMemoryOnce pages st ↔ BootMapApart (mmapVisited entries after) := by
  rw [mmuInit] at hboot
  obtain ⟨pages', hpages, hrest⟩ := Halt.bind_eq_ok.mp hboot
  obtain ⟨st', hzones, heq⟩ := Halt.map_eq_ok.mp hrest
  obtain ⟨rfl, rfl⟩ := Prod.mk.inj heq
  have hcover : ∀ x, st'.Covers x ↔ ∃ call ∈ mapCalls (mmapVisited entries after),
      x ∈ call.block.ring := fun x => zonesInit_covered hzones
  obtain ⟨first, rest, hclaims, hheap, hslab⟩ := bootPages_cases
    (mmuBootmemInit_tracks info entries after) bootmemClaims_free hpages
  rcases hslab with ⟨hlarge, hslab⟩ | ⟨hsmall, second, rest', rfl, hslab, hslab'⟩
  · -- the slab allocator's page is the last one of the heap area
    constructor
    · intro honce
      have hheapMem : first.start + pageSize * 3 ∈ pages'.heapArea := by
        rw [BootPages.heapArea, pagesAt, hheap, Set.mem_Ico]
        unfold pageSize
        omega
      have hslabMem : first.start + pageSize * 3 ∈ pagesAt pages'.slab 1 := by
        rw [pagesAt, hslab, Set.mem_Ico]
        unfold pageSize
        omega
      exact absurd hslabMem (Set.disjoint_left.mp honce.heap_slab hheapMem)
    · rintro ⟨first', second, rest', hclaims', hfew, -⟩
      rw [usedClaims, hclaims] at hclaims'
      obtain ⟨rfl, -⟩ := List.cons.inj hclaims'
      omega
  · have hall : pages'.all = pagesAt first.start 4 ∪ pagesAt second.start 2 := by
      rw [BootPages.all, BootPages.heapArea, hheap, hslab, hslab', pagesAt_two, Set.union_assoc]
    have hcalls : ((∀ zone, ∀ block ∈ (st'.zones zone).free, Disjoint block.ring pages'.all) ∧
        ∀ block ∈ st'.handed, Disjoint block.ring pages'.all) ↔
          ∀ call ∈ mapCalls (mmapVisited entries after),
            Disjoint call.block.ring (pagesAt first.start 4 ∪ pagesAt second.start 2) := by
      rw [not_covers_iff, hall]
      simp only [hcover, Set.disjoint_left]
      constructor
      · intro h call hcall x hx hmem
        exact h x hmem ⟨call, hcall, hx⟩
      · rintro h x hmem ⟨call, hcall, hx⟩
        exact h call hcall hx hmem
    have happart : Disjoint (pagesAt first.start 4) (pagesAt second.start 2) ↔
        Disjoint pages'.heapArea (pagesAt pages'.slab 1) ∧
          Disjoint pages'.heapArea (pagesAt pages'.slab' 1) := by
      rw [pagesAt_two, Set.disjoint_union_right, BootPages.heapArea, hheap, hslab, hslab']
    constructor
    · intro honce
      refine ⟨first, second, rest', hclaims, hsmall, ?_, ?_⟩
      · exact happart.mpr ⟨honce.heap_slab, honce.heap_slab'⟩
      · exact hcalls.mp ⟨honce.not_free, honce.not_handed⟩
    · rintro ⟨first', second', rest'', hclaims', -, hapart, hunclaimed⟩
      rw [usedClaims, hclaims] at hclaims'
      obtain ⟨rfl, hrest⟩ := List.cons.inj hclaims'
      obtain ⟨rfl, -⟩ := List.cons.inj hrest
      obtain ⟨hfree, hhanded⟩ := hcalls.mpr hunclaimed
      have hheaps := happart.mp hapart
      refine ⟨hheaps.1, hheaps.2, ?_, hfree, hhanded⟩
      rw [hslab, hslab', pagesAt, pagesAt, Set.disjoint_left]
      intro x hx hx'
      rw [Set.mem_Ico] at hx hx'
      omega

/-- The first pages for a map whose ranges are known. -/
theorem bootPages_eq {info : MemInfo} {claims : List BootClaim}
    (htracks : Tracks info claims fun _ => 0) {i j k : Nat} (hi : i < claims.length)
    (hj : j < claims.length) (hk : k < claims.length)
    (hheap : ∀ m (hm : m < claims.length), m < i → claims[m].free < 0 + 2)
    (hfits : 0 + 2 ≤ claims[i].free)
    (hslab : ∀ m (hm : m < claims.length), m < j →
      claims[m].free < advance (fun _ => 0) i 2 m + 1)
    (hfits' : advance (fun _ => 0) i 2 j + 1 ≤ claims[j].free)
    (hslab' : ∀ m (hm : m < claims.length), m < k →
      claims[m].free < advance (advance (fun _ => 0) i 2) j 1 m + 1)
    (hfits'' : advance (advance (fun _ => 0) i 2) j 1 k + 1 ≤ claims[k].free) :
    bootPages info = .ok
      ⟨claims[i].start, claims[j].start + pageSize * advance (fun _ => 0) i 2 j,
        claims[k].start + pageSize * advance (advance (fun _ => 0) i 2) j 1 k⟩ := by
  have htakes := htracks.takes (by decide) hi hheap hfits (Or.inr (by decide))
  have htakes' := htakes.tracks.takes (by decide) hj hslab hfits' (Or.inl rfl)
  have htakes'' := htakes'.tracks.takes (by decide) hk hslab' hfits'' (Or.inl rfl)
  have haddr := htracks.addr_lt hi (show 0 < claims[i].free by omega)
  have haddr' := htracks.addr_lt hj (show advance (fun _ => 0) i 2 j < claims[j].free by omega)
  have haddr'' := htracks.addr_lt hk
    (show advance (advance (fun _ => 0) i 2) j 1 k < claims[k].free by omega)
  rw [bootPages]
  unfold mmuBootmemAllocPage
  rw [htakes.addr_eq, htakes'.addr_eq, htakes''.addr_eq, if_neg haddr.ne,
    if_neg (not_or.mpr ⟨haddr'.ne, haddr''.ne⟩), Nat.mul_zero, Nat.add_zero]

/-- Two pages worth of usable memory that no zone gets: one page that ends at 16 MiB, and one that
starts in the middle of a page; and 32 MiB for the page array. -/
def oddMap : List MmapEntry :=
  [⟨0xfff000#64, 0x1000#64, .available⟩, ⟨0x2000800#64, 0x1000#64, .available⟩,
    ⟨0x4000000#64, 0x2000000#64, .available⟩]

/-- The map of a small PC: the lower memory, and the memory from 1 MiB to 128 MiB. -/
def usualMap : List MmapEntry :=
  [⟨0x0#64, 0x9f000#64, .available⟩, ⟨0x100000#64, 0x7f00000#64, .available⟩]

/-- What lies behind the tag is not read. -/
def afterMap : MmapEntry := ⟨0, 0, .other⟩

theorem oddMap_claims : bootmemClaims (mmapVisited oddMap afterMap) =
    [⟨0xfff000, 2⟩, ⟨0x2001000, 2⟩, ⟨0x4000000, 0⟩] := by decide

theorem usualMap_claims : bootmemClaims (mmapVisited usualMap afterMap) =
    [⟨0, 160⟩, ⟨0x100000, 0⟩] := by decide

theorem oddMap_pages : bootPages (mmuBootmemInit zeroMemInfo oddMap afterMap) =
    .ok ⟨0xfff000, 0x2001000, 0x2002000⟩ := by
  have htracks := mmuBootmemInit_tracks zeroMemInfo oddMap afterMap
  rw [oddMap_claims] at htracks
  exact bootPages_eq (i := 0) (j := 1) (k := 1) htracks (by decide) (by decide) (by decide)
    (by decide) (by decide) (by decide) (by decide) (by decide) (by decide)

theorem usualMap_pages : bootPages (mmuBootmemInit zeroMemInfo usualMap afterMap) =
    .ok ⟨0, 0x3000, 0x4000⟩ := by
  have htracks := mmuBootmemInit_tracks zeroMemInfo usualMap afterMap
  rw [usualMap_claims] at htracks
  exact bootPages_eq (i := 0) (j := 0) (k := 0) htracks (by decide) (by decide) (by decide)
    (by decide) (by decide) (by decide) (by decide) (by decide) (by decide)

/-- The boot of a map whose first pages are known. -/
theorem mmuInit_ok {info : MemInfo} {entries : List MmapEntry} {after : MmapEntry}
    {pages : BootPages} {st : ZoneBoot}
    (hpages : bootPages (mmuBootmemInit info entries after) = .ok pages)
    (hzones : mmuZonesInit entries after pages = .ok st) :
    mmuInit info entries after = .ok (pages, st) := by
  rw [mmuInit, hpages, Halt.ok_bind, hzones]
  rfl

theorem oddMap_boots : ∃ st, mmuZonesInit oddMap afterMap ⟨0xfff000, 0x2001000, 0x2002000⟩ = .ok st ∧
    (st.reserve.length == 1) = true :=
  Halt.exists_ok _ _ (by decide)

/-- The first block of the lower memory starts with the page that the heap starts with. -/
theorem usualMap_boots : ∃ st, mmuZonesInit usualMap afterMap ⟨0, 0x3000, 0x4000⟩ = .ok st ∧
    ((st.zones .dma).free.contains ⟨0, 7⟩) = true :=
  Halt.exists_ok _ _ (by decide)

theorem oddMap_calls : mapCalls (mmapVisited oddMap afterMap) = [⟨.normal, ⟨0x4000000, 13⟩⟩] := by
  decide

theorem oddMap_apart : BootMapApart (mmapVisited oddMap afterMap) := by
  refine ⟨⟨0xfff000, 2⟩, ⟨0x2001000, 2⟩, [], ?_, by decide, ?_, ?_⟩
  · rw [usedClaims, oddMap_claims]
    decide
  · rw [Set.disjoint_left]
    simp only [pagesAt, pageSize, Set.mem_Ico]
    intro x hx
    omega
  · rw [oddMap_calls, List.forall_mem_singleton, Set.disjoint_left]
    simp only [pagesAt, pageSize, PageBlock.ring, blockSize, u64, Set.mem_union, Set.mem_Ico,
      Set.mem_ofPred_eq]
    intro x hx
    omega

/-- A map for which the boot hands nothing out twice. -/
theorem oddMap_once : ∃ pages st, mmuInit zeroMemInfo oddMap afterMap = .ok (pages, st) ∧
    BootMemoryOnce pages st := by
  obtain ⟨st, hzones, -⟩ := oddMap_boots
  have hboot := mmuInit_ok oddMap_pages hzones
  exact ⟨_, st, hboot, (boot_memory_once_iff _ _ _ _ _ hboot).mpr oddMap_apart⟩

/-- On a usual map the slab allocator gets the last page of the heap, and the first page of the heap is
free memory of a zone. -/
theorem usualMap_twice : ∃ pages st, mmuInit zeroMemInfo usualMap afterMap = .ok (pages, st) ∧
    ¬ Disjoint pages.heapArea (pagesAt pages.slab 1) ∧
    (∃ zone, ∃ block ∈ (st.zones zone).free, ¬ Disjoint block.ring pages.heapArea) ∧
    ¬ BootMemoryOnce pages st := by
  obtain ⟨st, hzones, hfree⟩ := usualMap_boots
  have hoverlap : ¬ Disjoint (pagesAt 0 4) (pagesAt 0x3000 1) := by
    rw [Set.not_disjoint_iff]
    exact ⟨0x3000, ⟨by decide, by decide⟩, ⟨by decide, by decide⟩⟩
  refine ⟨_, st, mmuInit_ok usualMap_pages hzones, hoverlap, ?_, fun honce => hoverlap honce.heap_slab⟩
  refine ⟨.dma, ⟨0, 7⟩, List.contains_iff_mem.mp hfree, ?_⟩
  rw [Set.not_disjoint_iff]
  exact ⟨0, ⟨by decide, by decide⟩, ⟨by decide, by decide⟩⟩

end Mm
end Micael
