import Micael.Foundation.Run
import Micael.Foundation.Tiling
import Micael.Mm.ClaimRange

/-!
# The page frame allocator

The free memory of a zone is kept in one list of blocks per order.  The lists of
`page.c` are doubly linked and null terminated, with a dummy first item in the
zone; only "insert after the dummy", "take the first" and "is it empty" are used,
so each of them is a list whose head is the first real block.  The descriptors
come from a slab cache: their allocation is assumed to succeed, and their
addresses are never compared, so a descriptor is its two fields.

The page array is the 16 MiB block that `mmu_zones_init` takes for it, seen as
`page_t` entries.  Locks are left out: every function here is called by one
thread and does not call itself through the slab allocator.
-/

namespace Micael
namespace Mm

open Foundation

/-! ## Zones -/

/-- `mm_block_t`, without its list node. -/
structure MmBlock where
  start : Nat
  stop : Nat
deriving DecidableEq, Repr

/-- `mm_zone_t`: the free blocks of every order. -/
structure MmZone where
  pageCount : Nat
  blocks : Nat → List MmBlock

/-- Replace the list of one order. -/
def MmZone.setOrder (zone : MmZone) (order : Nat) (list : List MmBlock) : MmZone :=
  { zone with blocks := Function.update zone.blocks order list }

@[simp]
theorem MmZone.setOrder_self (zone : MmZone) (order : Nat) (list : List MmBlock) :
    (zone.setOrder order list).blocks order = list := by
  simp [MmZone.setOrder]

theorem MmZone.setOrder_of_ne (zone : MmZone) {order o : Nat} (list : List MmBlock)
    (h : o ≠ order) : (zone.setOrder order list).blocks o = zone.blocks o := by
  simp [MmZone.setOrder, h]

/-- `list_append(&zone->blocks[order].list, &block->list)`: the block becomes the
first of its order. -/
def MmZone.push (zone : MmZone) (order : Nat) (block : MmBlock) : MmZone :=
  zone.setOrder order (block :: zone.blocks order)

/-- The part of `__zone_add_block` that files a block of memory. -/
def zoneAddBlock (zone : MmZone) (start order : Nat) : MmZone :=
  { zone.push order ⟨start, u64 (start + blockSize order + 2 ^ 64 - 1)⟩ with
    pageCount := u64 (zone.pageCount + 2 ^ order) }

/-- `__get_free_entry`: unlink the first block of an order.  An empty list makes
the code use the address zero as a block. -/
def getFreeEntry (zone : MmZone) (order : Nat) : Except Halt (MmBlock × MmZone) :=
  if order < buddyMaxOrder then
    match zone.blocks order with
    | [] => .error .fault
    | block :: rest => .ok (block, zone.setOrder order rest)
  else .error .kassert

/-- The loop of `__split_block`.  The second half of the block that was cut last
is cut again, its first half filed one order below, until the order asked for is
reached. -/
def splitLoop (reqOrder : Nat) : Nat → Nat → MmZone → Nat × MmZone
  | 0, splitStart, zone => (splitStart, zone)
  | splitOrder + 1, splitStart, zone =>
      if reqOrder = splitOrder + 1 then (splitStart, zone)
      else
        let next := u64 (splitStart + blockSize splitOrder)
        splitLoop reqOrder splitOrder next
          (zone.push splitOrder ⟨splitStart, u64 (next + 2 ^ 64 - 1)⟩)

/-- `__split_block`: cut the first block of `splitOrder` down to `reqOrder` and
return the start of the piece that is not filed. -/
def splitBlock (zone : MmZone) (reqOrder splitOrder : Nat) : Except Halt (Nat × MmZone) := do
  unless splitOrder ≠ 0 ∧ reqOrder < buddyMaxOrder do
    throw .kassert
  let (b, zone) ← getFreeEntry zone splitOrder
  let splitSize := blockSize (splitOrder - 1)
  let splitStart := u64 (b.start + splitSize)
  let zone := zone.push (splitOrder - 1) ⟨b.start, u64 (b.stop + 2 ^ 64 - splitSize)⟩
  pure (splitLoop reqOrder (splitOrder - 1) splitStart zone)

/-! ## The page array -/

/-- `page_t`, without its unused list node. -/
structure PageT where
  type : MmPageType
  order : Nat
  first : Bool
deriving DecidableEq, Repr

/-- The number of 24-byte `page_t` entries in a block of order 12. -/
def pageArraySize : Nat := blockSize 12 / 24

/-- The page array has the fixed size that `mmu_zones_init` gives it. -/
structure PageArray where
  pages : Array PageT
  size_eq : pages.size = pageArraySize

/-- One entry, if the array has it. -/
def PageArray.get? (array : PageArray) (pfn : Nat) : Option PageT :=
  array.pages[pfn]?

/-- Overwrite one entry.  Entries past the end are not part of the array. -/
def PageArray.set (array : PageArray) (pfn : Nat) (page : PageT) : PageArray where
  pages := array.pages.setIfInBounds pfn page
  size_eq := by simpa using array.size_eq

theorem PageArray.get?_set (array : PageArray) (pfn i : Nat) (page : PageT) :
    (array.set pfn page).get? i =
      if pfn = i then (if i < pageArraySize then some page else none) else array.get? i := by
  simp only [PageArray.get?, PageArray.set, Array.getElem?_setIfInBounds, array.size_eq]
  split
  · next h => rw [h]
  · rfl

/-- The loop of `__page_array_add_block` over the pages after the first. -/
def pageArrayLoop (type : MmPageType) (order pfn : Nat) : Nat → PageArray → PageArray
  | 0, array => array
  | n + 1, array =>
      (pageArrayLoop type order pfn n array).set (u32 (pfn + (n + 1))) ⟨type, order, false⟩

/-- `__page_array_add_block`. -/
def pageArrayAddBlock (array : PageArray) (type : MmPageType) (start order : Nat) : PageArray :=
  let pfn := u32 (start / 2 ^ pageShift)
  pageArrayLoop type order pfn (2 ^ order - 1) (array.set pfn ⟨type, order, true⟩)

/-! ## The allocator -/

/-- The static variables of `page.c`. -/
structure Pfa where
  zoneDma : MmZone
  zoneNormal : MmZone
  zoneHigh : MmZone
  pageArray : PageArray

/-- `__get_zone`. -/
def getZone (start stop : Nat) : Option MmZoneId :=
  if stop < mmZoneNormalStart then some .dma
  else if mmZoneNormalStart ≤ start ∧ stop < mmZoneNormalEnd then some .normal
  else if mmZoneNormalEnd ≤ start ∧ stop < mmZoneNormalEnd then some .high
  else none

def Pfa.zone (pfa : Pfa) : MmZoneId → MmZone
  | .dma => pfa.zoneDma
  | .normal => pfa.zoneNormal
  | .high => pfa.zoneHigh

def Pfa.setZone (pfa : Pfa) (id : MmZoneId) (zone : MmZone) : Pfa :=
  match id with
  | .dma => { pfa with zoneDma := zone }
  | .normal => { pfa with zoneNormal := zone }
  | .high => { pfa with zoneHigh := zone }

/-- The loop of `__alloc_mem` over the orders from `o` on, `n` of them left. -/
def allocMemLoop (zone : MmZone) (order : Nat) : Nat → Nat → Except Halt (Option Nat × MmZone)
  | 0, _ => .ok (none, zone)
  | n + 1, o =>
      if zone.blocks o = [] then allocMemLoop zone order n (o + 1)
      else if o = order then do
        let (b, zone) ← getFreeEntry zone o
        pure (some b.start, zone)
      else do
        let (start, zone) ← splitBlock zone order o
        pure (some start, zone)

/-- `__alloc_mem`.  Only `MM_ZONE_NORMAL`, whose value is 1, passes the assertion;
`none` is `INVALID_ADDRESS`. -/
def allocMem (pfa : Pfa) (memzone : MmZoneId) (order : Nat) : Except Halt (Option Nat × Pfa) :=
  if memzone ≠ .normal then .error .kassert
  else if buddyMaxOrder < order then .ok (none, pfa)
  else do
    let (address, zone) ← allocMemLoop pfa.zoneNormal order (buddyMaxOrder - order) order
    pure (address, { pfa with zoneNormal := zone })

/-- `mmu_block_alloc`. -/
def mmuBlockAlloc (pfa : Pfa) (memzone : MmZoneId) (order : Nat) : Except Halt (Nat × Pfa) := do
  let (address, pfa) ← allocMem pfa memzone order
  match address with
  | none => throw (.kpanic "out of memory")
  | some address =>
      pure (address, { pfa with
        pageArray := pageArrayAddBlock pfa.pageArray .inUse address order })

/-- `mmu_block_free`: the result code and the new state. -/
def mmuBlockFree (pfa : Pfa) (address order : Nat) : Option Errno × Pfa :=
  if ¬ pageAligned address then (some .einval, pfa)
  else
    match getZone address (u64 (address + blockSize order)) with
    | none => (some .enxio, pfa)
    | some id =>
        let pfa := { pfa with pageArray := pageArrayAddBlock pfa.pageArray .free address order }
        (none, pfa.setZone id (zoneAddBlock (pfa.zone id) address order))

end Mm
end Micael
