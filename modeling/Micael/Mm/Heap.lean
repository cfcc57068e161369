import Micael.Foundation.Memory
import Micael.Mm.Types

/-!
# The kernel heap

An arena is a block of page frames that is cut into chunks.  A chunk starts with a
packed header of 25 bytes (size, free flag, next, previous) that is followed by the
chunk's payload; both the chunk headers and the arena records live in memory, among
the data of the heap's users.

The model works on the bytes of memory.  What comes from outside the heap is an
argument: the entry that the slab allocator hands out for an arena record, whatever
that entry contains, and the block that `mmu_block_alloc` returns.  A walk over a
linked list that visits more pointers than there are addresses visits one twice and
does not end.

The heap carries two logs that the code does not have: the arenas it was given and
the payloads that `kmalloc` has returned and `kfree` has not got back.
-/

namespace Micael
namespace Mm

open Foundation

/-- `sizeof(mm_chunk_t)`. -/
def chunkHeaderSize : Nat := 25

/-- `sizeof(mm_arena_t)`. -/
def arenaRecordSize : Nat := 33

/-- `SPLIT_THRESHOLD`. -/
def splitThreshold : Nat := 8

/-- `HEAP_ARENA_SIZE`, the order of an arena's block. -/
def heapArenaSize : Nat := 2

/-- The number of pointers a walk over a list can follow without a repetition. -/
def walkFuel : Nat := 2 ^ 64

/-- `mm_chunk_t`. -/
structure MmChunk where
  size : Nat
  free : Bool
  next : Nat
  prev : Nat
deriving DecidableEq, Repr

/-- `mm_arena_t`, without the back pointer that nothing reads. -/
structure MmArena where
  size : Nat
  base : Nat
  lock : Nat
  next : Nat
deriving DecidableEq, Repr

/-- The chunk header at an address. -/
def readChunk (mem : Memory) (c : Nat) : MmChunk where
  size := mem.load c 8
  free := mem.load (c + 8) 1 != 0
  next := mem.load (c + 9) 8
  prev := mem.load (c + 17) 8

/-- The arena record at an address. -/
def readArena (mem : Memory) (a : Nat) : MmArena where
  size := mem.load a 8
  base := mem.load (a + 8) 8
  lock := mem.load (a + 16) 1
  next := mem.load (a + 17) 8

def setChunkSize (mem : Memory) (c v : Nat) : Memory := mem.store c 8 v
def setChunkFree (mem : Memory) (c : Nat) (v : Bool) : Memory := mem.store (c + 8) 1 v.toNat
def setChunkNext (mem : Memory) (c v : Nat) : Memory := mem.store (c + 9) 8 v
def setChunkPrev (mem : Memory) (c v : Nat) : Memory := mem.store (c + 17) 8 v

def setArenaSize (mem : Memory) (a v : Nat) : Memory := mem.store a 8 v
def setArenaBase (mem : Memory) (a v : Nat) : Memory := mem.store (a + 8) 8 v
def setArenaLock (mem : Memory) (a v : Nat) : Memory := mem.store (a + 16) 1 v
def setArenaNext (mem : Memory) (a v : Nat) : Memory := mem.store (a + 17) 8 v
def setArenaPrev (mem : Memory) (a v : Nat) : Memory := mem.store (a + 25) 8 v

/-- A payload that `kmalloc` has returned, with the size that was asked for. -/
structure Payload where
  start : Nat
  size : Nat
deriving DecidableEq, Repr

/-- An arena: the address of its record, and the block it was given. -/
structure ArenaBlock where
  record : Nat
  base : Nat
  size : Nat
deriving DecidableEq, Repr

/-- The heap: memory, the addresses of the records `__mem` and `__high_prio`, the flag
`initialized`, and the two logs. -/
structure Heap where
  mem : Memory
  memArena : Nat
  highPrio : Nat
  initialized : Bool
  arenas : List ArenaBlock
  live : List Payload

/-- `__split_block`. -/
def splitBlockAt (mem : Memory) (block size : Nat) : Memory :=
  if u64 ((readChunk mem block).size + 2 ^ 64 - size) < chunkHeaderSize + splitThreshold then mem
  else
    let new := u64 (block + chunkHeaderSize + size)
    let mem := setChunkSize mem new ((readChunk mem block).size - size - chunkHeaderSize)
    let mem := setChunkFree mem new true
    let mem := setChunkSize mem block size
    let mem :=
      if (readChunk mem block).next ≠ 0 then setChunkPrev mem (readChunk mem block).next new
      else mem
    let mem := setChunkNext mem new (readChunk mem block).next
    let mem := setChunkNext mem block new
    setChunkPrev mem new block

/-- The inner loop of `__find_free`; zero is the null pointer. -/
def findChunk (mem : Memory) (size : Nat) : Nat → Nat → Except Halt Nat
  | 0, _ => .error .hang
  | n + 1, block =>
      if block = 0 then .ok 0
      else if (readChunk mem block).free ∧ size ≤ (readChunk mem block).size then .ok block
      else findChunk mem size n (readChunk mem block).next

/-- The outer loop of `__find_free`: the chunk, or null, and memory.  A lock that is
already taken is never released. -/
def findFreeLoop (mem : Memory) (size : Nat) : Nat → Nat → Except Halt (Nat × Memory)
  | 0, _ => .error .hang
  | n + 1, iter =>
      if iter = 0 then .ok (0, mem)
      else if (readArena mem iter).lock ≠ 0 then .error .hang
      else
        match findChunk mem size walkFuel (readArena mem iter).base with
        | .error e => .error e
        | .ok block =>
            if block ≠ 0 then .ok (block, splitBlockAt mem block size)
            else findFreeLoop mem size n (readArena mem iter).next

/-- `__find_free`. -/
def findFree (mem : Memory) (arena size : Nat) : Except Halt (Nat × Memory) :=
  findFreeLoop mem size walkFuel arena

/-- The end of `kmalloc`: clear the payload if asked to, mark the chunk and log it. -/
def Heap.take (heap : Heap) (mem : Memory) (block size : Nat) (flags : MmFlags) : Heap :=
  let mem := if flags.zero then mem.fill (block + chunkHeaderSize) size 0 else mem
  { heap with
    mem := setChunkFree mem block false
    live := ⟨block + chunkHeaderSize, size⟩ :: heap.live }

/-- What `__alloc_arena` gets from outside the heap: the entry from the slab allocator, the
block from `mmu_block_alloc`, and whether the slab allocator was out of pages and
allocated a `cfe_t` of 40 bytes from the heap first. -/
structure ArenaGrant where
  record : Nat
  base : Nat
  slabEmpty : Bool
deriving DecidableEq, Repr

/-- The heap allocation that the slab allocator makes inside `__alloc_arena`.  If it had to grow the
heap itself, it would wait for the lock of the arena cache that is already held. -/
def slabGrow (heap : Heap) : Except Halt Heap :=
  match findFree heap.mem heap.memArena 40 with
  | .error e => .error e
  | .ok (block, mem) =>
      if block = 0 then .error .hang
      else
        let heap := heap.take mem block 40 ⟨false, false⟩
        .ok { heap with
          mem := heap.mem.fill (block + chunkHeaderSize) 40 0 }

/-- Write the record of a new arena and the header of its only chunk. -/
def initArena (mem : Memory) (record base order : Nat) : Memory :=
  let mem := setArenaBase mem record base
  let mem := setArenaSize mem record (blockSize order)
  let mem := setArenaLock mem record 0
  let mem := setChunkFree mem base true
  let mem := setChunkNext mem base 0
  let mem := setChunkPrev mem base 0
  setChunkSize mem base (blockSize order - chunkHeaderSize)

/-- The loop of `__alloc_arena` that looks for the last arena. -/
def lastArena (mem : Memory) : Nat → Nat → Except Halt Nat
  | 0, _ => .error .hang
  | n + 1, iter =>
      if (readArena mem iter).next = 0 then .ok iter
      else lastArena mem n (readArena mem iter).next

/-- The entry for the new arena's record, as far as getting it concerns the heap. -/
def arenaEntry (heap : Heap) (grant : ArenaGrant) : Except Halt Heap :=
  if grant.slabEmpty then slabGrow heap else .ok heap

/-- The rest of `__alloc_arena`.  The last arena is looked for and then not used: the new
arena becomes the second one. -/
def linkArena (heap : Heap) (grant : ArenaGrant) : Except Halt Heap :=
  let mem := initArena heap.mem grant.record grant.base heapArenaSize
  match lastArena mem walkFuel heap.memArena with
  | .error e => .error e
  | .ok _ =>
      if (readArena mem heap.memArena).lock ≠ 0 then .error .hang
      else
        let mem := setArenaNext mem heap.memArena grant.record
        let mem := setArenaPrev mem grant.record heap.memArena
        .ok { heap with
          mem := mem
          arenas := ⟨grant.record, grant.base, blockSize heapArenaSize⟩ :: heap.arenas }

/-- `__alloc_arena`. -/
def allocArena (heap : Heap) (grant : ArenaGrant) : Except Halt Heap :=
  if ¬ heap.initialized then .error (.kpanic "__alloc_arena() not implemented for booting!")
  else do
    let heap ← arenaEntry heap grant
    linkArena heap grant

/-- `kmalloc` when the first search found nothing. -/
def kmallocGrow (heap : Heap) (grant : ArenaGrant) (size : Nat) (flags : MmFlags) :
    Except Halt (Nat × Heap) :=
  if flags.highPrio then .error (.kpanic "high priority arena exhausted!")
  else do
    let heap ← allocArena heap grant
    let (block, mem) ← findFree heap.mem heap.memArena size
    if block = 0 then .error .kassert
    else pure (block + chunkHeaderSize, heap.take mem block size flags)

/-- `kmalloc`. -/
def kmalloc (heap : Heap) (grant : ArenaGrant) (size : Nat) (flags : MmFlags) :
    Except Halt (Nat × Heap) := do
  let (block, mem) ←
    findFree heap.mem (if flags.highPrio then heap.highPrio else heap.memArena) size
  if block ≠ 0 then pure (block + chunkHeaderSize, heap.take mem block size flags)
  else kmallocGrow heap grant size flags

/-- `kzalloc`. -/
def kzalloc (heap : Heap) (grant : ArenaGrant) (size : Nat) : Except Halt (Nat × Heap) := do
  let (p, heap) ← kmalloc heap grant size ⟨false, false⟩
  return (p, { heap with
    mem := heap.mem.fill p size 0 })

/-- `kfree`. -/
def kfree (heap : Heap) (p : Nat) : Heap :=
  { heap with
    mem := setChunkFree heap.mem (p - chunkHeaderSize) true
    live := heap.live.filter fun q => q.start ≠ p }

/-- The allocations of `mmu_cache_create`, which `mmu_heap_init` calls for the arena cache:
its `mm_cache_t`, and a `cfe_t` if the slab allocator has no page left. -/
def createArenaCache (heap : Heap) (grant : ArenaGrant) : Except Halt Heap := do
  let (_, heap) ← kzalloc heap grant 48
  if grant.slabEmpty then
    let (_, heap) ← kzalloc heap grant 40
    return heap
  return heap

/-- `mmu_heap_init` with the addresses of the two static arena records and the blocks that
`mmu_block_alloc` returned for them. -/
def mmuHeapInit (mem : Memory) (memRecord highRecord base hp : Nat) (slabEmpty : Bool) :
    Except Halt Heap := do
  let mem := initArena mem memRecord base heapArenaSize
  let mem := initArena mem highRecord hp 1
  let heap : Heap :=
    { mem := mem
      memArena := memRecord
      highPrio := highRecord
      initialized := false
      arenas := [⟨highRecord, hp, blockSize 1⟩, ⟨memRecord, base, blockSize heapArenaSize⟩]
      live := [] }
  let heap ← createArenaCache heap ⟨0, 0, slabEmpty⟩
  return { heap with
    initialized := true }

end Mm
end Micael
