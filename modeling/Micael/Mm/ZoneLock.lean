import Micael.Mm.BootInit
import Micael.Mm.Slab

/-!
# The lock of the normal zone

The page frame allocator keeps its block descriptors in a slab cache, the slab allocator takes pages
from the page frame allocator and small objects from the heap, and the heap takes an arena from the
page frame allocator and its record from a slab cache.  `__alloc_mem` and `__split_block` call the slab
allocator with the lock of the zone held.

Here the three allocators are one state and call each other as the source does.  A call that takes the
lock of the zone while it holds it ends in {lit}`Stop.relock`.  The locks of the caches and of
`alloc_fixed_entry` are part of the state as well; a call that waits for one of these, or that nests
deeper than it is allowed to, ends in a {lit}`Stop.halt`.

The heap is known by its chunks, in the order of the lists.  Blocks have the address of their
descriptor and their start.  The state logs every call of `mmu_block_alloc` that found the lock free,
with what it found.

Main results:

- Theorem {lit}`Closed.exec`: what every call keeps.
- Theorem {lit}`cacheFree_locked`, {lit}`cacheAlloc_locked`: the calls that are made with the lock
  held, and when they take it again.
- Theorem {lit}`blockAlloc_relock`: `mmu_block_alloc` takes its lock twice only when it was entered with
  too little in reserve.
- Theorem {lit}`zone_lock_taken_once`: in every run whose calls of `mmu_block_alloc` are entered with
  enough in reserve the lock is never taken twice.
- Theorem {lit}`boot_relocks`: a few calls after the boot it is.
-/

namespace Micael
namespace Mm

/-! ## The three allocators -/

/-- A free block: the address of its `mm_block_t`, and its start. -/
structure Descriptor where
  entry : Nat
  start : Nat
deriving DecidableEq, Repr

/-- A chunk of the heap. -/
structure HeapChunk where
  size : Nat
  free : Bool
deriving DecidableEq, Repr

/-- What a call of `mmu_block_alloc` found when it took the lock. -/
structure LockEntry where
  order : Nat
  highPrio : Bool
  /-- The smallest order with a block that is large enough. -/
  found : Option Nat
  /-- The descriptors that the block cache has without a new page from the page frame allocator. -/
  descriptors : Nat
  /-- The heap has a chunk for a `struct cache_free_chunk`. -/
  chunk : Bool
deriving DecidableEq, Repr

/-- The state of the page frame allocator, the slab allocator and the heap: the lock and the free
blocks of the normal zone; the caches with their locks, the lock of `alloc_fixed_entry` and the pages
on the slab allocator's list; the arenas behind `__mem`, the high-priority arena and `initialized`; and
the log. -/
structure MmState where
  lock : Bool
  blocks : Nat → List Descriptor
  caches : Nat → MmCache
  cacheLocks : Nat → Bool
  feLock : Bool
  reserve : List Nat
  arenas : List (List HeapChunk)
  highPrio : List HeapChunk
  initialized : Bool
  entered : List LockEntry

/-- `mm_block_cache`. -/
def blockCache : Nat := 0

/-- `arena_cache`. -/
def arenaCache : Nat := 1

/-- `sizeof(struct cache_free_chunk)`. -/
def freeChunkSize : Nat := 24

/-- `sizeof(cfe_t)`. -/
def cfeSize : Nat := 40

/-- `sizeof(mm_cache_t)`. -/
def cacheSize : Nat := 48

/-- `sizeof(mm_chunk_t)`, and that with `SPLIT_THRESHOLD`. -/
def chunkHeader : Nat := 25

def splitMinimum : Nat := 33

/-- `__find_free` in one arena, and the end of `kmalloc`. -/
def takeChunk (size : Nat) : List HeapChunk → Option (List HeapChunk)
  | [] => none
  | chunk :: rest =>
      if chunk.free ∧ size ≤ chunk.size then
        if chunk.size - size < splitMinimum then some (⟨chunk.size, false⟩ :: rest)
        else some (⟨size, false⟩ :: ⟨chunk.size - size - chunkHeader, true⟩ :: rest)
      else (takeChunk size rest).map (chunk :: ·)

/-- `__find_free` in a list of arenas. -/
def takeArenas (size : Nat) : List (List HeapChunk) → Option (List (List HeapChunk))
  | [] => none
  | arena :: rest =>
      match takeChunk size arena with
      | some arena => some (arena :: rest)
      | none => (takeArenas size rest).map (arena :: ·)

/-- The arenas after `__alloc_arena`: the new one becomes the second; what comes behind it is what the
`next` field of its record, which is not set, leads to. -/
def growArenas (stale : List (List HeapChunk)) : List (List HeapChunk) → List (List HeapChunk)
  | [] => []
  | arena :: _ => arena :: [⟨blockSize 2 - chunkHeader, true⟩] :: stale

/-- The smallest order from `order` on that has a block. -/
def firstOrder (blocks : Nat → List Descriptor) (order : Nat) : Option Nat :=
  (List.range' order (buddyMaxOrder - order)).find? fun o => blocks o ≠ []

/-- The entries of a cache that need no page. -/
def MmCache.ready (cache : MmCache) : Nat :=
  cache.freeChunks.length +
    match cache.freeList with
    | none => 0
    | some cfe => u64 cfe.numFree + 1

/-- The entries of the block cache that need no page of the page frame allocator. -/
def MmState.descriptors (st : MmState) : Nat :=
  (st.caches blockCache).ready + st.reserve.length * (pageSize / (st.caches blockCache).itemSize)

/-- How a call ends that does not return. -/
inductive Stop where
  /-- The call takes the lock of the zone while it holds it. -/
  | relock
  | halt (cause : Halt)
deriving DecidableEq, Repr

/-- A result and the state, or how the call ended and in which state. -/
abbrev Outcome : Type := Except (Stop × MmState) (Nat × MmState)

/-- The calls; a `kzalloc` is a `kmalloc` here, and `mmu_page_alloc` is a `mmu_block_alloc`.  Blocks
are asked for from the normal zone, all else fails an assertion. -/
inductive MmCall where
  | blockAlloc (order : Nat) (highPrio : Bool)
  | blockFree (address order : Nat)
  /-- A new cache, with its number. -/
  | cacheCreate (cache size : Nat)
  | cacheAlloc (cache : Nat)
  | cacheFree (cache entry : Nat) (highPrio : Bool)
  | kmalloc (size : Nat) (highPrio : Bool)
  /-- The chunk of an arena, by their numbers. -/
  | kfree (arena chunk : Nat)
  /-- `alloc_fixed_entry`, which is not called from outside. -/
  | fixedEntry
deriving DecidableEq, Repr

def MmState.setCache (st : MmState) (c : Nat) (cache : MmCache) : MmState :=
  { st with caches := Function.update st.caches c cache }

def MmState.setCacheLock (st : MmState) (c : Nat) (lock : Bool) : MmState :=
  { st with cacheLocks := Function.update st.cacheLocks c lock }

/-- Insert a block at the head of the list of its order. -/
def MmState.push (st : MmState) (order : Nat) (block : Descriptor) : MmState :=
  { st with blocks := Function.update st.blocks order (block :: st.blocks order) }

/-- What a `mmu_block_alloc` finds. -/
def MmState.lockEntry (st : MmState) (order : Nat) (highPrio : Bool) : LockEntry where
  order := order
  highPrio := highPrio
  found := firstOrder st.blocks order
  descriptors := st.descriptors
  chunk := (takeArenas freeChunkSize st.arenas).isSome

/-- Take the lock of the zone for a `mmu_block_alloc`, with the entry in the log. -/
def MmState.enter (st : MmState) (order : Nat) (highPrio : Bool) : MmState :=
  { st with lock := true, entered := st.entered ++ [st.lockEntry order highPrio] }

/-- Release the lock of the zone. -/
def MmState.release (st : MmState) : MmState := { st with lock := false }

/-- The slot of the page that the cache is filling. -/
def takeFromPage (st : MmState) (c : Nat) (cfe : CacheFixedEntry) : MmState :=
  (st.setCache c (takeSlot (st.caches c) cfe)).setCacheLock c false

/-- The loop of `__split_block`; `draw` gets a descriptor. -/
def splitDraw (draw : MmState → Outcome) (reqOrder : Nat) : Nat → Nat → MmState → Outcome
  | 0, splitStart, st => .ok (splitStart, st)
  | splitOrder + 1, splitStart, st =>
      if reqOrder = splitOrder + 1 then .ok (splitStart, st)
      else
        draw st >>= fun done =>
          splitDraw draw reqOrder splitOrder (u64 (splitStart + blockSize splitOrder))
            (done.2.push splitOrder ⟨done.1, splitStart⟩)

/-- A call that nests at most as deep as the number says.  `stale` is where an unset `next` field
leads, by the address of the record. -/
def exec (stale : Nat → List (List HeapChunk)) : Nat → MmCall → MmState → Outcome
  | 0, _, st => .error (.halt .hang, st)
  | n + 1, .kmalloc size highPrio, st =>
      if highPrio then
        match takeChunk size st.highPrio with
        | some arena => .ok (0, { st with highPrio := arena })
        | none => .error (.halt (.kpanic "high priority arena exhausted!"), st)
      else
        match takeArenas size st.arenas with
        | some arenas => .ok (0, { st with arenas := arenas })
        | none =>
            if ¬ st.initialized then
              .error (.halt (.kpanic "__alloc_arena() not implemented for booting!"), st)
            else
              exec stale n (.cacheAlloc arenaCache) st >>= fun record =>
                exec stale n (.blockAlloc 2 true) record.2 >>= fun block =>
                  match takeArenas size (growArenas (stale record.1) block.2.arenas) with
                  | some arenas => .ok (0, { block.2 with arenas := arenas })
                  | none => .error (.halt .kassert, block.2)
  | _ + 1, .kfree arena chunk, st =>
      .ok (0, { st with
        arenas := st.arenas.modify arena fun chunks =>
          chunks.modify chunk fun c => { c with free := true } })
  | n + 1, .cacheCreate c size, st =>
      if pageSize < size ∨ size = 0 then .ok (0, st)
      else
        exec stale n (.kmalloc cacheSize false) st >>= fun record =>
          exec stale n .fixedEntry record.2 >>= fun page =>
            let itemSize := multipleOf2 size
            .ok (0, page.2.setCache c
              { itemSize := itemSize
                capacity := pageSize / itemSize
                freeList := some (allocFixedEntry page.1 itemSize)
                usedList := []
                freeChunks := [] })
  | n + 1, .cacheFree c entry highPrio, st =>
      if entry = 0 then .ok (0, st)
      else
        -- the lock of the cache is released at both ends
        exec stale n (.kmalloc freeChunkSize highPrio) (st.setCacheLock c false) >>= fun done =>
          let cache := done.2.caches c
          .ok (0, (done.2.setCache c
            { cache with freeChunks := appendAfterHead cache.freeChunks entry }).setCacheLock c false)
  | n + 1, .fixedEntry, st =>
      if st.feLock then .error (.halt .hang, st)
      else
        match st.reserve with
        | page :: rest => .ok (page, { st with reserve := rest })
        | [] =>
            exec stale n (.blockAlloc 0 false) { st with feLock := true } >>= fun page =>
              exec stale n (.kmalloc cfeSize false) page.2 >>= fun done =>
                .ok (page.1, { done.2 with feLock := false })
  | n + 1, .cacheAlloc c, st =>
      if st.cacheLocks c then .error (.halt .hang, st)
      else
        match (st.caches c).freeChunks, (st.caches c).freeList with
        | entry :: rest, _ => .ok (entry, st.setCache c { st.caches c with freeChunks := rest })
        | [], some cfe => .ok (cfe.nextFree, takeFromPage st c cfe)
        | [], none =>
            exec stale n .fixedEntry (st.setCacheLock c true) >>= fun page =>
              let cache := page.2.caches c
              let cfe := allocFixedEntry page.1 cache.itemSize
              .ok (cfe.nextFree, takeFromPage (page.2.setCache c
                { cache with capacity := u64 (cache.capacity + pageSize / cache.itemSize) }) c cfe)
  | n + 1, .blockAlloc order highPrio, st =>
      if buddyMaxOrder < order then .error (.halt (.kpanic "out of memory"), st)
      else if st.lock then .error (.relock, st)
      else
        let st := st.enter order highPrio
        match firstOrder st.blocks order with
        | none => .error (.halt (.kpanic "out of memory"), st.release)
        | some o =>
            match st.blocks o with
            | [] => .error (.halt .fault, st)
            | block :: rest =>
                let st := { st with blocks := Function.update st.blocks o rest }
                if o = order then
                  exec stale n (.cacheFree blockCache block.entry highPrio) st >>= fun done =>
                    .ok (block.start, done.2.release)
                else
                  splitDraw (exec stale n (.cacheAlloc blockCache)) order (o - 1)
                      (u64 (block.start + blockSize (o - 1))) (st.push (o - 1) block) >>= fun done =>
                    .ok (done.1, done.2.release)
  | n + 1, .blockFree address order, st =>
      if ¬ pageAligned address then .ok (0, st)
      else
        match getZone address (u64 (address + blockSize order)) with
        | none => .ok (0, st)
        | some zone =>
            exec stale n (.cacheAlloc blockCache) st >>= fun done =>
              if zone ≠ .normal then .ok (0, done.2)
              else if done.2.lock then .error (.relock, done.2)
              else .ok (0, done.2.push order ⟨done.1, address⟩)

-- a call that nests too deep for the number hangs
example (stale : Nat → List (List HeapChunk)) (call : MmCall) (st : MmState) :
    exec stale 0 call st = .error (.halt .hang, st) := by
  rw [exec]

/-- Some calls, one after the other. -/
def execAll (stale : Nat → List (List HeapChunk)) (depth : Nat) :
    List MmCall → MmState → Except (Stop × MmState) MmState
  | [], st => .ok st
  | call :: calls, st => exec stale depth call st >>= fun done => execAll stale depth calls done.2

/-- There is enough in reserve for a call of `mmu_block_alloc`: for a block of the order asked for, a
chunk for the descriptor that is freed, unless it may come from the high-priority arena; for a larger
one, the descriptors of its parts. -/
def LockEntry.Safe (entry : LockEntry) : Prop :=
  ∀ o ∈ entry.found,
    if o = entry.order then entry.highPrio = true ∨ entry.chunk = true
    else o - 1 - entry.order ≤ entry.descriptors

instance (entry : LockEntry) : Decidable entry.Safe :=
  inferInstanceAs (Decidable (∀ o ∈ entry.found,
    if o = entry.order then entry.highPrio = true ∨ entry.chunk = true
    else o - 1 - entry.order ≤ entry.descriptors))

/-- The state in which a run ends or is stuck. -/
def lastState : Except (Stop × MmState) MmState → MmState
  | .ok st => st
  | .error stop => stop.2

/-! ## What all calls keep -/

/-- A call returns in a state with `P`, or it ends with `E`. -/
def Ends (P : MmState → Prop) (E : Stop × MmState → Prop) : Outcome → Prop
  | .ok done => P done.2
  | .error stop => E stop

/-- What the calls need to keep `P`: it is a property of the lock and the log, a halt is an `E`, and
where the lock is taken it is kept as well. -/
structure Closed (stale : Nat → List (List HeapChunk)) (P : MmState → Prop)
    (E : Stop × MmState → Prop) : Prop where
  congr : ∀ {s s' : MmState}, P s → s'.lock = s.lock → s'.entered = s.entered → P s'
  halt : ∀ (cause : Halt) {s : MmState}, P s → E (.halt cause, s)
  relock : ∀ {s : MmState}, P s → s.lock = true → E (.relock, s)
  blockAlloc : ∀ (n order : Nat) (highPrio : Bool) {s : MmState}, P s →
    Ends P E (exec stale n (.blockAlloc order highPrio) s)

section Closed

variable {stale : Nat → List (List HeapChunk)} {n : Nat} {st : MmState}
variable {P : MmState → Prop} {E : Stop × MmState → Prop}

theorem Ends.bind {r : Outcome} {f : Nat × MmState → Outcome} (h : Ends P E r)
    (hf : ∀ done : Nat × MmState, P done.2 → Ends P E (f done)) : Ends P E (r >>= f) := by
  cases r with
  | error stop => exact h
  | ok done => exact hf done h

/-- Every call keeps what is closed. -/
theorem Closed.exec (hclosed : Closed stale P E) (call : MmCall) (hst : P st) :
    Ends P E (exec stale n call st) := by
  induction n generalizing call st with
  | zero => exact hclosed.halt _ hst
  | succ n ih =>
      cases call with
      | kmalloc size highPrio =>
          rw [Mm.exec]
          split
          · split
            · exact hclosed.congr hst rfl rfl
            · exact hclosed.halt _ hst
          · split
            · exact hclosed.congr hst rfl rfl
            · split
              · exact hclosed.halt _ hst
              · apply (ih (.cacheAlloc arenaCache) hst).bind
                intro record hrecord
                apply (ih (.blockAlloc 2 true) hrecord).bind
                intro block hblock
                dsimp only
                split
                · exact hclosed.congr hblock rfl rfl
                · exact hclosed.halt _ hblock
      | kfree arena chunk => exact hclosed.congr hst rfl rfl
      | cacheCreate c size =>
          rw [Mm.exec]
          split
          · exact hst
          · apply (ih (.kmalloc cacheSize false) hst).bind
            intro record hrecord
            apply (ih .fixedEntry hrecord).bind
            intro page hpage
            exact hclosed.congr hpage rfl rfl
      | cacheFree c entry highPrio =>
          rw [Mm.exec]
          split
          · exact hst
          · apply Ends.bind
            · exact ih (.kmalloc freeChunkSize highPrio) (hclosed.congr hst rfl rfl)
            · intro done hdone
              exact hclosed.congr hdone rfl rfl
      | fixedEntry =>
          rw [Mm.exec]
          split
          · exact hclosed.halt _ hst
          · split
            · exact hclosed.congr hst rfl rfl
            · apply Ends.bind
              · exact ih (.blockAlloc 0 false) (hclosed.congr hst rfl rfl)
              · intro page hpage
                apply (ih (.kmalloc cfeSize false) hpage).bind
                intro done hdone
                exact hclosed.congr hdone rfl rfl
      | cacheAlloc c =>
          rw [Mm.exec]
          split
          · exact hclosed.halt _ hst
          · split
            · exact hclosed.congr hst rfl rfl
            · exact hclosed.congr hst rfl rfl
            · apply Ends.bind
              · exact ih .fixedEntry (hclosed.congr hst rfl rfl)
              · intro page hpage
                exact hclosed.congr hpage rfl rfl
      | blockAlloc order highPrio => exact hclosed.blockAlloc _ _ _ hst
      | blockFree address order =>
          rw [Mm.exec]
          split
          · exact hst
          · split
            · exact hst
            · apply (ih (.cacheAlloc blockCache) hst).bind
              intro done hdone
              split
              · exact hdone
              · split
                · next hlock => exact hclosed.relock hdone hlock
                · exact hclosed.congr hdone rfl rfl

end Closed

/-! ## Calls with the lock held -/

/-- The lock is held, and the log is this. -/
def Held (log : List LockEntry) (st : MmState) : Prop := st.lock = true ∧ st.entered = log

/-- The lock is still held and the log is what it was. -/
def StaysLocked (log : List LockEntry) : Outcome → Prop :=
  Ends (Held log) fun stop => stop.2.entered = log

section Locked

variable {stale : Nat → List (List HeapChunk)} {n : Nat} {st : MmState} {log : List LockEntry}

theorem held_closed : Closed stale (Held log) fun stop => stop.2.entered = log where
  congr := fun h hlock hlog => ⟨hlock.trans h.1, hlog.trans h.2⟩
  halt := fun _ _ h => h.2
  relock := fun h _ => h.2
  blockAlloc := by
    intro n order highPrio s h
    cases n with
    | zero => exact h.2
    | succ n =>
        rw [exec]
        split
        · exact h.2
        · rw [if_pos h.1]
          exact h.2

/-- No call that is made with the lock held gives it up or adds to the log. -/
theorem exec_locked (call : MmCall) (hst : Held log st) :
    StaysLocked log (exec stale n call st) :=
  held_closed.exec call hst

/-- A free of a descriptor takes the lock again only when the heap has no chunk for it. -/
theorem cacheFree_locked {c entry : Nat} {highPrio : Bool} {st' : MmState}
    (h : exec stale n (.cacheFree c entry highPrio) st = .error (.relock, st')) :
    highPrio = false ∧ takeArenas freeChunkSize st.arenas = none := by
  cases n with
  | zero => cases h
  | succ n =>
      rw [exec] at h
      split at h
      · cases h
      cases n with
      | zero => cases h
      | succ n =>
          rw [exec] at h
          cases highPrio with
          | true =>
              rw [if_pos rfl] at h
              cases hchunk : takeChunk freeChunkSize (st.setCacheLock c false).highPrio with
              | some arena =>
                  rw [hchunk] at h
                  cases h
              | none =>
                  rw [hchunk] at h
                  cases h
          | false =>
              refine ⟨rfl, ?_⟩
              cases hchunk : takeArenas freeChunkSize st.arenas with
              | none => rfl
              | some arenas =>
                  have hsame : takeArenas freeChunkSize (st.setCacheLock c false).arenas =
                      some arenas := hchunk
                  rw [if_neg Bool.false_ne_true, hsame] at h
                  cases h

theorem takeSlot_itemSize (cache : MmCache) (cfe : CacheFixedEntry) :
    (takeSlot cache cfe).itemSize = cache.itemSize := by
  rw [takeSlot]
  split
  · rfl
  · rfl

/-- A page has one slot less after one was taken. -/
theorem le_ready_takeSlot (cache : MmCache) (cfe : CacheFixedEntry) :
    u64 cfe.numFree ≤ (takeSlot cache cfe).ready := by
  rw [takeSlot]
  split
  · next hzero =>
      rw [hzero]
      exact Nat.zero_le _
  · have hcount : u64 cfe.numFree ≤ u64 (u64 (cfe.numFree + 2 ^ 64 - 1)) + 1 := by
      simp only [u64]
      omega
    exact hcount.trans (Nat.le_add_left _ _)

/-- A new page has room for the entries of the size of the cache. -/
theorem le_numFree_allocFixedEntry (page itemSize : Nat) :
    pageSize / itemSize ≤ u64 (allocFixedEntry page itemSize).numFree + 1 := by
  have hle : pageSize / itemSize ≤ pageSize := Nat.div_le_self _ _
  simp only [allocFixedEntry, u64, pageSize] at hle ⊢
  omega

/-- After a draw from a page of the block cache, at least the other slots of the page are left. -/
theorem le_descriptors_takeFromPage (st : MmState) (cfe : CacheFixedEntry) :
    u64 cfe.numFree + st.reserve.length * (pageSize / (st.caches blockCache).itemSize) ≤
      (takeFromPage st blockCache cfe).descriptors := by
  have hcaches : (takeFromPage st blockCache cfe).caches blockCache =
      takeSlot (st.caches blockCache) cfe := by
    simp [takeFromPage, MmState.setCacheLock, MmState.setCache]
  rw [MmState.descriptors, hcaches, takeSlot_itemSize]
  exact Nat.add_le_add_right (le_ready_takeSlot _ _) _

/-- A draw costs one descriptor, and takes the lock again only when there is none. -/
def Draws (st : MmState) : Outcome → Prop
  | .ok done => st.descriptors ≤ done.2.descriptors + 1
  | .error stop => stop.1 = .relock → st.descriptors = 0

/-- A page comes from the list of the slab allocator; the lock is taken again only when it is
empty. -/
def DrawsPage (st : MmState) : Outcome → Prop
  | .ok page => st.reserve.length = page.2.reserve.length + 1 ∧ page.2.caches = st.caches
  | .error stop => stop.1 = .relock → st.reserve = []

/-- No block is given out with the lock held. -/
theorem blockAlloc_locked {order : Nat} {highPrio : Bool} (hlock : st.lock = true) :
    ∃ stop, exec stale n (.blockAlloc order highPrio) st = .error stop := by
  cases n with
  | zero => exact ⟨_, rfl⟩
  | succ n =>
      by_cases hbig : buddyMaxOrder < order
      · exact ⟨_, by rw [exec, if_pos hbig]⟩
      · exact ⟨_, by rw [exec, if_neg hbig, if_pos hlock]⟩

theorem fixedEntry_locked (hlock : st.lock = true) :
    DrawsPage st (exec stale n .fixedEntry st) := by
  cases n with
  | zero =>
      intro hstop
      cases hstop
  | succ n =>
      rw [exec]
      split
      · intro hstop
        cases hstop
      · split
        · next page rest hreserve => exact ⟨congrArg List.length hreserve, rfl⟩
        · next hreserve =>
            have hinner : ∃ stop, exec stale n (.blockAlloc 0 false) { st with feLock := true } =
                .error stop := blockAlloc_locked hlock
            obtain ⟨stop, hstop⟩ := hinner
            rw [hstop]
            intro _
            exact hreserve

/-- With the lock held, a descriptor comes from the block cache or from a page of the slab
allocator. -/
theorem cacheAlloc_locked (hlock : st.lock = true) :
    Draws st (exec stale n (.cacheAlloc blockCache) st) := by
  cases n with
  | zero =>
      intro hstop
      cases hstop
  | succ n =>
      rw [exec]
      split
      · intro hstop
        cases hstop
      · split
        · next entry rest hchunks =>
            simp only [Draws, MmState.descriptors, MmState.setCache, Function.update_self,
              MmCache.ready, hchunks, List.length_cons]
            omega
        · next cfe hchunks hpage =>
            have hbefore : (st.caches blockCache).ready = u64 cfe.numFree + 1 := by
              simp [MmCache.ready, hchunks, hpage]
            have hafter := le_descriptors_takeFromPage st cfe
            show st.descriptors ≤ _
            rw [MmState.descriptors, hbefore]
            dsimp only
            omega
        · next hchunks hpage =>
            have hinner : DrawsPage (st.setCacheLock blockCache true)
                (exec stale n .fixedEntry (st.setCacheLock blockCache true)) :=
              fixedEntry_locked hlock
            have hbefore : (st.caches blockCache).ready = 0 := by
              simp [MmCache.ready, hchunks, hpage]
            cases hexec : exec stale n .fixedEntry (st.setCacheLock blockCache true) with
            | error stop =>
                rw [hexec] at hinner
                intro hstop
                have hreserve : st.reserve = [] := hinner hstop
                rw [MmState.descriptors, hbefore, hreserve]
                simp
            | ok page =>
                rw [hexec] at hinner
                obtain ⟨hreserve, hcaches⟩ := hinner
                have hcache : page.2.caches blockCache = st.caches blockCache := congrFun hcaches _
                have hlength : st.reserve.length = page.2.reserve.length + 1 := hreserve
                have hnew := le_numFree_allocFixedEntry page.1 (st.caches blockCache).itemSize
                have hafter := le_descriptors_takeFromPage
                  (page.2.setCache blockCache
                    { st.caches blockCache with
                      capacity := u64 ((st.caches blockCache).capacity +
                        pageSize / (st.caches blockCache).itemSize) })
                  (allocFixedEntry page.1 (st.caches blockCache).itemSize)
                simp only [MmState.setCache, Function.update_self] at hafter
                show st.descriptors ≤ _
                rw [MmState.descriptors, hbefore, hlength, hcache, Nat.add_mul]
                simp only [MmState.setCache]
                omega

theorem splitDraw_locked {reqOrder splitOrder splitStart : Nat} (hst : Held log st) :
    StaysLocked log
      (splitDraw (exec stale n (.cacheAlloc blockCache)) reqOrder splitOrder splitStart st) := by
  induction splitOrder generalizing st splitStart with
  | zero => exact hst
  | succ splitOrder ih =>
      rw [splitDraw]
      split
      · exact hst
      · apply Ends.bind (exec_locked (.cacheAlloc blockCache) hst)
        intro done hdone
        exact ih ⟨hdone.1, hdone.2⟩

/-- The loop of `__split_block` takes the lock again only when it runs out of descriptors. -/
theorem splitDraw_relock {reqOrder splitOrder splitStart : Nat} {st' : MmState}
    (hlock : st.lock = true) (hle : reqOrder ≤ splitOrder)
    (h : splitDraw (exec stale n (.cacheAlloc blockCache)) reqOrder splitOrder splitStart st =
      .error (.relock, st')) :
    st.descriptors < splitOrder - reqOrder := by
  induction splitOrder generalizing st splitStart with
  | zero => cases h
  | succ splitOrder ih =>
      rw [splitDraw] at h
      split at h
      · cases h
      · next hne =>
          have hdraw : Draws st (exec stale n (.cacheAlloc blockCache) st) := cacheAlloc_locked hlock
          have hstays : StaysLocked st.entered (exec stale n (.cacheAlloc blockCache) st) :=
            exec_locked (.cacheAlloc blockCache) ⟨hlock, rfl⟩
          cases hexec : exec stale n (.cacheAlloc blockCache) st with
          | error stop =>
              rw [hexec] at h hdraw
              have hstop : stop.1 = .relock := congrArg Prod.fst (Except.error.inj h)
              have hnone : st.descriptors = 0 := hdraw hstop
              omega
          | ok done =>
              rw [hexec] at h hdraw hstays
              have hcost : st.descriptors ≤ done.2.descriptors + 1 := hdraw
              have hrest : (done.2.push splitOrder ⟨done.1, splitStart⟩).descriptors <
                  splitOrder - reqOrder := ih hstays.1 (by omega) h
              have hpush : (done.2.push splitOrder ⟨done.1, splitStart⟩).descriptors =
                  done.2.descriptors := rfl
              omega

end Locked

/-! ## Calls with the lock free -/

/-- The lock is free again, or it was taken twice and the log says why. -/
def Traced : Outcome → Prop :=
  Ends (fun st => st.lock = false) fun stop =>
    stop.1 = .relock → ∃ entry ∈ stop.2.entered, ¬ entry.Safe

/-- A call that halts has nothing to explain. -/
theorem Traced.halt (cause : Halt) (st : MmState) : Traced (.error (.halt cause, st)) := by
  intro hstop
  cases hstop

theorem firstOrder_le {blocks : Nat → List Descriptor} {order o : Nat}
    (h : firstOrder blocks order = some o) : order ≤ o :=
  (List.mem_range'_1.mp (List.mem_of_find?_eq_some h)).1

/-- What is needed when the block that is found has this order. -/
theorem lockEntry_safe {st : MmState} {order o : Nat} {highPrio : Bool}
    (hfound : firstOrder st.blocks order = some o) :
    (st.lockEntry order highPrio).Safe ↔
      if o = order then highPrio = true ∨ (takeArenas freeChunkSize st.arenas).isSome = true
      else o - 1 - order ≤ st.descriptors := by
  simp only [LockEntry.Safe, MmState.lockEntry, hfound, Option.mem_some_iff, forall_eq']

section Free

variable {stale : Nat → List (List HeapChunk)} {n : Nat} {st : MmState}

/-- What is done with the lock held is explained by the entry of the log if it takes the lock again
only when that is not safe. -/
theorem Traced.of_locked {log : List LockEntry} {r : Outcome} {f : Nat × MmState → Outcome}
    {entry : LockEntry} (hstays : StaysLocked log r) (hf : ∀ done, Traced (f done))
    (hentry : entry ∈ log)
    (hrelock : ∀ st', r = .error (.relock, st') → ¬ entry.Safe) : Traced (r >>= f) := by
  cases r with
  | ok done => exact hf done
  | error stop =>
      intro hstop
      have hlog : stop.2.entered = log := hstays
      refine ⟨entry, hlog ▸ hentry, hrelock stop.2 ?_⟩
      rw [← hstop]

/-- `mmu_block_alloc` takes its lock twice only when it was entered with too little in reserve. -/
theorem blockAlloc_relock {order : Nat} {highPrio : Bool} (hfree : st.lock = false) :
    Traced (exec stale n (.blockAlloc order highPrio) st) := by
  cases n with
  | zero => exact Traced.halt _ _
  | succ n =>
      rw [exec]
      split
      · exact Traced.halt _ _
      · rw [if_neg (by rw [hfree]; exact Bool.false_ne_true)]
        dsimp only
        split
        · exact Traced.halt _ _
        · next o hfound =>
            split
            · exact Traced.halt _ _
            · next block rest hblocks =>
                have hentry : st.lockEntry order highPrio ∈ (st.enter order highPrio).entered :=
                  List.mem_append_right _ (List.mem_singleton_self _)
                have hfound' : firstOrder st.blocks order = some o := hfound
                split
                · next horder =>
                    apply Traced.of_locked
                    · exact exec_locked _ ⟨rfl, rfl⟩
                    · intro done
                      exact rfl
                    · exact hentry
                    · intro st' hst' hsafe
                      obtain ⟨hprio, hchunk⟩ := cacheFree_locked hst'
                      have hchunk' : takeArenas freeChunkSize st.arenas = none := hchunk
                      rw [lockEntry_safe hfound', if_pos horder, hprio, hchunk'] at hsafe
                      rcases hsafe with hsafe | hsafe
                      · cases hsafe
                      · cases hsafe
                · next horder =>
                    apply Traced.of_locked
                    · exact splitDraw_locked ⟨rfl, rfl⟩
                    · intro done
                      exact rfl
                    · exact hentry
                    · intro st' hst' hsafe
                      rw [lockEntry_safe hfound', if_neg horder] at hsafe
                      have hle : order ≤ o := firstOrder_le hfound
                      have hfew := splitDraw_relock rfl (by omega) hst'
                      exact absurd hsafe (not_le.mpr hfew)

/-- Every call that is made with the lock free gives it back, or the log says why it does not. -/
theorem exec_traced (call : MmCall) (hfree : st.lock = false) : Traced (exec stale n call st) := by
  have hclosed : Closed stale (fun st => st.lock = false) fun stop =>
      stop.1 = .relock → ∃ entry ∈ stop.2.entered, ¬ entry.Safe :=
    { congr := fun h hlock _ => hlock.trans h
      halt := fun cause st _ => Traced.halt cause st
      relock := fun h hlock => absurd (h.symm.trans hlock) Bool.false_ne_true
      blockAlloc := fun _ _ _ _ h => blockAlloc_relock h }
  exact hclosed.exec call hfree

/-- The same for one call after the other. -/
theorem execAll_traced {depth : Nat} {calls : List MmCall} {stuck : MmState}
    (hfree : st.lock = false) (h : execAll stale depth calls st = .error (.relock, stuck)) :
    ∃ entry ∈ stuck.entered, ¬ entry.Safe := by
  induction calls generalizing st with
  | nil => cases h
  | cons call calls ih =>
      rw [execAll] at h
      have htraced : Traced (exec stale depth call st) := exec_traced call hfree
      cases hexec : exec stale depth call st with
      | error stop =>
          rw [hexec] at h htraced
          obtain rfl : stop = (.relock, stuck) := Except.error.inj h
          exact htraced rfl
      | ok done =>
          rw [hexec] at h htraced
          exact ih htraced h

/-- In a run whose calls of `mmu_block_alloc`, those of the slab allocator and of the heap among them,
are entered with enough in reserve, no call takes the lock of the zone while it holds it. -/
theorem zone_lock_taken_once (stale : Nat → List (List HeapChunk)) (depth : Nat)
    (calls : List MmCall) (st : MmState) (hfree : st.lock = false)
    (hsafe : ∀ entry ∈ (lastState (execAll stale depth calls st)).entered, entry.Safe)
    (stuck : MmState) : execAll stale depth calls st ≠ .error (.relock, stuck) := by
  intro h
  obtain ⟨entry, hentry, hunsafe⟩ := execAll_traced hfree h
  rw [h] at hsafe
  exact hunsafe (hsafe entry hentry)

end Free

/-! ## The first calls after the boot -/

/-- The state that `mmu_zones_init` leaves of a machine with 128 MiB: `mmu_zones_init` took the block of
order 12, and its descriptor is the chunk of the block cache.  The boot heap holds two `cfe_t`, the
cache, what `mmu_bootmem_release` allocated, and the record of the chunk. -/
def zonesState : MmState where
  lock := false
  blocks order :=
    match order with
    | 13 => [⟨0x4160, 0x5000000⟩]
    | 14 => [⟨0x4140, 0x1000000⟩]
    | _ => []
  caches _ := ⟨32, 128, some ⟨114, 0x41a0, 0x4000⟩, [], [0x4180]⟩
  cacheLocks _ := false
  feLock := false
  reserve := [0x3000]
  arenas := [[⟨40, false⟩, ⟨40, false⟩, ⟨48, false⟩, ⟨40, false⟩, ⟨16, false⟩, ⟨24, false⟩,
    ⟨16001, true⟩]]
  highPrio := []
  initialized := false
  entered := []

-- the blocks and the pages of the slab allocator are those of the model of the boot
example : ∃ st, mmuZonesInit usualMap afterMap ⟨0, 0x3000, 0x4000⟩ = .ok st ∧
    (decide (∀ o < buddyMaxOrder, ((st.zones .normal).blocks o).map MmBlock.start =
      (zonesState.blocks o).map Descriptor.start) && st.reserve == zonesState.reserve) = true :=
  Halt.exists_ok _ _ (by decide)

theorem zonesState_run_safe :
    zonesState.lock = false ∧
      (∀ entry ∈ (lastState (execAll (fun _ => []) 8
        [.blockAlloc 2 false, .blockAlloc 2 false, .cacheAlloc blockCache, .kmalloc 100 false]
        zonesState)).entered, entry.Safe) ∧
      ∀ stuck, execAll (fun _ => []) 8
        [.blockAlloc 2 false, .blockAlloc 2 false, .cacheAlloc blockCache, .kmalloc 100 false]
        zonesState ≠ .error (.relock, stuck) := by
  have hsafe : ∀ entry ∈ (lastState (execAll (fun _ => []) 8
      [.blockAlloc 2 false, .blockAlloc 2 false, .cacheAlloc blockCache, .kmalloc 100 false]
      zonesState)).entered, entry.Safe := by decide
  exact ⟨rfl, hsafe, zone_lock_taken_once _ _ _ _ rfl hsafe⟩

/-- `mmu_heap_init`; `sizeof(mm_arena_t)` is 34. -/
def MmState.mmuHeapInit (stale : Nat → List (List HeapChunk)) (depth : Nat) (st : MmState) :
    Except (Stop × MmState) MmState :=
  exec stale depth (.blockAlloc 2 false) st >>= fun mem =>
    exec stale depth (.blockAlloc 1 false) mem.2 >>= fun hp =>
      let st := { hp.2 with
        arenas := [[⟨blockSize 2 - chunkHeader, true⟩]]
        highPrio := [⟨blockSize 1 - chunkHeader, true⟩] }
      exec stale depth (.cacheCreate arenaCache 34) st >>= fun done =>
        .ok { done.2 with initialized := true }

/-- The loop of `mmu_slab_init`, over the pages that are left. -/
def slabInitLoop (stale : Nat → List (List HeapChunk)) (depth : Nat) :
    Nat → MmState → Except (Stop × MmState) MmState
  | 0, st => .ok st
  | pages + 1, st =>
      exec stale depth (.blockAlloc 0 false) st >>= fun page =>
        exec stale depth (.kmalloc cfeSize false) page.2 >>= fun done =>
          slabInitLoop stale depth pages { done.2 with reserve := page.1 :: done.2.reserve }

/-- `mmu_slab_init`. -/
def MmState.mmuSlabInit (stale : Nat → List (List HeapChunk)) (depth : Nat) (st : MmState) :
    Except (Stop × MmState) MmState :=
  slabInitLoop stale depth 20 { st with reserve := [] }

/-- The end of `mmu_init`. -/
def bootState : Except (Stop × MmState) MmState :=
  MmState.mmuHeapInit (fun _ => []) 8 zonesState >>= MmState.mmuSlabInit (fun _ => []) 8

/-- Whether calls from a state with the lock free take it twice. -/
def relocks (calls : MmState → Except (Stop × MmState) MmState) (st : MmState) : Bool :=
  match calls st with
  | .error (.relock, _) => !st.lock
  | _ => false

theorem exists_of_relocks {calls : MmState → Except (Stop × MmState) MmState} {st : MmState}
    (h : relocks calls st = true) :
    st.lock = false ∧ ∃ stuck, calls st = .error (.relock, stuck) := by
  rw [relocks] at h
  split at h
  · next stuck hstuck =>
      simp only [Bool.not_eq_true'] at h
      exact ⟨h, stuck, hstuck⟩
  · cases h

/-- A `kmalloc` of the rest of the heap and two page allocations after the boot: the first page comes
from a pair, the second one is its other half, and the record of its descriptor needs a new arena. -/
theorem boot_relocks : ∃ st, bootState = .ok st ∧ st.lock = false ∧
    ∃ stuck, execAll (fun _ => []) 8
      [.kmalloc 14496 false, .blockAlloc 0 false, .blockAlloc 0 false] st =
        .error (.relock, stuck) := by
  have hboot : (match bootState with
      | .ok st => relocks (execAll (fun _ => []) 8
          [.kmalloc 14496 false, .blockAlloc 0 false, .blockAlloc 0 false]) st
      | .error _ => false) = true := by decide +kernel
  cases h : bootState with
  | error stop =>
      rw [h] at hboot
      cases hboot
  | ok st =>
      rw [h] at hboot
      exact ⟨st, rfl, exists_of_relocks hboot⟩

end Mm
end Micael
