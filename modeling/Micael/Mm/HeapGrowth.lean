import Micael.Mm.HeapInvariant

/-!
# Growth of the kernel heap

When no chunk fits, `kmalloc` adds an arena of four pages and searches once more.  The new arena is
meant to go to the end of the list that starts at `__mem`; the end is looked for, and then the new
arena is made the successor of `__mem` instead, so the arenas that followed `__mem` before are on no
list any more.  A request that does not fit into four pages fails after the growth as well.

Main results:

- Theorem {lit}`findFree_none_iff`: `__find_free` fails exactly if no free chunk of an arena on the
  list is large enough.
- Theorem {lit}`served_iff`: which requests `kmalloc` can serve when the page allocator has an arena.
- Theorem {lit}`heapStep_cases`: a call leaves the list of arenas, or replaces what follows `__mem`.
- Theorem {lit}`heap_growth_right_iff`: along a run all arenas stay on the list exactly if the heap
  never grows while `__mem` has a successor.
-/

namespace Micael
namespace Mm

open Foundation

/-! ## The list of arenas -/

/-- A free chunk of at least `size` bytes is in an arena on the list that starts at `__mem`. -/
def Heap.Fits (heap : Heap) (size : Nat) : Prop :=
  ∃ c, FitChunk heap heap.memArena size c

section Search

variable {heap : Heap} {size record : Nat}

/-- `__find_free` fails exactly if no chunk fits. -/
theorem findFree_none_iff (h : HeapInv heap) :
    findFree heap.mem heap.memArena size = .ok (0, heap.mem) ↔ ¬ heap.Fits size := by
  rcases @findFree_walk _ size _ h h.memArena with ⟨hnone, hfind⟩ | ⟨c, hc, hfind⟩
  · exact ⟨fun _ => hnone, fun _ => hfind⟩
  · constructor
    · intro hzero
      rw [hfind, Except.ok.injEq, Prod.mk.injEq] at hzero
      exact absurd hzero.1 (hc.freeChunk.ne_zero h)
    · intro hnone
      exact absurd ⟨c, hc⟩ hnone

/-- The list is `__mem` and its successor. -/
theorem HeapInv.listed_iff (h : HeapInv heap) :
    ArenasFrom heap.mem heap.memArena record ↔
      record = heap.memArena ∨ (readArena heap.mem heap.memArena).next ≠ 0 ∧
        record = (readArena heap.mem heap.memArena).next := by
  rw [arenasFrom_iff]
  refine or_congr_right (and_congr_right fun hpos => ?_)
  obtain ⟨b, hb, hbne, hbnext⟩ := h.memNext.resolve_left hpos
  rw [hbnext, arenasFrom_iff, h.next b hb hbne]
  simp

end Search

/-! ## What a growing call does -/

/-- An arena was added, and it follows `__mem`. -/
structure Grew (heap : Heap) (grant : ArenaGrant) (heap' : Heap) : Prop where
  arenas : heap'.arenas = grant.arena :: heap.arenas
  memArena : heap'.memArena = heap.memArena
  highPrio : heap'.highPrio = heap.highPrio
  initialized : heap'.initialized = heap.initialized
  next : (readArena heap'.mem heap'.memArena).next = grant.record

section Growing

variable {heap heap' heap'' : Heap} {grant : ArenaGrant} {size p : Nat} {flags : MmFlags}

theorem SameRecords.next_eq (h : HeapInv heap) (hsame : SameRecords heap heap') :
    (readArena heap'.mem heap'.memArena).next = (readArena heap.mem heap.memArena).next := by
  obtain ⟨a₀, ha₀, hmemArena⟩ := h.memArena
  rw [hsame.memArena, ← hmemArena, hsame.records a₀ ha₀]

theorem Grew.after (hgrew : Grew heap' grant heap'') (hsame : SameRecords heap heap') :
    Grew heap grant heap'' where
  arenas := by rw [hgrew.arenas, hsame.arenas]
  memArena := hgrew.memArena.trans hsame.memArena
  highPrio := hgrew.highPrio.trans hsame.highPrio
  initialized := hgrew.initialized.trans hsame.initialized
  next := hgrew.next

theorem Grew.before (hgrew : Grew heap grant heap') (h : HeapInv heap')
    (hsame : SameRecords heap' heap'') : Grew heap grant heap'' where
  arenas := by rw [hsame.arenas, hgrew.arenas]
  memArena := hsame.memArena.trans hgrew.memArena
  highPrio := hsame.highPrio.trans hgrew.highPrio
  initialized := hsame.initialized.trans hgrew.initialized
  next := (hsame.next_eq h).trans hgrew.next

/-- The slab allocator can be served inside `__alloc_arena` exactly if it needs nothing or its 40
bytes fit. -/
theorem arenaEntry_ok_iff (h : HeapInv heap) :
    (∃ heap', arenaEntry heap grant = .ok heap') ↔ (grant.slabEmpty = true → heap.Fits 40) := by
  rw [arenaEntry]
  by_cases hempty : grant.slabEmpty = true
  · rw [if_pos hempty, slabGrow]
    rcases @findFree_walk _ 40 _ h h.memArena with ⟨hnone, hfind⟩ | ⟨c, hc, hfind⟩
    · have hnone : ¬ heap.Fits 40 := hnone
      rw [hfind]
      simp [hempty, hnone]
    · rw [hfind]
      simp only [hc.freeChunk.ne_zero h, if_false]
      exact ⟨fun _ _ => ⟨c, hc⟩, fun _ => ⟨_, rfl⟩⟩
  · rw [if_neg hempty]
    exact ⟨fun _ hslab => absurd hslab hempty, fun _ => ⟨heap, rfl⟩⟩

/-- The nested allocation of the slab allocator leaves the arena records. -/
theorem arenaEntry_records (h : HeapInv heap) (hentry : arenaEntry heap grant = .ok heap') :
    SameRecords heap heap' := by
  have hsame := (arenaEntry_inv h hentry).2
  have hprio : heap'.highPrio = heap.highPrio := by
    rw [arenaEntry] at hentry
    split at hentry
    · rw [slabGrow] at hentry
      rcases @findFree_walk _ 40 _ h h.memArena with ⟨-, hfind⟩ | ⟨c, hc, hfind⟩
      · rw [hfind] at hentry
        simp at hentry
      · rw [hfind] at hentry
        simp only [hc.freeChunk.ne_zero h, if_false, Except.ok.injEq] at hentry
        rw [← hentry]
        rfl
    · cases hentry
      rfl
  exact ⟨hsame.arenas, hsame.memArena, hprio, hsame.initialized,
    fun a ha => h.records_of_outside hsame.outside ha⟩

/-- Linking the new arena. -/
theorem linkArena_grew (h : HeapInv heap) (hfresh : grant.Fresh heap) (hclean : grant.Clean heap)
    (hlink : linkArena heap grant = .ok heap') : Grew heap grant heap' := by
  rw [linkArena_eq h hfresh hclean] at hlink
  cases hlink
  obtain ⟨a₀, ha₀, hmemArena⟩ := h.memArena
  refine ⟨rfl, rfl, rfl, rfl, ?_⟩
  have hne : grant.arena ≠ a₀ := by
    intro heq
    exact hfresh.1 a₀ ha₀ (congrArg ArenaBlock.record heq).symm
  have hnext : (readArena (setArenaPrev (setArenaNext (heap.addArena grant).mem a₀.record
      grant.record) grant.record a₀.record) a₀.record).next = grant.record :=
    congrArg MmArena.next ((h.addGranted hfresh hclean).apart.read_linked List.mem_cons_self
      (List.mem_cons_of_mem _ ha₀) hne)
  rw [hmemArena] at hnext
  exact hnext

/-- The new arena is on the list, and its only chunk is free. -/
theorem linkArena_fits (h : HeapInv heap) (hfresh : grant.Fresh heap) (hclean : grant.Clean heap)
    (hlink : linkArena heap grant = .ok heap')
    (hsize : size ≤ blockSize heapArenaSize - chunkHeaderSize) : heap'.Fits size := by
  have hinv := linkArena_inv h hfresh hclean hlink
  have hgrew := linkArena_grew h hfresh hclean hlink
  have hadded := h.addGranted hfresh hclean
  have hmem : grant.arena ∈ (heap.addArena grant).arenas := List.mem_cons_self
  obtain ⟨-, hchunk, hchunks, -⟩ :=
    @initArena_arena grant.arena heap.mem _ heapArenaSize hadded.apart hmem rfl
  have hpos : grant.record ≠ 0 := by
    have : 0 < grant.record := (hadded.apart.sane _ hmem).1
    omega
  -- the links are written into records, so the chunks stay
  have hagree : Memory.Agree (headerBytes grant.base) heap'.mem (heap.addArena grant).mem := by
    obtain ⟨a₀, ha₀, hmemArena⟩ := h.memArena
    rw [linkArena_eq h hfresh hclean] at hlink
    cases hlink
    intro x hx
    have hxa : x ∈ grant.arena.bytes := hchunks.header_subset List.mem_cons_self hx
    have hfirst := Set.disjoint_right.mp
      (hadded.apart.mixed a₀ (List.mem_cons_of_mem _ ha₀) _ hmem) hxa
    have hself := Set.disjoint_right.mp (hadded.apart.mixed _ hmem _ hmem) hxa
    rw [ArenaBlock.recordBytes, Set.mem_Ico, hmemArena] at hfirst
    rw [ArenaBlock.recordBytes, Set.mem_Ico, ArenaGrant.arena] at hself
    unfold arenaRecordSize at hfirst hself
    dsimp only at hself ⊢
    rw [setArenaPrev, Memory.store_of_outside (by omega), setArenaNext,
      Memory.store_of_outside (by omega)]
  have hread : readChunk heap'.mem grant.base =
      ⟨blockSize heapArenaSize - chunkHeaderSize, true, 0, 0⟩ :=
    (readChunk_congr hagree).trans hchunk
  refine ⟨grant.base, ⟨grant.arena, ?_, ?_, [grant.base], ?_, List.mem_cons_self⟩, ?_, ?_⟩
  · rw [hgrew.arenas]
    exact List.mem_cons_self
  · rw [hinv.listed_iff, hgrew.next]
    exact Or.inr ⟨hpos, rfl⟩
  · refine ArenaBlock.Chunks.congr hchunks fun c hc => ?_
    rw [List.mem_singleton.mp hc]
    exact hagree
  · rw [hread]
  · rw [hread]
    exact hsize

/-- What a successful `__alloc_arena` has done. -/
theorem allocArena_grew (h : HeapInv heap) (hfresh : grant.Fresh heap) (hclean : grant.Clean heap)
    (halloc : allocArena heap grant = .ok heap') :
    Grew heap grant heap' ∧ (grant.slabEmpty = true → heap.Fits 40) ∧
      ∀ size ≤ blockSize heapArenaSize - chunkHeaderSize, heap'.Fits size := by
  rw [allocArena] at halloc
  split at halloc
  · cases halloc
  · obtain ⟨heap₁, hentry, hlink⟩ := Halt.bind_eq_ok.mp halloc
    obtain ⟨h₁, hsame⟩ := arenaEntry_inv h hentry
    have hfresh₁ := hsame.fresh hfresh
    have hclean₁ := hsame.clean hfresh hclean
    refine ⟨(linkArena_grew h₁ hfresh₁ hclean₁ hlink).after (arenaEntry_records h hentry), ?_, ?_⟩
    · exact (arenaEntry_ok_iff h).mp ⟨heap₁, hentry⟩
    · exact fun size hsize => linkArena_fits h₁ hfresh₁ hclean₁ hlink hsize

/-- When `__alloc_arena` succeeds. -/
theorem allocArena_ok (h : HeapInv heap) (hinit : heap.initialized = true)
    (hfresh : grant.Fresh heap) (hclean : grant.Clean heap)
    (hslab : grant.slabEmpty = true → heap.Fits 40) : ∃ heap', allocArena heap grant = .ok heap' := by
  obtain ⟨heap₁, hentry⟩ := (arenaEntry_ok_iff h).mpr hslab
  obtain ⟨h₁, hsame⟩ := arenaEntry_inv h hentry
  rw [allocArena, if_neg (by simp [hinit]), hentry, Halt.ok_bind,
    linkArena_eq h₁ (hsame.fresh hfresh) (hsame.clean hfresh hclean)]
  exact ⟨_, rfl⟩

/-- What a successful growing call has done. -/
theorem kmallocGrow_grew (h : HeapInv heap) (hfresh : grant.Fresh heap) (hclean : grant.Clean heap)
    (hcall : kmallocGrow heap grant size flags = .ok (p, heap')) :
    Grew heap grant heap' ∧ (grant.slabEmpty = true → heap.Fits 40) := by
  obtain ⟨heap₁, block, mem, halloc, hfind, hblock, -, rfl⟩ := kmallocGrow_cases hcall
  have h₁ := allocArena_inv h hfresh hclean halloc
  obtain ⟨hgrew, hslab, -⟩ := allocArena_grew h hfresh hclean halloc
  obtain ⟨hc, rfl⟩ := findFree_found h₁ h₁.memArena hfind hblock
  exact ⟨hgrew.before h₁ (h₁.take_records hc flags), hslab⟩

/-- After the growth a request that fits into one arena is served. -/
theorem kmallocGrow_ok (h : HeapInv heap) (hinit : heap.initialized = true)
    (hfresh : grant.Fresh heap) (hclean : grant.Clean heap)
    (hsize : size ≤ blockSize heapArenaSize - chunkHeaderSize)
    (hslab : grant.slabEmpty = true → heap.Fits 40) :
    ∃ p heap', kmallocGrow heap grant size ⟨false, false⟩ = .ok (p, heap') := by
  obtain ⟨heap₁, halloc⟩ := allocArena_ok h hinit hfresh hclean hslab
  have h₁ := allocArena_inv h hfresh hclean halloc
  have hfits := (allocArena_grew h hfresh hclean halloc).2.2 size hsize
  rcases @findFree_walk _ size _ h₁ h₁.memArena with ⟨hnone, -⟩ | ⟨c, hc, hfind⟩
  · exact absurd hfits hnone
  · rw [kmallocGrow, if_neg (by decide), halloc, Halt.ok_bind, hfind, Halt.ok_bind]
    simp only [hc.freeChunk.ne_zero h₁, if_false]
    exact ⟨_, _, rfl⟩

end Growing

/-! ## Which requests are served -/

/-- `kmalloc(size, 0)` returns the payload of a used chunk that has at least `size` bytes. -/
def Served (heap : Heap) (grant : ArenaGrant) (size : Nat) : Prop :=
  ∃ p heap', kmalloc heap grant size ⟨false, false⟩ = .ok (p, heap') ∧
    ∃ a ∈ heap'.arenas, LivesIn heap'.mem a ⟨p, size⟩

/-- The heap after `mmu_heap_init`: no arena is larger than the ones it adds. -/
structure HeapReady (heap : Heap) : Prop extends HeapInv heap where
  initialized : heap.initialized = true
  bounded : ∀ a ∈ heap.arenas, a.size ≤ blockSize heapArenaSize

section Serving

variable {heap heap' : Heap} {grant : ArenaGrant} {size p : Nat} {flags : MmFlags}

theorem SameRecords.ready (hsame : SameRecords heap heap') (h : HeapReady heap)
    (hinv : HeapInv heap') : HeapReady heap' where
  toHeapInv := hinv
  initialized := hsame.initialized.trans h.initialized
  bounded a ha := h.bounded a (hsame.arenas ▸ ha)

theorem Grew.ready (hgrew : Grew heap grant heap') (h : HeapReady heap) (hinv : HeapInv heap') :
    HeapReady heap' where
  toHeapInv := hinv
  initialized := hgrew.initialized.trans h.initialized
  bounded a ha := by
    rw [hgrew.arenas] at ha
    rcases List.mem_cons.mp ha with rfl | ha
    · exact le_rfl
    · exact h.bounded a ha

/-- A payload is at least a header smaller than an arena. -/
theorem HeapReady.payload_le (h : HeapReady heap) {a : ArenaBlock} {q : Payload}
    (ha : a ∈ heap.arenas) (hq : LivesIn heap.mem a q) :
    q.size ≤ blockSize heapArenaSize - chunkHeaderSize := by
  obtain ⟨cs, c, hcs, hc, -, -, hsize⟩ := hq
  have hbounds := ChunkChain.bounds hcs hc
  have hbounded := h.bounded a ha
  unfold chunkStop ArenaBlock.stop at hbounds
  omega

/-- What `kmalloc` returns is logged as live. -/
theorem kmalloc_live (h : HeapInv heap) (hcall : kmalloc heap grant size flags = .ok (p, heap')) :
    ⟨p, size⟩ ∈ heap'.live := by
  rcases kmalloc_cases h hcall with ⟨c, -, rfl, rfl⟩ | ⟨-, hgrow⟩
  · exact List.mem_cons_self
  · obtain ⟨heap₁, block, mem, -, -, -, rfl, rfl⟩ := kmallocGrow_cases hgrow
    exact List.mem_cons_self

/-- A chunk that fits is found without growth. -/
theorem kmalloc_of_fits (h : HeapInv heap) (hfits : heap.Fits size) :
    ∃ c, FitChunk heap heap.memArena size c ∧
      kmalloc heap grant size ⟨false, false⟩ = .ok (c + chunkHeaderSize,
        heap.take (splitBlockAt heap.mem c size) c size ⟨false, false⟩) := by
  rcases @kmalloc_eq _ grant size ⟨false, false⟩ h with hfound | ⟨hnone, -⟩
  · exact hfound
  · exact absurd hfits hnone

theorem kmalloc_of_not_fits (h : HeapInv heap) (hnone : ¬ heap.Fits size) :
    kmalloc heap grant size ⟨false, false⟩ = kmallocGrow heap grant size ⟨false, false⟩ := by
  rcases @kmalloc_eq _ grant size ⟨false, false⟩ h with ⟨c, hc, -⟩ | ⟨-, hgrow⟩
  · exact absurd ⟨c, hc⟩ hnone
  · exact hgrow

/-- With an arena at hand, `kmalloc` serves a request exactly if it fits into one arena and either a
chunk is there already or the slab allocator can supply the record of the new arena. -/
theorem served_iff (h : HeapReady heap)
    (hgrant : ¬ heap.Fits size → grant.Fresh heap ∧ grant.Clean heap) :
    Served heap grant size ↔ size ≤ blockSize heapArenaSize - chunkHeaderSize ∧
      (heap.Fits size ∨ (grant.slabEmpty = true → heap.Fits 40)) := by
  have hinv := h.toHeapInv
  have hgrant' : findFree heap.mem heap.memArena size = .ok (0, heap.mem) →
      grant.Fresh heap ∧ grant.Clean heap := fun hnone => hgrant ((findFree_none_iff hinv).mp hnone)
  constructor
  · rintro ⟨p, heap', hcall, a, ha, hlive⟩
    have hinv' := kmalloc_inv hinv hgrant' hcall
    by_cases hfits : heap.Fits size
    · obtain ⟨c, hc, hfound⟩ := @kmalloc_of_fits _ grant _ hinv hfits
      rw [hfound, Except.ok.injEq, Prod.mk.injEq] at hcall
      obtain ⟨rfl, rfl⟩ := hcall
      have hready := (hinv.take_records hc.freeChunk ⟨false, false⟩).ready h hinv'
      exact ⟨hready.payload_le ha hlive, Or.inl hfits⟩
    · rw [kmalloc_of_not_fits hinv hfits] at hcall
      obtain ⟨hfresh, hclean⟩ := hgrant hfits
      obtain ⟨hgrew, hslab⟩ := kmallocGrow_grew hinv hfresh hclean hcall
      exact ⟨(hgrew.ready h hinv').payload_le ha hlive, Or.inr hslab⟩
  · rintro ⟨hsize, hroom⟩
    have hok : ∃ p heap', kmalloc heap grant size ⟨false, false⟩ = .ok (p, heap') := by
      by_cases hfits : heap.Fits size
      · obtain ⟨c, -, hfound⟩ := @kmalloc_of_fits _ grant _ hinv hfits
        exact ⟨_, _, hfound⟩
      · rw [kmalloc_of_not_fits hinv hfits]
        obtain ⟨hfresh, hclean⟩ := hgrant hfits
        exact kmallocGrow_ok hinv h.initialized hfresh hclean hsize (hroom.resolve_left hfits)
    obtain ⟨p, heap', hcall⟩ := hok
    exact ⟨p, heap', hcall, (kmalloc_inv hinv hgrant' hcall).live _ (kmalloc_live hinv hcall)⟩

end Serving

/-! ## Steps -/

/-- The call adds an arena, if it returns. -/
def Grows (heap : Heap) : HeapOp → Prop
  | .kmalloc size flags _ => flags.highPrio = false ∧ ¬ heap.Fits size
  | _ => False

/-- The heap grows only while `__mem` has no successor. -/
def GrowsOnce (heap : Heap) (op : HeapOp) : Prop :=
  Grows heap op → (readArena heap.mem heap.memArena).next = 0

/-- A step in which a new arena's record has a null `next` field. -/
def CleanStep (heap : Heap) (op : HeapOp) (heap' : Heap) : Prop :=
  HeapStep heap op heap' ∧ CleanCall heap op

section Steps

variable {heap heap' : Heap} {op : HeapOp}

/-- `kfree` leaves the arena records. -/
theorem kfree_records (h : HeapInv heap) {p : Payload} (hp : p ∈ heap.live) :
    SameRecords heap (kfree heap p.start) := by
  obtain ⟨a, ha, cs, c, hcs, hc, hstart, -, -⟩ := h.live p hp
  refine ⟨rfl, rfl, rfl, rfl, fun b hb => h.records_of_outside (fun x hx => ?_) hb⟩
  apply Memory.store_of_outside
  have hout : x ∉ headerBytes c := fun hxc => hx a ha (hcs.header_subset hc hxc)
  rw [headerBytes, Set.mem_Ico] at hout
  unfold chunkHeaderSize at hout hstart ⊢
  omega

/-- A step leaves the arena records, or it adds an arena after `__mem`. -/
theorem heapStep_cases (h : HeapInv heap) (hstep : CleanStep heap op heap') :
    (¬ Grows heap op ∧ SameRecords heap heap') ∨
      (Grows heap op ∧ ∃ grant : ArenaGrant, grant.Fresh heap ∧ Grew heap grant heap') := by
  obtain ⟨hstep, hclean⟩ := hstep
  cases hstep with
  | @kmalloc _ size p flags grant hfresh hcall =>
      rcases @kmalloc_eq _ grant size flags h with ⟨c, hc, hfound⟩ | ⟨hnone, hgrow⟩
      · rw [hfound, Except.ok.injEq, Prod.mk.injEq] at hcall
        obtain ⟨-, rfl⟩ := hcall
        refine Or.inl ⟨?_, h.take_records hc.freeChunk flags⟩
        rintro ⟨hprio, hnone⟩
        rw [hprio] at hc
        exact hnone ⟨c, hc⟩
      · rw [hgrow] at hcall
        have hprio := kmallocGrow_prio hcall
        rw [hprio] at hnone
        have hfind := (findFree_none_iff h).mpr hnone
        exact Or.inr ⟨⟨hprio, hnone⟩, grant, hfresh hfind,
          (kmallocGrow_grew h (hfresh hfind) (hclean hfind) hcall).1⟩
  | kfree hp => exact Or.inl ⟨fun hgrows => hgrows, kfree_records h hp⟩
  | write hagree => exact Or.inl ⟨fun hgrows => hgrows, h.write_records hagree⟩

theorem HeapReady.step (h : HeapReady heap) (hstep : CleanStep heap op heap') : HeapReady heap' := by
  have hinv := heapStep_inv h.toHeapInv hstep.1 hstep.2
  rcases heapStep_cases h.toHeapInv hstep with ⟨-, hsame⟩ | ⟨-, grant, -, hgrew⟩
  · exact hsame.ready h hinv
  · exact hgrew.ready h hinv

end Steps

/-! ## Arenas that stay on the list -/

/-- Every arena except the one for high priority is on the list of `__mem`, and for each of its free
chunks `__find_free` finds a chunk that is as good: this one, if no other one fits. -/
structure ArenasKept (heap : Heap) : Prop where
  listed : ∀ a ∈ heap.arenas, a.record ≠ heap.highPrio →
    ArenasFrom heap.mem heap.memArena a.record
  found : ∀ a ∈ heap.arenas, a.record ≠ heap.highPrio → ∀ cs, a.Chunks heap.mem cs → ∀ c ∈ cs,
    (readChunk heap.mem c).free = true → ∀ size ≤ (readChunk heap.mem c).size,
      ∃ d, FitChunk heap heap.memArena size d ∧
        findFree heap.mem heap.memArena size = .ok (d, splitBlockAt heap.mem d size) ∧
        ((∀ e, FitChunk heap heap.memArena size e → e = c) → d = c)

/-- The arenas are `__high_prio`, `__mem` and the successor of `__mem`. -/
structure HeapListed (heap : Heap) : Prop extends HeapReady heap where
  notHigh : (readArena heap.mem heap.memArena).next ≠ heap.highPrio
  known : ∀ a ∈ heap.arenas, a.record ≠ heap.highPrio →
    a.record = heap.memArena ∨ a.record = (readArena heap.mem heap.memArena).next

section Kept

variable {heap heap' : Heap} {grant : ArenaGrant} {op : HeapOp}

theorem HeapListed.kept (h : HeapListed heap) : ArenasKept heap := by
  have hinv := h.toHeapInv
  have hlisted : ∀ a ∈ heap.arenas, a.record ≠ heap.highPrio →
      ArenasFrom heap.mem heap.memArena a.record := by
    intro a ha hne
    have hpos := (hinv.apart.sane a ha).1
    rw [hinv.listed_iff]
    rcases h.known a ha hne with hfirst | hsecond
    · exact Or.inl hfirst
    · exact Or.inr ⟨by omega, hsecond⟩
  refine ⟨hlisted, fun a ha hne cs hcs c hc hfree size hsize => ?_⟩
  have hfit : FitChunk heap heap.memArena size c :=
    ⟨⟨a, ha, hlisted a ha hne, cs, hcs, hc⟩, hfree, hsize⟩
  rcases @findFree_walk _ size _ hinv hinv.memArena with ⟨hnone, -⟩ | ⟨d, hd, hfind⟩
  · exact absurd ⟨c, hfit⟩ hnone
  · exact ⟨d, hd, hfind, fun honly => honly d hd⟩

theorem HeapListed.same (h : HeapListed heap) (hready : HeapReady heap')
    (hsame : SameRecords heap heap') : HeapListed heap' := by
  have hnext := hsame.next_eq h.toHeapInv
  refine ⟨hready, ?_, fun a ha hne => ?_⟩
  · rw [hnext, hsame.highPrio]
    exact h.notHigh
  · rw [hsame.arenas] at ha
    rw [hsame.highPrio] at hne
    rw [hnext, hsame.memArena]
    exact h.known a ha hne

/-- The first arena that is added follows `__mem`. -/
theorem HeapListed.grew (h : HeapListed heap) (hready : HeapReady heap')
    (hfresh : grant.Fresh heap) (hgrew : Grew heap grant heap')
    (hlast : (readArena heap.mem heap.memArena).next = 0) : HeapListed heap' := by
  refine ⟨hready, ?_, fun a ha hne => ?_⟩
  · obtain ⟨b, hb, hhigh⟩ := h.highPrio
    rw [hgrew.next, hgrew.highPrio, ← hhigh]
    exact (hfresh.1 b hb).symm
  · rw [hgrew.highPrio] at hne
    rw [hgrew.next, hgrew.memArena]
    rw [hgrew.arenas] at ha
    rcases List.mem_cons.mp ha with rfl | ha
    · exact Or.inr rfl
    · have hpos := (h.apart.sane a ha).1
      rcases h.known a ha hne with hfirst | hsecond
      · exact Or.inl hfirst
      · omega

theorem HeapListed.step (h : HeapListed heap) (hstep : CleanStep heap op heap')
    (honce : GrowsOnce heap op) : HeapListed heap' := by
  have hready := h.toHeapReady.step hstep
  rcases heapStep_cases h.toHeapInv hstep with ⟨-, hsame⟩ | ⟨hgrows, grant, hfresh, hgrew⟩
  · exact h.same hready hsame
  · exact h.grew hready hfresh hgrew (honce hgrows)

/-- Another growth drops the arena that followed `__mem`. -/
theorem HeapListed.lost (h : HeapListed heap) (hstep : CleanStep heap op heap')
    (hkept : ArenasKept heap') : GrowsOnce heap op := by
  intro hgrows
  rcases heapStep_cases h.toHeapInv hstep with ⟨hnot, -⟩ | ⟨-, grant, hfresh, hgrew⟩
  · exact absurd hgrows hnot
  by_contra hnext
  obtain ⟨b, hb, hbne, hbnext⟩ := h.memNext.resolve_left hnext
  have hinv := (h.toHeapReady.step hstep).toHeapInv
  have hb' : b ∈ heap'.arenas := by
    rw [hgrew.arenas]
    exact List.mem_cons_of_mem _ hb
  have hhigh : b.record ≠ heap'.highPrio := by
    rw [hgrew.highPrio, ← hbnext]
    exact h.notHigh
  rcases hinv.listed_iff.mp (hkept.listed b hb' hhigh) with hfirst | ⟨-, hsecond⟩
  · exact hbne (hfirst.trans hgrew.memArena)
  · rw [hgrew.next] at hsecond
    exact hfresh.1 b hb hsecond

end Kept

/-! ## Runs -/

section Runs

variable {mem : Memory} {memRecord highRecord base hp : Nat} {slabEmpty : Bool} {heap₀ : Heap}

/-- After `mmu_heap_init` the list is `__mem` alone. -/
theorem mmuHeapInit_listed (hboot : HeapBoot mem memRecord highRecord base hp)
    (hinit : mmuHeapInit mem memRecord highRecord base hp slabEmpty = .ok heap₀) :
    HeapListed heap₀ := by
  have hinv := mmuHeapInit_inv hboot hinit
  rw [mmuHeapInit] at hinit
  obtain ⟨heap₁, hcache, hrest⟩ := Halt.bind_eq_ok.mp hinit
  simp only [Halt.pure_eq_ok, Except.ok.injEq] at hrest
  have hsame := (createArenaCache_inv hboot.inv rfl hcache).2
  have hnext : (readArena heap₁.mem heap₁.memArena).next = 0 := by
    rw [hsame.next_eq hboot.inv, (hboot.written rfl).1]
  have hhigh : 0 < highRecord := (hboot.apart.sane _ List.mem_cons_self).1
  have harenas : ∀ a ∈ heap₁.arenas, a = ⟨highRecord, hp, blockSize 1⟩ ∨
      a = ⟨memRecord, base, blockSize heapArenaSize⟩ := by
    intro a ha
    rw [hsame.arenas] at ha
    simpa using ha
  subst hrest
  refine ⟨⟨hinv, rfl, fun a ha => ?_⟩, ?_, fun a ha hne => ?_⟩
  · rcases harenas a ha with rfl | rfl
    · have hle : blockSize 1 ≤ blockSize heapArenaSize := by decide
      exact hle
    · exact le_rfl
  · dsimp only
    rw [hnext, hsame.highPrio]
    exact hhigh.ne
  · rcases harenas a ha with rfl | rfl
    · exact absurd hsame.highPrio.symm hne
    · exact Or.inl hsame.memArena.symm

/-- Along a run all arenas stay on the list, and their free chunks can be found, exactly if the heap
never grows while `__mem` has a successor.  In every state a request is served exactly if it fits
into one arena and a chunk is there or the slab allocator can supply the record of a new arena. -/
theorem heap_growth_right_iff (hboot : HeapBoot mem memRecord highRecord base hp)
    (hinit : mmuHeapInit mem memRecord highRecord base hp slabEmpty = .ok heap₀)
    (ops : List HeapOp) :
    ((∀ pre heap, pre <+: ops → Run CleanStep heap₀ pre heap → ArenasKept heap) ↔
      ∀ pre op heap heap', pre ++ [op] <+: ops → Run CleanStep heap₀ pre heap →
        CleanStep heap op heap' → GrowsOnce heap op) ∧
    ∀ heap, Run CleanStep heap₀ ops heap → ∀ size grant,
      (¬ heap.Fits size → grant.Fresh heap ∧ grant.Clean heap) →
        (Served heap grant size ↔ size ≤ blockSize heapArenaSize - chunkHeaderSize ∧
          (heap.Fits size ∨ (grant.slabEmpty = true → heap.Fits 40))) := by
  have hstart := mmuHeapInit_listed hboot hinit
  constructor
  · exact Run.safe_iff (fun _ h => h.kept) (fun _ _ _ h hstep honce => h.step hstep honce)
      (fun _ _ _ h hstep hkept => h.lost hstep hkept) hstart ops
  · intro heap hrun size grant hgrant
    have hready : HeapReady heap :=
      hrun.invariant HeapReady (fun _ _ _ h hstep => h.step hstep) hstart.toHeapReady
    exact served_iff hready hgrant

end Runs

/-! ## A run that grows once, and one that grows twice -/

/-- The grant of a second arena at `0x50000` with its record at `0x30040`. -/
def secondGrant : ArenaGrant := ⟨0x30040, 0x50000, false⟩

theorem secondGrant_fresh {heap : Heap} (harenas : heap.arenas = smallGrant.arena :: smallArenas) :
    secondGrant.Fresh heap := by
  rw [ArenaGrant.Fresh, harenas]
  refine ⟨by decide, ?_⟩
  exact arenasApart_of_bounds (by decide) (by decide) (by decide) (by decide)

/-- A successful `kmalloc` is the only step with its arguments. -/
theorem cleanStep_kmalloc {heap heap' heap'' : Heap} {size p : Nat} {flags : MmFlags}
    {grant : ArenaGrant} (hcall : kmalloc heap grant size flags = .ok (p, heap'))
    (hstep : CleanStep heap (.kmalloc size flags grant) heap'') : heap'' = heap' := by
  obtain ⟨hstep, -⟩ := hstep
  cases hstep with
  | kmalloc _ hcall' =>
      rw [hcall, Except.ok.injEq, Prod.mk.injEq] at hcall'
      exact hcall'.2.symm

theorem growing_run_keeps_arenas :
    ∃ heap₀ heap,
      Run CleanStep heap₀ [.kmalloc 8192 ⟨false, false⟩ smallGrant,
        .kmalloc 10000 ⟨false, false⟩ smallGrant] heap ∧
      heap.arenas = smallGrant.arena :: smallArenas ∧ ArenasKept heap ∧
      Served heap secondGrant 12000 ∧ ¬ Served heap secondGrant 20000 := by
  have hresult : growingRun.map (fun r => ((r.1.arenas, r.2.1.arenas, r.2.2.arenas),
      (readArena r.1.mem smallGrant.record).next, (readArena r.2.1.mem smallGrant.record).next,
      (readArena r.2.2.mem secondGrant.record).next, (readArena r.1.mem r.1.memArena).next,
      (readArena r.2.1.mem r.2.1.memArena).next)) =
      .ok ((smallArenas, smallArenas, smallGrant.arena :: smallArenas), 0, 0, 0, 0, 0) := by
    decide +kernel
  obtain ⟨⟨heap₀, heap₁, heap₂⟩, hall, hvalues⟩ := Halt.map_eq_ok.mp hresult
  simp only [Prod.mk.injEq] at hvalues
  obtain ⟨⟨harenas₀, harenas₁, harenas₂⟩, hclean₀, hclean₁, hclean₂, hnext₀, hnext₁⟩ := hvalues
  obtain ⟨heap₀', hinit, hrest⟩ := Halt.bind_eq_ok.mp hall
  obtain ⟨⟨p, heap₁'⟩, hfirst, hrest⟩ := Halt.bind_eq_ok.mp hrest
  obtain ⟨⟨q, heap₂'⟩, hsecond, hrest⟩ := Halt.bind_eq_ok.mp hrest
  cases hrest
  have hrun : Run CleanStep heap₀ ([] ++ [.kmalloc 8192 ⟨false, false⟩ smallGrant] ++
      [.kmalloc 10000 ⟨false, false⟩ smallGrant]) heap₂ :=
    (Run.nil.snoc ⟨.kmalloc (fun _ => smallGrant_fresh harenas₀) hfirst, fun _ => hclean₀⟩).snoc
      ⟨.kmalloc (fun _ => smallGrant_fresh harenas₁) hsecond, fun _ => hclean₁⟩
  obtain ⟨hkept, hserved⟩ := heap_growth_right_iff smallHeap_boot hinit
    [.kmalloc 8192 ⟨false, false⟩ smallGrant, .kmalloc 10000 ⟨false, false⟩ smallGrant]
  have honce : ∀ pre op heap heap', pre ++ [op] <+:
      [.kmalloc 8192 ⟨false, false⟩ smallGrant, .kmalloc 10000 ⟨false, false⟩ smallGrant] →
      Run CleanStep heap₀ pre heap → CleanStep heap op heap' → GrowsOnce heap op := by
    intro pre op heap heap' hpre hrun _ _
    rcases pre with _ | ⟨first, _ | ⟨second, rest⟩⟩
    · rw [hrun.of_nil]
      exact hnext₀
    · have hone : Run CleanStep heap₀ ([] ++ [first]) heap := hrun
      obtain ⟨heap', hnil, hstep⟩ := hone.of_concat
      rw [hnil.of_nil] at hstep
      obtain ⟨rest, hrest⟩ := hpre
      simp only [List.cons_append, List.nil_append, List.cons.injEq] at hrest
      rw [hrest.1] at hstep
      rw [cleanStep_kmalloc hfirst hstep]
      exact hnext₁
    · have := hpre.length_le
      simp at this
  have hgrant : ∀ size, ¬ heap₂.Fits size → secondGrant.Fresh heap₂ ∧ secondGrant.Clean heap₂ :=
    fun _ _ => ⟨secondGrant_fresh harenas₂, hclean₂⟩
  refine ⟨heap₀, heap₂, hrun, harenas₂, hkept.mpr honce _ heap₂ List.prefix_rfl hrun, ?_, ?_⟩
  · rw [hserved heap₂ hrun 12000 secondGrant (hgrant 12000)]
    exact ⟨by decide, Or.inr fun hempty => absurd hempty (by decide)⟩
  · rw [hserved heap₂ hrun 20000 secondGrant (hgrant 20000)]
    exact fun hfit => absurd hfit.1 (by decide)

/-- Three allocations, of which the last two need a new arena, and the release of the second. -/
def losingRun : Except Halt (Heap × Heap × Heap × Heap) := do
  let heap₀ ← mmuHeapInit zeroMemory 0x1000 0x1100 0x10000 0x20000 false
  let (_, heap₁) ← kmalloc heap₀ smallGrant 16000 ⟨false, false⟩
  let (_, heap₂) ← kmalloc heap₁ smallGrant 16000 ⟨false, false⟩
  let (_, heap₃) ← kmalloc heap₂ secondGrant 16000 ⟨false, false⟩
  pure (heap₀, heap₁, heap₂, heap₃)

/-- The second growth takes the first added arena off the list, and the chunk that is released there is
not found again.  A request of 20000 bytes fails although an arena can be supplied. -/
theorem second_growth_loses_arena :
    ∃ heap₀ heap, HeapBoot zeroMemory 0x1000 0x1100 0x10000 0x20000 ∧
      mmuHeapInit zeroMemory 0x1000 0x1100 0x10000 0x20000 false = .ok heap₀ ∧
      Run CleanStep heap₀ [.kmalloc 16000 ⟨false, false⟩ smallGrant,
        .kmalloc 16000 ⟨false, false⟩ smallGrant, .kmalloc 16000 ⟨false, false⟩ secondGrant,
        .kfree ⟨0x40019, 16000⟩] heap ∧
      smallGrant.arena ∈ heap.arenas ∧ ¬ ArenasFrom heap.mem heap.memArena smallGrant.record ∧
      readChunk heap.mem smallGrant.base = ⟨16000, true, 0x43e99, 0⟩ ∧
      (findFree heap.mem heap.memArena 16000).map Prod.fst = .ok 0 ∧ ¬ ArenasKept heap ∧
      smallGrant.Fresh heap₀ ∧ smallGrant.Clean heap₀ ∧ ¬ Served heap₀ smallGrant 20000 := by
  have hresult : losingRun.map (fun r =>
      (r.1.arenas, r.2.1.arenas, r.2.2.1.arenas, r.2.2.2.arenas, r.2.2.2.live)) =
      .ok (smallArenas, smallArenas, smallGrant.arena :: smallArenas,
        secondGrant.arena :: smallGrant.arena :: smallArenas,
        [⟨0x50019, 16000⟩, ⟨0x40019, 16000⟩, ⟨0x10062, 16000⟩, ⟨0x10019, 48⟩]) := by
    decide +kernel
  have hclean : losingRun.map (fun r => ((readArena r.1.mem smallGrant.record).next,
      (readArena r.2.1.mem smallGrant.record).next,
      (readArena r.2.2.1.mem secondGrant.record).next,
      (kmalloc r.1 smallGrant 20000 ⟨false, false⟩).map Prod.fst)) =
      .ok (0, 0, 0, .error .kassert) := by
    decide +kernel
  have hlost : losingRun.map (fun r => (readChunk (kfree r.2.2.2 0x40019).mem smallGrant.base,
      (findFree (kfree r.2.2.2 0x40019).mem r.2.2.2.memArena 16000).map Prod.fst,
      r.2.2.2.highPrio, r.2.2.2.memArena,
      (readArena (kfree r.2.2.2 0x40019).mem r.2.2.2.memArena).next,
      (readArena (kfree r.2.2.2 0x40019).mem secondGrant.record).next)) =
      .ok (⟨16000, true, 0x43e99, 0⟩, .ok 0, 0x1100, 0x1000, secondGrant.record, 0) := by
    decide +kernel
  obtain ⟨⟨heap₀, heap₁, heap₂, heap₃⟩, hall, hvalues⟩ := Halt.map_eq_ok.mp hresult
  rw [hall] at hclean hlost
  have hclean := Except.ok.inj hclean
  have hlost := Except.ok.inj hlost
  simp only [Prod.mk.injEq] at hvalues hclean hlost
  obtain ⟨harenas₀, harenas₁, harenas₂, harenas₃, hlive₃⟩ := hvalues
  obtain ⟨hclean₀, hclean₁, hclean₂, hbig⟩ := hclean
  obtain ⟨hchunk, hfind, hhigh, hmemArena, hnext, hlast⟩ := hlost
  obtain ⟨heap₀', hinit, hrest⟩ := Halt.bind_eq_ok.mp hall
  obtain ⟨⟨p, heap₁'⟩, hfirst, hrest⟩ := Halt.bind_eq_ok.mp hrest
  obtain ⟨⟨q, heap₂'⟩, hsecond, hrest⟩ := Halt.bind_eq_ok.mp hrest
  obtain ⟨⟨r, heap₃'⟩, hthird, hrest⟩ := Halt.bind_eq_ok.mp hrest
  cases hrest
  have hfreed : ⟨0x40019, 16000⟩ ∈ heap₃.live := by
    rw [hlive₃]
    decide
  have hrun : Run CleanStep heap₀ ([] ++ [.kmalloc 16000 ⟨false, false⟩ smallGrant] ++
      [.kmalloc 16000 ⟨false, false⟩ smallGrant] ++ [.kmalloc 16000 ⟨false, false⟩ secondGrant] ++
      [.kfree ⟨0x40019, 16000⟩]) (kfree heap₃ 0x40019) :=
    (((Run.nil.snoc ⟨.kmalloc (fun _ => smallGrant_fresh harenas₀) hfirst, fun _ => hclean₀⟩).snoc
      ⟨.kmalloc (fun _ => smallGrant_fresh harenas₁) hsecond, fun _ => hclean₁⟩).snoc
      ⟨.kmalloc (fun _ => secondGrant_fresh harenas₂) hthird, fun _ => hclean₂⟩).snoc
      ⟨.kfree hfreed, trivial⟩
  have hmem : smallGrant.arena ∈ (kfree heap₃ 0x40019).arenas := by
    rw [show (kfree heap₃ 0x40019).arenas = _ from harenas₃]
    decide
  have hoff : ¬ ArenasFrom (kfree heap₃ 0x40019).mem heap₃.memArena smallGrant.record := by
    rw [arenasFrom_iff, hnext, arenasFrom_iff, hlast, hmemArena]
    simp [smallGrant, secondGrant]
  refine ⟨heap₀, kfree heap₃ 0x40019, smallHeap_boot, hinit, hrun, hmem, hoff, hchunk, hfind, ?_,
    smallGrant_fresh harenas₀, hclean₀, ?_⟩
  · intro hkept
    refine hoff (hkept.listed smallGrant.arena hmem ?_)
    rw [show (kfree heap₃ 0x40019).highPrio = _ from hhigh]
    decide
  · rintro ⟨p, heap', hcall, -⟩
    rw [hcall] at hbig
    cases hbig

end Mm
end Micael
