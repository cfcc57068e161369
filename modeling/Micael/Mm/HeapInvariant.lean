import Micael.Foundation.Run
import Micael.Mm.HeapChunks
import Mathlib.Order.CompletePartialOrder

/-!
# The kernel heap never hands out a byte twice

Main results:

- Theorem {lit}`kmalloc_inv` and {lit}`kfree_inv`: allocation and release keep every arena tiled by
  its chunks and every live payload inside a chunk of its own.
- Theorem {lit}`heap_tiled`: in every run in which the slab allocator hands out arena records whose
  `next` field is null, all arenas are tiled and all live payloads are apart.
- Theorem {lit}`heap_overlap_of_stale_next`: with a stale `next` field, `kmalloc` returns memory
  that is in use.
-/

namespace Micael
namespace Mm

open Foundation

/-! ## The invariant -/

/-- The bytes of an arena's record. -/
def ArenaBlock.recordBytes (a : ArenaBlock) : Set Nat :=
  Set.Ico a.record (a.record + arenaRecordSize)

/-- Where an arena ends. -/
def ArenaBlock.stop (a : ArenaBlock) : Nat := a.base + a.size

/-- The bytes of an arena. -/
def ArenaBlock.bytes (a : ArenaBlock) : Set Nat := Set.Ico a.base a.stop

/-- The chunks of an arena, in order. -/
def ArenaBlock.Chunks (a : ArenaBlock) (mem : Memory) (cs : List Nat) : Prop :=
  ChunkChain (readChunk mem) a.stop 0 a.base cs

/-- The bytes of a payload. -/
def Payload.bytes (p : Payload) : Set Nat := Set.Ico p.start (p.start + p.size)

/-- The bytes of a chunk header. -/
def headerBytes (c : Nat) : Set Nat := Set.Ico c (c + chunkHeaderSize)

/-- What the heap promises: every arena is tiled by its chunks, live payloads are
pairwise apart, and none of them overlaps a chunk header. -/
structure HeapTiled (heap : Heap) : Prop where
  tiled : ∀ a ∈ heap.arenas, (readArena heap.mem a.record).base = a.base ∧
    (readArena heap.mem a.record).size = a.size ∧ 0 < a.size ∧ ∃ cs, a.Chunks heap.mem cs
  disjoint : heap.live.Pairwise fun p q => Disjoint p.bytes q.bytes
  headers : ∀ p ∈ heap.live, ∀ a ∈ heap.arenas, ∀ cs, a.Chunks heap.mem cs →
    ∀ c ∈ cs, Disjoint p.bytes (headerBytes c)

/-- A payload is the payload of a used chunk of the arena. -/
def LivesIn (mem : Memory) (a : ArenaBlock) (p : Payload) : Prop :=
  ∃ cs c, a.Chunks mem cs ∧ c ∈ cs ∧ p.start = c + chunkHeaderSize ∧
    (readChunk mem c).free = false ∧ p.size ≤ (readChunk mem c).size

/-- The bytes given to an arena are inside the address space and apart from those of
the other arenas. -/
structure ArenasApart (arenas : List ArenaBlock) : Prop where
  sane : ∀ a ∈ arenas, 0 < a.record ∧ 0 < a.base ∧ 0 < a.size ∧ a.stop ≤ 2 ^ 64 ∧
    a.record < 2 ^ 64
  records : ∀ a ∈ arenas, ∀ b ∈ arenas, a ≠ b → Disjoint a.recordBytes b.recordBytes
  blocks : ∀ a ∈ arenas, ∀ b ∈ arenas, a ≠ b → Disjoint a.bytes b.bytes
  mixed : ∀ a ∈ arenas, ∀ b ∈ arenas, Disjoint a.recordBytes b.bytes

/-- The invariant of the heap.  Only `__mem` has a successor, and its successor has none. -/
structure HeapInv (heap : Heap) : Prop where
  apart : ArenasApart heap.arenas
  record : ∀ a ∈ heap.arenas, (readArena heap.mem a.record).base = a.base ∧
    (readArena heap.mem a.record).size = a.size ∧ (readArena heap.mem a.record).lock = 0
  next : ∀ a ∈ heap.arenas, a.record ≠ heap.memArena → (readArena heap.mem a.record).next = 0
  memNext : (readArena heap.mem heap.memArena).next = 0 ∨
    ∃ b ∈ heap.arenas, b.record ≠ heap.memArena ∧
      (readArena heap.mem heap.memArena).next = b.record
  memArena : ∃ a ∈ heap.arenas, a.record = heap.memArena
  highPrio : ∃ a ∈ heap.arenas, a.record = heap.highPrio
  chunks : ∀ a ∈ heap.arenas, ∃ cs, a.Chunks heap.mem cs
  live : ∀ p ∈ heap.live, ∃ a ∈ heap.arenas, LivesIn heap.mem a p
  nodup : heap.live.Pairwise fun p q => p.start ≠ q.start

section Invariant

variable {heap : Heap} {mem mem' : Memory} {a b : ArenaBlock} {p q : Payload} {c : Nat}
  {cs : List Nat}

theorem ArenaBlock.Chunks.header_subset (h : a.Chunks mem cs) (hc : c ∈ cs) :
    headerBytes c ⊆ a.bytes := by
  intro x hx
  have hbounds := ChunkChain.bounds h hc
  rw [headerBytes, Set.mem_Ico] at hx
  rw [ArenaBlock.bytes, Set.mem_Ico]
  unfold chunkStop at hbounds
  omega

/-- The chunks of an arena stay when its headers do. -/
theorem ArenaBlock.Chunks.congr (h : a.Chunks mem cs)
    (hagree : ∀ c ∈ cs, Memory.Agree (headerBytes c) mem' mem) : a.Chunks mem' cs := by
  refine ChunkChain.congr h fun c hc => ?_
  rw [readChunk_congr (hagree c hc)]
  exact ⟨rfl, rfl, rfl⟩

theorem LivesIn.congr (h : LivesIn mem a p)
    (hagree : ∀ cs, a.Chunks mem cs → ∀ c ∈ cs, Memory.Agree (headerBytes c) mem' mem) :
    LivesIn mem' a p := by
  obtain ⟨cs, c, hcs, hc, hstart, hfree, hsize⟩ := h
  refine ⟨cs, c, hcs.congr (hagree cs hcs), hc, hstart, ?_⟩
  rw [readChunk_congr (hagree cs hcs c hc)]
  exact ⟨hfree, hsize⟩

/-- A live payload lies in its arena. -/
theorem LivesIn.subset (h : LivesIn mem a p) : p.bytes ⊆ a.bytes := by
  obtain ⟨cs, c, hcs, hc, hstart, -, hsize⟩ := h
  have hbounds := ChunkChain.bounds hcs hc
  intro x hx
  rw [Payload.bytes, Set.mem_Ico] at hx
  rw [ArenaBlock.bytes, Set.mem_Ico]
  unfold chunkStop at hbounds
  omega

/-- A live payload overlaps no header of its arena. -/
theorem LivesIn.disjoint_header (h : LivesIn mem a p) (hcs : a.Chunks mem cs) (hc : c ∈ cs) :
    Disjoint p.bytes (headerBytes c) := by
  obtain ⟨cs', d, hcs', hd, hstart, -, hsize⟩ := h
  obtain rfl := ChunkChain.unique hcs hcs'
  rw [Set.disjoint_left]
  intro x hx hx'
  rw [Payload.bytes, Set.mem_Ico] at hx
  rw [headerBytes, Set.mem_Ico] at hx'
  by_cases hne : d = c
  · omega
  · have := ChunkChain.apart hcs hd hc hne
    unfold chunkStop at this
    omega

/-- Two live payloads of one arena do not overlap. -/
theorem LivesIn.disjoint (hp : LivesIn mem a p) (hq : LivesIn mem a q) (hne : p.start ≠ q.start) :
    Disjoint p.bytes q.bytes := by
  obtain ⟨cs, c, hcs, hc, hpstart, -, hpsize⟩ := hp
  obtain ⟨cs', d, hcs', hd, hqstart, -, hqsize⟩ := hq
  obtain rfl := ChunkChain.unique hcs hcs'
  have hapart := ChunkChain.apart hcs hc hd (by omega)
  rw [Set.disjoint_left]
  intro x hx hx'
  rw [Payload.bytes, Set.mem_Ico] at hx hx'
  unfold chunkStop at hapart
  omega

/-- The invariant gives what the heap promises. -/
theorem HeapInv.tiled (h : HeapInv heap) : HeapTiled heap where
  tiled a ha := by
    obtain ⟨hbase, hsize, -⟩ := h.record a ha
    exact ⟨hbase, hsize, (h.apart.sane a ha).2.2.1, h.chunks a ha⟩
  disjoint := by
    refine h.nodup.imp_of_mem fun {p q} hp hq hne => ?_
    obtain ⟨a, ha, hpa⟩ := h.live p hp
    obtain ⟨b, hb, hqb⟩ := h.live q hq
    by_cases hab : a = b
    · subst hab
      exact hpa.disjoint hqb hne
    · exact (h.apart.blocks a ha b hb hab).mono hpa.subset hqb.subset
  headers p hp a ha cs hcs c hc := by
    obtain ⟨b, hb, hpb⟩ := h.live p hp
    by_cases hab : a = b
    · subst hab
      exact hpb.disjoint_header hcs hc
    · exact (h.apart.blocks b hb a ha (Ne.symm hab)).mono hpb.subset (hcs.header_subset hc)

/-- The invariant depends on the arena records and the chunk headers only. -/
theorem HeapInv.congr (h : HeapInv heap)
    (hrecord : ∀ a ∈ heap.arenas, Memory.Agree a.recordBytes mem' heap.mem)
    (hheader : ∀ a ∈ heap.arenas, ∀ cs, a.Chunks heap.mem cs → ∀ c ∈ cs,
      Memory.Agree (headerBytes c) mem' heap.mem) :
    HeapInv { heap with mem := mem' } := by
  have hread : ∀ a ∈ heap.arenas, readArena mem' a.record = readArena heap.mem a.record :=
    fun a ha => readArena_congr (hrecord a ha)
  obtain ⟨a₀, ha₀, hmemArena⟩ := h.memArena
  refine
    { apart := h.apart
      record := fun a ha => ?_
      next := fun a ha hne => ?_
      memNext := ?_
      memArena := h.memArena
      highPrio := h.highPrio
      chunks := fun a ha => ?_
      live := fun p hp => ?_
      nodup := h.nodup }
  · simpa only [hread a ha] using h.record a ha
  · simpa only [hread a ha] using h.next a ha hne
  · have := h.memNext
    simp only [← hmemArena] at this ⊢
    rwa [hread a₀ ha₀]
  · obtain ⟨cs, hcs⟩ := h.chunks a ha
    exact ⟨cs, hcs.congr (hheader a ha cs hcs)⟩
  · obtain ⟨a, ha, hpa⟩ := h.live p hp
    exact ⟨a, ha, hpa.congr (hheader a ha)⟩

/-- Writes to live payloads and outside the heap leave the arena records. -/
theorem HeapInv.agree_record (h : HeapInv heap) (ha : a ∈ heap.arenas)
    (hagree : ∀ x, (∀ p ∈ heap.live, x ∉ p.bytes) →
      (∃ a ∈ heap.arenas, x ∈ a.recordBytes ∨ x ∈ a.bytes) → mem' x = heap.mem x) :
    Memory.Agree a.recordBytes mem' heap.mem := by
  intro x hx
  refine hagree x (fun p hp hxp => ?_) ⟨a, ha, Or.inl hx⟩
  obtain ⟨b, hb, hpb⟩ := h.live p hp
  exact Set.disjoint_left.mp (h.apart.mixed a ha b hb) hx (hpb.subset hxp)

/-- Users of the heap may write to their payloads, and other code to memory that is
not the heap's. -/
theorem HeapInv.write (h : HeapInv heap)
    (hagree : ∀ x, (∀ p ∈ heap.live, x ∉ p.bytes) →
      (∃ a ∈ heap.arenas, x ∈ a.recordBytes ∨ x ∈ a.bytes) → mem' x = heap.mem x) :
    HeapInv { heap with mem := mem' } := by
  refine h.congr (fun a ha => h.agree_record ha hagree) fun a ha cs hcs c hc x hx => ?_
  refine hagree x (fun p hp hxp => ?_) ⟨a, ha, Or.inr (hcs.header_subset hc hx)⟩
  exact Set.disjoint_left.mp (h.tiled.headers p hp a ha cs hcs c hc) hxp hx

/-- Changing one arena's chunks and the payloads in it. -/
theorem HeapInv.changeArena (h : HeapInv heap) (ha : a ∈ heap.arenas)
    {live : List Payload} (hagree : Memory.Agree a.bytesᶜ mem' heap.mem)
    (hcs : a.Chunks mem' cs)
    (hlive : ∀ p ∈ live, LivesIn mem' a p ∨ ∃ b ∈ heap.arenas, b ≠ a ∧ LivesIn heap.mem b p)
    (hnodup : live.Pairwise fun p q => p.start ≠ q.start) :
    HeapInv { heap with
      mem := mem'
      live := live } := by
  have hread : ∀ b ∈ heap.arenas, readArena mem' b.record = readArena heap.mem b.record := by
    intro b hb
    refine readArena_congr (hagree.mono fun x hx hxa => ?_)
    exact Set.disjoint_left.mp (h.apart.mixed b hb a ha) hx hxa
  have hother : ∀ b ∈ heap.arenas, b ≠ a → ∀ cs, b.Chunks heap.mem cs → ∀ c ∈ cs,
      Memory.Agree (headerBytes c) mem' heap.mem := by
    intro b hb hne cs hcs c hc
    refine hagree.mono fun x hx hxa => ?_
    exact Set.disjoint_left.mp (h.apart.blocks b hb a ha hne) (hcs.header_subset hc hx) hxa
  obtain ⟨a₀, ha₀, hmemArena⟩ := h.memArena
  refine
    { apart := h.apart
      record := fun b hb => ?_
      next := fun b hb hne => ?_
      memNext := ?_
      memArena := h.memArena
      highPrio := h.highPrio
      chunks := fun b hb => ?_
      live := fun p hp => ?_
      nodup := hnodup }
  · simpa only [hread b hb] using h.record b hb
  · simpa only [hread b hb] using h.next b hb hne
  · have := h.memNext
    simp only [← hmemArena] at this ⊢
    rwa [hread a₀ ha₀]
  · by_cases hba : b = a
    · subst hba
      exact ⟨cs, hcs⟩
    · obtain ⟨cs', hcs'⟩ := h.chunks b hb
      exact ⟨cs', hcs'.congr (hother b hb hba cs' hcs')⟩
  · rcases hlive p hp with hpa | ⟨b, hb, hne, hpb⟩
    · exact ⟨a, ha, hpa⟩
    · exact ⟨b, hb, hpb.congr (hother b hb hne)⟩

end Invariant

/-! ## Taking a chunk -/

/-- The chunk `c` of the arena can be handed out for `size` bytes in `mem'`, which
differs from `mem` inside the arena only and keeps the other chunks. -/
structure Prepared (a : ArenaBlock) (mem mem' : Memory) (cs cs' : List Nat) (c size : Nat) :
    Prop where
  chunks : a.Chunks mem' cs'
  mem_c : c ∈ cs'
  size_le : size ≤ (readChunk mem' c).size
  others : ∀ d ∈ cs, d ≠ c → d ∈ cs' ∧ (readChunk mem' d).free = (readChunk mem d).free ∧
    (readChunk mem' d).size = (readChunk mem d).size
  outside : Memory.Agree a.bytesᶜ mem' mem

section Taking

variable {heap : Heap} {mem mem' : Memory} {a : ArenaBlock} {c size : Nat} {cs cs' : List Nat}

/-- `__split_block` prepares a chunk that is large enough. -/
theorem splitBlockAt_prepared (hbase : 0 < a.base) (hstop : a.stop ≤ 2 ^ 64)
    (hcs : a.Chunks mem cs) (hc : c ∈ cs) (hsize : size ≤ (readChunk mem c).size) :
    ∃ cs', Prepared a mem (splitBlockAt mem c size) cs cs' c size := by
  by_cases hsmall : (readChunk mem c).size < size + chunkHeaderSize + splitThreshold
  · rw [splitBlockAt_of_small hsize hsmall]
    exact ⟨cs, hcs, hc, hsize, fun d hd _ => ⟨hd, rfl, rfl⟩, fun _ _ => rfl⟩
  · have hroom := not_lt.mp hsmall
    have hs := splitBlockAt_spec hcs hstop hc hroom
    refine ⟨_, ChunkChain.split hcs hc hbase hs, (mem_insertAfter hc).mpr (Or.inl hc), ?_, ?_,
      splitBlockAt_agree hcs hstop hc hroom⟩
    · rw [hs.head]
    · intro d hd hne
      refine ⟨(mem_insertAfter hc).mpr (Or.inl hd), ?_⟩
      by_cases hnext : d = (readChunk mem c).next
      · have hpos : (readChunk mem c).next ≠ 0 := by
          have := (ChunkChain.bounds hcs hd).1
          omega
        have hafter := hs.after hpos
        rw [← hnext] at hafter
        rw [hafter]
        exact ⟨rfl, rfl⟩
      · rw [hs.other d hd hne hnext]
        exact ⟨rfl, rfl⟩

/-- Clearing the payload of the prepared chunk changes no header. -/
theorem Prepared.fill (h : Prepared a mem mem' cs cs' c size) (byte : UInt8) :
    Prepared a mem (mem'.fill (c + chunkHeaderSize) size byte) cs cs' c size := by
  have hsize := h.size_le
  have hbounds := ChunkChain.bounds h.chunks h.mem_c
  have hheader : ∀ d ∈ cs', Memory.Agree (headerBytes d)
      (mem'.fill (c + chunkHeaderSize) size byte) mem' := by
    intro d hd
    apply Memory.agree_fill
    intro x hx
    rw [headerBytes, Set.mem_Ico] at hx
    by_cases hdc : d = c
    · omega
    · have := ChunkChain.apart h.chunks hd h.mem_c hdc
      unfold chunkStop at this
      omega
  have hread : ∀ d ∈ cs', readChunk (mem'.fill (c + chunkHeaderSize) size byte) d =
      readChunk mem' d := fun d hd => readChunk_congr (hheader d hd)
  refine ⟨h.chunks.congr hheader, h.mem_c, ?_, fun d hd hne => ?_, ?_⟩
  · rwa [hread c h.mem_c]
  · obtain ⟨hd', hfree, hsize'⟩ := h.others d hd hne
    rw [hread d hd']
    exact ⟨hd', hfree, hsize'⟩
  · refine Memory.Agree.trans (Memory.agree_fill fun x hx => ?_) h.outside
    rw [ArenaBlock.bytes, Set.mem_compl_iff, Set.mem_Ico] at hx
    unfold chunkStop at hbounds
    omega

/-- Setting the flag of the prepared chunk changes nothing else. -/
theorem Prepared.setFree (h : Prepared a mem mem' cs cs' c size) (b : Bool) :
    Prepared a mem (setChunkFree mem' c b) cs cs' c size := by
  have hbounds := ChunkChain.bounds h.chunks h.mem_c
  have hother : ∀ d ∈ cs', d ≠ c → readChunk (setChunkFree mem' c b) d = readChunk mem' d :=
    fun d hd hne =>
      readChunk_setChunkFree_of_apart (ChunkChain.headersApart h.chunks h.mem_c hd (Ne.symm hne))
  refine ⟨ChunkChain.congr h.chunks fun d hd => ?_, h.mem_c, ?_, fun d hd hne => ?_, ?_⟩
  · by_cases hdc : d = c
    · subst hdc
      rw [readChunk_setChunkFree]
      exact ⟨rfl, rfl, rfl⟩
    · rw [hother d hd hdc]
      exact ⟨rfl, rfl, rfl⟩
  · rw [readChunk_setChunkFree]
    exact h.size_le
  · obtain ⟨hd', hfree, hsize⟩ := h.others d hd hne
    rw [hother d hd' hne]
    exact ⟨hd', hfree, hsize⟩
  · refine Memory.Agree.trans (Memory.agree_store fun x hx => ?_) h.outside
    rw [ArenaBlock.bytes, Set.mem_compl_iff, Set.mem_Ico] at hx
    unfold chunkStop chunkHeaderSize at hbounds
    omega

/-- The memory after handing out a chunk of the arena. -/
theorem Heap.take_prepared (hbase : 0 < a.base) (hstop : a.stop ≤ 2 ^ 64)
    (hcs : a.Chunks heap.mem cs) (hc : c ∈ cs) (hsize : size ≤ (readChunk heap.mem c).size)
    (flags : MmFlags) :
    ∃ cs', Prepared a heap.mem (heap.take (splitBlockAt heap.mem c size) c size flags).mem
      cs cs' c size := by
  obtain ⟨cs', hprep⟩ := splitBlockAt_prepared hbase hstop hcs hc hsize
  refine ⟨cs', ?_⟩
  rw [Heap.take]
  apply Prepared.setFree
  split
  · exact hprep.fill 0
  · exact hprep

/-- Handing out a free chunk keeps the invariant. -/
theorem HeapInv.take (h : HeapInv heap) (ha : a ∈ heap.arenas) (hcs : a.Chunks heap.mem cs)
    (hc : c ∈ cs) (hfree : (readChunk heap.mem c).free = true)
    (hsize : size ≤ (readChunk heap.mem c).size) (flags : MmFlags) :
    HeapInv (heap.take (splitBlockAt heap.mem c size) c size flags) := by
  obtain ⟨-, hbase, -, hstop, -⟩ := h.apart.sane a ha
  obtain ⟨cs', hprep⟩ := Heap.take_prepared hbase hstop hcs hc hsize flags
  have hused : (readChunk (heap.take (splitBlockAt heap.mem c size) c size flags).mem c).free =
      false := by
    rw [Heap.take, readChunk_setChunkFree]
  -- a used chunk is another chunk, since this one was free
  have hother : ∀ d, (readChunk heap.mem d).free = false → d ≠ c := by
    intro d hused hdc
    rw [hdc, hfree] at hused
    cases hused
  refine h.changeArena ha hprep.outside hprep.chunks ?_ ?_
  · intro p hp
    rcases List.mem_cons.mp hp with rfl | hp
    · exact Or.inl ⟨cs', c, hprep.chunks, hprep.mem_c, rfl, hused, hprep.size_le⟩
    · obtain ⟨b, hb, hpb⟩ := h.live p hp
      by_cases hba : b = a
      · subst hba
        obtain ⟨cs₁, d, hcs₁, hd, hstart, hused, hdsize⟩ := hpb
        obtain rfl := ChunkChain.unique hcs hcs₁
        obtain ⟨hd', hfree', hsize'⟩ := hprep.others d hd (hother d hused)
        rw [← hfree'] at hused
        rw [← hsize'] at hdsize
        exact Or.inl ⟨cs', d, hprep.chunks, hd', hstart, hused, hdsize⟩
      · exact Or.inr ⟨b, hb, hba, hpb⟩
  · refine List.pairwise_cons.mpr ⟨fun p hp hstart => ?_, h.nodup⟩
    obtain ⟨b, hb, hpb⟩ := h.live p hp
    obtain ⟨cs₁, d, hcs₁, hd, hstart', hused, -⟩ := hpb
    refine hother d hused ?_
    simp only at hstart
    omega

end Taking

/-! ## Finding a chunk -/

section Finding

variable {heap : Heap} {a : ArenaBlock} {size first : Nat}

/-- A free chunk of one of the heap's arenas that can hold `size` bytes. -/
structure FreeChunk (heap : Heap) (size c : Nat) : Prop where
  exists_arena : ∃ a ∈ heap.arenas, ∃ cs, a.Chunks heap.mem cs ∧ c ∈ cs
  free : (readChunk heap.mem c).free = true
  size_le : size ≤ (readChunk heap.mem c).size

theorem FreeChunk.ne_zero (h : HeapInv heap) {c : Nat} (hc : FreeChunk heap size c) : c ≠ 0 := by
  obtain ⟨a, ha, cs, hcs, hmem⟩ := hc.exists_arena
  have hbase := (h.apart.sane a ha).2.1
  have := (ChunkChain.bounds hcs hmem).1
  omega

/-- The record that follows another one. -/
def NextArena (mem : Memory) (record next : Nat) : Prop :=
  next ≠ 0 ∧ (readArena mem record).next = next

/-- The records that a walk through `next` from `first` visits. -/
def ArenasFrom (mem : Memory) (first record : Nat) : Prop :=
  Relation.ReflTransGen (NextArena mem) first record

/-- A free chunk of at least `size` bytes in an arena that a walk from `first` visits. -/
structure FitChunk (heap : Heap) (first size c : Nat) : Prop where
  exists_arena : ∃ a ∈ heap.arenas, ArenasFrom heap.mem first a.record ∧
    ∃ cs, a.Chunks heap.mem cs ∧ c ∈ cs
  free : (readChunk heap.mem c).free = true
  size_le : size ≤ (readChunk heap.mem c).size

theorem FitChunk.freeChunk {c : Nat} (hc : FitChunk heap first size c) : FreeChunk heap size c := by
  obtain ⟨a, ha, -, hmem⟩ := hc.exists_arena
  exact ⟨⟨a, ha, hmem⟩, hc.free, hc.size_le⟩

/-- Arenas that are apart have different records. -/
theorem ArenasApart.eq_of_record {arenas : List ArenaBlock} {b : ArenaBlock}
    (hapart : ArenasApart arenas) (ha : a ∈ arenas) (hb : b ∈ arenas)
    (hrecord : a.record = b.record) : a = b := by
  by_contra hne
  have hself : a.record ∈ a.recordBytes := ⟨le_rfl, by unfold arenaRecordSize; omega⟩
  have hother : a.record ∈ b.recordBytes := ⟨hrecord.ge, by unfold arenaRecordSize; omega⟩
  exact Set.disjoint_left.mp (hapart.records a ha b hb hne) hself hother

/-- A walk visits its first record, and then what a walk from the next one does. -/
theorem arenasFrom_iff {mem : Memory} {record : Nat} :
    ArenasFrom mem first record ↔
      record = first ∨ (readArena mem first).next ≠ 0 ∧
        ArenasFrom mem (readArena mem first).next record := by
  constructor
  · intro hwalk
    rcases Relation.ReflTransGen.cases_head hwalk with hhere | ⟨second, ⟨hpos, rfl⟩, hrest⟩
    · exact Or.inl hhere.symm
    · exact Or.inr ⟨hpos, hrest⟩
  · rintro (rfl | ⟨hpos, hrest⟩)
    · exact Relation.ReflTransGen.refl
    · exact Relation.ReflTransGen.head ⟨hpos, rfl⟩ hrest

/-- One turn of the outer loop of `__find_free`: a chunk of this arena, or none fits and the search
goes on. -/
theorem findFreeLoop_arena (h : HeapInv heap) (ha : a ∈ heap.arenas) {cs : List Nat}
    (hcs : a.Chunks heap.mem cs) (n : Nat) :
    (∃ c ∈ cs, ((readChunk heap.mem c).free = true ∧ size ≤ (readChunk heap.mem c).size) ∧
      findFreeLoop heap.mem size (n + 1) a.record = .ok (c, splitBlockAt heap.mem c size)) ∨
    ((∀ c ∈ cs, ¬ ((readChunk heap.mem c).free = true ∧ size ≤ (readChunk heap.mem c).size)) ∧
      findFreeLoop heap.mem size (n + 1) a.record =
        findFreeLoop heap.mem size n (readArena heap.mem a.record).next) := by
  obtain ⟨hrecord, hbase, hsize, hstop, -⟩ := h.apart.sane a ha
  obtain ⟨hbaseEq, -, hlock⟩ := h.record a ha
  have hlength : cs.length < walkFuel := by
    have := ChunkChain.length_le hcs
    unfold walkFuel
    omega
  obtain ⟨block, hblock, hfound, hnone⟩ := @findChunk_spec _ _ _ _ size _ _ hcs hbase hlength
  rw [if_neg (by unfold ArenaBlock.stop; omega)] at hblock
  rw [findFreeLoop, if_neg (by omega), if_neg (by rw [hlock]; decide), hbaseEq, hblock]
  by_cases hnull : block = 0
  · exact Or.inr ⟨hnone hnull, by simp [hnull]⟩
  · obtain ⟨hmem, hfit⟩ := hfound hnull
    exact Or.inl ⟨block, hmem, hfit, by simp [hnull]⟩

/-- The search in an arena without a successor. -/
theorem findFreeLoop_last (h : HeapInv heap) (ha : a ∈ heap.arenas)
    (hnext : (readArena heap.mem a.record).next = 0) (n : Nat) :
    ((¬ ∃ c, FitChunk heap a.record size c) ∧
      findFreeLoop heap.mem size (n + 2) a.record = .ok (0, heap.mem)) ∨
    ∃ c, FitChunk heap a.record size c ∧
      findFreeLoop heap.mem size (n + 2) a.record = .ok (c, splitBlockAt heap.mem c size) := by
  obtain ⟨cs, hcs⟩ := h.chunks a ha
  rcases @findFreeLoop_arena _ _ size h ha _ hcs (n + 1) with ⟨c, hmem, hfit, hfound⟩ | ⟨hnone, hgo⟩
  · exact Or.inr ⟨c, ⟨⟨a, ha, Relation.ReflTransGen.refl, cs, hcs, hmem⟩, hfit.1, hfit.2⟩, hfound⟩
  · refine Or.inl ⟨?_, ?_⟩
    · rintro ⟨c, hc⟩
      obtain ⟨b, hb, hwalk, cs', hcs', hmem⟩ := hc.exists_arena
      rcases arenasFrom_iff.mp hwalk with hhere | ⟨hpos, -⟩
      · obtain rfl := h.apart.eq_of_record hb ha hhere
        obtain rfl := ChunkChain.unique hcs hcs'
        exact hnone c hmem ⟨hc.free, hc.size_le⟩
      · exact hpos hnext
    · rw [hgo, hnext, findFreeLoop, if_pos rfl]

/-- `__find_free` ends: it finds nothing and no chunk of the arenas that it visits fits, or it finds
one that does and splits it. -/
theorem findFree_walk (h : HeapInv heap) (hfirst : ∃ a ∈ heap.arenas, a.record = first) :
    ((¬ ∃ c, FitChunk heap first size c) ∧
      findFree heap.mem first size = .ok (0, heap.mem)) ∨
    ∃ c, FitChunk heap first size c ∧
      findFree heap.mem first size = .ok (c, splitBlockAt heap.mem c size) := by
  obtain ⟨a, ha, rfl⟩ := hfirst
  obtain ⟨k, hk⟩ : ∃ k, walkFuel = k + 3 := ⟨2 ^ 64 - 3, by norm_num [walkFuel]⟩
  rw [findFree, hk]
  by_cases hnext : (readArena heap.mem a.record).next = 0
  · exact findFreeLoop_last h ha hnext (k + 1)
  -- the arena is `__mem`, and its successor has none
  have hmem : a.record = heap.memArena := by
    by_contra hne
    exact hnext (h.next a ha hne)
  obtain ⟨b, hb, hbne, hbnext⟩ : ∃ b ∈ heap.arenas, b.record ≠ heap.memArena ∧
      (readArena heap.mem a.record).next = b.record := by
    rw [hmem] at hnext ⊢
    exact h.memNext.resolve_left hnext
  have hbwalk : ∀ {r}, ArenasFrom heap.mem b.record r → ArenasFrom heap.mem a.record r := by
    intro r hwalk
    refine arenasFrom_iff.mpr (Or.inr ⟨hnext, ?_⟩)
    rwa [hbnext]
  obtain ⟨cs, hcs⟩ := h.chunks a ha
  rcases @findFreeLoop_arena _ _ size h ha _ hcs (k + 2) with ⟨c, hmem, hfit, hfound⟩ | ⟨hnone, hgo⟩
  · exact Or.inr ⟨c, ⟨⟨a, ha, Relation.ReflTransGen.refl, cs, hcs, hmem⟩, hfit.1, hfit.2⟩, hfound⟩
  · rw [hgo, hbnext]
    rcases @findFreeLoop_last _ _ size h hb (h.next b hb hbne) k with ⟨hnone', hend⟩ | ⟨c, hc, hfound⟩
    · refine Or.inl ⟨?_, hend⟩
      rintro ⟨c, hc⟩
      obtain ⟨d, hd, hwalk, cs', hcs', hmem⟩ := hc.exists_arena
      rcases arenasFrom_iff.mp hwalk with hhere | ⟨-, hrest⟩
      · obtain rfl := h.apart.eq_of_record hd ha hhere
        obtain rfl := ChunkChain.unique hcs hcs'
        exact hnone c hmem ⟨hc.free, hc.size_le⟩
      · rw [hbnext] at hrest
        exact hnone' ⟨c, ⟨d, hd, hrest, cs', hcs', hmem⟩, hc.free, hc.size_le⟩
    · obtain ⟨d, hd, hwalk, hmem⟩ := hc.exists_arena
      exact Or.inr ⟨c, ⟨⟨d, hd, hbwalk hwalk, hmem⟩, hc.free, hc.size_le⟩, hfound⟩

/-- `__find_free` ends: it finds nothing, or a free chunk that it splits. -/
theorem findFree_spec (h : HeapInv heap) (hfirst : ∃ a ∈ heap.arenas, a.record = first) :
    findFree heap.mem first size = .ok (0, heap.mem) ∨
      ∃ c, FreeChunk heap size c ∧
        findFree heap.mem first size = .ok (c, splitBlockAt heap.mem c size) := by
  rcases @findFree_walk _ size _ h hfirst with ⟨-, hnone⟩ | ⟨c, hc, hfound⟩
  · exact Or.inl hnone
  · exact Or.inr ⟨c, hc.freeChunk, hfound⟩

/-- Taking the chunk that `__find_free` found. -/
theorem HeapInv.take_found (h : HeapInv heap) {c : Nat} (hc : FreeChunk heap size c)
    (flags : MmFlags) : HeapInv (heap.take (splitBlockAt heap.mem c size) c size flags) := by
  obtain ⟨a, ha, cs, hcs, hmem⟩ := hc.exists_arena
  exact h.take ha hcs hmem hc.free hc.size_le flags

/-- What `__find_free` returned, if it returned a chunk. -/
theorem findFree_found (h : HeapInv heap) (hfirst : ∃ a ∈ heap.arenas, a.record = first)
    {block : Nat} {mem : Memory} (hfind : findFree heap.mem first size = .ok (block, mem))
    (hblock : block ≠ 0) : FreeChunk heap size block ∧ mem = splitBlockAt heap.mem block size := by
  rcases @findFree_spec _ size _ h hfirst with hnone | ⟨c, hc, hfound⟩
  · rw [hnone] at hfind
    cases hfind
    exact absurd rfl hblock
  · rw [hfound] at hfind
    cases hfind
    exact ⟨hc, rfl⟩

/-- The invariant lets `__find_free` start at either static arena. -/
theorem HeapInv.first_mem (h : HeapInv heap) (flags : MmFlags) :
    ∃ a ∈ heap.arenas, a.record = if flags.highPrio then heap.highPrio else heap.memArena := by
  split
  · exact h.highPrio
  · exact h.memArena

end Finding

/-! ## Growth -/

section Growth

variable {heap heap' : Heap} {mem' : Memory} {a : ArenaBlock} {grant : ArenaGrant}

/-- A new arena with one free chunk, in memory that was not the heap's. -/
theorem HeapInv.addArena (h : HeapInv heap) (hapart : ArenasApart (a :: heap.arenas))
    {cs : List Nat}
    (hagree : ∀ b ∈ heap.arenas, Memory.Agree b.recordBytes mem' heap.mem ∧
      Memory.Agree b.bytes mem' heap.mem)
    (hrecord : readArena mem' a.record = ⟨a.size, a.base, 0, 0⟩) (hcs : a.Chunks mem' cs) :
    HeapInv { heap with
      mem := mem'
      arenas := a :: heap.arenas } := by
  have hread : ∀ b ∈ heap.arenas, readArena mem' b.record = readArena heap.mem b.record :=
    fun b hb => readArena_congr (hagree b hb).1
  have hheader : ∀ b ∈ heap.arenas, ∀ cs, b.Chunks heap.mem cs → ∀ c ∈ cs,
      Memory.Agree (headerBytes c) mem' heap.mem := by
    intro b hb cs hcs c hc
    exact (hagree b hb).2.mono (hcs.header_subset hc)
  obtain ⟨a₀, ha₀, hmemArena⟩ := h.memArena
  obtain ⟨a₁, ha₁, hhighPrio⟩ := h.highPrio
  refine
    { apart := hapart
      record := fun b hb => ?_
      next := fun b hb hne => ?_
      memNext := ?_
      memArena := ⟨a₀, List.mem_cons_of_mem _ ha₀, hmemArena⟩
      highPrio := ⟨a₁, List.mem_cons_of_mem _ ha₁, hhighPrio⟩
      chunks := fun b hb => ?_
      live := fun p hp => ?_
      nodup := h.nodup }
  · rcases List.mem_cons.mp hb with rfl | hb
    · exact ⟨by rw [hrecord], by rw [hrecord], by rw [hrecord]⟩
    · simpa only [hread b hb] using h.record b hb
  · rcases List.mem_cons.mp hb with rfl | hb
    · simp only [hrecord]
    · simpa only [hread b hb] using h.next b hb hne
  · have := h.memNext
    simp only [← hmemArena] at this ⊢
    rw [hread a₀ ha₀]
    rcases this with hzero | ⟨b, hb, hbnext⟩
    · exact Or.inl hzero
    · exact Or.inr ⟨b, List.mem_cons_of_mem _ hb, hbnext⟩
  · rcases List.mem_cons.mp hb with rfl | hb
    · exact ⟨cs, hcs⟩
    · obtain ⟨cs', hcs'⟩ := h.chunks b hb
      exact ⟨cs', hcs'.congr (hheader b hb cs' hcs')⟩
  · obtain ⟨b, hb, hpb⟩ := h.live p hp
    exact ⟨b, List.mem_cons_of_mem _ hb, hpb.congr (hheader b hb)⟩

/-- The record that another arena is linked to. -/
theorem ArenasApart.read_linked {mem : Memory} {arenas : List ArenaBlock} {b : ArenaBlock}
    (hapart : ArenasApart arenas) (ha : a ∈ arenas) (hb : b ∈ arenas) (hne : a ≠ b) :
    readArena (setArenaPrev (setArenaNext mem b.record a.record) a.record b.record) b.record =
      { readArena mem b.record with next := a.record } := by
  rw [← readArena_setArenaNext (hapart.sane a ha).2.2.2.2]
  apply readArena_congr
  apply Memory.agree_store
  intro x hx
  have := Set.disjoint_right.mp (hapart.records a ha b hb hne) hx
  rw [ArenaBlock.recordBytes, Set.mem_Ico] at this
  unfold arenaRecordSize at this
  omega

/-- Making an arena the successor of `__mem`. -/
theorem HeapInv.linkArena (h : HeapInv heap) (ha : a ∈ heap.arenas)
    (hne : a.record ≠ heap.memArena) :
    HeapInv { heap with
      mem := setArenaPrev (setArenaNext heap.mem heap.memArena a.record) a.record heap.memArena } := by
  obtain ⟨a₀, ha₀, hmemArena⟩ := h.memArena
  have hother : a ≠ a₀ := by
    rintro rfl
    exact hne hmemArena
  set mem' := setArenaPrev (setArenaNext heap.mem heap.memArena a.record) a.record heap.memArena
    with hmem'
  have houtside : ∀ x, x ∉ a₀.recordBytes → x ∉ a.recordBytes → mem' x = heap.mem x := by
    intro x hx₀ hx
    rw [ArenaBlock.recordBytes, Set.mem_Ico] at hx₀ hx
    unfold arenaRecordSize at hx₀ hx
    rw [hmem', setArenaPrev, Memory.store_of_outside (by omega), setArenaNext,
      Memory.store_of_outside (by omega)]
  have hheader : ∀ b ∈ heap.arenas, ∀ cs, b.Chunks heap.mem cs → ∀ c ∈ cs,
      Memory.Agree (headerBytes c) mem' heap.mem := by
    intro b hb cs hcs c hc x hx
    have hxb := hcs.header_subset hc hx
    refine houtside x (fun hx₀ => ?_) fun hxa => ?_
    · exact Set.disjoint_left.mp (h.apart.mixed a₀ ha₀ b hb) hx₀ hxb
    · exact Set.disjoint_left.mp (h.apart.mixed a ha b hb) hxa hxb
  have hdisjoint : Disjoint a.recordBytes a₀.recordBytes := h.apart.records a ha a₀ ha₀ hother
  have hself : readArena mem' a.record = readArena heap.mem a.record := by
    rw [hmem', readArena_setArenaPrev]
    apply readArena_congr
    apply Memory.agree_store
    intro x hx
    have := Set.disjoint_left.mp hdisjoint hx
    rw [ArenaBlock.recordBytes, Set.mem_Ico] at this
    unfold arenaRecordSize at this
    omega
  have hfirst : readArena mem' heap.memArena =
      { readArena heap.mem heap.memArena with next := a.record } := by
    rw [hmem', ← hmemArena]
    exact h.apart.read_linked ha ha₀ hother
  have hread : ∀ b ∈ heap.arenas, b.record ≠ heap.memArena →
      readArena mem' b.record = readArena heap.mem b.record := by
    intro b hb hbne
    by_cases hba : b = a
    · subst hba
      exact hself
    · apply readArena_congr
      intro x hx
      refine houtside x (fun hx₀ => ?_) fun hxa => ?_
      · refine Set.disjoint_left.mp (h.apart.records b hb a₀ ha₀ ?_) hx hx₀
        rintro rfl
        exact hbne hmemArena
      · exact Set.disjoint_left.mp (h.apart.records b hb a ha hba) hx hxa
  refine
    { apart := h.apart
      record := fun b hb => ?_
      next := fun b hb hbne => ?_
      memNext := Or.inr ⟨a, ha, hne, by rw [hfirst]⟩
      memArena := h.memArena
      highPrio := h.highPrio
      chunks := fun b hb => ?_
      live := fun p hp => ?_
      nodup := h.nodup }
  · by_cases hbne : b.record = heap.memArena
    · have := h.record b hb
      simp only [hbne, hfirst] at this ⊢
      exact this
    · simpa only [hread b hb hbne] using h.record b hb
  · simpa only [hread b hb hbne] using h.next b hb hbne
  · obtain ⟨cs, hcs⟩ := h.chunks b hb
    exact ⟨cs, hcs.congr (hheader b hb cs hcs)⟩
  · obtain ⟨b, hb, hpb⟩ := h.live p hp
    exact ⟨b, hb, hpb.congr (hheader b hb)⟩

/-- What `__alloc_arena` is given: memory that is not the heap's yet. -/
def ArenaGrant.Fresh (grant : ArenaGrant) (heap : Heap) : Prop :=
  (∀ b ∈ heap.arenas, b.record ≠ grant.record) ∧
    ArenasApart (⟨grant.record, grant.base, blockSize heapArenaSize⟩ :: heap.arenas)

/-- The entry that the slab allocator hands out has a null `next` field. -/
def ArenaGrant.Clean (grant : ArenaGrant) (heap : Heap) : Prop :=
  (readArena heap.mem grant.record).next = 0

/-- The part of the heap that an allocation without growth does not touch. -/
structure SameArenas (heap heap' : Heap) : Prop where
  arenas : heap'.arenas = heap.arenas
  memArena : heap'.memArena = heap.memArena
  initialized : heap'.initialized = heap.initialized
  outside : ∀ x, (∀ a ∈ heap.arenas, x ∉ a.bytes) → heap'.mem x = heap.mem x

/-- No arena was added, and the records of the arenas read the same. -/
structure SameRecords (heap heap' : Heap) : Prop where
  arenas : heap'.arenas = heap.arenas
  memArena : heap'.memArena = heap.memArena
  highPrio : heap'.highPrio = heap.highPrio
  initialized : heap'.initialized = heap.initialized
  records : ∀ a ∈ heap.arenas, readArena heap'.mem a.record = readArena heap.mem a.record

theorem SameRecords.trans {heap'' : Heap} (h : SameRecords heap heap')
    (h' : SameRecords heap' heap'') : SameRecords heap heap'' where
  arenas := h'.arenas.trans h.arenas
  memArena := h'.memArena.trans h.memArena
  highPrio := h'.highPrio.trans h.highPrio
  initialized := h'.initialized.trans h.initialized
  records a ha := (h'.records a (h.arenas ▸ ha)).trans (h.records a ha)

/-- What stays inside the arenas leaves the records. -/
theorem HeapInv.records_of_outside (h : HeapInv heap)
    (houtside : ∀ x, (∀ a ∈ heap.arenas, x ∉ a.bytes) → mem' x = heap.mem x) (ha : a ∈ heap.arenas) :
    readArena mem' a.record = readArena heap.mem a.record := by
  apply readArena_congr
  intro x hx
  refine houtside x fun b hb hxb => ?_
  exact Set.disjoint_left.mp (h.apart.mixed a ha b hb) hx hxb

theorem HeapInv.write_records (h : HeapInv heap)
    (hagree : ∀ x, (∀ p ∈ heap.live, x ∉ p.bytes) →
      (∃ a ∈ heap.arenas, x ∈ a.recordBytes ∨ x ∈ a.bytes) → mem' x = heap.mem x) :
    SameRecords heap { heap with mem := mem' } :=
  ⟨rfl, rfl, rfl, rfl, fun _ ha => readArena_congr (h.agree_record ha hagree)⟩

/-- Handing out a chunk stays inside the arenas. -/
theorem HeapInv.take_sameArenas (h : HeapInv heap) {c size : Nat} (hc : FreeChunk heap size c)
    (flags : MmFlags) :
    SameArenas heap (heap.take (splitBlockAt heap.mem c size) c size flags) := by
  obtain ⟨a, ha, cs, hcs, hmem⟩ := hc.exists_arena
  obtain ⟨-, hbase, -, hstop, -⟩ := h.apart.sane a ha
  obtain ⟨cs', hprep⟩ := Heap.take_prepared hbase hstop hcs hmem hc.size_le flags
  exact ⟨rfl, rfl, rfl, fun x hx => hprep.outside x (hx a ha)⟩

/-- What is not in a live payload is not in the one that was handed out last. -/
theorem Heap.take_outside {mem : Memory} {c size x : Nat} {flags : MmFlags}
    (hx : ∀ p ∈ (heap.take mem c size flags).live, x ∉ p.bytes) :
    x < c + chunkHeaderSize ∨ c + chunkHeaderSize + size ≤ x := by
  have hout := hx ⟨c + chunkHeaderSize, size⟩ List.mem_cons_self
  rw [Payload.bytes, Set.mem_Ico] at hout
  simp only at hout
  omega

theorem HeapInv.take_records (h : HeapInv heap) {c size : Nat} (hc : FreeChunk heap size c)
    (flags : MmFlags) :
    SameRecords heap (heap.take (splitBlockAt heap.mem c size) c size flags) :=
  ⟨rfl, rfl, rfl, rfl, fun _ ha => h.records_of_outside (h.take_sameArenas hc flags).outside ha⟩

/-- The nested allocation of the slab allocator. -/
theorem slabGrow_inv (h : HeapInv heap) (hgrow : slabGrow heap = .ok heap') :
    HeapInv heap' ∧ SameArenas heap heap' := by
  rw [slabGrow] at hgrow
  rcases @findFree_spec _ 40 _ h h.memArena with hnone | ⟨c, hc, hfound⟩
  · rw [hnone] at hgrow
    simp at hgrow
  · rw [hfound] at hgrow
    simp only [hc.ne_zero h, if_false, Except.ok.injEq] at hgrow
    have htake := h.take_found hc ⟨false, false⟩
    have hsame := h.take_sameArenas hc ⟨false, false⟩
    subst hgrow
    refine ⟨htake.write fun x hx _ => Memory.fill_of_outside (Heap.take_outside hx), ?_⟩
    refine ⟨rfl, rfl, rfl, fun x hx => ?_⟩
    have hlive : ∀ p ∈ (heap.take (splitBlockAt heap.mem c 40) c 40 ⟨false, false⟩).live,
        x ∉ p.bytes := by
      intro p hp hxp
      obtain ⟨a, ha, hpa⟩ := htake.live p hp
      exact hx a ha (hpa.subset hxp)
    exact (Memory.fill_of_outside (Heap.take_outside hlive)).trans (hsame.outside x hx)

theorem arenaEntry_inv (h : HeapInv heap) (hentry : arenaEntry heap grant = .ok heap') :
    HeapInv heap' ∧ SameArenas heap heap' := by
  rw [arenaEntry] at hentry
  split at hentry
  · exact slabGrow_inv h hentry
  · cases hentry
    exact ⟨h, rfl, rfl, rfl, fun _ _ => rfl⟩

/-- Initialising one of several arenas that are apart writes its record and makes it one
free chunk. -/
theorem initArena_arena {mem : Memory} {arenas : List ArenaBlock} {order : Nat}
    (hapart : ArenasApart arenas) (ha : a ∈ arenas) (hsize : a.size = blockSize order) :
    readArena (initArena mem a.record a.base order) a.record =
        ⟨a.size, a.base, 0, (readArena mem a.record).next⟩ ∧
      readChunk (initArena mem a.record a.base order) a.base =
        ⟨a.size - chunkHeaderSize, true, 0, 0⟩ ∧
      a.Chunks (initArena mem a.record a.base order) [a.base] ∧
      ∀ x, x ∉ a.recordBytes → x ∉ a.bytes → initArena mem a.record a.base order x = mem x := by
  obtain ⟨-, hbase, hpos, hstop, -⟩ := hapart.sane a ha
  have hself := hapart.mixed a ha a ha
  rw [ArenaBlock.recordBytes, ArenaBlock.bytes, Set.Ico_disjoint_Ico] at hself
  have hheader : chunkHeaderSize ≤ a.size := by
    rw [hsize]
    exact le_trans (by decide) (Nat.mul_le_mul_right pageSize (Nat.one_le_two_pow))
  have hspec : FreshArena mem (initArena mem a.record a.base order) a.record a.base order := by
    apply initArena_spec
    · unfold ArenaBlock.stop at hstop
      omega
    · rw [← hsize]
      unfold ArenaBlock.stop at hstop
      omega
    · unfold ArenaBlock.stop at hself
      unfold arenaRecordSize at *
      omega
  refine ⟨by rw [hspec.arena, hsize], by rw [hspec.chunk, hsize], ?_, fun x hx hx' => ?_⟩
  · have hend : chunkStop (readChunk (initArena mem a.record a.base order)) a.base = a.stop := by
      rw [chunkStop, hspec.chunk, ArenaBlock.stop]
      simp only [← hsize]
      omega
    refine .cons (by rw [hspec.chunk]) (by rw [hend, if_pos rfl, hspec.chunk]) ?_
    rw [hend]
    exact .nil
  · rw [ArenaBlock.recordBytes, Set.mem_Ico] at hx
    rw [ArenaBlock.bytes, Set.mem_Ico, ArenaBlock.stop] at hx'
    exact hspec.outside x (by omega) (by omega)

/-- Changes to the bytes of one arena leave those of another. -/
theorem ArenasApart.agree {mem : Memory} {arenas : List ArenaBlock} {b : ArenaBlock}
    (hapart : ArenasApart arenas) (ha : a ∈ arenas) (hb : b ∈ arenas) (hne : b ≠ a)
    (houtside : ∀ x, x ∉ a.recordBytes → x ∉ a.bytes → mem' x = mem x) :
    Memory.Agree b.recordBytes mem' mem ∧ Memory.Agree b.bytes mem' mem := by
  refine ⟨fun x hx => houtside x (fun hxa => ?_) fun hxa => ?_,
    fun x hx => houtside x (fun hxa => ?_) fun hxa => ?_⟩
  · exact Set.disjoint_left.mp (hapart.records b hb a ha hne) hx hxa
  · exact Set.disjoint_left.mp (hapart.mixed b hb a ha) hx hxa
  · exact Set.disjoint_left.mp (hapart.mixed a ha b hb) hxa hx
  · exact Set.disjoint_left.mp (hapart.blocks b hb a ha hne) hx hxa

/-- The arena that was granted. -/
def ArenaGrant.arena (grant : ArenaGrant) : ArenaBlock :=
  ⟨grant.record, grant.base, blockSize heapArenaSize⟩

/-- The heap with a new arena that is not linked yet. -/
def Heap.addArena (heap : Heap) (grant : ArenaGrant) : Heap :=
  { heap with
    mem := initArena heap.mem grant.record grant.base heapArenaSize
    arenas := grant.arena :: heap.arenas }

/-- Writing the record and the chunk of the arena that was granted keeps the invariant. -/
theorem HeapInv.addGranted (h : HeapInv heap) (hfresh : grant.Fresh heap)
    (hclean : grant.Clean heap) : HeapInv (heap.addArena grant) := by
  obtain ⟨hnew, hapart⟩ := hfresh
  set a : ArenaBlock := grant.arena with ha
  have hamem : a ∈ a :: heap.arenas := List.mem_cons_self
  obtain ⟨hread, -, hchunks, houtside⟩ :=
    @initArena_arena a heap.mem (a :: heap.arenas) heapArenaSize hapart hamem rfl
  have hagree : ∀ b ∈ heap.arenas,
      Memory.Agree b.recordBytes (initArena heap.mem a.record a.base heapArenaSize) heap.mem ∧
      Memory.Agree b.bytes (initArena heap.mem a.record a.base heapArenaSize) heap.mem := by
    intro b hb
    refine hapart.agree hamem (List.mem_cons_of_mem _ hb) ?_ houtside
    rintro rfl
    exact hnew _ hb rfl
  have hclean' : (readArena heap.mem a.record).next = 0 := hclean
  rw [hclean'] at hread
  exact h.addArena hapart hagree hread hchunks

/-- A new arena's record is not `__mem`. -/
theorem ArenaGrant.Fresh.ne_memArena (hfresh : grant.Fresh heap) (h : HeapInv heap) :
    grant.record ≠ heap.memArena := by
  obtain ⟨a₀, ha₀, hmemArena⟩ := h.memArena
  rw [← hmemArena]
  exact (hfresh.1 a₀ ha₀).symm

/-- The walk of `__alloc_arena` over the arenas ends. -/
theorem lastArena_ok (h : HeapInv heap) :
    ∃ last, lastArena heap.mem walkFuel heap.memArena = .ok last := by
  obtain ⟨k, hk⟩ : ∃ k, walkFuel = k + 2 := ⟨2 ^ 64 - 2, by norm_num [walkFuel]⟩
  rw [hk, lastArena]
  split
  · exact ⟨_, rfl⟩
  · next hnext =>
      obtain ⟨b, hb, hbne, hbnext⟩ := h.memNext.resolve_left hnext
      rw [hbnext, lastArena, if_pos (h.next b hb hbne)]
      exact ⟨_, rfl⟩

/-- `__alloc_arena` makes the new arena the successor of `__mem`. -/
theorem linkArena_eq (h : HeapInv heap) (hfresh : grant.Fresh heap) (hclean : grant.Clean heap) :
    linkArena heap grant = .ok { heap.addArena grant with
      mem := setArenaPrev (setArenaNext (heap.addArena grant).mem heap.memArena grant.record)
        grant.record heap.memArena } := by
  have hadded := h.addGranted hfresh hclean
  obtain ⟨last, hlast⟩ := lastArena_ok hadded
  obtain ⟨a₀, ha₀, hmemArena⟩ := hadded.memArena
  have hlock := (hadded.record a₀ ha₀).2.2
  rw [hmemArena] at hlock
  have hlast' : lastArena (initArena heap.mem grant.record grant.base heapArenaSize) walkFuel
      heap.memArena = .ok last := hlast
  have hlock' : (readArena (initArena heap.mem grant.record grant.base heapArenaSize)
      heap.memArena).lock = 0 := hlock
  simp only [linkArena, hlast', hlock', ne_eq, not_true_eq_false, if_false]
  rfl

/-- Adding the arena that was granted keeps the invariant. -/
theorem linkArena_inv (h : HeapInv heap) (hfresh : grant.Fresh heap) (hclean : grant.Clean heap)
    (hlink : linkArena heap grant = .ok heap') : HeapInv heap' := by
  rw [linkArena_eq h hfresh hclean] at hlink
  cases hlink
  exact (h.addGranted hfresh hclean).linkArena (a := grant.arena) List.mem_cons_self
    (hfresh.ne_memArena h)

/-- Freshness and cleanness of a grant concern memory outside the arenas. -/
theorem SameArenas.fresh (hsame : SameArenas heap heap') (hfresh : grant.Fresh heap) :
    grant.Fresh heap' := by
  rwa [ArenaGrant.Fresh, hsame.arenas]

theorem SameArenas.clean (hsame : SameArenas heap heap') (hfresh : grant.Fresh heap)
    (hclean : grant.Clean heap) : grant.Clean heap' := by
  have hread : readArena heap'.mem grant.record = readArena heap.mem grant.record := by
    apply readArena_congr
    intro x hx
    refine hsame.outside x fun a ha hxa => ?_
    refine Set.disjoint_left.mp (hfresh.2.mixed ⟨grant.record, grant.base, blockSize heapArenaSize⟩
      List.mem_cons_self a (List.mem_cons_of_mem _ ha)) hx hxa
  rw [ArenaGrant.Clean, hread]
  exact hclean

/-- `__alloc_arena` keeps the invariant. -/
theorem allocArena_inv (h : HeapInv heap) (hfresh : grant.Fresh heap) (hclean : grant.Clean heap)
    (halloc : allocArena heap grant = .ok heap') : HeapInv heap' := by
  rw [allocArena] at halloc
  split at halloc
  · cases halloc
  · obtain ⟨heap₁, hentry, hlink⟩ := Halt.bind_eq_ok.mp halloc
    obtain ⟨h₁, hsame⟩ := arenaEntry_inv h hentry
    exact linkArena_inv h₁ (hsame.fresh hfresh) (hsame.clean hfresh hclean) hlink

end Growth

/-! ## Allocation -/

section Allocation

variable {heap heap' : Heap} {grant : ArenaGrant} {size p : Nat} {flags : MmFlags}

/-- `kmalloc` hands out a chunk that fits in the arenas it searches, or there is none and it goes on
to grow the heap. -/
theorem kmalloc_eq (h : HeapInv heap) :
    (∃ c, FitChunk heap (if flags.highPrio then heap.highPrio else heap.memArena) size c ∧
      kmalloc heap grant size flags = .ok (c + chunkHeaderSize,
        heap.take (splitBlockAt heap.mem c size) c size flags)) ∨
    ((¬ ∃ c, FitChunk heap (if flags.highPrio then heap.highPrio else heap.memArena) size c) ∧
      kmalloc heap grant size flags = kmallocGrow heap grant size flags) := by
  rw [kmalloc]
  rcases @findFree_walk _ size _ h (h.first_mem flags) with ⟨hnone, hfind⟩ | ⟨c, hc, hfind⟩
  · refine Or.inr ⟨hnone, ?_⟩
    simp [hfind]
  · refine Or.inl ⟨c, hc, ?_⟩
    simp [hfind, hc.freeChunk.ne_zero h]

/-- For high priority the heap does not grow. -/
theorem kmallocGrow_prio (hcall : kmallocGrow heap grant size flags = .ok (p, heap')) :
    flags.highPrio = false := by
  by_contra hprio
  rw [kmallocGrow, if_pos (by simpa using hprio)] at hcall
  cases hcall

/-- A successful `kmalloc` without growth hands out a free chunk. -/
theorem kmalloc_cases (h : HeapInv heap) (hcall : kmalloc heap grant size flags = .ok (p, heap')) :
    (∃ c, FreeChunk heap size c ∧ p = c + chunkHeaderSize ∧
      heap' = heap.take (splitBlockAt heap.mem c size) c size flags) ∨
    (findFree heap.mem heap.memArena size = .ok (0, heap.mem) ∧
      kmallocGrow heap grant size flags = .ok (p, heap')) := by
  rcases @kmalloc_eq _ grant size flags h with ⟨c, hc, hfound⟩ | ⟨hnone, hgrow⟩
  · rw [hfound, Except.ok.injEq, Prod.mk.injEq] at hcall
    exact Or.inl ⟨c, hc.freeChunk, hcall.1.symm, hcall.2.symm⟩
  · rw [hgrow] at hcall
    refine Or.inr ⟨?_, hcall⟩
    rw [kmallocGrow_prio hcall] at hnone
    rcases @findFree_walk _ size _ h h.memArena with ⟨-, hfind⟩ | ⟨c, hc, -⟩
    · exact hfind
    · exact absurd ⟨c, hc⟩ hnone

/-- What a successful growing call has done: it added an arena and found a chunk then. -/
theorem kmallocGrow_cases (hcall : kmallocGrow heap grant size flags = .ok (p, heap')) :
    ∃ heap₁ block mem, allocArena heap grant = .ok heap₁ ∧
      findFree heap₁.mem heap₁.memArena size = .ok (block, mem) ∧ block ≠ 0 ∧
      p = block + chunkHeaderSize ∧ heap' = heap₁.take mem block size flags := by
  rw [kmallocGrow, if_neg (by simp [kmallocGrow_prio hcall])] at hcall
  obtain ⟨heap₁, halloc, hrest⟩ := Halt.bind_eq_ok.mp hcall
  obtain ⟨⟨block, mem⟩, hfind, hlast⟩ := Halt.bind_eq_ok.mp hrest
  dsimp only at hlast
  split at hlast
  · cases hlast
  · next hblock =>
      simp only [Halt.pure_eq_ok, Except.ok.injEq, Prod.mk.injEq] at hlast
      exact ⟨heap₁, block, mem, halloc, hfind, hblock, hlast.1.symm, hlast.2.symm⟩

/-- Growing the heap and allocating from the new state keeps the invariant. -/
theorem kmallocGrow_inv (h : HeapInv heap) (hfresh : grant.Fresh heap) (hclean : grant.Clean heap)
    (hcall : kmallocGrow heap grant size flags = .ok (p, heap')) : HeapInv heap' := by
  obtain ⟨heap₁, block, mem, halloc, hfind, hblock, -, rfl⟩ := kmallocGrow_cases hcall
  have h₁ := allocArena_inv h hfresh hclean halloc
  obtain ⟨hc, rfl⟩ := findFree_found h₁ h₁.memArena hfind hblock
  exact h₁.take_found hc flags

/-- `kmalloc` keeps the invariant, if what it is given for a new arena is fresh and
clean. -/
theorem kmalloc_inv (h : HeapInv heap)
    (hgrant : findFree heap.mem heap.memArena size = .ok (0, heap.mem) →
      grant.Fresh heap ∧ grant.Clean heap)
    (hcall : kmalloc heap grant size flags = .ok (p, heap')) : HeapInv heap' := by
  rcases kmalloc_cases h hcall with ⟨c, hc, -, rfl⟩ | ⟨hnone, hgrow⟩
  · exact h.take_found hc flags
  · exact kmallocGrow_inv h (hgrant hnone).1 (hgrant hnone).2 hgrow

end Allocation

/-! ## Release -/

/-- `kfree` of a live payload keeps the invariant. -/
theorem kfree_inv {heap : Heap} (h : HeapInv heap) {p : Payload} (hp : p ∈ heap.live) :
    HeapInv (kfree heap p.start) := by
  obtain ⟨a, ha, cs, c, hcs, hc, hstart, -, -⟩ := h.live p hp
  have hprep : Prepared a heap.mem heap.mem cs cs c 0 :=
    ⟨hcs, hc, Nat.zero_le _, fun d hd _ => ⟨hd, rfl, rfl⟩, fun _ _ => rfl⟩
  have hfreed := hprep.setFree true
  have hc' : p.start - chunkHeaderSize = c := by omega
  rw [kfree, hc']
  refine h.changeArena ha hfreed.outside hfreed.chunks ?_ (h.nodup.filter _)
  intro q hq
  obtain ⟨hqlive, hqne⟩ := List.mem_filter.mp hq
  have hqne : q.start ≠ p.start := by simpa using hqne
  obtain ⟨b, hb, hqb⟩ := h.live q hqlive
  by_cases hba : b = a
  · subst hba
    obtain ⟨cs', d, hcs', hd, hqstart, hused, hsize⟩ := hqb
    obtain rfl := ChunkChain.unique hcs hcs'
    obtain ⟨hd', hfree', hsize'⟩ := hfreed.others d hd (by omega)
    rw [← hfree'] at hused
    rw [← hsize'] at hsize
    exact Or.inl ⟨cs, d, hfreed.chunks, hd, hqstart, hused, hsize⟩
  · exact Or.inr ⟨b, hb, hba, hqb⟩

/-! ## The first state -/

/-- What `mmu_heap_init` finds: the static records have null `next` fields, and the two blocks
that were allocated are apart from each other and from the records. -/
structure HeapBoot (mem : Memory) (memRecord highRecord base hp : Nat) : Prop where
  records_ne : memRecord ≠ highRecord
  apart : ArenasApart [⟨highRecord, hp, blockSize 1⟩, ⟨memRecord, base, blockSize heapArenaSize⟩]
  memNext : (readArena mem memRecord).next = 0
  highNext : (readArena mem highRecord).next = 0

section Boot

variable {mem : Memory} {memRecord highRecord base hp : Nat}

/-- The two static arenas at first: records without a successor, and one chunk each. -/
theorem HeapBoot.written (h : HeapBoot mem memRecord highRecord base hp) {mem₂ : Memory}
    (hmem₂ : mem₂ = initArena (initArena mem memRecord base heapArenaSize) highRecord hp 1) :
    readArena mem₂ memRecord = ⟨blockSize heapArenaSize, base, 0, 0⟩ ∧
      readArena mem₂ highRecord = ⟨blockSize 1, hp, 0, 0⟩ ∧
      ArenaBlock.Chunks ⟨memRecord, base, blockSize heapArenaSize⟩ mem₂ [base] ∧
      ArenaBlock.Chunks ⟨highRecord, hp, blockSize 1⟩ mem₂ [hp] := by
  set a : ArenaBlock := ⟨memRecord, base, blockSize heapArenaSize⟩ with ha
  set b : ArenaBlock := ⟨highRecord, hp, blockSize 1⟩ with hb
  have hamem : a ∈ [b, a] := by simp
  have hbmem : b ∈ [b, a] := by simp
  have hne : a ≠ b := fun hab => h.records_ne (congrArg ArenaBlock.record hab)
  set mem₁ := initArena mem memRecord base heapArenaSize with hmem₁
  obtain ⟨hread₁, -, hchunks₁, houtside₁⟩ :=
    @initArena_arena a mem _ heapArenaSize h.apart hamem rfl
  obtain ⟨hread₂, -, hchunks₂, houtside₂⟩ := @initArena_arena b mem₁ _ 1 h.apart hbmem rfl
  have hagree₁ := h.apart.agree hamem hbmem (Ne.symm hne) houtside₁
  have hagree₂ := h.apart.agree hbmem hamem hne houtside₂
  subst hmem₂
  refine ⟨?_, ?_, ?_, hchunks₂⟩
  · have hsame : readArena (initArena mem₁ highRecord hp 1) a.record = readArena mem₁ a.record :=
      readArena_congr hagree₂.1
    have hnext : (readArena mem a.record).next = 0 := h.memNext
    rw [hnext] at hread₁
    exact hsame.trans hread₁
  · have hsame : readArena mem₁ b.record = readArena mem b.record := readArena_congr hagree₁.1
    have hnext : (readArena mem b.record).next = 0 := h.highNext
    rw [hsame, hnext] at hread₂
    exact hread₂
  · refine ArenaBlock.Chunks.congr hchunks₁ fun c hc => ?_
    exact hagree₂.2.mono (hchunks₁.header_subset hc)

/-- The heap before the arena cache is created. -/
theorem HeapBoot.inv (h : HeapBoot mem memRecord highRecord base hp) :
    HeapInv
      { mem := initArena (initArena mem memRecord base heapArenaSize) highRecord hp 1
        memArena := memRecord
        highPrio := highRecord
        initialized := false
        arenas := [⟨highRecord, hp, blockSize 1⟩, ⟨memRecord, base, blockSize heapArenaSize⟩]
        live := [] } := by
  obtain ⟨hmemRecord, hhighRecord, hchunks, hhighChunks⟩ := h.written rfl
  set a : ArenaBlock := ⟨memRecord, base, blockSize heapArenaSize⟩ with ha
  set b : ArenaBlock := ⟨highRecord, hp, blockSize 1⟩ with hb
  have hcases : ∀ d ∈ [b, a], d = b ∨ d = a := by simp
  refine
    { apart := h.apart
      record := fun d hd => ?_
      next := fun d hd _ => ?_
      memNext := Or.inl (by rw [hmemRecord])
      memArena := ⟨a, by simp, rfl⟩
      highPrio := ⟨b, by simp, rfl⟩
      chunks := fun d hd => ?_
      live := by simp
      nodup := List.Pairwise.nil }
  · rcases hcases d hd with rfl | rfl
    · simp only [hb, hhighRecord, and_self]
    · simp only [ha, hmemRecord, and_self]
  · rcases hcases d hd with rfl | rfl
    · simp only [hb, hhighRecord]
    · simp only [ha, hmemRecord]
  · rcases hcases d hd with rfl | rfl
    · exact ⟨_, hhighChunks⟩
    · exact ⟨_, hchunks⟩

/-- While the kernel boots, allocation does not grow the heap. -/
theorem kzalloc_boot_inv {heap heap' : Heap} {grant : ArenaGrant} {size p : Nat} (h : HeapInv heap)
    (hboot : heap.initialized = false) (hcall : kzalloc heap grant size = .ok (p, heap')) :
    HeapInv heap' ∧ SameRecords heap heap' := by
  rw [kzalloc] at hcall
  obtain ⟨⟨q, heap₁⟩, hmalloc, hrest⟩ := Halt.bind_eq_ok.mp hcall
  simp only [Halt.pure_eq_ok, Except.ok.injEq, Prod.mk.injEq] at hrest
  obtain ⟨rfl, rfl⟩ := hrest
  rcases kmalloc_cases h hmalloc with ⟨c, hc, rfl, rfl⟩ | ⟨-, hgrow⟩
  · have htaken := h.take_found hc ⟨false, false⟩
    refine ⟨htaken.write fun x hx _ => Memory.fill_of_outside (Heap.take_outside hx), ?_⟩
    refine (h.take_records hc ⟨false, false⟩).trans (htaken.write_records fun x hx _ => ?_)
    exact Memory.fill_of_outside (Heap.take_outside hx)
  · simp [kmallocGrow, allocArena, hboot, bind, Except.bind] at hgrow

/-- Creating the arena cache keeps the invariant. -/
theorem createArenaCache_inv {heap heap' : Heap} {grant : ArenaGrant} (h : HeapInv heap)
    (hboot : heap.initialized = false) (hcache : createArenaCache heap grant = .ok heap') :
    HeapInv heap' ∧ SameRecords heap heap' := by
  rw [createArenaCache] at hcache
  obtain ⟨⟨p, heap₂⟩, hfirst, hsecond⟩ := Halt.bind_eq_ok.mp hcache
  obtain ⟨hinv₂, hsame₂⟩ := kzalloc_boot_inv h hboot hfirst
  dsimp only at hsecond
  split at hsecond
  · obtain ⟨⟨q, heap₃⟩, hthird, hlast⟩ := Halt.bind_eq_ok.mp hsecond
    simp only [Halt.pure_eq_ok, Except.ok.injEq] at hlast
    obtain ⟨hinv₃, hsame₃⟩ := kzalloc_boot_inv hinv₂ (hsame₂.initialized.trans hboot) hthird
    rw [← hlast]
    exact ⟨hinv₃, hsame₂.trans hsame₃⟩
  · simp only [Halt.pure_eq_ok, Except.ok.injEq] at hsecond
    rw [← hsecond]
    exact ⟨hinv₂, hsame₂⟩

/-- `mmu_heap_init` establishes the invariant. -/
theorem mmuHeapInit_inv (h : HeapBoot mem memRecord highRecord base hp) {slabEmpty : Bool}
    {heap : Heap} (hinit : mmuHeapInit mem memRecord highRecord base hp slabEmpty = .ok heap) :
    HeapInv heap := by
  rw [mmuHeapInit] at hinit
  obtain ⟨heap₁, hcache, hrest⟩ := Halt.bind_eq_ok.mp hinit
  simp only [Halt.pure_eq_ok, Except.ok.injEq] at hrest
  rw [← hrest]
  exact { (createArenaCache_inv h.inv rfl hcache).1 with }

end Boot

/-! ## Runs -/

/-- A call on the heap, or a write by code outside the heap. -/
inductive HeapOp where
  | kmalloc (size : Nat) (flags : MmFlags) (grant : ArenaGrant)
  | kfree (p : Payload)
  | write

/-- One step.  What is granted for a new arena is memory that the heap does not have,
only live payloads are released, and other code writes to live payloads and outside
the heap only. -/
inductive HeapStep : Heap → HeapOp → Heap → Prop
  | kmalloc {heap heap' : Heap} {size p : Nat} {flags : MmFlags} {grant : ArenaGrant}
      (hfresh : findFree heap.mem heap.memArena size = .ok (0, heap.mem) → grant.Fresh heap)
      (hcall : kmalloc heap grant size flags = .ok (p, heap')) :
      HeapStep heap (.kmalloc size flags grant) heap'
  | kfree {heap : Heap} {p : Payload} (hp : p ∈ heap.live) :
      HeapStep heap (.kfree p) (kfree heap p.start)
  | write {heap : Heap} {mem' : Memory}
      (hagree : ∀ x, (∀ p ∈ heap.live, x ∉ p.bytes) →
        (∃ a ∈ heap.arenas, x ∈ a.recordBytes ∨ x ∈ a.bytes) → mem' x = heap.mem x) :
      HeapStep heap .write { heap with mem := mem' }

/-- If the call grows the heap, the new arena's record has a null `next` field. -/
def CleanCall (heap : Heap) : HeapOp → Prop
  | .kmalloc size _ grant =>
      findFree heap.mem heap.memArena size = .ok (0, heap.mem) → grant.Clean heap
  | _ => True

theorem heapStep_inv {heap heap' : Heap} {op : HeapOp} (h : HeapInv heap)
    (hstep : HeapStep heap op heap') (hclean : CleanCall heap op) : HeapInv heap' := by
  cases hstep with
  | kmalloc hfresh hcall => exact kmalloc_inv h (fun hnone => ⟨hfresh hnone, hclean hnone⟩) hcall
  | kfree hp => exact kfree_inv h hp
  | write hagree => exact h.write hagree

/-- In every run in which the records of new arenas have null `next` fields, the chunks tile
their arenas and the live payloads are apart from each other and from the headers. -/
theorem heap_tiled {mem : Memory} {memRecord highRecord base hp : Nat} {slabEmpty : Bool}
    {heap₀ heap : Heap} {ops : List HeapOp}
    (hboot : HeapBoot mem memRecord highRecord base hp)
    (hinit : mmuHeapInit mem memRecord highRecord base hp slabEmpty = .ok heap₀)
    (hrun : Run (fun s op t => HeapStep s op t ∧ CleanCall s op) heap₀ ops heap) :
    HeapTiled heap := by
  have hinv : HeapInv heap :=
    hrun.invariant HeapInv (fun _ _ _ h hstep => heapStep_inv h hstep.1 hstep.2)
      (mmuHeapInit_inv hboot hinit)
  exact hinv.tiled

/-! ## Two small runs -/

/-- Memory that is zero everywhere. -/
def zeroMemory : Memory := fun _ => 0

/-- The grant of an arena at `0x40000` with its record at `0x30000`. -/
def smallGrant : ArenaGrant := ⟨0x30000, 0x40000, false⟩

/-- The arenas that `mmu_heap_init` sets up in the runs below. -/
def smallArenas : List ArenaBlock :=
  [⟨0x1100, 0x20000, blockSize 1⟩, ⟨0x1000, 0x10000, blockSize heapArenaSize⟩]

/-- Arenas that are pairwise apart can be checked by comparing bounds. -/
theorem arenasApart_of_bounds {arenas : List ArenaBlock}
    (hsane : ∀ a ∈ arenas, 0 < a.record ∧ 0 < a.base ∧ 0 < a.size ∧ a.stop ≤ 2 ^ 64 ∧
      a.record < 2 ^ 64)
    (hrecords : ∀ a ∈ arenas, ∀ b ∈ arenas, a ≠ b →
      min (a.record + arenaRecordSize) (b.record + arenaRecordSize) ≤ max a.record b.record)
    (hblocks : ∀ a ∈ arenas, ∀ b ∈ arenas, a ≠ b → min a.stop b.stop ≤ max a.base b.base)
    (hmixed : ∀ a ∈ arenas, ∀ b ∈ arenas,
      min (a.record + arenaRecordSize) b.stop ≤ max a.record b.base) :
    ArenasApart arenas where
  sane := hsane
  records a ha b hb hne := Set.Ico_disjoint_Ico.mpr (hrecords a ha b hb hne)
  blocks a ha b hb hne := Set.Ico_disjoint_Ico.mpr (hblocks a ha b hb hne)
  mixed a ha b hb := Set.Ico_disjoint_Ico.mpr (hmixed a ha b hb)

theorem smallHeap_boot : HeapBoot zeroMemory 0x1000 0x1100 0x10000 0x20000 where
  records_ne := by decide
  apart := arenasApart_of_bounds (by decide) (by decide) (by decide) (by decide)
  memNext := by decide
  highNext := by decide

theorem smallGrant_fresh {heap : Heap} (harenas : heap.arenas = smallArenas) :
    smallGrant.Fresh heap := by
  rw [ArenaGrant.Fresh, harenas]
  refine ⟨by decide, ?_⟩
  exact arenasApart_of_bounds (by decide) (by decide) (by decide) (by decide)

/-- Two allocations, the second of which needs a new arena. -/
def growingRun : Except Halt (Heap × Heap × Heap) := do
  let heap₀ ← mmuHeapInit zeroMemory 0x1000 0x1100 0x10000 0x20000 false
  let (_, heap₁) ← kmalloc heap₀ smallGrant 8192 ⟨false, false⟩
  let (_, heap₂) ← kmalloc heap₁ smallGrant 10000 ⟨false, false⟩
  pure (heap₀, heap₁, heap₂)

theorem heap_tiled_growing :
    ∃ heap₀ heap,
      Run (fun s op t => HeapStep s op t ∧ CleanCall s op) heap₀
        [.kmalloc 8192 ⟨false, false⟩ smallGrant, .kmalloc 10000 ⟨false, false⟩ smallGrant] heap ∧
      heap.live = [⟨0x40019, 10000⟩, ⟨0x10062, 8192⟩, ⟨0x10019, 48⟩] ∧ HeapTiled heap := by
  have hresult : growingRun.map (fun r => (r.1.arenas, r.2.1.arenas, r.2.2.live,
      (readArena r.1.mem smallGrant.record).next, (readArena r.2.1.mem smallGrant.record).next)) =
      .ok (smallArenas, smallArenas, [⟨0x40019, 10000⟩, ⟨0x10062, 8192⟩, ⟨0x10019, 48⟩], 0, 0) := by
    decide +kernel
  obtain ⟨⟨heap₀, heap₁, heap₂⟩, hall, hvalues⟩ := Halt.map_eq_ok.mp hresult
  simp only [Prod.mk.injEq] at hvalues
  obtain ⟨harenas₀, harenas₁, hlive, hclean₀, hclean₁⟩ := hvalues
  obtain ⟨heap₀', hinit, hrest⟩ := Halt.bind_eq_ok.mp hall
  obtain ⟨⟨p, heap₁'⟩, hfirst, hrest⟩ := Halt.bind_eq_ok.mp hrest
  obtain ⟨⟨q, heap₂'⟩, hsecond, hrest⟩ := Halt.bind_eq_ok.mp hrest
  cases hrest
  have hrun : Run (fun s op t => HeapStep s op t ∧ CleanCall s op) heap₀
      ([] ++ [.kmalloc 8192 ⟨false, false⟩ smallGrant] ++
        [.kmalloc 10000 ⟨false, false⟩ smallGrant]) heap₂ :=
    (Run.nil.snoc ⟨.kmalloc (fun _ => smallGrant_fresh harenas₀) hfirst, fun _ => hclean₀⟩).snoc
      ⟨.kmalloc (fun _ => smallGrant_fresh harenas₁) hsecond, fun _ => hclean₁⟩
  exact ⟨heap₀, heap₂, hrun, hlive, heap_tiled smallHeap_boot hinit hrun⟩

/-- What a user of the heap writes into its payload at `0x10062`, and what happens to be in
the memory of the arena record: bytes that look like an arena record with a free chunk,
and a `next` field that points to them. -/
def staleMemory (mem : Memory) : Memory :=
  let mem := setArenaBase mem 0x10062 0x100c6
  let mem := setChunkSize mem 0x100c6 30000
  let mem := setChunkFree mem 0x100c6 true
  setArenaNext mem smallGrant.record 0x10062

/-- Two allocations, the second of which is too large for any arena. -/
def staleRun : Except Halt (Heap × Heap × Heap) := do
  let heap₀ ← mmuHeapInit zeroMemory 0x1000 0x1100 0x10000 0x20000 false
  let (_, heap₁) ← kmalloc heap₀ smallGrant 8192 ⟨false, false⟩
  let heap₁ := { heap₁ with mem := staleMemory heap₁.mem }
  let (_, heap₂) ← kmalloc heap₁ smallGrant 20000 ⟨false, false⟩
  pure (heap₀, heap₁, heap₂)

/-- With a stale `next` field in the record of a new arena, `kmalloc` walks into the payload of
another allocation and returns a part of it. -/
theorem heap_overlap_of_stale_next :
    ∃ heap₀ heap, HeapBoot zeroMemory 0x1000 0x1100 0x10000 0x20000 ∧
      mmuHeapInit zeroMemory 0x1000 0x1100 0x10000 0x20000 false = .ok heap₀ ∧
      Run HeapStep heap₀
        [.kmalloc 8192 ⟨false, false⟩ smallGrant, .write, .kmalloc 20000 ⟨false, false⟩ smallGrant]
        heap ∧
      heap.live = [⟨0x100df, 20000⟩, ⟨0x10062, 8192⟩, ⟨0x10019, 48⟩] ∧ ¬ HeapTiled heap := by
  have hresult : staleRun.map (fun r => (r.1.arenas, r.2.1.arenas, r.2.1.live, r.2.2.live)) =
      .ok (smallArenas, smallArenas, [⟨0x10062, 8192⟩, ⟨0x10019, 48⟩],
        [⟨0x100df, 20000⟩, ⟨0x10062, 8192⟩, ⟨0x10019, 48⟩]) := by
    decide +kernel
  obtain ⟨⟨heap₀, heap₁, heap₂⟩, hall, hvalues⟩ := Halt.map_eq_ok.mp hresult
  simp only [Prod.mk.injEq] at hvalues
  obtain ⟨harenas₀, harenas₁, hlive₁, hlive⟩ := hvalues
  obtain ⟨heap₀', hinit, hrest⟩ := Halt.bind_eq_ok.mp hall
  obtain ⟨⟨p, heap'⟩, hfirst, hrest⟩ := Halt.bind_eq_ok.mp hrest
  obtain ⟨⟨q, heap₂'⟩, hsecond, hrest⟩ := Halt.bind_eq_ok.mp hrest
  cases hrest
  -- the write stays in the payload and in memory that is not the heap's
  have hwrite : HeapStep heap' .write { heap' with mem := staleMemory heap'.mem } := by
    refine .write fun x hx hown => ?_
    have hpayload : ¬ (0x10062 ≤ x ∧ x < 0x10062 + 8192) := by
      refine hx ⟨0x10062, 8192⟩ ?_
      rw [show heap'.live = _ from hlive₁]
      exact List.mem_cons_self
    have hrecord : x < 0x30000 ∨ 0x30000 + 33 ≤ x := by
      obtain ⟨a, ha, hxa⟩ := hown
      rw [show heap'.arenas = _ from harenas₁] at ha
      simp only [smallArenas, List.mem_cons, List.not_mem_nil, or_false] at ha
      rcases ha with rfl | rfl <;>
        simp only [ArenaBlock.recordBytes, ArenaBlock.bytes, ArenaBlock.stop, Set.mem_Ico,
          arenaRecordSize, blockSize, pageSize, heapArenaSize] at hxa <;> omega
    simp only [staleMemory, setArenaNext, setChunkFree, setChunkSize, setArenaBase, smallGrant]
    rw [Memory.store_of_outside (by omega), Memory.store_of_outside (by omega),
      Memory.store_of_outside (by omega), Memory.store_of_outside (by omega)]
  refine ⟨heap₀, heap₂, smallHeap_boot, hinit, ?_, hlive, ?_⟩
  · exact ((Run.nil.snoc (.kmalloc (fun _ => smallGrant_fresh harenas₀) hfirst)).snoc hwrite).snoc
      (.kmalloc (fun _ => smallGrant_fresh harenas₁) hsecond)
  · intro htiled
    have hdisjoint := htiled.disjoint
    rw [hlive] at hdisjoint
    have hpair := (List.pairwise_cons.mp hdisjoint).1 ⟨0x10062, 8192⟩ List.mem_cons_self
    have hleft : 0x100df ∈ (⟨0x100df, 20000⟩ : Payload).bytes := ⟨le_rfl, by decide⟩
    have hright : 0x100df ∈ (⟨0x10062, 8192⟩ : Payload).bytes := ⟨by decide, by decide⟩
    exact Set.disjoint_left.mp hpair hleft hright

end Mm
end Micael
