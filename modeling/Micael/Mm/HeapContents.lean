import Micael.Mm.HeapGrowth

/-!
# What allocation leaves in memory

`kmalloc` writes the headers of chunks and the records of arenas.  The slab allocator, when it needs a record
for a new arena, may clear a payload of its own.  Everything else in memory stays: what the users of the heap
have in their payloads, what is not the heap's, and the bytes of the payload that is returned, which are
those that its last user left.

Main results:

- Theorem {lit}`kmalloc_data`: what `kmalloc` does not change.
- Theorem {lit}`kmalloc_payload`: the returned payload holds what stood there before.
- Theorem {lit}`kmalloc_keeps`: the bytes of users stay, and the returned payload is apart from them.
-/

namespace Micael
namespace Mm

open Foundation

/-- A byte that is in no record and in no chunk header. -/
def Heap.DataByte (heap : Heap) (x : Nat) : Prop :=
  ∀ a ∈ heap.arenas, x ∉ a.recordBytes ∧ ∀ cs, a.Chunks heap.mem cs → ∀ c ∈ cs, x ∉ headerBytes c

/-- A byte of a payload that was live before a call, or of memory that is not the heap's after it. -/
def UserByte (heap heap' : Heap) (x : Nat) : Prop :=
  (∃ p ∈ heap.live, x ∈ p.bytes) ∨ ∀ a ∈ heap'.arenas, x ∉ a.recordBytes ∧ x ∉ a.bytes

section Bytes

variable {heap : Heap} {p q : Payload} {x : Nat}

/-- Live payloads are data. -/
theorem HeapInv.dataByte_of_live (h : HeapInv heap) (hp : p ∈ heap.live) (hx : x ∈ p.bytes) :
    heap.DataByte x := by
  obtain ⟨b, hb, hpb⟩ := h.live p hp
  intro a ha
  constructor
  · exact Set.disjoint_right.mp (h.apart.mixed a ha b hb) (hpb.subset hx)
  · exact fun cs hcs c hc => Set.disjoint_left.mp (h.tiled.headers p hp a ha cs hcs c hc) hx

/-- A byte is in one live payload at most. -/
theorem HeapInv.live_unique (h : HeapInv heap) (hp : p ∈ heap.live) (hq : q ∈ heap.live) (hxp : x ∈ p.bytes)
    (hxq : x ∈ q.bytes) : p = q := by
  by_contra hne
  have hsymm : Std.Symm fun p q : Payload => Disjoint p.bytes q.bytes := ⟨fun _ _ hpq => hpq.symm⟩
  exact Set.disjoint_left.mp (h.tiled.disjoint.forall hp hq hne) hxp hxq

/-- What is outside the arenas and the records is data. -/
theorem dataByte_of_outside (hx : ∀ a ∈ heap.arenas, x ∉ a.recordBytes ∧ x ∉ a.bytes) : heap.DataByte x := by
  intro a ha
  refine ⟨(hx a ha).1, fun cs hcs c hc hxc => ?_⟩
  exact (hx a ha).2 (hcs.header_subset hc hxc)

end Bytes

/-! ## Taking a chunk -/

section Taking

variable {heap heap' : Heap} {mem : Memory} {a : ArenaBlock} {c size x : Nat} {cs : List Nat} {flags : MmFlags}

/-- Splitting a chunk writes to headers only, and each of them is one after the split. -/
theorem splitBlockAt_headers (hbase : 0 < a.base) (hstop : a.stop ≤ 2 ^ 64) (hcs : a.Chunks mem cs) (hc : c ∈ cs)
    (hsize : size ≤ (readChunk mem c).size) :
    ∃ cs', Prepared a mem (splitBlockAt mem c size) cs cs' c size ∧
      ∀ x, (∀ d ∈ cs', x ∉ headerBytes d) → splitBlockAt mem c size x = mem x := by
  obtain ⟨cs', hprep⟩ := splitBlockAt_prepared hbase hstop hcs hc hsize
  refine ⟨cs', hprep, fun x hx => ?_⟩
  by_cases hsmall : (readChunk mem c).size < size + chunkHeaderSize + splitThreshold
  · rw [splitBlockAt_of_small hsize hsmall]
  have hroom := not_lt.mp hsmall
  have hs := splitBlockAt_spec hcs hstop hc hroom
  have hbounds := ChunkChain.bounds hcs hc
  unfold chunkStop at hbounds
  have hnew : c + chunkHeaderSize + size ∈ cs' := by
    have hnext : (readChunk (splitBlockAt mem c size) c).next = c + chunkHeaderSize + size := by
      rw [hs.head]
    rw [← hnext]
    exact (ChunkChain.next_mem hprep.chunks hprep.mem_c (by rw [hnext]; unfold chunkHeaderSize; omega)).2
  refine splitBlockAt_outside rfl (by unfold chunkHeaderSize at *; omega) hroom (hx c hprep.mem_c)
    (hx _ hnew) fun hne => ?_
  obtain ⟨hstop', hmem⟩ := ChunkChain.next_mem hcs hc hne
  refine hx _ (hprep.others _ hmem ?_).1
  unfold chunkStop chunkHeaderSize at hstop'
  omega

/-- Taking a chunk changes no data. -/
theorem HeapInv.take_data (h : HeapInv heap) (hc : FreeChunk heap size c) (hflags : flags.zero = false)
    (hx : (heap.take (splitBlockAt heap.mem c size) c size flags).DataByte x) :
    (heap.take (splitBlockAt heap.mem c size) c size flags).mem x = heap.mem x ∧ heap.DataByte x := by
  obtain ⟨a, ha, cs, hcs, hmem⟩ := hc.exists_arena
  obtain ⟨-, hbase, -, hstop, -⟩ := h.apart.sane a ha
  obtain ⟨cs', hprep, hheaders⟩ := splitBlockAt_headers hbase hstop hcs hmem hc.size_le
  have hfreed := hprep.setFree false
  have htake : (heap.take (splitBlockAt heap.mem c size) c size flags).mem =
      setChunkFree (splitBlockAt heap.mem c size) c false := by
    simp only [Heap.take, hflags, Bool.false_eq_true, if_false]
  have hxa : ∀ d ∈ cs', x ∉ headerBytes d := (hx a ha).2 cs' (htake ▸ hfreed.chunks)
  constructor
  · have hxc := hxa c hprep.mem_c
    rw [headerBytes, Set.mem_Ico] at hxc
    unfold chunkHeaderSize at hxc
    rw [htake, setChunkFree, Memory.store_of_outside (by omega), hheaders x hxa]
  · intro b hb
    refine ⟨(hx b hb).1, fun cs₁ hcs₁ d hd => ?_⟩
    by_cases hba : b = a
    · subst hba
      obtain rfl := ChunkChain.unique hcs hcs₁
      by_cases hdc : d = c
      · exact hdc ▸ hxa c hprep.mem_c
      · exact hxa d (hprep.others d hd hdc).1
    · refine (hx b hb).2 cs₁ (hcs₁.congr fun e he => ?_) d hd
      rw [htake]
      refine hfreed.outside.mono fun y hy hya => ?_
      exact Set.disjoint_left.mp (h.apart.blocks b hb a ha hba) (hcs₁.header_subset he hy) hya

end Taking

/-! ## Growth -/

section Growth

variable {heap heap' : Heap} {grant : ArenaGrant} {x : Nat}

/-- The nested allocation of the slab allocator clears its own payload and leaves the rest of the data. -/
theorem slabGrow_data (h : HeapInv heap) (hgrow : slabGrow heap = .ok heap') (hx : heap'.DataByte x)
    (hown : ∀ q ∈ heap'.live, x ∈ q.bytes → q ∈ heap.live) : heap'.mem x = heap.mem x ∧ heap.DataByte x := by
  rw [slabGrow] at hgrow
  rcases @findFree_spec _ 40 _ h h.memArena with hnone | ⟨c, hc, hfound⟩
  · rw [hnone] at hgrow
    simp at hgrow
  rw [hfound] at hgrow
  simp only [hc.ne_zero h, if_false, Except.ok.injEq] at hgrow
  subst hgrow
  have htaken := h.take_found hc ⟨false, false⟩
  obtain ⟨taken, htake⟩ : ∃ t, t = heap.take (splitBlockAt heap.mem c 40) c 40 ⟨false, false⟩ := ⟨_, rfl⟩
  have hdata : taken.DataByte x → taken.mem x = heap.mem x ∧ heap.DataByte x := by
    rw [htake]
    exact h.take_data hc rfl
  rw [← htake] at htaken hx hown ⊢
  have hlive : (⟨c + chunkHeaderSize, 40⟩ : Payload) ∈ taken.live := by
    rw [htake]
    exact List.mem_cons_self
  -- the payload that is cleared is new
  have hnew : x ∉ (⟨c + chunkHeaderSize, 40⟩ : Payload).bytes := by
    intro hxc
    have hold : (⟨c + chunkHeaderSize, 40⟩ : Payload) ∈ heap.live := hown _ hlive hxc
    have hnodup := htaken.nodup
    rw [htake] at hnodup
    exact (List.pairwise_cons.mp hnodup).1 _ hold rfl
  have hfill : ∀ y, y ∉ (⟨c + chunkHeaderSize, 40⟩ : Payload).bytes →
      taken.mem.fill (c + chunkHeaderSize) 40 0 y = taken.mem y := by
    intro y hy
    rw [Payload.bytes, Set.mem_Ico] at hy
    exact Memory.fill_of_outside (by simp only at hy; omega)
  have hx' : taken.DataByte x := by
    intro a ha
    refine ⟨(hx a ha).1, fun cs hcs d hd => (hx a ha).2 cs (hcs.congr fun e he y hy => hfill y fun hyc => ?_) d hd⟩
    exact Set.disjoint_left.mp (htaken.tiled.headers _ hlive a ha cs hcs e he) hyc hy
  dsimp only
  rw [hfill x hnew]
  exact hdata hx'

/-- Writing and linking the new arena leaves the data. -/
theorem linkArena_data (h : HeapInv heap) (hfresh : grant.Fresh heap) (hclean : grant.Clean heap)
    (hlink : linkArena heap grant = .ok heap') (hx : heap'.DataByte x) :
    heap'.mem x = heap.mem x ∧ heap.DataByte x := by
  have hinv := linkArena_inv h hfresh hclean hlink
  rw [linkArena_eq h hfresh hclean] at hlink
  have harenas : heap'.arenas = grant.arena :: heap.arenas := by
    rw [← Except.ok.inj hlink]
    rfl
  have hgranted : grant.arena ∈ heap'.arenas := by
    rw [harenas]
    exact List.mem_cons_self
  -- what is in no record and not in the header of the new chunk stays
  have hsame : ∀ y, (∀ a ∈ heap'.arenas, y ∉ a.recordBytes) → y ∉ headerBytes grant.base →
      heap'.mem y = heap.mem y := by
    intro y hrecords hheader
    obtain ⟨a₀, ha₀, hmemArena⟩ := h.memArena
    have hfirst := hrecords a₀ (harenas ▸ List.mem_cons_of_mem _ ha₀)
    have hself := hrecords grant.arena hgranted
    rw [ArenaBlock.recordBytes, Set.mem_Ico, hmemArena] at hfirst
    rw [ArenaBlock.recordBytes, Set.mem_Ico, ArenaGrant.arena] at hself
    rw [headerBytes, Set.mem_Ico] at hheader
    dsimp only at hself
    rw [← Except.ok.inj hlink]
    have hinit : (heap.addArena grant).mem y = heap.mem y := initArena_outside (by omega) (by omega)
    unfold arenaRecordSize at hfirst hself
    dsimp only
    rw [setArenaPrev, Memory.store_of_outside (by omega), setArenaNext, Memory.store_of_outside (by omega), hinit]
  have hbase : x ∉ headerBytes grant.base := by
    obtain ⟨cs, hcs⟩ := hinv.chunks _ hgranted
    have hpos : grant.arena.base ≠ grant.arena.stop := by
      have := (hinv.apart.sane _ hgranted).2.2.1
      unfold ArenaBlock.stop
      omega
    exact (hx _ hgranted).2 _ hcs _ (ChunkChain.first_mem hcs hpos)
  refine ⟨hsame x (fun a ha => (hx a ha).1) hbase, fun a ha => ?_⟩
  have ha' : a ∈ heap'.arenas := harenas ▸ List.mem_cons_of_mem _ ha
  refine ⟨(hx a ha').1, fun cs hcs c hc => (hx a ha').2 cs (hcs.congr fun d hd y hy => ?_) c hc⟩
  have hya := hcs.header_subset hd hy
  have hne : grant.arena ≠ a := fun heq => hfresh.1 a ha (congrArg ArenaBlock.record heq).symm
  refine hsame y (fun b hb hyb => ?_) fun hyh => ?_
  · exact Set.disjoint_left.mp (hinv.apart.mixed b hb a ha') hyb hya
  · have hyg : y ∈ grant.arena.bytes := by
      obtain ⟨-, -, hchunks, -⟩ := @initArena_arena grant.arena heap.mem _ heapArenaSize hfresh.2 List.mem_cons_self rfl
      exact hchunks.header_subset List.mem_cons_self hyh
    exact Set.disjoint_left.mp (hinv.apart.blocks _ hgranted a ha' hne) hyg hya

/-- Adding an arena leaves the data, unless it is in a new payload. -/
theorem allocArena_data (h : HeapInv heap) (hfresh : grant.Fresh heap) (hclean : grant.Clean heap)
    (halloc : allocArena heap grant = .ok heap') (hx : heap'.DataByte x)
    (hown : ∀ q ∈ heap'.live, x ∈ q.bytes → q ∈ heap.live) : heap'.mem x = heap.mem x ∧ heap.DataByte x := by
  rw [allocArena] at halloc
  split at halloc
  · cases halloc
  obtain ⟨heap₁, hentry, hlink⟩ := Halt.bind_eq_ok.mp halloc
  obtain ⟨h₁, hsame⟩ := arenaEntry_inv h hentry
  have hfresh₁ := hsame.fresh hfresh
  have hclean₁ := hsame.clean hfresh hclean
  obtain ⟨hlinked, hx₁⟩ := linkArena_data h₁ hfresh₁ hclean₁ hlink hx
  have hlive : heap'.live = heap₁.live := by
    rw [linkArena_eq h₁ hfresh₁ hclean₁] at hlink
    rw [← Except.ok.inj hlink]
    rfl
  rw [hlive] at hown
  rw [hlinked]
  rw [arenaEntry] at hentry
  split at hentry
  · exact slabGrow_data h hentry hx₁ hown
  · cases hentry
    exact ⟨rfl, hx₁⟩

/-- Adding an arena keeps the live payloads. -/
theorem allocArena_live (h : HeapInv heap) (hfresh : grant.Fresh heap) (hclean : grant.Clean heap)
    (halloc : allocArena heap grant = .ok heap') : heap.live ⊆ heap'.live := by
  rw [allocArena] at halloc
  split at halloc
  · cases halloc
  obtain ⟨heap₁, hentry, hlink⟩ := Halt.bind_eq_ok.mp halloc
  obtain ⟨h₁, hsame⟩ := arenaEntry_inv h hentry
  rw [linkArena_eq h₁ (hsame.fresh hfresh) (hsame.clean hfresh hclean)] at hlink
  rw [← Except.ok.inj hlink]
  change heap.live ⊆ heap₁.live
  rw [arenaEntry] at hentry
  split at hentry
  · rw [slabGrow] at hentry
    rcases @findFree_spec _ 40 _ h h.memArena with hnone | ⟨c, hc, hfound⟩
    · rw [hnone] at hentry
      simp at hentry
    · rw [hfound] at hentry
      simp only [hc.ne_zero h, if_false, Except.ok.injEq] at hentry
      rw [← hentry]
      exact List.subset_cons_self _ _
  · cases hentry
    exact List.Subset.refl _

end Growth

/-! ## Allocation -/

section Allocation

variable {heap heap' : Heap} {grant : ArenaGrant} {size p x : Nat} {flags : MmFlags}

/-- `kmalloc` adds a payload to the live ones. -/
theorem kmalloc_live_subset (h : HeapInv heap)
    (hgrant : findFree heap.mem heap.memArena size = .ok (0, heap.mem) → grant.Fresh heap ∧ grant.Clean heap)
    (hcall : kmalloc heap grant size flags = .ok (p, heap')) :
    ∃ live, heap'.live = ⟨p, size⟩ :: live ∧ heap.live ⊆ live := by
  rcases kmalloc_cases h hcall with ⟨c, hc, rfl, rfl⟩ | ⟨hnone, hgrow⟩
  · exact ⟨heap.live, rfl, List.Subset.refl _⟩
  · obtain ⟨hfresh, hclean⟩ := hgrant hnone
    obtain ⟨heap₁, block, mem, halloc, -, -, rfl, rfl⟩ := kmallocGrow_cases hgrow
    exact ⟨heap₁.live, rfl, allocArena_live h hfresh hclean halloc⟩

/-- `kmalloc` does not change data, unless it is in a payload that the slab allocator got inside the call. -/
theorem kmalloc_data (h : HeapInv heap)
    (hgrant : findFree heap.mem heap.memArena size = .ok (0, heap.mem) → grant.Fresh heap ∧ grant.Clean heap)
    (hflags : flags.zero = false) (hcall : kmalloc heap grant size flags = .ok (p, heap'))
    (hx : heap'.DataByte x) (hown : ∀ q ∈ heap'.live, x ∈ q.bytes → q ∈ heap.live ∨ q = ⟨p, size⟩) :
    heap'.mem x = heap.mem x := by
  have hinv := kmalloc_inv h hgrant hcall
  rcases kmalloc_cases h hcall with ⟨c, hc, -, rfl⟩ | ⟨hnone, hgrow⟩
  · exact (h.take_data hc hflags hx).1
  obtain ⟨hfresh, hclean⟩ := hgrant hnone
  obtain ⟨heap₁, block, mem, halloc, hfind, hblock, rfl, rfl⟩ := kmallocGrow_cases hgrow
  have h₁ := allocArena_inv h hfresh hclean halloc
  obtain ⟨hc, rfl⟩ := findFree_found h₁ h₁.memArena hfind hblock
  obtain ⟨htaken, hx₁⟩ := h₁.take_data hc hflags hx
  rw [htaken]
  refine (allocArena_data h hfresh hclean halloc hx₁ fun q hq hxq => ?_).1
  refine (hown q (List.mem_cons_of_mem _ hq) hxq).resolve_right ?_
  rintro rfl
  exact (List.pairwise_cons.mp hinv.nodup).1 _ hq rfl

/-- The payload that `kmalloc` returns holds what stood there before. -/
theorem kmalloc_payload (h : HeapInv heap)
    (hgrant : findFree heap.mem heap.memArena size = .ok (0, heap.mem) → grant.Fresh heap ∧ grant.Clean heap)
    (hflags : flags.zero = false) (hcall : kmalloc heap grant size flags = .ok (p, heap'))
    (hx : x ∈ (⟨p, size⟩ : Payload).bytes) : heap'.mem x = heap.mem x := by
  have hinv := kmalloc_inv h hgrant hcall
  have hlive := kmalloc_live h hcall
  refine kmalloc_data h hgrant hflags hcall (hinv.dataByte_of_live hlive hx) fun q hq hxq => ?_
  exact Or.inr (hinv.live_unique hq hlive hxq hx)

/-- `kmalloc` leaves the bytes of users, and returns none of them. -/
theorem kmalloc_keeps (h : HeapInv heap)
    (hgrant : findFree heap.mem heap.memArena size = .ok (0, heap.mem) → grant.Fresh heap ∧ grant.Clean heap)
    (hflags : flags.zero = false) (hcall : kmalloc heap grant size flags = .ok (p, heap'))
    (hx : UserByte heap heap' x) : heap'.mem x = heap.mem x ∧ x ∉ (⟨p, size⟩ : Payload).bytes := by
  have hinv := kmalloc_inv h hgrant hcall
  obtain ⟨live, hlive, hsubset⟩ := kmalloc_live_subset h hgrant hcall
  have hp : ⟨p, size⟩ ∈ heap'.live := by
    rw [hlive]
    exact List.mem_cons_self
  rcases hx with ⟨q, hq, hxq⟩ | houtside
  · have hq' : q ∈ heap'.live := by
      rw [hlive]
      exact List.mem_cons_of_mem _ (hsubset hq)
    constructor
    · refine kmalloc_data h hgrant hflags hcall (hinv.dataByte_of_live hq' hxq) fun r hr hxr => ?_
      exact Or.inl (hinv.live_unique hr hq' hxr hxq ▸ hq)
    · intro hxp
      obtain rfl := hinv.live_unique hq' hp hxq hxp
      have hnodup := hinv.nodup
      rw [hlive] at hnodup
      exact (List.pairwise_cons.mp hnodup).1 _ (hsubset hq) rfl
  · have hnone : ∀ r ∈ heap'.live, x ∉ r.bytes := by
      intro r hr hxr
      obtain ⟨a, ha, hra⟩ := hinv.live r hr
      exact (houtside a ha).2 (hra.subset hxr)
    constructor
    · exact kmalloc_data h hgrant hflags hcall (dataByte_of_outside houtside) fun r hr hxr => absurd hxr (hnone r hr)
    · exact hnone _ hp

end Allocation

end Mm
end Micael
