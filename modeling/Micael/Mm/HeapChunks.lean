import Micael.Mm.Heap

/-!
# Chunk lists of the kernel heap

Below are the facts about chunk headers that the heap invariant rests on: what the
header stores do to the headers read back, and how the list of an arena's chunks
changes when a chunk is split.

Main results:

- Theorem {lit}`ChunkChain.split`: splitting a chunk keeps the chunks a tiling.
- Theorem {lit}`splitBlockAt_spec`: what `__split_block` does to the headers of an arena.
- Theorem {lit}`findChunk_spec`: the walk over an arena ends, and finds a free chunk that is
  large enough.
-/

namespace Micael
namespace Mm

open Foundation

/-! ## Headers in memory -/

section Headers

variable {mem mem' : Memory} {a c d v : Nat}

/-- A header is determined by its 25 bytes. -/
theorem readChunk_congr (h : Memory.Agree (Set.Ico c (c + chunkHeaderSize)) mem mem') :
    readChunk mem c = readChunk mem' c := by
  have hfield : ∀ o n, o + n ≤ chunkHeaderSize → mem.load (c + o) n = mem'.load (c + o) n := by
    intro o n hon
    apply Memory.load_congr
    refine h.mono fun x hx => ?_
    rw [Set.mem_Ico] at hx ⊢
    omega
  have hsize : mem.load c 8 = mem'.load c 8 := hfield 0 8 (by decide)
  rw [readChunk, readChunk, hsize, hfield 8 1 (by decide), hfield 9 8 (by decide),
    hfield 17 8 (by decide)]

/-- An arena record is determined by its bytes. -/
theorem readArena_congr (h : Memory.Agree (Set.Ico a (a + arenaRecordSize)) mem mem') :
    readArena mem a = readArena mem' a := by
  have hfield : ∀ o n, o + n ≤ arenaRecordSize → mem.load (a + o) n = mem'.load (a + o) n := by
    intro o n hon
    apply Memory.load_congr
    refine h.mono fun x hx => ?_
    rw [Set.mem_Ico] at hx ⊢
    omega
  have hsize : mem.load a 8 = mem'.load a 8 := hfield 0 8 (by decide)
  rw [readArena, readArena, hsize, hfield 8 8 (by decide), hfield 16 1 (by decide),
    hfield 17 8 (by decide)]

theorem readChunk_size_lt (mem : Memory) (c : Nat) : (readChunk mem c).size < 2 ^ 64 :=
  mem.load_lt c 8

@[simp]
theorem readChunk_setChunkSize (hv : v < 2 ^ 64) :
    readChunk (setChunkSize mem c v) c = { readChunk mem c with size := v } := by
  simp only [readChunk, setChunkSize, Memory.load_store_self]
  rw [Memory.load_store_of_disjoint (by omega), Memory.load_store_of_disjoint (by omega),
    Memory.load_store_of_disjoint (by omega), Nat.mod_eq_of_lt (by simpa using hv)]

@[simp]
theorem readChunk_setChunkFree (b : Bool) :
    readChunk (setChunkFree mem c b) c = { readChunk mem c with free := b } := by
  simp only [readChunk, setChunkFree, Memory.load_store_self]
  rw [Memory.load_store_of_disjoint (by omega), Memory.load_store_of_disjoint (by omega),
    Memory.load_store_of_disjoint (by omega)]
  cases b <;> rfl

@[simp]
theorem readChunk_setChunkNext (hv : v < 2 ^ 64) :
    readChunk (setChunkNext mem c v) c = { readChunk mem c with next := v } := by
  simp only [readChunk, setChunkNext, Memory.load_store_self]
  rw [Memory.load_store_of_disjoint (by omega), Memory.load_store_of_disjoint (by omega),
    Memory.load_store_of_disjoint (by omega), Nat.mod_eq_of_lt (by simpa using hv)]

@[simp]
theorem readChunk_setChunkPrev (hv : v < 2 ^ 64) :
    readChunk (setChunkPrev mem c v) c = { readChunk mem c with prev := v } := by
  simp only [readChunk, setChunkPrev, Memory.load_store_self]
  rw [Memory.load_store_of_disjoint (by omega), Memory.load_store_of_disjoint (by omega),
    Memory.load_store_of_disjoint (by omega), Nat.mod_eq_of_lt (by simpa using hv)]

/-- The headers at two addresses share no byte. -/
def HeadersApart (c d : Nat) : Prop := c + chunkHeaderSize ≤ d ∨ d + chunkHeaderSize ≤ c

/-- A store inside one header leaves a header apart from it. -/
theorem readChunk_store_of_apart {o n : Nat} (h : HeadersApart c d)
    (hon : o + n ≤ chunkHeaderSize) : readChunk (mem.store (c + o) n v) d = readChunk mem d := by
  apply readChunk_congr
  apply Memory.agree_store
  intro x hx
  rw [Set.mem_Ico] at hx
  unfold HeadersApart at h
  omega

theorem readChunk_setChunkSize_of_apart (h : HeadersApart c d) :
    readChunk (setChunkSize mem c v) d = readChunk mem d :=
  @readChunk_store_of_apart mem c d v 0 8 h (by decide)

theorem readChunk_setChunkFree_of_apart {b : Bool} (h : HeadersApart c d) :
    readChunk (setChunkFree mem c b) d = readChunk mem d :=
  readChunk_store_of_apart h (by decide)

theorem readChunk_setChunkNext_of_apart (h : HeadersApart c d) :
    readChunk (setChunkNext mem c v) d = readChunk mem d :=
  readChunk_store_of_apart h (by decide)

theorem readChunk_setChunkPrev_of_apart (h : HeadersApart c d) :
    readChunk (setChunkPrev mem c v) d = readChunk mem d :=
  readChunk_store_of_apart h (by decide)

@[simp]
theorem readArena_setArenaSize (hv : v < 2 ^ 64) :
    readArena (setArenaSize mem a v) a = { readArena mem a with size := v } := by
  simp only [readArena, setArenaSize, Memory.load_store_self]
  rw [Memory.load_store_of_disjoint (by omega), Memory.load_store_of_disjoint (by omega),
    Memory.load_store_of_disjoint (by omega), Nat.mod_eq_of_lt (by simpa using hv)]

@[simp]
theorem readArena_setArenaBase (hv : v < 2 ^ 64) :
    readArena (setArenaBase mem a v) a = { readArena mem a with base := v } := by
  simp only [readArena, setArenaBase, Memory.load_store_self]
  rw [Memory.load_store_of_disjoint (by omega), Memory.load_store_of_disjoint (by omega),
    Memory.load_store_of_disjoint (by omega), Nat.mod_eq_of_lt (by simpa using hv)]

@[simp]
theorem readArena_setArenaLock (hv : v < 2 ^ 8) :
    readArena (setArenaLock mem a v) a = { readArena mem a with lock := v } := by
  simp only [readArena, setArenaLock, Memory.load_store_self]
  rw [Memory.load_store_of_disjoint (by omega), Memory.load_store_of_disjoint (by omega),
    Memory.load_store_of_disjoint (by omega), Nat.mod_eq_of_lt (by simpa using hv)]

@[simp]
theorem readArena_setArenaNext (hv : v < 2 ^ 64) :
    readArena (setArenaNext mem a v) a = { readArena mem a with next := v } := by
  simp only [readArena, setArenaNext, Memory.load_store_self]
  rw [Memory.load_store_of_disjoint (by omega), Memory.load_store_of_disjoint (by omega),
    Memory.load_store_of_disjoint (by omega), Nat.mod_eq_of_lt (by simpa using hv)]

@[simp]
theorem readArena_setArenaPrev : readArena (setArenaPrev mem a v) a = readArena mem a := by
  simp only [readArena, setArenaPrev]
  rw [Memory.load_store_of_disjoint (by omega), Memory.load_store_of_disjoint (by omega),
    Memory.load_store_of_disjoint (by omega), Memory.load_store_of_disjoint (by omega)]

/-- What `__alloc_arena` and `mmu_heap_init` write for a new arena. -/
structure FreshArena (mem mem' : Memory) (record base order : Nat) : Prop where
  arena : readArena mem' record = ⟨blockSize order, base, 0, (readArena mem record).next⟩
  chunk : readChunk mem' base = ⟨blockSize order - chunkHeaderSize, true, 0, 0⟩
  outside : ∀ x, (x < record ∨ record + arenaRecordSize ≤ x) →
    (x < base ∨ base + chunkHeaderSize ≤ x) → mem' x = mem x

/-- `initArena` writes a record and a chunk header. -/
theorem initArena_outside {record base order x : Nat} (hx : x < record ∨ record + arenaRecordSize ≤ x)
    (hx' : x < base ∨ base + chunkHeaderSize ≤ x) : initArena mem record base order x = mem x := by
  unfold arenaRecordSize at hx
  unfold chunkHeaderSize at hx'
  rw [initArena, setChunkSize, Memory.store_of_outside (by omega), setChunkPrev,
    Memory.store_of_outside (by omega), setChunkNext, Memory.store_of_outside (by omega),
    setChunkFree, Memory.store_of_outside (by omega), setArenaLock, Memory.store_of_outside (by omega),
    setArenaSize, Memory.store_of_outside (by omega), setArenaBase, Memory.store_of_outside (by omega)]

theorem initArena_spec {record base order : Nat} (hbase : base < 2 ^ 64)
    (hsize : blockSize order < 2 ^ 64)
    (hapart : record + arenaRecordSize ≤ base ∨ base + chunkHeaderSize ≤ record) :
    FreshArena mem (initArena mem record base order) record base order := by
  have hzero : (0 : Nat) < 2 ^ 64 := by norm_num
  obtain ⟨mem₁, hmem₁⟩ : ∃ mem₁, mem₁ = setArenaLock (setArenaSize (setArenaBase mem record base)
      record (blockSize order)) record 0 := ⟨_, rfl⟩
  have hrecord : readArena mem₁ record =
      ⟨blockSize order, base, 0, (readArena mem record).next⟩ := by
    rw [hmem₁, readArena_setArenaLock (by norm_num), readArena_setArenaSize hsize,
      readArena_setArenaBase hbase]
  have hinit : initArena mem record base order = setChunkSize (setChunkPrev (setChunkNext
      (setChunkFree mem₁ base true) base 0) base 0) base (blockSize order - chunkHeaderSize) := by
    rw [hmem₁, initArena]
  have hchunks : ∀ x, (x < base ∨ base + chunkHeaderSize ≤ x) →
      initArena mem record base order x = mem₁ x := by
    intro x hx
    unfold chunkHeaderSize at hx
    rw [hinit, setChunkSize, Memory.store_of_outside (by omega), setChunkPrev,
      Memory.store_of_outside (by omega), setChunkNext, Memory.store_of_outside (by omega),
      setChunkFree, Memory.store_of_outside (by omega)]
  refine ⟨?_, ?_, ?_⟩
  · rw [← hrecord]
    apply readArena_congr
    intro x hx
    rw [Set.mem_Ico] at hx
    exact hchunks x (by omega)
  · rw [hinit, readChunk_setChunkSize (by omega), readChunk_setChunkPrev hzero,
      readChunk_setChunkNext hzero, readChunk_setChunkFree]
  · intro x hx hx'
    exact initArena_outside hx hx'

end Headers

/-! ## Chunk lists -/

/-- Where a chunk ends: header plus size. -/
def chunkStop (g : Nat → MmChunk) (c : Nat) : Nat := c + chunkHeaderSize + (g c).size

/-- The chunks reached from `a` through `next` are `cs`.  Each starts where the one
before it ends, the last one ends at `stop` and has no successor, and `prev` leads
back, from the first one to `prev`. -/
inductive ChunkChain (g : Nat → MmChunk) (stop : Nat) : Nat → Nat → List Nat → Prop
  | nil {prev : Nat} : ChunkChain g stop prev stop []
  | cons {prev a : Nat} {cs : List Nat} (hprev : (g a).prev = prev)
      (hnext : (g a).next = if chunkStop g a = stop then 0 else chunkStop g a)
      (hrest : ChunkChain g stop a (chunkStop g a) cs) : ChunkChain g stop prev a (a :: cs)

section Chains

variable {g g' : Nat → MmChunk} {stop prev a c d : Nat} {cs : List Nat}

theorem ChunkChain.le_stop (h : ChunkChain g stop prev a cs) : a ≤ stop := by
  induction h with
  | nil => exact le_rfl
  | cons hprev hnext hrest ih => exact le_trans (by unfold chunkStop; omega) ih

/-- Every chunk lies between the first one and the end. -/
theorem ChunkChain.bounds (h : ChunkChain g stop prev a cs) (hc : c ∈ cs) :
    a ≤ c ∧ chunkStop g c ≤ stop := by
  induction h with
  | nil => cases hc
  | @cons prev a cs hprev hnext hrest ih =>
      rcases List.mem_cons.mp hc with rfl | hc
      · exact ⟨le_rfl, hrest.le_stop⟩
      · have hlater := ih hc
        refine ⟨le_trans ?_ hlater.1, hlater.2⟩
        unfold chunkStop
        omega

/-- Different chunks do not overlap. -/
theorem ChunkChain.apart (h : ChunkChain g stop prev a cs) (hc : c ∈ cs) (hd : d ∈ cs)
    (hne : c ≠ d) : chunkStop g c ≤ d ∨ chunkStop g d ≤ c := by
  induction h with
  | nil => cases hc
  | cons hprev hnext hrest ih =>
      rcases List.mem_cons.mp hc with rfl | hc'
      · rcases List.mem_cons.mp hd with rfl | hd'
        · exact absurd rfl hne
        · exact Or.inl (hrest.bounds hd').1
      · rcases List.mem_cons.mp hd with rfl | hd'
        · exact Or.inr (hrest.bounds hc').1
        · exact ih hc' hd'

theorem ChunkChain.headersApart (h : ChunkChain g stop prev a cs) (hc : c ∈ cs) (hd : d ∈ cs)
    (hne : c ≠ d) : HeadersApart c d := by
  rcases h.apart hc hd hne with h' | h'
  · exact Or.inl (le_trans (by unfold chunkStop; omega) h')
  · exact Or.inr (le_trans (by unfold chunkStop; omega) h')

/-- The list of an arena's chunks is determined by the headers. -/
theorem ChunkChain.unique {cs' : List Nat} (h : ChunkChain g stop prev a cs)
    (h' : ChunkChain g stop prev a cs') : cs = cs' := by
  induction h generalizing cs' with
  | nil =>
      cases h' with
      | nil => rfl
      | cons hprev hnext hrest =>
          have := hrest.le_stop
          unfold chunkStop chunkHeaderSize at this
          omega
  | cons hprev hnext hrest ih =>
      cases h' with
      | nil =>
          have := hrest.le_stop
          unfold chunkStop chunkHeaderSize at this
          omega
      | cons hprev' hnext' hrest' => rw [ih hrest']

theorem ChunkChain.length_le (h : ChunkChain g stop prev a cs) : a + cs.length ≤ stop := by
  induction h with
  | nil => simp
  | cons hprev hnext hrest ih =>
      rw [List.length_cons]
      unfold chunkStop chunkHeaderSize at ih
      omega

/-- The list depends on size and links of its chunks only. -/
theorem ChunkChain.congr (h : ChunkChain g stop prev a cs)
    (hg : ∀ c ∈ cs, (g' c).size = (g c).size ∧ (g' c).next = (g c).next ∧
      (g' c).prev = (g c).prev) : ChunkChain g' stop prev a cs := by
  induction h with
  | nil => exact .nil
  | @cons prev a cs hprev hnext hrest ih =>
      obtain ⟨hsize, hnext', hprev'⟩ := hg a List.mem_cons_self
      have hstop : chunkStop g' a = chunkStop g a := by rw [chunkStop, chunkStop, hsize]
      refine .cons (hprev'.trans hprev) (by rw [hnext', hnext, hstop]) ?_
      rw [hstop]
      exact ih fun c hc => hg c (List.mem_cons_of_mem _ hc)

/-- The chunk after `c` in the list, if there is one, starts where `c` ends. -/
theorem ChunkChain.next_eq (h : ChunkChain g stop prev a cs) (hc : c ∈ cs) :
    (g c).next = if chunkStop g c = stop then 0 else chunkStop g c := by
  induction h with
  | nil => cases hc
  | cons hprev hnext hrest ih =>
      rcases List.mem_cons.mp hc with rfl | hc'
      · exact hnext
      · exact ih hc'

theorem ChunkChain.stop_mem (h : ChunkChain g stop prev a cs) (hc : c ∈ cs)
    (hlast : chunkStop g c ≠ stop) : chunkStop g c ∈ cs := by
  induction h with
  | nil => cases hc
  | cons hprev hnext hrest ih =>
      rcases List.mem_cons.mp hc with rfl | hc'
      · cases hrest with
        | nil => exact absurd rfl hlast
        | cons => simp
      · exact List.mem_cons_of_mem _ (ih hc')

/-- A chunk that has a successor is followed by it in the list. -/
theorem ChunkChain.next_mem (h : ChunkChain g stop prev a cs) (hc : c ∈ cs) (hne : (g c).next ≠ 0) :
    (g c).next = chunkStop g c ∧ (g c).next ∈ cs := by
  have hnext := h.next_eq hc
  by_cases hlast : chunkStop g c = stop
  · rw [if_pos hlast] at hnext
    exact absurd hnext hne
  · rw [if_neg hlast] at hnext
    exact ⟨hnext, hnext ▸ h.stop_mem hc hlast⟩

/-- A chain that is not empty begins with its first chunk. -/
theorem ChunkChain.first_mem (h : ChunkChain g stop prev a cs) (hne : a ≠ stop) : a ∈ cs := by
  cases h with
  | nil => exact absurd rfl hne
  | cons => exact List.mem_cons_self

/-- A list of chunks where `new` follows `c`. -/
def insertAfter (c new : Nat) : List Nat → List Nat
  | [] => []
  | d :: cs => if d = c then d :: new :: cs else d :: insertAfter c new cs

theorem mem_insertAfter {new : Nat} (hc : c ∈ cs) :
    d ∈ insertAfter c new cs ↔ d ∈ cs ∨ d = new := by
  induction cs with
  | nil => cases hc
  | cons e cs ih =>
      by_cases he : e = c
      · rw [insertAfter, if_pos he]
        simp only [List.mem_cons]
        tauto
      · have hc' : c ∈ cs := by
          rcases List.mem_cons.mp hc with rfl | hc'
          · exact absurd rfl he
          · exact hc'
        rw [insertAfter, if_neg he]
        simp only [List.mem_cons, ih hc']
        tauto

/-- What splitting the chunk `c` after `size` bytes of payload does to the headers. -/
structure SplitAt (g g' : Nat → MmChunk) (cs : List Nat) (c size : Nat) : Prop where
  room : size + chunkHeaderSize ≤ (g c).size
  head : g' c = { g c with
    size := size
    next := c + chunkHeaderSize + size }
  new : g' (c + chunkHeaderSize + size) =
    ⟨(g c).size - size - chunkHeaderSize, true, (g c).next, c⟩
  after : (g c).next ≠ 0 →
    g' (g c).next = { g (g c).next with prev := c + chunkHeaderSize + size }
  other : ∀ d ∈ cs, d ≠ c → d ≠ (g c).next → g' d = g d

/-- Only the back pointer of the first chunk depends on what comes before the list. -/
theorem ChunkChain.change_prev {prev' : Nat} (h : ChunkChain g stop prev a cs)
    (hhead : a ∈ cs → g' a = { g a with prev := prev' })
    (hrest : ∀ d ∈ cs, d ≠ a → g' d = g d) : ChunkChain g' stop prev' a cs := by
  cases h with
  | nil => exact .nil
  | @cons _ _ cs hprev hnext htail =>
      have hself := hhead List.mem_cons_self
      have hstop : chunkStop g' a = chunkStop g a := by rw [chunkStop, chunkStop, hself]
      refine .cons (by rw [hself]) (by rw [hself, hstop, hnext]) ?_
      rw [hstop]
      refine htail.congr fun d hd => ?_
      have hne : d ≠ a := by
        have := (htail.bounds hd).1
        unfold chunkStop chunkHeaderSize at this
        omega
      rw [hrest d (List.mem_cons_of_mem _ hd) hne]
      exact ⟨rfl, rfl, rfl⟩

/-- Splitting a chunk keeps the chunks a tiling of the arena. -/
theorem ChunkChain.split {size : Nat} (h : ChunkChain g stop prev a cs) (hc : c ∈ cs)
    (ha : 0 < a) (hs : SplitAt g g' cs c size) :
    ChunkChain g' stop prev a (insertAfter c (c + chunkHeaderSize + size) cs) := by
  induction h with
  | nil => cases hc
  | @cons prev a cs hprev hnext hrest ih =>
      by_cases hac : a = c
      · subst hac
        rw [insertAfter, if_pos rfl]
        set new := a + chunkHeaderSize + size with hnew
        have hroom := hs.room
        have hheadStop : chunkStop g' a = new := by rw [chunkStop, hs.head]
        have hnewStop : chunkStop g' new = chunkStop g a := by
          rw [chunkStop, chunkStop, hs.new]
          simp only
          omega
        have hlt : new < stop := by
          have := hrest.le_stop
          unfold chunkStop at this
          unfold chunkHeaderSize at *
          omega
        refine .cons (by rw [hs.head]; exact hprev) ?_ ?_
        · rw [hheadStop, if_neg (by omega), hs.head]
        · rw [hheadStop]
          refine .cons (by rw [hs.new]) ?_ ?_
          · rw [hnewStop, hs.new]
            exact hnext
          · rw [hnewStop]
            refine hrest.change_prev (fun hmem => ?_) fun d hd hne => ?_
            · have hne : chunkStop g a ≠ stop := by
                have := (hrest.bounds hmem).2
                unfold chunkStop chunkHeaderSize at *
                omega
              have hnext' : (g a).next = chunkStop g a := by rw [hnext, if_neg hne]
              have hpos : (g a).next ≠ 0 := by
                rw [hnext']
                unfold chunkStop chunkHeaderSize
                omega
              have hafter := hs.after hpos
              rwa [hnext'] at hafter
            · have hda := (hrest.bounds hd).1
              have hdstop := (hrest.bounds hd).2
              refine hs.other d (List.mem_cons_of_mem _ hd) ?_ ?_
              · unfold chunkStop chunkHeaderSize at hda
                omega
              · rw [hnext]
                split
                · unfold chunkStop chunkHeaderSize at hda
                  omega
                · exact hne
      · have hc' : c ∈ cs := by
          rcases List.mem_cons.mp hc with rfl | hc'
          · exact absurd rfl hac
          · exact hc'
        rw [insertAfter, if_neg hac]
        have hbefore : chunkStop g a ≤ c := (hrest.bounds hc').1
        -- the first chunk lies before the split one and is left alone
        have hself : g' a = g a := by
          refine hs.other a List.mem_cons_self hac ?_
          rw [hrest.next_eq hc']
          split
          · omega
          · unfold chunkStop chunkHeaderSize at *
            omega
        have hstop : chunkStop g' a = chunkStop g a := by rw [chunkStop, chunkStop, hself]
        refine .cons (by rw [hself]; exact hprev) (by rw [hself, hstop, hnext]) ?_
        rw [hstop]
        exact ih hc' (by unfold chunkStop; omega) { hs with
          other := fun d hd => hs.other d (List.mem_cons_of_mem _ hd) }

end Chains

/-! ## Splitting in memory -/

section Splitting

variable {mem : Memory} {stop prev a c size : Nat} {cs : List Nat}

/-- A chunk that is too small to be split stays as it is. -/
theorem splitBlockAt_of_small (hsize : size ≤ (readChunk mem c).size)
    (hsmall : (readChunk mem c).size < size + chunkHeaderSize + splitThreshold) :
    splitBlockAt mem c size = mem := by
  have hlt := readChunk_size_lt mem c
  rw [splitBlockAt, if_pos]
  rw [show (readChunk mem c).size + 2 ^ 64 - size = (readChunk mem c).size - size + 2 ^ 64 by omega,
    u64, Nat.add_mod_right, Nat.mod_eq_of_lt (by omega)]
  omega

/-- The stores of `__split_block`, one after the other. -/
theorem splitBlockAt_eq {new : Nat} (hnew : new = c + chunkHeaderSize + size)
    (hnew64 : new < 2 ^ 64)
    (hsize : size + chunkHeaderSize + splitThreshold ≤ (readChunk mem c).size) :
    splitBlockAt mem c size =
      let mem₃ := setChunkSize (setChunkFree
        (setChunkSize mem new ((readChunk mem c).size - size - chunkHeaderSize)) new true) c size
      let next := (readChunk mem c).next
      let mem₄ := if next ≠ 0 then setChunkPrev mem₃ next new else mem₃
      setChunkPrev (setChunkNext (setChunkNext mem₄ new (readChunk mem₄ c).next) c new) new c := by
  have hlt := readChunk_size_lt mem c
  have happart : HeadersApart new c := Or.inr (by omega)
  have hsplit :
      ¬ u64 ((readChunk mem c).size + 2 ^ 64 - size) < chunkHeaderSize + splitThreshold := by
    rw [show (readChunk mem c).size + 2 ^ 64 - size = (readChunk mem c).size - size + 2 ^ 64 by
        unfold chunkHeaderSize at hsize; omega,
      u64, Nat.add_mod_right, Nat.mod_eq_of_lt (by omega)]
    omega
  have hnext : (readChunk (setChunkSize (setChunkFree
      (setChunkSize mem new ((readChunk mem c).size - size - chunkHeaderSize)) new true) c size)
      c).next = (readChunk mem c).next := by
    rw [readChunk_setChunkSize (by omega), readChunk_setChunkFree_of_apart happart,
      readChunk_setChunkSize_of_apart happart]
  rw [splitBlockAt, if_neg hsplit, u64_eq_of_lt (hnew ▸ hnew64), ← hnew]
  simp only [hnext]

/-- `__split_block` writes inside the chunk and into the back pointer of the next one. -/
theorem splitBlockAt_spec (h : ChunkChain (readChunk mem) stop prev a cs)
    (hstop : stop ≤ 2 ^ 64) (hc : c ∈ cs)
    (hsize : size + chunkHeaderSize + splitThreshold ≤ (readChunk mem c).size) :
    SplitAt (readChunk mem) (readChunk (splitBlockAt mem c size)) cs c size := by
  have hlt := readChunk_size_lt mem c
  have hac := (h.bounds hc).1
  have hcstop := (h.bounds hc).2
  have hnextLt : (readChunk mem c).next < 2 ^ 64 := mem.load_lt (c + 9) 8
  have hnext : (readChunk mem c).next ≠ 0 → (readChunk mem c).next = chunkStop (readChunk mem) c :=
    fun hne => (h.next_mem hc hne).1
  obtain ⟨new, hnew⟩ : ∃ new, new = c + chunkHeaderSize + size := ⟨_, rfl⟩
  have hroom : new + chunkHeaderSize ≤ chunkStop (readChunk mem) c := by
    unfold chunkStop
    omega
  have hnew64 : new < 2 ^ 64 := by
    unfold chunkHeaderSize at hroom
    omega
  have hc64 : c < 2 ^ 64 := by omega
  have hnc : HeadersApart new c := Or.inr (by omega)
  have hcn : HeadersApart c new := Or.inl (by omega)
  rw [splitBlockAt_eq hnew hnew64 hsize]
  dsimp only
  set mem₃ := setChunkSize (setChunkFree
    (setChunkSize mem new ((readChunk mem c).size - size - chunkHeaderSize)) new true) c size
    with hmem₃
  set next := (readChunk mem c).next with hnextDef
  set mem₄ := if next ≠ 0 then setChunkPrev mem₃ next new else mem₃ with hmem₄
  -- a header apart from the next chunk's is not touched by the fourth store
  have hfour : ∀ d, (next ≠ 0 → HeadersApart next d) → readChunk mem₄ d = readChunk mem₃ d := by
    intro d hd
    rw [hmem₄]
    split
    · next hne => exact readChunk_setChunkPrev_of_apart (hd hne)
    · rfl
  have hthree : ∀ d, HeadersApart new d → HeadersApart c d →
      readChunk mem₃ d = readChunk mem d := by
    intro d hnd hcd
    rw [hmem₃, readChunk_setChunkSize_of_apart hcd, readChunk_setChunkFree_of_apart hnd,
      readChunk_setChunkSize_of_apart hnd]
  have hlast : ∀ d, HeadersApart new d → HeadersApart c d →
      readChunk (setChunkPrev (setChunkNext (setChunkNext mem₄ new (readChunk mem₄ c).next) c new)
        new c) d = readChunk mem₄ d := by
    intro d hnd hcd
    rw [readChunk_setChunkPrev_of_apart hnd, readChunk_setChunkNext_of_apart hcd,
      readChunk_setChunkNext_of_apart hnd]
  have hnextc : next ≠ 0 → HeadersApart next c := by
    intro hne
    rw [hnext hne]
    exact Or.inr (by unfold chunkStop; omega)
  have hnextnew : next ≠ 0 → HeadersApart next new := by
    intro hne
    rw [hnext hne]
    exact Or.inr hroom
  have hc₄ : readChunk mem₄ c = { readChunk mem c with size := size } := by
    rw [hfour c hnextc, hmem₃, readChunk_setChunkSize (by omega),
      readChunk_setChunkFree_of_apart hnc, readChunk_setChunkSize_of_apart hnc]
  have hnew₄ : readChunk mem₄ new = { readChunk mem new with
      size := (readChunk mem c).size - size - chunkHeaderSize
      free := true } := by
    rw [hfour new hnextnew, hmem₃, readChunk_setChunkSize_of_apart hcn, readChunk_setChunkFree,
      readChunk_setChunkSize (by omega)]
  refine ⟨by omega, ?_, ?_, ?_, ?_⟩
  · rw [readChunk_setChunkPrev_of_apart hnc, readChunk_setChunkNext hnew64,
      readChunk_setChunkNext_of_apart hnc, hc₄, hnew]
  · rw [← hnew, readChunk_setChunkPrev hc64, readChunk_setChunkNext_of_apart hcn,
      readChunk_setChunkNext (by rw [hc₄]; exact hnextLt), hnew₄, hc₄]
  · intro hne
    have hcx : HeadersApart c next := (hnextc hne).symm
    have hnx : HeadersApart new next := (hnextnew hne).symm
    rw [hlast next hnx hcx, hmem₄, if_pos hne, readChunk_setChunkPrev hnew64,
      hthree next hnx hcx, hnew]
  · intro d hd hdc hdnext
    have hcd : chunkStop (readChunk mem) c ≤ d ∨ chunkStop (readChunk mem) d ≤ c :=
      h.apart hc hd (Ne.symm hdc)
    have hapartc : HeadersApart c d := h.headersApart hc hd (Ne.symm hdc)
    have hapartnew : HeadersApart new d := by
      rcases hcd with hcd | hcd
      · exact Or.inl (by omega)
      · refine Or.inr ?_
        unfold chunkStop at hcd
        omega
    have hapartnext : next ≠ 0 → HeadersApart next d := by
      intro hne
      exact h.headersApart (h.next_mem hc hne).2 hd (Ne.symm hdnext)
    rw [hlast d hapartnew hapartc, hfour d hapartnext, hthree d hapartnew hapartc]

/-- `__split_block` writes to the headers of the chunk, of the new one behind it and of the next one. -/
theorem splitBlockAt_outside {new x : Nat} (hnew : new = c + chunkHeaderSize + size) (hnew64 : new < 2 ^ 64)
    (hsize : size + chunkHeaderSize + splitThreshold ≤ (readChunk mem c).size)
    (hc : x ∉ Set.Ico c (c + chunkHeaderSize)) (hn : x ∉ Set.Ico new (new + chunkHeaderSize))
    (hnext : (readChunk mem c).next ≠ 0 →
      x ∉ Set.Ico (readChunk mem c).next ((readChunk mem c).next + chunkHeaderSize)) :
    splitBlockAt mem c size x = mem x := by
  have hstore : ∀ (m : Memory) (d o n v : Nat), x ∉ Set.Ico d (d + chunkHeaderSize) →
      o + n ≤ chunkHeaderSize → m.store (d + o) n v x = m x := by
    intro m d o n v hd hon
    rw [Set.mem_Ico] at hd
    exact Memory.store_of_outside (by omega)
  rw [splitBlockAt_eq hnew hnew64 hsize]
  dsimp only
  refine (hstore _ new 17 8 _ hn (by decide)).trans ?_
  refine (hstore _ c 9 8 _ hc (by decide)).trans ?_
  refine (hstore _ new 9 8 _ hn (by decide)).trans ?_
  have hthree : setChunkSize (setChunkFree
      (setChunkSize mem new ((readChunk mem c).size - size - chunkHeaderSize)) new true) c size x =
      mem x := by
    refine (hstore _ c 0 8 _ hc (by decide)).trans ?_
    refine (hstore _ new 8 1 _ hn (by decide)).trans ?_
    exact hstore _ new 0 8 _ hn (by decide)
  split
  · next hne => exact (hstore _ _ 17 8 _ (hnext hne) (by decide)).trans hthree
  · exact hthree

/-- All bytes that `__split_block` writes lie in the arena. -/
theorem splitBlockAt_agree (h : ChunkChain (readChunk mem) stop prev a cs)
    (hstop : stop ≤ 2 ^ 64) (hc : c ∈ cs)
    (hsize : size + chunkHeaderSize + splitThreshold ≤ (readChunk mem c).size) :
    Memory.Agree (Set.Ico a stop)ᶜ (splitBlockAt mem c size) mem := by
  have hbounds := h.bounds hc
  -- a header that lies in the arena
  have hheader : ∀ d, a ≤ d → d + chunkHeaderSize ≤ stop → ∀ x ∈ (Set.Ico a stop)ᶜ,
      x ∉ Set.Ico d (d + chunkHeaderSize) := by
    intro d had hdstop x hx hxd
    exact hx ⟨had.trans hxd.1, hxd.2.trans_le hdstop⟩
  intro x hx
  unfold chunkStop at hbounds
  refine splitBlockAt_outside rfl (by unfold chunkHeaderSize at *; omega) hsize
    (hheader c hbounds.1 (by omega) x hx) (hheader _ (by omega) (by omega) x hx) fun hne => ?_
  have hnext := h.bounds (h.next_mem hc hne).2
  unfold chunkStop at hnext
  exact hheader _ hnext.1 (by omega) x hx

end Splitting

/-! ## The walk over an arena -/

/-- The walk over the chunks of an arena ends.  It finds a free chunk that is large enough, or
there is none. -/
theorem findChunk_spec {mem : Memory} {stop prev a size n : Nat} {cs : List Nat}
    (h : ChunkChain (readChunk mem) stop prev a cs) (ha : 0 < a) (hn : cs.length < n) :
    ∃ block, findChunk mem size n (if a = stop then 0 else a) = .ok block ∧
      (block ≠ 0 → block ∈ cs ∧ (readChunk mem block).free = true ∧
        size ≤ (readChunk mem block).size) ∧
      (block = 0 → ∀ c ∈ cs, ¬ ((readChunk mem c).free = true ∧ size ≤ (readChunk mem c).size)) := by
  induction h generalizing n with
  | nil =>
      obtain ⟨n, rfl⟩ : ∃ m, n = m + 1 := ⟨n - 1, by omega⟩
      exact ⟨0, by simp [findChunk], fun hne => absurd rfl hne, by simp⟩
  | @cons prev a cs hprev hnext hrest ih =>
      obtain ⟨n, rfl⟩ : ∃ m, n = m + 1 := ⟨n - 1, by omega⟩
      have hne : a ≠ stop := by
        have := hrest.le_stop
        unfold chunkStop chunkHeaderSize at this
        omega
      rw [if_neg hne, findChunk, if_neg (by omega)]
      by_cases hfit : (readChunk mem a).free ∧ size ≤ (readChunk mem a).size
      · refine ⟨a, if_pos hfit, fun _ => ⟨List.mem_cons_self, hfit.1, hfit.2⟩, fun hzero => ?_⟩
        omega
      · rw [if_neg hfit, hnext]
        obtain ⟨block, hblock, hfound, hnone⟩ :=
          @ih n (by unfold chunkStop; omega) (by simpa using hn)
        refine ⟨block, hblock, fun hb => ?_, fun hzero c hc => ?_⟩
        · obtain ⟨hmem, hfree, hsize⟩ := hfound hb
          exact ⟨List.mem_cons_of_mem _ hmem, hfree, hsize⟩
        · rcases List.mem_cons.mp hc with rfl | hc
          · exact hfit
          · exact hnone hzero c hc

end Mm
end Micael
