import Micael.Foundation.Memory
import Micael.Mm.Slab

/-!
# What a history leaves in a cache

Two things about a cache depend on its whole history.

The bytes of a free chunk are those that its last user left in the entry.  `mmu_cache_alloc_entry`
returns such a chunk early, before it comes to the `kmemset` that `MM_ZERO` asks for, so the flag has
an effect on entries from the page that is filled only.

The used list has the pages all slots of which were handed out once.  `mmu_cache_destroy` takes it for
the entries in use: it lets a cache go while the entries of its first page are live, and keeps one
all of whose entries were freed.

Main results:

- Theorem {lit}`zeroed_entry_iff`: an entry that was asked for with `MM_ZERO` is zero exactly if it is no
  free chunk or was zero when it was freed.
- Theorem {lit}`cache_destroy_guard_iff`: `mmu_cache_destroy` tells live entries exactly if there are some
  just when there were a whole page of them at some time.
-/

namespace Micael
namespace Mm

open Foundation

variable {size : Nat}

/-! ## The contents of entries -/

/-- `mmu_cache_alloc_entry` with its flags and the memory it may clear: a free chunk is returned as it
is. -/
def mmuCacheAllocEntryIn (c : MmCache) (flags : MmFlags) (page : Nat) (mem : Memory) :
    Except Errno (SlabAlloc × Memory) :=
  match mmuCacheAllocEntry (some c) page with
  | .error e => .error e
  | .ok r =>
      match c.freeChunks with
      | _ :: _ => .ok (r, mem)
      | [] => .ok (r, if flags.zero then mem.fill r.ret c.itemSize 0 else mem)

/-- The bytes of an entry are all zero. -/
def ZeroBytes (mem : Memory) (entry itemSize : Nat) : Prop := ∀ i < itemSize, mem (entry + i) = 0

instance (mem : Memory) (entry itemSize : Nat) : Decidable (ZeroBytes mem entry itemSize) :=
  inferInstanceAs (Decidable (∀ i < itemSize, mem (entry + i) = 0))

/-- A cache, the memory, and for every address whether the entry there was zero when it was last
freed. -/
structure SlabContents extends SlabState where
  mem : Memory
  zeroWhenFreed : Nat → Bool

/-- The calls of a history: allocations and frees, writes of users into their entries, and writes to
memory that the cache does not have. -/
inductive ContentsCall where
  | alloc (flags : MmFlags) (page : Nat)
  | free (entry : Nat)
  | write (entry offset : Nat) (byte : UInt8)
  | elsewhere (addr : Nat) (byte : UInt8)

/-- One call.  Users free and write live entries only. -/
inductive ContentsStep : SlabContents → ContentsCall → SlabContents → Prop
  | alloc {s : SlabContents} {flags : MmFlags} {page : Nat} {r : SlabAlloc} {mem : Memory}
      (hfresh : FreshPage s.pages page)
      (hcall : mmuCacheAllocEntryIn s.cache flags page s.mem = .ok (r, mem)) :
      ContentsStep s (.alloc flags page)
        { cache := r.cache
          pages := if r.tookPage then page :: s.pages else s.pages
          live := r.ret :: s.live
          mem := mem
          zeroWhenFreed := s.zeroWhenFreed }
  | free {s : SlabContents} {entry : Nat} {cache : MmCache} (hlive : entry ∈ s.live)
      (hcall : mmuCacheFreeEntry (some s.cache) entry = .ok cache) :
      ContentsStep s (.free entry)
        { s with
          cache := cache
          live := s.live.erase entry
          zeroWhenFreed := Function.update s.zeroWhenFreed entry
            (decide (ZeroBytes s.mem entry s.cache.itemSize)) }
  | write {s : SlabContents} {entry offset : Nat} {byte : UInt8} (hlive : entry ∈ s.live)
      (hoffset : offset < s.cache.itemSize) :
      ContentsStep s (.write entry offset byte) { s with mem := s.mem.fill (entry + offset) 1 byte }
  | elsewhere {s : SlabContents} {addr : Nat} {byte : UInt8}
      (houtside : ∀ b ∈ s.pages, addr < b ∨ b + pageSize ≤ addr) :
      ContentsStep s (.elsewhere addr byte) { s with mem := s.mem.fill addr 1 byte }

/-- A new cache with a first page, in any memory. -/
def SlabContents.start (cache : MmCache) (page : Nat) (mem : Memory) : SlabContents :=
  ⟨⟨cache, [page], []⟩, mem, fun _ => false⟩

/-- A free chunk is zero exactly if it was when it was freed. -/
structure SlabContents.Inv (size : Nat) (s : SlabContents) : Prop where
  slab : SlabInv size s.toSlabState
  chunks : ∀ chunk ∈ s.cache.freeChunks,
    (s.zeroWhenFreed chunk = true ↔ ZeroBytes s.mem chunk s.cache.itemSize)

/-- Whether an entry is zero depends on its bytes only. -/
theorem zeroBytes_congr {mem mem' : Memory} {entry itemSize : Nat}
    (h : ∀ x, entry ≤ x → x < entry + itemSize → mem' x = mem x) :
    ZeroBytes mem' entry itemSize ↔ ZeroBytes mem entry itemSize := by
  refine forall₂_congr fun i hi => ?_
  rw [h (entry + i) (by omega) (by omega)]

theorem zeroBytes_fill (mem : Memory) (entry itemSize : Nat) :
    ZeroBytes (mem.fill entry itemSize 0) entry itemSize := by
  intro i hi
  rw [Memory.fill, if_pos ⟨by omega, by omega⟩]

theorem takeSlot_kept (c : MmCache) (cfe : CacheFixedEntry) :
    (takeSlot c cfe).itemSize = c.itemSize ∧ (takeSlot c cfe).freeChunks = c.freeChunks := by
  unfold takeSlot
  split
  · exact ⟨rfl, rfl⟩
  · exact ⟨rfl, rfl⟩

/-- The two ways an allocation treats the memory. -/
theorem allocEntryIn_cases {c : MmCache} {flags : MmFlags} {page : Nat} {mem mem' : Memory}
    {r : SlabAlloc} (hcall : mmuCacheAllocEntryIn c flags page mem = .ok (r, mem')) :
    mmuCacheAllocEntry (some c) page = .ok r ∧
      ((∃ rest, c.freeChunks = r.ret :: rest ∧ r.cache.freeChunks = rest ∧
          r.cache.itemSize = c.itemSize ∧ mem' = mem) ∨
        c.freeChunks = [] ∧ r.cache.freeChunks = [] ∧
          mem' = if flags.zero then mem.fill r.ret c.itemSize 0 else mem) := by
  unfold mmuCacheAllocEntryIn at hcall
  cases hentry : mmuCacheAllocEntry (some c) page with
  | error e =>
      rw [hentry] at hcall
      cases hcall
  | ok r' =>
      rw [hentry] at hcall
      dsimp only at hcall
      rcases alloc_cases hentry with ⟨rest, hchunks, hcache, -⟩ |
        ⟨cfe, hchunks, -, -, hcache, -⟩ | ⟨hchunks, -, -, -, hcache⟩
      · rw [hchunks] at hcall
        obtain ⟨rfl, rfl⟩ := Prod.mk.inj (Except.ok.inj hcall)
        exact ⟨rfl, .inl ⟨rest, hchunks, by rw [hcache], by rw [hcache], rfl⟩⟩
      · rw [hchunks] at hcall
        obtain ⟨rfl, rfl⟩ := Prod.mk.inj (Except.ok.inj hcall)
        refine ⟨rfl, .inr ⟨hchunks, ?_, rfl⟩⟩
        rw [hcache, (takeSlot_kept _ _).2, hchunks]
      · rw [hchunks] at hcall
        obtain ⟨rfl, rfl⟩ := Prod.mk.inj (Except.ok.inj hcall)
        refine ⟨rfl, .inr ⟨hchunks, ?_, rfl⟩⟩
        rw [hcache, (takeSlot_kept _ _).2]
        exact hchunks

/-- An allocation from a cache that is not null returns an entry. -/
theorem allocEntryIn_ok (c : MmCache) (flags : MmFlags) (page : Nat) (mem : Memory) :
    ∃ r mem', mmuCacheAllocEntryIn c flags page mem = .ok (r, mem') := by
  obtain ⟨itemSize, capacity, freeList, usedList, freeChunks⟩ := c
  cases freeChunks with
  | cons chunk rest => exact ⟨_, _, rfl⟩
  | nil =>
      cases freeList with
      | some cfe => exact ⟨_, _, rfl⟩
      | none => exact ⟨_, _, rfl⟩

/-- A free chunk shares no byte with a live entry. -/
theorem SlabInv.chunk_apart {s : SlabState} (h : SlabInv size s) {entry chunk : Nat}
    (hlive : entry ∈ s.live) (hchunk : chunk ∈ s.cache.freeChunks) :
    Apart s.cache.itemSize entry chunk := by
  have hapart := (List.pairwise_append.mp h.all_apart).1
  exact (List.pairwise_append.mp hapart).2.2 entry hlive chunk hchunk

/-- A free chunk lies in one of the pages. -/
theorem SlabInv.chunk_inside {s : SlabState} (h : SlabInv size s) {chunk : Nat}
    (hchunk : chunk ∈ s.cache.freeChunks) :
    ∃ b ∈ s.pages, b ≤ chunk ∧ chunk + s.cache.itemSize ≤ b + pageSize := by
  have hslot : chunk ∈ s.pages.flatMap (slots s.cache.itemSize) :=
    h.perm.mem_iff.mp (List.mem_append_left _ (List.mem_append_right _ hchunk))
  obtain ⟨b, hb, hmem⟩ := List.mem_flatMap.mp hslot
  exact ⟨b, hb, mem_slots_bounds hmem⟩

theorem SlabContents.Inv.step {s t : SlabContents} {call : ContentsCall} (h : s.Inv size)
    (hstep : ContentsStep s call t) : t.Inv size := by
  cases hstep with
  | alloc hfresh hcall =>
      obtain ⟨hentry, hcases⟩ := allocEntryIn_cases hcall
      refine ⟨h.slab.alloc hfresh hentry, ?_⟩
      rcases hcases with ⟨rest, hchunks, hrest, hitem, rfl⟩ | ⟨-, hnone, -⟩
      · intro chunk hchunk
        dsimp only at hchunk ⊢
        rw [hrest] at hchunk
        rw [hitem]
        exact h.chunks chunk (hchunks ▸ List.mem_cons_of_mem _ hchunk)
      · intro chunk hchunk
        dsimp only at hchunk
        rw [hnone] at hchunk
        cases hchunk
  | @free entry cache hlive hcall =>
      refine ⟨h.slab.free hlive hcall, ?_⟩
      obtain ⟨-, hcache⟩ := guard_eq_ok.mp hcall
      obtain rfl := Except.ok.inj hcache
      intro chunk hchunk
      rcases List.mem_cons.mp ((appendAfterHead_perm _ _).mem_iff.mp hchunk) with rfl | hold
      · simp only [Function.update_self, decide_eq_true_eq]
      · have hne : chunk ≠ entry := by
          rintro rfl
          have hpos := h.slab.item_pos
          rcases h.slab.chunk_apart hlive hold with hlt | hlt <;> omega
        simp only [Function.update_of_ne hne]
        exact h.chunks chunk hold
  | @write entry offset byte hlive hoffset =>
      refine ⟨h.slab, fun chunk hchunk => (h.chunks chunk hchunk).trans (zeroBytes_congr ?_).symm⟩
      intro x hfrom hto
      apply Memory.fill_of_outside
      rcases h.slab.chunk_apart hlive hchunk with hlt | hlt <;> omega
  | @elsewhere addr byte houtside =>
      refine ⟨h.slab, fun chunk hchunk => (h.chunks chunk hchunk).trans (zeroBytes_congr ?_).symm⟩
      intro x hfrom hto
      apply Memory.fill_of_outside
      obtain ⟨b, hb, hle, hend⟩ := h.slab.chunk_inside hchunk
      rcases houtside b hb with hlt | hlt <;> omega

/-- In every state of every history, an allocation with `MM_ZERO` returns an entry whose bytes are all
zero exactly if the first free chunk, if there is one, was zero when it was freed. -/
theorem zeroed_entry_iff {page : Nat} {cache : MmCache} {mem : Memory} {calls : List ContentsCall}
    {s : SlabContents} (hpage : 0 < page) (hcreate : mmuCacheCreate size page = .ok cache)
    (hrun : Run ContentsStep (.start cache page mem) calls s) (flags : MmFlags) (page' : Nat)
    (hzero : flags.zero = true) :
    ∃ r mem', mmuCacheAllocEntryIn s.cache flags page' s.mem = .ok (r, mem') ∧
      (ZeroBytes mem' r.ret s.cache.itemSize ↔
        ∀ chunk rest, s.cache.freeChunks = chunk :: rest → s.zeroWhenFreed chunk = true) := by
  have hinv : s.Inv size := by
    refine hrun.invariant (SlabContents.Inv size) (fun _ _ _ h hstep => h.step hstep) ?_
    refine ⟨SlabInv.create hpage hcreate, ?_⟩
    obtain ⟨-, hbody⟩ := guard_eq_ok.mp hcreate
    obtain rfl := Except.ok.inj hbody
    intro chunk hchunk
    cases hchunk
  obtain ⟨r, mem', hcall⟩ := allocEntryIn_ok s.cache flags page' s.mem
  refine ⟨r, mem', hcall, ?_⟩
  rcases (allocEntryIn_cases hcall).2 with ⟨rest, hchunks, -, -, rfl⟩ | ⟨hnone, -, rfl⟩
  · have hhead := hinv.chunks r.ret (by rw [hchunks]; exact List.mem_cons_self)
    rw [← hhead, hchunks]
    constructor
    · rintro hclean chunk rest' heq
      obtain ⟨rfl, -⟩ := List.cons.inj heq
      exact hclean
    · exact fun h => h _ _ rfl
  · rw [hnone, if_pos hzero]
    constructor
    · rintro - chunk rest heq
      cases heq
    · exact fun _ => zeroBytes_fill _ _ _

/-- A cache for entries of two bytes. -/
def smallCache : MmCache where
  itemSize := 2
  capacity := 2048
  freeList := some ⟨2047, 4096, 4096⟩
  usedList := []
  freeChunks := []

theorem smallCache_create : mmuCacheCreate 2 4096 = .ok smallCache := by decide +kernel

theorem freshPage_second : FreshPage [4096] 8192 := ⟨by decide, by simp [Apart, pageSize]⟩

/-- An entry that was cleared before it was freed is zero when it is handed out again. -/
theorem cleared_entry_zeroed :
    ∃ s, Run ContentsStep (.start smallCache 4096 fun _ => 7)
        [.alloc ⟨false, false⟩ 8192, .write 4096 0 0, .write 4096 1 0, .free 4096] s ∧
      ∃ r mem', mmuCacheAllocEntryIn s.cache ⟨true, false⟩ 8192 s.mem = .ok (r, mem') ∧
        r.ret = 4096 ∧ ZeroBytes mem' 4096 2 := by
  have hrun : ∃ s, Run ContentsStep (.start smallCache 4096 fun _ => 7)
      [.alloc ⟨false, false⟩ 8192, .write 4096 0 0, .write 4096 1 0, .free 4096] s ∧
      s.cache.freeChunks = [4096] ∧ s.cache.itemSize = 2 ∧ s.zeroWhenFreed 4096 = true :=
    ⟨_, (((Run.nil.snoc (.alloc freshPage_second rfl)).snoc (.write List.mem_cons_self (by decide))).snoc
      (.write List.mem_cons_self (by decide))).snoc (.free List.mem_cons_self rfl), rfl, rfl,
      by decide +kernel⟩
  obtain ⟨s, hrun, hchunks, hitem, hclean⟩ := hrun
  obtain ⟨r, mem', hcall, hiff⟩ :=
    zeroed_entry_iff (by decide) smallCache_create hrun ⟨true, false⟩ 8192 rfl
  have hret : r.ret = 4096 := by
    rcases (allocEntryIn_cases hcall).2 with ⟨rest, hhead, -⟩ | ⟨hnone, -⟩
    · rw [hchunks] at hhead
      exact (List.cons.inj hhead).1.symm
    · rw [hchunks] at hnone
      cases hnone
  refine ⟨s, hrun, r, mem', hcall, hret, ?_⟩
  rw [hitem, hret] at hiff
  apply hiff.mpr
  intro chunk rest heq
  rw [hchunks] at heq
  obtain ⟨rfl, -⟩ := List.cons.inj heq
  exact hclean

/-- A used entry is handed out again as its user left it. -/
theorem dirty_entry_not_zeroed : mmuCacheCreate 2 4096 = .ok smallCache ∧
    ¬ ∀ (calls : List ContentsCall) (s : SlabContents),
      Run ContentsStep (.start smallCache 4096 fun _ => 0) calls s → ∀ page, FreshPage s.pages page →
        ∀ r mem, mmuCacheAllocEntryIn s.cache ⟨true, false⟩ page s.mem = .ok (r, mem) →
          ZeroBytes mem r.ret s.cache.itemSize := by
  refine ⟨smallCache_create, fun hclaim => ?_⟩
  have hrun : ∃ s, Run ContentsStep (.start smallCache 4096 fun _ => 0)
      [.alloc ⟨true, false⟩ 8192, .write 4096 0 1, .free 4096] s ∧ s.pages = [4096] ∧
      ∃ r mem, mmuCacheAllocEntryIn s.cache ⟨true, false⟩ 8192 s.mem = .ok (r, mem) ∧
        ¬ ZeroBytes mem r.ret s.cache.itemSize :=
    ⟨_, ((Run.nil.snoc (.alloc freshPage_second rfl)).snoc (.write List.mem_cons_self (by decide))).snoc
      (.free List.mem_cons_self rfl), rfl, _, _, rfl, by decide +kernel⟩
  obtain ⟨s, hrun, hpages, r, mem, hcall, hdirty⟩ := hrun
  exact hdirty (hclaim _ s hrun 8192 (hpages ▸ freshPage_second) r mem hcall)

/-! ## The end of a cache -/

/-- `mmu_cache_destroy`: what it returns, and the cache unless it was freed. -/
def mmuCacheDestroy (cache : Option MmCache) : Option Errno × Option MmCache :=
  match cache with
  | none => (some .einval, none)
  | some c => if c.usedList ≠ [] then (some .ebusy, some c) else (none, none)

/-- The guard is right: a cache with live entries stays as it is, and one without is destroyed. -/
structure DestroyGuard (s : SlabState) : Prop where
  busy : s.live ≠ [] → mmuCacheDestroy (some s.cache) = (some .ebusy, some s.cache)
  idle : s.live = [] → (mmuCacheDestroy (some s.cache)).1 = none

/-- A cache and the largest number of entries that were live at one time. -/
structure SlabPeak extends SlabState where
  peak : Nat

/-- One call. -/
inductive SlabPeakStep : SlabPeak → SlabCall → SlabPeak → Prop
  | call {s : SlabPeak} {call : SlabCall} {t : SlabState} (hstep : SlabStep s.toSlabState call t) :
      SlabPeakStep s call ⟨t, max s.peak t.live.length⟩

/-- The number of entries in a page. -/
def MmCache.perPage (c : MmCache) : Nat := pageSize / c.itemSize

/-- As many entries were handed out as were live at one time, and the used list is empty until the
first page is. -/
structure SlabPeak.Inv (size : Nat) (s : SlabPeak) : Prop where
  slab : SlabInv size s.toSlabState
  handed : s.live.length + s.cache.freeChunks.length = s.peak
  first : s.cache.usedList = [] → s.cache.freeList ≠ none ∧ s.pages.length = 1
  full : s.cache.usedList ≠ [] → s.cache.perPage ≤ s.peak

/-- The slots that were handed out and those that were not are those of the pages. -/
theorem SlabInv.length_eq {s : SlabState} (h : SlabInv size s) :
    s.live.length + s.cache.freeChunks.length + s.cache.unused.length =
      s.pages.length * s.cache.perPage := by
  have hlength := h.perm.length_eq
  have hslots : ∀ pages : List Nat, (pages.flatMap (slots s.cache.itemSize)).length =
      pages.length * s.cache.perPage := by
    intro pages
    induction pages with
    | nil => simp
    | cons page pages ih =>
        rw [List.flatMap_cons, List.length_append, ih, List.length_cons, Nat.succ_mul]
        simp only [slots, List.length_map, List.length_range, MmCache.perPage]
        omega
  rw [hslots, List.length_append, List.length_append] at hlength
  exact hlength

theorem MmCache.unused_pos {c : MmCache} (h : c.freeList ≠ none) : 0 < c.unused.length := by
  obtain ⟨cfe, hcfe⟩ := Option.ne_none_iff_exists'.mp h
  simp [MmCache.unused, hcfe]

theorem MmCache.unused_nil {c : MmCache} (h : c.freeList = none) : c.unused = [] := by
  rw [MmCache.unused, h]

theorem appendAfterHead_ne_nil {α : Type} (list : List α) (elem : α) :
    appendAfterHead list elem ≠ [] := by
  cases list <;> simp [appendAfterHead]

/-- After a slot was taken, the current page is the used one, or the used list is as before. -/
theorem takeSlot_lists (c : MmCache) (cfe : CacheFixedEntry) :
    (takeSlot c cfe).usedList ≠ [] ∧ (takeSlot c cfe).freeList = none ∨
      (takeSlot c cfe).usedList = c.usedList ∧ (takeSlot c cfe).freeList ≠ none := by
  unfold takeSlot
  split
  · exact .inl ⟨appendAfterHead_ne_nil _ _, rfl⟩
  · exact .inr ⟨rfl, Option.some_ne_none _⟩

/-- The used list is empty exactly as long as there was no whole page of live entries. -/
theorem SlabPeak.Inv.usedList_iff {s : SlabPeak} (h : s.Inv size) :
    s.cache.usedList ≠ [] ↔ s.cache.perPage ≤ s.peak := by
  constructor
  · exact h.full
  · intro hpeak hnil
    obtain ⟨hlist, hone⟩ := h.first hnil
    have hlength := h.slab.length_eq
    have hpos := MmCache.unused_pos hlist
    rw [h.handed, hone] at hlength
    omega

/-- Where an allocation that took no chunk leaves the lists and the count. -/
theorem SlabPeak.Inv.take {s : SlabPeak} (h : s.Inv size) {c c' : MmCache} {cfe : CacheFixedEntry}
    {pages : List Nat} {entry : Nat} (hchunks : s.cache.freeChunks = [])
    (hitem : c.itemSize = s.cache.itemSize) (hkept : c.freeChunks = s.cache.freeChunks)
    (hused : c.usedList = s.cache.usedList) (hcache : c' = takeSlot c cfe)
    (hpages : s.cache.usedList = [] → pages.length = 1)
    (hslab : SlabInv size ⟨c', pages, entry :: s.live⟩) :
    SlabPeak.Inv size ⟨⟨c', pages, entry :: s.live⟩, max s.peak (s.live.length + 1)⟩ := by
  have hlive := h.handed
  rw [hchunks, List.length_nil, Nat.add_zero] at hlive
  have hnone : c'.freeChunks = [] := by
    rw [hcache, (takeSlot_kept c cfe).2, hkept, hchunks]
  have hper : c'.perPage = s.cache.perPage := by
    rw [MmCache.perPage, hcache, (takeSlot_kept c cfe).1, hitem, MmCache.perPage]
  have hlists := takeSlot_lists c cfe
  rw [← hcache, hused] at hlists
  constructor
  case slab => exact hslab
  case handed =>
    dsimp only
    rw [hnone, List.length_cons, List.length_nil]
    omega
  case first =>
    intro hnil
    rcases hlists with ⟨hne, -⟩ | ⟨hsame, hlist⟩
    · exact absurd hnil hne
    · exact ⟨hlist, hpages (hsame.symm.trans hnil)⟩
  case full =>
    intro hne
    dsimp only at hne ⊢
    rw [hper]
    rcases hlists with ⟨-, hlist⟩ | ⟨hsame, -⟩
    · -- the last slot of the page was taken, so all slots were handed out
      have hlength := hslab.length_eq
      dsimp only at hlength
      rw [hnone, MmCache.unused_nil hlist, hper, List.length_cons, List.length_nil] at hlength
      have hpos : 0 < pages.length := by
        by_contra hzero
        rw [Nat.eq_zero_of_not_pos hzero, Nat.zero_mul] at hlength
        omega
      have hle : s.cache.perPage ≤ pages.length * s.cache.perPage := Nat.le_mul_of_pos_left _ hpos
      omega
    · exact (h.full (hsame ▸ hne)).trans (le_max_left _ _)

theorem SlabPeak.Inv.step {s t : SlabPeak} {call : SlabCall} (h : s.Inv size)
    (hstep : SlabPeakStep s call t) : t.Inv size := by
  obtain ⟨hstep⟩ := hstep
  have hhanded := h.handed
  cases hstep with
  | @alloc page r hfresh hcall =>
      have hslab := h.slab.alloc hfresh hcall
      rcases alloc_cases hcall with ⟨rest, hchunks, hcache, htook⟩ |
        ⟨cfe, hchunks, hlist, hret, hcache, htook⟩ | ⟨hchunks, hlist, hret, htook, hcache⟩
      · constructor
        case slab => exact hslab
        case handed =>
          rw [hchunks, List.length_cons] at hhanded
          dsimp only
          rw [hcache, List.length_cons]
          dsimp only
          omega
        case first =>
          dsimp only
          rw [hcache, htook]
          exact h.first
        case full =>
          dsimp only
          rw [hcache]
          exact fun hne => (h.full hne).trans (le_max_left _ _)
      · refine h.take hchunks rfl rfl rfl hcache ?_ hslab
        rw [htook]
        exact fun hnil => (h.first hnil).2
      · generalize hgrown : { s.cache with
          capacity := u64 (s.cache.capacity + pageSize / s.cache.itemSize) } = grown at hcache
        refine h.take hchunks ?_ ?_ ?_ hcache ?_ hslab
        · rw [← hgrown]
        · rw [← hgrown]
        · rw [← hgrown]
        · exact fun hnil => absurd hlist (h.first hnil).1
  | @free entry cache hlive hcall =>
      have hslab := h.slab.free hlive hcall
      obtain ⟨-, hcache⟩ := guard_eq_ok.mp hcall
      obtain rfl := Except.ok.inj hcache
      have hpos := List.length_pos_of_mem hlive
      constructor
      case slab => exact hslab
      case handed =>
        dsimp only
        rw [(appendAfterHead_perm _ _).length_eq, List.length_cons, List.length_erase_of_mem hlive]
        omega
      case first => exact h.first
      case full => exact fun hne => (h.full hne).trans (le_max_left _ _)

/-- In every state of every history, `mmu_cache_destroy` keeps a cache with live entries and destroys
one without exactly if entries are live just when a whole page of them was at one time. -/
theorem cache_destroy_guard_iff {page : Nat} {cache : MmCache} {calls : List SlabCall} {s : SlabPeak}
    (hpage : 0 < page) (hcreate : mmuCacheCreate size page = .ok cache)
    (hrun : Run SlabPeakStep ⟨⟨cache, [page], []⟩, 0⟩ calls s) :
    DestroyGuard s.toSlabState ↔ (s.live ≠ [] ↔ s.cache.perPage ≤ s.peak) := by
  have hinv : s.Inv size := by
    refine hrun.invariant (SlabPeak.Inv size) (fun _ _ _ h hstep => h.step hstep) ?_
    have hslab := SlabInv.create hpage hcreate
    obtain ⟨-, hbody⟩ := guard_eq_ok.mp hcreate
    obtain rfl := Except.ok.inj hbody
    constructor
    case slab => exact hslab
    case handed => rfl
    case first => exact fun _ => ⟨Option.some_ne_none _, rfl⟩
    case full => exact fun hne => absurd rfl hne
  rw [← hinv.usedList_iff]
  by_cases hused : s.cache.usedList = []
  · have hdestroy : mmuCacheDestroy (some s.cache) = (none, none) := if_neg (not_not.mpr hused)
    constructor
    · intro hguard
      refine ⟨fun hlive => ?_, fun hne => absurd hused hne⟩
      have hbusy := hguard.busy hlive
      rw [hdestroy] at hbusy
      cases hbusy
    · intro hiff
      refine ⟨fun hlive => absurd hused (hiff.mp hlive), fun _ => ?_⟩
      rw [hdestroy]
  · have hdestroy : mmuCacheDestroy (some s.cache) = (some .ebusy, some s.cache) := if_pos hused
    constructor
    · intro hguard
      refine ⟨fun _ => hused, fun _ hidle => ?_⟩
      have hzero := hguard.idle hidle
      rw [hdestroy] at hzero
      cases hzero
    · intro hiff
      exact ⟨fun _ => hdestroy, fun hidle => absurd hidle (hiff.mpr hused)⟩

/-- A page with one entry that is live: the cache is busy. -/
theorem page_entry_keeps_cache :
    ∃ s, Run SlabPeakStep ⟨⟨pageCache 1 [] [], [4096], []⟩, 0⟩ [.alloc 8192] s ∧
      s.live = [4096] ∧ mmuCacheCreate 4095 4096 = .ok (pageCache 1 [] []) ∧
      DestroyGuard s.toSlabState := by
  have hcreate : mmuCacheCreate 4095 4096 = .ok (pageCache 1 [] []) := by decide +kernel
  have hrun : ∃ s, Run SlabPeakStep ⟨⟨pageCache 1 [] [], [4096], []⟩, 0⟩ [.alloc 8192] s ∧
      s.live = [4096] ∧ s.peak = 1 ∧ s.cache.itemSize = 4096 :=
    ⟨_, Run.nil.snoc (.call (.alloc (r := ⟨4096, pageCache 1 [4096] [], false⟩) freshPage_second
      (by decide +kernel))), rfl, rfl, rfl⟩
  obtain ⟨s, hrun, hlive, hpeak, hitem⟩ := hrun
  refine ⟨s, hrun, hlive, hcreate, (cache_destroy_guard_iff (by decide) hcreate hrun).mpr ?_⟩
  rw [hlive, hpeak, MmCache.perPage, hitem]
  decide

/-- A cache with a live entry in its first page is destroyed, and one whose entries were all freed is
busy for good. -/
theorem live_entry_cache_destroyed :
    mmuCacheCreate 2 4096 = .ok smallCache ∧ mmuCacheCreate 4095 4096 = .ok (pageCache 1 [] []) ∧
    (∃ s, Run SlabStep ⟨smallCache, [4096], []⟩ [.alloc 8192] s ∧ s.live = [4096] ∧
      mmuCacheDestroy (some s.cache) = (none, none) ∧ ¬ DestroyGuard s) ∧
    ∃ s, Run SlabStep ⟨pageCache 1 [] [], [4096], []⟩ [.alloc 8192, .free 4096] s ∧ s.live = [] ∧
      (mmuCacheDestroy (some s.cache)).1 = some .ebusy ∧ ¬ DestroyGuard s := by
  refine ⟨smallCache_create, by decide +kernel, ?_, ?_⟩
  · have hrun : ∃ s, Run SlabStep ⟨smallCache, [4096], []⟩ [.alloc 8192] s ∧ s.live = [4096] ∧
        mmuCacheDestroy (some s.cache) = (none, none) :=
      ⟨_, Run.nil.snoc (.alloc freshPage_second rfl), rfl, rfl⟩
    obtain ⟨s, hrun, hlive, hdestroy⟩ := hrun
    refine ⟨s, hrun, hlive, hdestroy, fun hguard => ?_⟩
    have hbusy := hguard.busy (hlive ▸ List.cons_ne_nil _ _)
    rw [hdestroy] at hbusy
    cases hbusy
  · have hrun : ∃ s, Run SlabStep ⟨pageCache 1 [] [], [4096], []⟩ [.alloc 8192, .free 4096] s ∧
        s.live = [] ∧ (mmuCacheDestroy (some s.cache)).1 = some .ebusy :=
      ⟨_, (Run.nil.snoc (.alloc (r := ⟨4096, pageCache 1 [4096] [], false⟩) freshPage_second
        (by decide +kernel))).snoc (.free List.mem_cons_self rfl), rfl, rfl⟩
    obtain ⟨s, hrun, hlive, hdestroy⟩ := hrun
    refine ⟨s, hrun, hlive, hdestroy, fun hguard => ?_⟩
    have hidle := hguard.idle hlive
    rw [hdestroy] at hidle
    cases hidle

end Mm
end Micael
