import Micael.Foundation.Run
import Micael.Mm.Types

/-!
# The slab allocator

A cache hands out entries of one size.  It takes them from the chunks that were freed, then from
the page it is filling, then from a new page.  The page that is filled has a bump pointer and a
count of the slots behind it, which wraps when the last slot is taken; a page without free slots
goes to the used list.

The pages come from `alloc_fixed_entry`, which sets the bump pointer to the start of the page; here
the page is an argument of the calls that may need one.  The contents of entries and the spinlock are
not part of the model.

Main results:

- Theorem {lit}`SlabInv.run`: live entries, free chunks and the unused slots of the current page are
  together the slots of all pages, each once.
- Theorem {lit}`slab_entries_disjoint`: live entries lie in their pages and apart from each other, an
  allocation never returns a live entry, and a page is obtained only when all slots are live.
-/

namespace Micael
namespace Mm

open Foundation

/-- `MULTIPLE_OF_2`, on a `size_t`. -/
def multipleOf2 (value : Nat) : Nat := u64 (value + 1) &&& (2 ^ 64 - 2)

/-- `struct cache_fixed_entry`: a page and its free slots. -/
structure CacheFixedEntry where
  numFree : Nat
  nextFree : Nat
  mem : Nat
deriving DecidableEq, Repr

/-- `struct mm_cache`.  The free chunks are the list of their `mem` pointers, in list order. -/
structure MmCache where
  itemSize : Nat
  capacity : Nat
  freeList : Option CacheFixedEntry
  usedList : List CacheFixedEntry
  freeChunks : List Nat
deriving DecidableEq, Repr

/-- `alloc_fixed_entry`: `mem` is the page that the list of free pages or the page allocator
gave. -/
def allocFixedEntry (mem itemSize : Nat) : CacheFixedEntry where
  numFree := u64 (pageSize / itemSize + 2 ^ 64 - 1)
  nextFree := mem
  mem := mem

/-- `list_append` to a list that is known by its first element: the new element becomes the
second. -/
def appendAfterHead {α : Type} (list : List α) (elem : α) : List α :=
  match list with
  | [] => [elem]
  | head :: rest => head :: elem :: rest

/-- `mmu_cache_create`. -/
def mmuCacheCreate (size page : Nat) : Except Errno MmCache :=
  if pageSize < size ∨ size = 0 then .error .einval
  else
    let itemSize := multipleOf2 size
    .ok { itemSize := itemSize
          capacity := pageSize / itemSize
          freeList := some (allocFixedEntry page itemSize)
          usedList := []
          freeChunks := [] }

/-- What an allocation returns: the entry, the cache, and whether it took the page offered. -/
structure SlabAlloc where
  ret : Nat
  cache : MmCache
  tookPage : Bool
deriving DecidableEq, Repr

/-- Take the next slot of the page `cfe`: the count is compared and then decremented. -/
def takeSlot (c : MmCache) (cfe : CacheFixedEntry) : MmCache :=
  if cfe.numFree = 0 then
    { c with
      usedList := appendAfterHead c.usedList { cfe with numFree := u64 (cfe.numFree + 2 ^ 64 - 1) }
      freeList := none }
  else
    { c with
      freeList := some { cfe with
        numFree := u64 (cfe.numFree + 2 ^ 64 - 1)
        nextFree := cfe.nextFree + c.itemSize } }

/-- `mmu_cache_alloc_entry`; a null cache is `none`. -/
def mmuCacheAllocEntry (cache : Option MmCache) (page : Nat) : Except Errno SlabAlloc :=
  match cache with
  | none => .error .einval
  | some c =>
      match c.freeChunks with
      | mem :: rest => .ok ⟨mem, { c with freeChunks := rest }, false⟩
      | [] =>
          match c.freeList with
          | some cfe => .ok ⟨cfe.nextFree, takeSlot c cfe, false⟩
          | none =>
              let cfe := allocFixedEntry page c.itemSize
              let c := { c with capacity := u64 (c.capacity + pageSize / c.itemSize) }
              .ok ⟨cfe.nextFree, takeSlot c cfe, true⟩

/-- `mmu_cache_free_entry`; null pointers are `none` and zero. -/
def mmuCacheFreeEntry (cache : Option MmCache) (entry : Nat) : Except Errno MmCache :=
  match cache with
  | none => .error .einval
  | some c =>
      if entry = 0 then .error .einval
      else .ok { c with freeChunks := appendAfterHead c.freeChunks entry }

/-! ## Runs -/

/-- Two blocks of `n` bytes do not overlap. -/
def Apart (n a b : Nat) : Prop := a + n ≤ b ∨ b + n ≤ a

/-- A page that can be handed to the cache: at an address, and apart from those it has. -/
def FreshPage (pages : List Nat) (page : Nat) : Prop := 0 < page ∧ ∀ b ∈ pages, Apart pageSize page b

/-- A cache, the pages it obtained, and the entries that were handed out and not freed. -/
structure SlabState where
  cache : MmCache
  pages : List Nat
  live : List Nat
deriving DecidableEq, Repr

/-- The calls of a run: an allocation with the page it is offered, and a free. -/
inductive SlabCall where
  | alloc (page : Nat)
  | free (entry : Nat)
deriving DecidableEq, Repr

/-- One call; only live entries are freed. -/
inductive SlabStep : SlabState → SlabCall → SlabState → Prop
  | alloc {s : SlabState} {page : Nat} {r : SlabAlloc} : FreshPage s.pages page →
      mmuCacheAllocEntry (some s.cache) page = .ok r →
      SlabStep s (.alloc page)
        { cache := r.cache
          pages := if r.tookPage then page :: s.pages else s.pages
          live := r.ret :: s.live }
  | free {s : SlabState} {entry : Nat} {cache : MmCache} : entry ∈ s.live →
      mmuCacheFreeEntry (some s.cache) entry = .ok cache →
      SlabStep s (.free entry) { s with cache := cache, live := s.live.erase entry }

/-- The slots of a page, for entries of `itemSize` bytes. -/
def slots (itemSize page : Nat) : List Nat :=
  (List.range (pageSize / itemSize)).map fun i => page + i * itemSize

/-- What a cache for requests of `size` bytes promises about a state. -/
structure SlabSafe (size : Nat) (s : SlabState) : Prop where
  /-- An entry is as large as was asked for. -/
  itemSize_ge : size ≤ s.cache.itemSize
  /-- Live entries do not overlap. -/
  apart : s.live.Pairwise (Apart s.cache.itemSize)
  /-- A live entry lies in one of the pages. -/
  inside : ∀ e ∈ s.live, ∃ b ∈ s.pages, b ≤ e ∧ e + s.cache.itemSize ≤ b + pageSize
  /-- An allocation returns an entry that is not live. -/
  fresh : ∀ page r, FreshPage s.pages page → mmuCacheAllocEntry (some s.cache) page = .ok r →
    r.ret ∉ s.live
  /-- A page is obtained only when every slot of the pages is live. -/
  full : ∀ page r, mmuCacheAllocEntry (some s.cache) page = .ok r → r.tookPage = true →
    ∀ b ∈ s.pages, ∀ e ∈ slots s.cache.itemSize b, e ∈ s.live

/-! ## Slots of pages -/

theorem Apart.symm {n a b : Nat} (h : Apart n a b) : Apart n b a :=
  Or.symm h

/-- A slot ends before its page does. -/
theorem mem_slots_bounds {itemSize page e : Nat} (h : e ∈ slots itemSize page) :
    page ≤ e ∧ e + itemSize ≤ page + pageSize := by
  obtain ⟨i, hi, rfl⟩ := List.mem_map.mp h
  have hlt : i + 1 ≤ pageSize / itemSize := List.mem_range.mp hi
  have hend : (i + 1) * itemSize ≤ pageSize :=
    le_trans (Nat.mul_le_mul_right _ hlt) (Nat.div_mul_le_self _ _)
  rw [Nat.add_mul, Nat.one_mul] at hend
  omega

/-- The slots of one page are apart. -/
theorem slots_apart (itemSize page : Nat) : (slots itemSize page).Pairwise (Apart itemSize) := by
  refine List.pairwise_map.mpr (List.pairwise_lt_range.imp fun {i j} hlt => Or.inl ?_)
  have hstep : (i + 1) * itemSize ≤ j * itemSize := Nat.mul_le_mul_right _ hlt
  rw [Nat.add_mul, Nat.one_mul] at hstep
  omega

/-- The slots of pages that are apart are apart. -/
theorem flatMap_slots_apart {itemSize : Nat} {pages : List Nat}
    (h : pages.Pairwise (Apart pageSize)) :
    (pages.flatMap (slots itemSize)).Pairwise (Apart itemSize) := by
  refine List.pairwise_flatMap.mpr ⟨fun page _ => slots_apart itemSize page, ?_⟩
  refine h.imp fun {a b} hab x hx y hy => ?_
  have hxb := mem_slots_bounds hx
  have hyb := mem_slots_bounds hy
  rcases hab with hlt | hlt
  · exact Or.inl (by omega)
  · exact Or.inr (by omega)

/-- Entries that are apart are different. -/
theorem nodup_of_apart {itemSize : Nat} (hpos : 0 < itemSize) {entries : List Nat}
    (h : entries.Pairwise (Apart itemSize)) : entries.Nodup := by
  refine h.imp fun {a b} hab heq => ?_
  subst heq
  rcases hab with hlt | hlt <;> omega

/-! ## The invariant -/

/-- The slots of the current page that were never handed out. -/
def MmCache.unused (c : MmCache) : List Nat :=
  match c.freeList with
  | none => []
  | some cfe => (List.range (cfe.numFree + 1)).map fun i => cfe.nextFree + i * c.itemSize

/-- Live entries, free chunks and unused slots are together all slots of the pages. -/
structure SlabInv (size : Nat) (s : SlabState) : Prop where
  size_le : size ≤ s.cache.itemSize
  item_pos : 0 < s.cache.itemSize
  item_le : s.cache.itemSize ≤ pageSize
  pages_pos : ∀ b ∈ s.pages, 0 < b
  pages_apart : s.pages.Pairwise (Apart pageSize)
  numFree_lt : ∀ cfe, s.cache.freeList = some cfe → cfe.numFree < pageSize
  perm : (s.live ++ s.cache.freeChunks ++ s.cache.unused).Perm
    (s.pages.flatMap (slots s.cache.itemSize))

variable {size : Nat} {s s' : SlabState}

theorem SlabInv.all_apart (h : SlabInv size s) :
    (s.live ++ s.cache.freeChunks ++ s.cache.unused).Pairwise (Apart s.cache.itemSize) :=
  (h.perm.pairwise_iff fun hab => Apart.symm hab).mpr (flatMap_slots_apart h.pages_apart)

/-- The slots from a bump pointer on. -/
theorem range_slots (nextFree itemSize k : Nat) :
    ((List.range (k + 1)).map fun i => nextFree + i * itemSize) =
      nextFree :: (List.range k).map fun i => nextFree + itemSize + i * itemSize := by
  rw [List.range_succ_eq_map, List.map_cons, List.map_map]
  refine congrArg₂ List.cons (by simp) (List.map_congr_left fun i _ => ?_)
  simp only [Function.comp_apply, Nat.succ_eq_add_one, Nat.add_mul, Nat.one_mul]
  omega

/-- Taking a slot of the current page takes the first unused one. -/
theorem takeSlot_spec {c : MmCache} {cfe : CacheFixedEntry} (hlt : cfe.numFree < pageSize) :
    (takeSlot c cfe).itemSize = c.itemSize ∧ (takeSlot c cfe).freeChunks = c.freeChunks ∧
      (∀ cfe', (takeSlot c cfe).freeList = some cfe' → cfe'.numFree < pageSize) ∧
      ((List.range (cfe.numFree + 1)).map fun i => cfe.nextFree + i * c.itemSize) =
        cfe.nextFree :: (takeSlot c cfe).unused := by
  have hbound : pageSize = 4096 := rfl
  by_cases hzero : cfe.numFree = 0
  · have htake : takeSlot c cfe = { c with
        usedList := appendAfterHead c.usedList { cfe with numFree := u64 (cfe.numFree + 2 ^ 64 - 1) }
        freeList := none } := if_pos hzero
    rw [htake]
    exact ⟨rfl, rfl, fun _ hcfe => absurd hcfe (by simp), by simp [hzero, MmCache.unused]⟩
  · have htake : takeSlot c cfe = { c with
        freeList := some { cfe with
          numFree := u64 (cfe.numFree + 2 ^ 64 - 1)
          nextFree := cfe.nextFree + c.itemSize } } := if_neg hzero
    have hdec : u64 (cfe.numFree + 2 ^ 64 - 1) = cfe.numFree - 1 := by
      unfold u64
      omega
    rw [htake, hdec]
    refine ⟨rfl, rfl, ?_, ?_⟩
    · rintro cfe' hcfe
      obtain rfl := Option.some.inj hcfe
      exact lt_of_le_of_lt (Nat.sub_le _ _) hlt
    · rw [range_slots]
      simp only [MmCache.unused]
      rw [Nat.sub_add_cancel (Nat.one_le_iff_ne_zero.mpr hzero)]

/-- A new page has all its slots unused. -/
theorem allocFixedEntry_slots {itemSize : Nat} (hpos : 0 < itemSize) (hle : itemSize ≤ pageSize)
    (page : Nat) :
    (allocFixedEntry page itemSize).numFree < pageSize ∧
      ((List.range ((allocFixedEntry page itemSize).numFree + 1)).map fun i =>
        (allocFixedEntry page itemSize).nextFree + i * itemSize) = slots itemSize page := by
  have hslots : 1 ≤ pageSize / itemSize := (Nat.one_le_div_iff hpos).mpr hle
  have hmax : pageSize / itemSize ≤ pageSize := Nat.div_le_self _ _
  have hbound : pageSize = 4096 := rfl
  have hnum : (allocFixedEntry page itemSize).numFree = pageSize / itemSize - 1 := by
    simp only [allocFixedEntry]
    unfold u64
    omega
  refine ⟨by omega, ?_⟩
  rw [hnum, Nat.sub_add_cancel hslots]
  rfl

/-- The three ways an allocation is served: from a free chunk, from the current page, or from a new
page when neither is left. -/
theorem alloc_cases {c : MmCache} {page : Nat} {r : SlabAlloc}
    (h : mmuCacheAllocEntry (some c) page = .ok r) :
    (∃ rest, c.freeChunks = r.ret :: rest ∧ r.cache = { c with freeChunks := rest } ∧
      r.tookPage = false) ∨
    (∃ cfe, c.freeChunks = [] ∧ c.freeList = some cfe ∧ r.ret = cfe.nextFree ∧
      r.cache = takeSlot c cfe ∧ r.tookPage = false) ∨
    (c.freeChunks = [] ∧ c.freeList = none ∧ r.ret = page ∧ r.tookPage = true ∧
      r.cache = takeSlot { c with capacity := u64 (c.capacity + pageSize / c.itemSize) }
        (allocFixedEntry page c.itemSize)) := by
  unfold mmuCacheAllocEntry at h
  dsimp only at h
  cases hchunks : c.freeChunks with
  | cons mem rest =>
      rw [hchunks] at h
      obtain rfl := Except.ok.inj h
      exact Or.inl ⟨rest, rfl, rfl, rfl⟩
  | nil =>
      rw [hchunks] at h
      cases hlist : c.freeList with
      | some cfe =>
          rw [hlist] at h
          obtain rfl := Except.ok.inj h
          exact Or.inr (Or.inl ⟨cfe, rfl, rfl, rfl, rfl, rfl⟩)
      | none =>
          rw [hlist] at h
          have hr := Except.ok.inj h
          refine Or.inr (Or.inr ⟨rfl, rfl, ?_, ?_, ?_⟩)
          · rw [← hr]
            rfl
          · rw [← hr]
          · rw [← hr]

/-- What an allocation leaves: the entry it returns came from the free chunks and unused slots, or
from the new page. -/
theorem SlabInv.alloc (h : SlabInv size s) {page : Nat} {r : SlabAlloc}
    (hfresh : FreshPage s.pages page) (hcall : mmuCacheAllocEntry (some s.cache) page = .ok r) :
    SlabInv size
      { cache := r.cache
        pages := if r.tookPage then page :: s.pages else s.pages
        live := r.ret :: s.live } := by
  have hperm := h.perm
  rcases alloc_cases hcall with ⟨rest, hchunks, hcache, htook⟩ |
    ⟨cfe, hchunks, hlist, hret, hcache, htook⟩ | ⟨hchunks, hlist, hret, htook, hcache⟩
  · rw [hcache, htook]
    refine ⟨h.size_le, h.item_pos, h.item_le, h.pages_pos, h.pages_apart, h.numFree_lt, ?_⟩
    rw [hchunks] at hperm
    refine List.Perm.trans ?_ hperm
    rw [List.append_assoc, List.append_assoc]
    exact List.perm_middle.symm
  · obtain ⟨hitem, hkept, hnum, hunused⟩ := takeSlot_spec (c := s.cache) (h.numFree_lt cfe hlist)
    rw [hcache, htook, hret]
    refine ⟨hitem ▸ h.size_le, hitem ▸ h.item_pos, hitem ▸ h.item_le, h.pages_pos, h.pages_apart,
      hnum, ?_⟩
    have hold : s.cache.unused = cfe.nextFree :: (takeSlot s.cache cfe).unused := by
      rw [← hunused, MmCache.unused, hlist]
    rw [hold, hchunks] at hperm
    dsimp only
    rw [hitem, hkept, hchunks]
    refine List.Perm.trans ?_ hperm
    rw [List.append_nil, List.append_nil]
    exact List.perm_middle.symm
  · obtain ⟨hlt, hslots⟩ := allocFixedEntry_slots h.item_pos h.item_le page
    obtain ⟨hitem, hkept, hnum, hunused⟩ := takeSlot_spec
      (c := { s.cache with capacity := u64 (s.cache.capacity + pageSize / s.cache.itemSize) }) hlt
    rw [← hcache] at hitem hkept hnum hunused
    replace hunused : slots s.cache.itemSize page = page :: r.cache.unused := hslots.symm.trans hunused
    have hnone : s.cache.unused = [] := by rw [MmCache.unused, hlist]
    rw [hnone, hchunks, List.append_nil, List.append_nil] at hperm
    dsimp only at hitem hkept
    rw [htook, hret]
    refine ⟨hitem ▸ h.size_le, hitem ▸ h.item_pos, hitem ▸ h.item_le, ?_, ?_, hnum, ?_⟩
    · exact List.forall_mem_cons.mpr ⟨hfresh.1, h.pages_pos⟩
    · exact List.pairwise_cons.mpr ⟨hfresh.2, h.pages_apart⟩
    · simp only [hitem, hkept, hchunks, List.append_nil, if_true, List.flatMap_cons, hunused,
        List.cons_append]
      exact (List.perm_append_comm.trans (List.Perm.append_left _ hperm)).cons page

theorem appendAfterHead_perm {α : Type} (list : List α) (elem : α) :
    (appendAfterHead list elem).Perm (elem :: list) := by
  cases list with
  | nil => exact List.Perm.refl _
  | cons head rest => exact List.Perm.swap elem head rest

/-- A free moves a live entry to the free chunks. -/
theorem SlabInv.free (h : SlabInv size s) {entry : Nat} {cache : MmCache} (hlive : entry ∈ s.live)
    (hcall : mmuCacheFreeEntry (some s.cache) entry = .ok cache) :
    SlabInv size { s with cache := cache, live := s.live.erase entry } := by
  obtain ⟨-, hcache⟩ := guard_eq_ok.mp hcall
  obtain rfl := Except.ok.inj hcache
  refine ⟨h.size_le, h.item_pos, h.item_le, h.pages_pos, h.pages_apart, h.numFree_lt, ?_⟩
  have hmoved : (s.live.erase entry ++ appendAfterHead s.cache.freeChunks entry).Perm
      (s.live ++ s.cache.freeChunks) := by
    refine (List.Perm.append_left _ (appendAfterHead_perm _ _)).trans ?_
    refine List.perm_middle.trans ?_
    exact List.Perm.append_right _ (List.perm_cons_erase hlive).symm
  exact (hmoved.append_right _).trans h.perm

/-- One call keeps the invariant. -/
theorem SlabInv.step (h : SlabInv size s) {call : SlabCall} (hstep : SlabStep s call s') :
    SlabInv size s' := by
  cases hstep with
  | alloc hfresh hcall => exact h.alloc hfresh hcall
  | free hlive hcall => exact h.free hlive hcall

/-- `MULTIPLE_OF_2` clears the lowest bit. -/
theorem and_clear_lowest {n : Nat} (hn : n < 2 ^ 64) : n &&& (2 ^ 64 - 2) = n / 2 * 2 := by
  have hmask : (2 ^ 64 - 2) / 2 = 2 ^ 63 - 1 := by norm_num
  have hdiv : (n &&& (2 ^ 64 - 2)) / 2 = n / 2 := by
    rw [Nat.and_div_two, hmask, Nat.and_two_pow_sub_one_eq_mod, Nat.mod_eq_of_lt (by omega)]
  have hmod : (n &&& (2 ^ 64 - 2)) % 2 = 0 := by
    rw [← Nat.and_one_is_mod, Nat.and_assoc]
    norm_num
  omega

/-- The rounding of `MULTIPLE_OF_2` on the sizes that a cache accepts. -/
theorem multipleOf2_bounds (hle : size ≤ pageSize) :
    size ≤ multipleOf2 size ∧ multipleOf2 size ≤ pageSize := by
  have hbound : pageSize = 4096 := rfl
  rw [multipleOf2, u64_eq_of_lt (by omega), and_clear_lowest (by omega)]
  omega

/-- A new cache. -/
theorem SlabInv.create {page : Nat} {cache : MmCache} (hpage : 0 < page)
    (hcreate : mmuCacheCreate size page = .ok cache) : SlabInv size ⟨cache, [page], []⟩ := by
  obtain ⟨hsize, hbody⟩ := guard_eq_ok.mp hcreate
  obtain ⟨hle, hne⟩ := not_or.mp hsize
  have hbounds := multipleOf2_bounds (Nat.le_of_not_lt hle)
  have hpos : 0 < multipleOf2 size := by omega
  obtain ⟨hlt, hslots⟩ := allocFixedEntry_slots hpos hbounds.2 page
  obtain rfl := Except.ok.inj hbody
  refine ⟨hbounds.1, hpos, hbounds.2, ?_, List.pairwise_singleton _ _, ?_, ?_⟩
  · intro b hb
    obtain rfl := List.mem_singleton.mp hb
    exact hpage
  · intro cfe hcfe
    obtain rfl := Option.some.inj hcfe
    exact hlt
  · rw [List.nil_append, List.nil_append, List.flatMap_singleton]
    exact List.Perm.of_eq hslots

/-- In every state reached, live entries, free chunks and unused slots are all slots, each once. -/
theorem SlabInv.run {page : Nat} {cache : MmCache} {calls : List SlabCall} (hpage : 0 < page)
    (hcreate : mmuCacheCreate size page = .ok cache)
    (hrun : Run SlabStep ⟨cache, [page], []⟩ calls s) : SlabInv size s :=
  Run.invariant (SlabInv size) (fun _ _ _ hinv hstep => SlabInv.step hinv hstep) hrun
    (SlabInv.create hpage hcreate)

/-! ## Live entries -/

/-- An allocation from an invariant state returns an entry that is not live: otherwise it would be
live twice afterwards. -/
theorem SlabInv.ret_not_live (h : SlabInv size s) {page : Nat} {r : SlabAlloc}
    (hfresh : FreshPage s.pages page) (hcall : mmuCacheAllocEntry (some s.cache) page = .ok r) :
    r.ret ∉ s.live := by
  have hafter := h.alloc hfresh hcall
  have hnodup := nodup_of_apart hafter.item_pos hafter.all_apart
  have hlive := (hnodup.sublist (List.sublist_append_left _ _)).sublist (List.sublist_append_left _ _)
  exact (List.nodup_cons.mp hlive).1

/-- The cache keeps its promise in every state of every run: live entries are apart and in their
pages, allocations return entries that are not live, and a page is obtained only when every slot is
live. -/
theorem slab_entries_disjoint {page : Nat} {cache : MmCache} {calls : List SlabCall}
    (hpage : 0 < page) (hcreate : mmuCacheCreate size page = .ok cache)
    (hrun : Run SlabStep ⟨cache, [page], []⟩ calls s) : SlabSafe size s := by
  have hinv := SlabInv.run hpage hcreate hrun
  refine ⟨hinv.size_le, ?_, ?_, fun page r hfresh hcall => hinv.ret_not_live hfresh hcall, ?_⟩
  · exact (hinv.all_apart.sublist (List.sublist_append_left _ _)).sublist
      (List.sublist_append_left _ _)
  · intro e he
    have hslot : e ∈ s.pages.flatMap (slots s.cache.itemSize) :=
      hinv.perm.mem_iff.mp (List.mem_append_left _ (List.mem_append_left _ he))
    obtain ⟨b, hb, hmem⟩ := List.mem_flatMap.mp hslot
    exact ⟨b, hb, mem_slots_bounds hmem⟩
  · intro page r hcall htook b hb e he
    rcases alloc_cases hcall with ⟨_, _, _, hnot⟩ | ⟨_, _, _, _, _, hnot⟩ | ⟨hchunks, hlist, _⟩
    · simp [hnot] at htook
    · simp [hnot] at htook
    · have hnone : s.cache.unused = [] := by rw [MmCache.unused, hlist]
      have hperm := hinv.perm
      rw [hnone, hchunks, List.append_nil, List.append_nil] at hperm
      exact hperm.mem_iff.mpr (List.mem_flatMap.mpr ⟨b, hb, he⟩)

/-- A cache for entries of 4095 bytes, which have a page each, when it was made. -/
def pageCache (capacity : Nat) (full freeChunks : List Nat) : MmCache where
  itemSize := 4096
  capacity := capacity
  freeList := if full = [] then some ⟨0, 4096, 4096⟩ else none
  usedList := full.map fun page => ⟨2 ^ 64 - 1, page, page⟩
  freeChunks := freeChunks

/-- Two entries take two pages; the first is freed and handed out again. -/
theorem slab_entries_disjoint_two_pages :
    mmuCacheCreate 4095 4096 = .ok (pageCache 1 [] []) ∧
      SlabSafe 4095 ⟨pageCache 2 [4096, 8192] [], [8192, 4096], [4096, 8192]⟩ := by
  have hcreate : mmuCacheCreate 4095 4096 = .ok (pageCache 1 [] []) := by decide +kernel
  have hfresh : FreshPage [4096] 8192 := ⟨by norm_num, by simp [Apart, pageSize]⟩
  have hfresh' : FreshPage [8192, 4096] 12288 := ⟨by norm_num, by simp [Apart, pageSize]⟩
  have hrun₁ : Run SlabStep ⟨pageCache 1 [] [], [4096], []⟩ [.alloc 8192]
      ⟨pageCache 1 [4096] [], [4096], [4096]⟩ :=
    .snoc .nil (.alloc (r := ⟨4096, pageCache 1 [4096] [], false⟩) hfresh (by decide +kernel))
  have hrun₂ : Run SlabStep ⟨pageCache 1 [] [], [4096], []⟩ [.alloc 8192, .alloc 8192]
      ⟨pageCache 2 [4096, 8192] [], [8192, 4096], [8192, 4096]⟩ :=
    .snoc hrun₁ (.alloc (r := ⟨8192, pageCache 2 [4096, 8192] [], true⟩) hfresh (by decide +kernel))
  have hrun₃ : Run SlabStep ⟨pageCache 1 [] [], [4096], []⟩ [.alloc 8192, .alloc 8192, .free 4096]
      ⟨pageCache 2 [4096, 8192] [4096], [8192, 4096], [8192]⟩ :=
    .snoc hrun₂ (.free (by decide) (by decide +kernel))
  have hrun₄ : Run SlabStep ⟨pageCache 1 [] [], [4096], []⟩
      [.alloc 8192, .alloc 8192, .free 4096, .alloc 12288]
      ⟨pageCache 2 [4096, 8192] [], [8192, 4096], [4096, 8192]⟩ :=
    .snoc hrun₃ (.alloc (r := ⟨4096, pageCache 2 [4096, 8192] [], false⟩) hfresh' (by decide +kernel))
  exact ⟨hcreate, slab_entries_disjoint (by norm_num) hcreate hrun₄⟩

end Mm
end Micael
