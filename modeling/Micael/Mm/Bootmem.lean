import Micael.Lib.Bitmap
import Micael.Mm.Types
import Mathlib.Order.CompletePartialOrder

/-!
# The boot memory allocator

Until the page frame allocator runs, memory comes from `mm/bootmem.c`.
`mmu_bootmem_init` walks the memory map and keeps the first five usable ranges,
each with a bitmap of 8192 pages whose clear bits are the free ones.  Nothing is
ever given back, so the free bits of a range are always the last ones of those it
was given at first, and the allocator only moves a boundary through every range.

Three things go wrong at the borders.  `multiboot2_map_memory` folds the two halves
of a base and of a length into one 32-bit word; the claim of a range of `k` pages
clears `k + 1` bits; and a range of 8192 pages or more clears none at all.

Main results:

- Theorem {lit}`mmuBootmemInit_tracks`: what the first state offers.
- Theorem {lit}`mmuBootmemAllocBlock_cases`: everything one call can do.
- Theorem {lit}`bootmem_sound_iff`: for which maps every result of every sequence of
  calls is memory of one usable region that no other call got.
-/

namespace Micael
namespace Mm

open Lib

/-! ## The memory map -/

/-- The types of memory that `multiboot2.h` names. -/
inductive MultibootMemory where
  | available
  | reserved
  | acpiReclaimable
  | nvs
  | badram
  /-- A number without a name: `multiboot2_map_memory` skips the entry. -/
  | other
deriving DecidableEq, Repr

/-- `multiboot_memory_map_t`. -/
structure MmapEntry where
  addr : BitVec 64
  len : BitVec 64
  type : MultibootMemory
deriving DecidableEq, Repr

/-- The addresses that an entry describes. -/
def MmapEntry.region (entry : MmapEntry) : Set Nat :=
  Set.Ico entry.addr.toNat (entry.addr.toNat + entry.len.toNat)

/-- `(word >> 32) | (word & 0xffffffff)`, applied to the base and the length of an
entry. -/
def foldHalves (word : BitVec 64) : Nat :=
  ((word >>> 32) ||| (word &&& 0xffffffff#64)).toNat

/-- The entries that the `do … while` loop of `multiboot2_map_memory` visits: it
tests for the end of the tag only after an entry, so in an empty tag it takes the
memory behind it, `after`, for one. -/
def mmapVisited (entries : List MmapEntry) (after : MmapEntry) : List MmapEntry :=
  match entries with
  | [] => [after]
  | entry :: rest => entry :: rest

/-- `multiboot2_map_memory` for a memory map tag with the given entries. -/
def multiboot2MapMemory {σ : Type} (entries : List MmapEntry) (after : MmapEntry)
    (callback : σ → MultibootMemory → Nat → Nat → σ) (s : σ) : σ :=
  (mmapVisited entries after).foldl
    (fun s entry =>
      if entry.type = .other then s
      else callback s entry.type (foldHalves entry.addr) (foldHalves entry.len)) s

/-! ## The allocator -/

/-- One of the five `mem_info.ranges`; its field `len` is never used. -/
structure BootRange where
  start : Nat
  bm : Bitmap

/-- `mem_info`. -/
structure MemInfo where
  ranges : Nat → BootRange
  ptr : Nat

/-- `ROUND_DOWN` to a power of two. -/
def roundDown (addr boundary : Nat) : Nat := addr / boundary * boundary

/-- `ROUND_UP` to a power of two. -/
def roundUp (addr boundary : Nat) : Nat :=
  if addr % boundary ≠ 0 then u64 (roundDown addr boundary + boundary) else addr

/-- The number of pages that the bitmap of a range holds: `256 * 32`. -/
def bootmemBits : Nat := 256 * 32

/-- `bootmem_claim_range`; the result of `bm_unset_range` is dropped. -/
def bootmemClaimRange (info : MemInfo) (type : MultibootMemory) (addr len : Nat) : MemInfo :=
  if type ≠ .available ∧ type ≠ .acpiReclaimable then info
  else if info.ptr ≥ 5 then info
  else
    let npages := roundDown len pageSize / pageSize
    if npages = 0 then info
    else
      let bm := (info.ranges info.ptr).bm
      { ranges := Function.update info.ranges info.ptr
          ⟨roundUp addr pageSize, bmAfter bm (bmUnsetRange bm 0 (u32 npages))⟩
        ptr := info.ptr + 1 }

/-- The first loop of `mmu_bootmem_init`: every bit of the five ranges is set. -/
def bootmemReset (info : MemInfo) : MemInfo where
  ranges := fun i =>
    if i < 5 then
      let bm : Bitmap := { (info.ranges i).bm with len := bootmemBits }
      { start := invalidAddress
        bm := bmAfter bm (bmSetRange bm 0 (bootmemBits - 1)) }
    else info.ranges i
  ptr := 0

/-- `mmu_bootmem_init`; `info` is what the static variable held before. -/
def mmuBootmemInit (info : MemInfo) (entries : List MmapEntry) (after : MmapEntry) : MemInfo :=
  multiboot2MapMemory entries after bootmemClaimRange (bootmemReset info)

/-- The loop of `mmu_bootmem_alloc_block` from range `i` on, with `turns` turns left. -/
def bootmemAllocLoop (info : MemInfo) (npages : Nat) : Nat → Nat → Nat × MemInfo
  | 0, _ => (invalidAddress, info)
  | turns + 1, i =>
      let range := info.ranges i
      match bmFindFirstUnsetRange range.bm 0 (range.bm.len - 1) npages with
      | .error .notFound => bootmemAllocLoop info npages turns (i + 1)
      -- an error number that is no bit of the map fails the range checks below
      | .error .range => (invalidAddress, info)
      | .ok start =>
          match (if npages = 1 then bmSetBit range.bm start
            else bmSetRange range.bm start (u32 (start + npages))) with
          | .error _ => (invalidAddress, info)
          | .ok bm =>
              (u64 (range.start + pageSize * start),
                { info with ranges := Function.update info.ranges i { range with bm := bm } })

/-- `mmu_bootmem_alloc_block`. -/
def mmuBootmemAllocBlock (info : MemInfo) (npages : Nat) : Nat × MemInfo :=
  bootmemAllocLoop info npages info.ptr 0

/-- `mmu_bootmem_alloc_page`. -/
def mmuBootmemAllocPage (info : MemInfo) : Nat × MemInfo :=
  mmuBootmemAllocBlock info 1

/-- A call of the allocator. -/
inductive BootmemCall where
  | allocPage
  | allocBlock (npages : Nat)
deriving DecidableEq, Repr

/-- The number of pages a call asks for. -/
def BootmemCall.npages : BootmemCall → Nat
  | allocPage => 1
  | allocBlock npages => npages

/-- The result of a call and the state it leaves. -/
def bootmemCall (info : MemInfo) : BootmemCall → Nat × MemInfo
  | .allocPage => mmuBootmemAllocPage info
  | .allocBlock npages => mmuBootmemAllocBlock info npages

/-- What a call returned and how many pages it asked for. -/
structure BootmemResult where
  addr : Nat
  npages : Nat
deriving DecidableEq, Repr

/-- A result that is not `INVALID_ADDRESS`. -/
def BootmemResult.Success (result : BootmemResult) : Prop :=
  result.addr ≠ invalidAddress

/-- The memory that a result hands out. -/
def BootmemResult.memory (result : BootmemResult) : Set Nat :=
  Set.Ico result.addr (result.addr + pageSize * result.npages)

/-- The results of a sequence of calls, in order, and the state at the end. -/
def bootmemCalls (info : MemInfo) : List BootmemCall → List BootmemResult × MemInfo
  | [] => ([], info)
  | call :: calls =>
      let done := bootmemCall info call
      let rest := bootmemCalls done.2 calls
      (⟨done.1, call.npages⟩ :: rest.1, rest.2)

/-! ## What the map should give -/

/-- The memory the allocator may hand out: available or ACPI-reclaimable. -/
def MmapEntry.Usable (entry : MmapEntry) : Prop :=
  entry.type = .available ∨ entry.type = .acpiReclaimable

instance (entry : MmapEntry) : Decidable entry.Usable :=
  inferInstanceAs (Decidable (_ ∨ _))

/-- Some pages lie inside one usable region of the map. -/
def InsideOne (entries : List MmapEntry) (start npages : Nat) : Prop :=
  ∃ entry ∈ entries, entry.Usable ∧
    Set.Ico start (start + pageSize * npages) ⊆ entry.region

/-- Every successful result of every sequence of calls is whole pages inside one
usable region, and the results of different calls are disjoint. -/
def BootmemSound (info : MemInfo) (entries : List MmapEntry) (after : MmapEntry) : Prop :=
  ∀ calls : List BootmemCall, (∀ call ∈ calls, 1 ≤ call.npages) →
    (∀ r ∈ (bootmemCalls (mmuBootmemInit info entries after) calls).1, r.Success →
      pageAligned r.addr ∧ InsideOne entries r.addr r.npages) ∧
    (bootmemCalls (mmuBootmemInit info entries after) calls).1.Pairwise fun r r' =>
      r.Success → r'.Success → Disjoint r.memory r'.memory

/-! ## What the ranges hold at first -/

/-- An entry that `bootmem_claim_range` keeps when there is room. -/
def MmapEntry.Kept (entry : MmapEntry) : Prop :=
  entry.Usable ∧ pageSize ≤ foldHalves entry.len

instance (entry : MmapEntry) : Decidable entry.Kept :=
  inferInstanceAs (Decidable (_ ∧ _))

/-- A kept range: its first page and the number of its free bits. -/
structure BootClaim where
  start : Nat
  free : Nat
deriving DecidableEq, Repr

/-- The range that an entry becomes: one page more than fits the folded length, and
none from 8192 pages on. -/
def MmapEntry.claim (entry : MmapEntry) : BootClaim where
  start := roundUp (foldHalves entry.addr) pageSize
  free :=
    if foldHalves entry.len / pageSize < bootmemBits then foldHalves entry.len / pageSize + 1
    else 0

/-- The ranges that a map becomes. -/
def bootmemClaims (visited : List MmapEntry) : List BootClaim :=
  ((visited.filter (·.Kept)).take 5).map MmapEntry.claim

/-- The memory of a range that the allocator takes for its own. -/
def BootClaim.memory (claim : BootClaim) : Set Nat :=
  Set.Ico claim.start (claim.start + pageSize * claim.free)

theorem foldHalves_lt (word : BitVec 64) : foldHalves word < 2 ^ 32 := by
  unfold foldHalves
  rw [BitVec.toNat_or, BitVec.toNat_ushiftRight, BitVec.toNat_and]
  apply Nat.or_lt_two_pow
  · have := word.isLt
    rw [Nat.shiftRight_eq_div_pow]
    omega
  · exact lt_of_le_of_lt Nat.and_le_right (by decide)

theorem roundDown_div (len : Nat) : roundDown len pageSize / pageSize = len / pageSize :=
  Nat.mul_div_cancel _ (by decide)

/-- Rounding a folded base up gives a page. -/
theorem roundUp_foldHalves (word : BitVec 64) :
    pageAligned (roundUp (foldHalves word) pageSize) ∧
      roundUp (foldHalves word) pageSize ≤ 2 ^ 32 := by
  have hlt := foldHalves_lt word
  unfold roundUp roundDown pageAligned u64 pageSize
  split
  · omega
  · omega

/-- The state of the allocator, read as a boundary in every range: the free bits of the
range {lit}`i` are those from {lit}`next i` on, up to the bits it got at first. -/
structure Tracks (info : MemInfo) (claims : List BootClaim) (next : Nat → Nat) : Prop where
  ptr_eq : info.ptr = claims.length
  short : claims.length ≤ 5
  start_eq : ∀ i (hi : i < claims.length), (info.ranges i).start = claims[i].start
  len_eq : ∀ i < 5, (info.ranges i).bm.len = bootmemBits
  free_iff : ∀ i (hi : i < claims.length), ∀ b < bootmemBits,
    (info.ranges i).bm.bit b = false ↔ next i ≤ b ∧ b < claims[i].free
  untouched : ∀ i, claims.length ≤ i → i < 5 → ∀ b < bootmemBits,
    (info.ranges i).bm.bit b = true
  bounded : ∀ c ∈ claims, pageAligned c.start ∧ c.start ≤ 2 ^ 32 ∧ c.free ≤ bootmemBits

/-- The bitmap of a range before `mmu_bootmem_init` sets its bits. -/
def unsetBitmap (info : MemInfo) (i : Nat) : Bitmap :=
  { (info.ranges i).bm with len := bootmemBits }

theorem bootmemReset_ranges (info : MemInfo) {i : Nat} (hi : i < 5) :
    (bootmemReset info).ranges i =
      ⟨invalidAddress, (unsetBitmap info i).setRange 0 (bootmemBits - 1)⟩ := by
  have hset : bmSetRange (unsetBitmap info i) 0 (bootmemBits - 1) =
      .ok ((unsetBitmap info i).setRange 0 (bootmemBits - 1)) :=
    bmSetRange_eq_ok (show 0 < bootmemBits by decide)
      (show bootmemBits - 1 < bootmemBits by decide)
  unfold unsetBitmap at hset ⊢
  simp only [bootmemReset, if_pos hi, hset, bmAfter]

/-- After the first loop there is no range and no free bit. -/
theorem bootmemReset_tracks (info : MemInfo) : Tracks (bootmemReset info) [] fun _ => 0 where
  ptr_eq := rfl
  short := by simp
  start_eq := by simp
  len_eq := by
    intro i hi
    rw [bootmemReset_ranges info hi, Bitmap.setRange_len]
    rfl
  free_iff := by simp
  untouched := by
    intro i _ hi b hb
    have hle : 0 ≤ b ∧ b ≤ bootmemBits - 1 := by omega
    rw [bootmemReset_ranges info hi, Bitmap.bit_setRange, decide_eq_true hle, Bool.or_true]
  bounded := by simp

/-- What `bm_unset_range` makes of the bitmap of a new range. -/
theorem claimedBitmap_bit {bm : Bitmap} (hlen : bm.len = bootmemBits)
    (hset : ∀ b < bootmemBits, bm.bit b = true) (npages : Nat) :
    (bmAfter bm (bmUnsetRange bm 0 npages)).len = bootmemBits ∧ ∀ b < bootmemBits,
      (bmAfter bm (bmUnsetRange bm 0 npages)).bit b = false ↔
        b < (if npages < bootmemBits then npages + 1 else 0) := by
  by_cases hfit : npages < bootmemBits
  · rw [bmUnsetRange_eq_ok (by rw [hlen]; decide) (by rw [hlen]; exact hfit), bmAfter]
    refine ⟨by rw [Bitmap.unsetRange_len, hlen], ?_⟩
    intro b hb
    rw [Bitmap.bit_unsetRange, hset b hb, if_pos hfit, Bool.true_and, Bool.not_eq_false',
      decide_eq_true_iff]
    omega
  · have herr : bmUnsetRange bm 0 npages = .error .range := if_pos (by omega)
    rw [herr, bmAfter]
    refine ⟨hlen, ?_⟩
    intro b hb
    simp [hset b hb, hfit]

/-- A kept entry becomes the next range. -/
theorem bootmemClaimRange_tracks {info : MemInfo} {claims : List BootClaim}
    (htracks : Tracks info claims fun _ => 0) (hroom : claims.length < 5)
    {entry : MmapEntry} (hkept : entry.Kept) :
    Tracks (bootmemClaimRange info entry.type (foldHalves entry.addr) (foldHalves entry.len))
      (claims ++ [entry.claim]) fun _ => 0 := by
  obtain ⟨husable, hpage⟩ := hkept
  have htype : ¬(entry.type ≠ .available ∧ entry.type ≠ .acpiReclaimable) := by
    rcases husable with h | h <;> simp [h]
  have hptr : ¬ info.ptr ≥ 5 := by
    rw [htracks.ptr_eq]
    omega
  have hpages : ¬ roundDown (foldHalves entry.len) pageSize / pageSize = 0 := by
    rw [roundDown_div]
    exact (Nat.div_pos hpage (by decide)).ne'
  have hword : u32 (roundDown (foldHalves entry.len) pageSize / pageSize) =
      foldHalves entry.len / pageSize := by
    rw [roundDown_div, u32_eq_of_lt]
    exact lt_of_le_of_lt (Nat.div_le_self _ _) (foldHalves_lt _)
  unfold bootmemClaimRange
  rw [if_neg htype, if_neg hptr, if_neg hpages, hword, htracks.ptr_eq]
  have hnew := claimedBitmap_bit (htracks.len_eq _ hroom)
    (htracks.untouched _ le_rfl hroom) (foldHalves entry.len / pageSize)
  obtain ⟨hlen, hbits⟩ := hnew
  constructor
  case ptr_eq => simp
  case short =>
    simp only [List.length_append, List.length_singleton]
    omega
  case start_eq =>
    intro i hi
    rcases Nat.lt_succ_iff_lt_or_eq.mp (by simpa using hi) with hlt | rfl
    · simp [Function.update_of_ne hlt.ne, List.getElem_append_left hlt, htracks.start_eq i hlt]
    · simp [MmapEntry.claim]
  case len_eq =>
    intro i hi
    by_cases h : i = claims.length
    · subst h
      simpa using hlen
    · simpa [Function.update_of_ne h] using htracks.len_eq i hi
  case free_iff =>
    intro i hi b hb
    rcases Nat.lt_succ_iff_lt_or_eq.mp (by simpa using hi) with hlt | rfl
    · simpa [Function.update_of_ne hlt.ne, List.getElem_append_left hlt] using
        htracks.free_iff i hlt b hb
    · simpa [MmapEntry.claim] using hbits b hb
  case untouched =>
    intro i hle hi b hb
    simp only [List.length_append, List.length_singleton] at hle
    simp only [Function.update_of_ne (show i ≠ claims.length by omega)]
    exact htracks.untouched i (by omega) hi b hb
  case bounded =>
    intro c hc
    rcases List.mem_append.mp hc with hold | hnew
    · exact htracks.bounded c hold
    · obtain rfl := List.mem_singleton.mp hnew
      obtain ⟨haligned, hle⟩ := roundUp_foldHalves entry.addr
      refine ⟨haligned, hle, ?_⟩
      unfold MmapEntry.claim
      simp only
      split
      · omega
      · omega

/-- An entry that is not kept changes nothing. -/
theorem bootmemClaimRange_of_not_kept {info : MemInfo} {entry : MmapEntry}
    (hkept : ¬ entry.Kept) :
    bootmemClaimRange info entry.type (foldHalves entry.addr) (foldHalves entry.len) = info := by
  unfold bootmemClaimRange
  by_cases husable : entry.Usable
  · have hshort : foldHalves entry.len < pageSize := by
      by_contra h
      exact hkept ⟨husable, by omega⟩
    have hzero : roundDown (foldHalves entry.len) pageSize / pageSize = 0 := by
      rw [roundDown_div]
      exact Nat.div_eq_of_lt hshort
    simp [hzero]
  · have htype : entry.type ≠ .available ∧ entry.type ≠ .acpiReclaimable := by
      simpa [MmapEntry.Usable] using husable
    rw [if_pos htype]

/-- The ranges of a map with one more entry. -/
theorem bootmemClaims_concat (visited : List MmapEntry) (entry : MmapEntry) :
    bootmemClaims (visited ++ [entry]) =
      if entry.Kept ∧ (bootmemClaims visited).length < 5 then
        bootmemClaims visited ++ [entry.claim]
      else bootmemClaims visited := by
  unfold bootmemClaims
  by_cases hkept : entry.Kept
  · simp only [List.filter_append, List.filter_singleton, hkept, decide_true,
      List.length_map, List.length_take, true_and, List.take_append]
    split
    · have hone : 5 - (visited.filter (·.Kept)).length =
          4 - (visited.filter (·.Kept)).length + 1 := by
        omega
      rw [hone]
      simp
    · have hfull : 5 - (visited.filter (·.Kept)).length = 0 := by omega
      simp [hfull]
  · simp [List.filter_append, hkept]

/-- What the state after `mmu_bootmem_init` offers. -/
theorem mmuBootmemInit_tracks (info : MemInfo) (entries : List MmapEntry) (after : MmapEntry) :
    Tracks (mmuBootmemInit info entries after) (bootmemClaims (mmapVisited entries after))
      fun _ => 0 := by
  unfold mmuBootmemInit multiboot2MapMemory
  induction mmapVisited entries after using List.reverseRecOn with
  | nil => exact bootmemReset_tracks info
  | append_singleton visited entry ih =>
      rw [List.foldl_append, List.foldl_cons, List.foldl_nil, bootmemClaims_concat]
      generalize visited.foldl _ (bootmemReset info) = before at ih ⊢
      by_cases hkept : entry.Kept
      · have hother : entry.type ≠ .other := by
          rcases hkept.1 with h | h <;> simp [h]
        rw [if_neg hother]
        by_cases hroom : (bootmemClaims visited).length < 5
        · rw [if_pos ⟨hkept, hroom⟩]
          exact bootmemClaimRange_tracks ih hroom hkept
        · rw [if_neg (fun h => hroom h.2)]
          have hfull : before.ptr ≥ 5 := by
            rw [ih.ptr_eq]
            omega
          have hsame : bootmemClaimRange before entry.type (foldHalves entry.addr)
              (foldHalves entry.len) = before := by
            unfold bootmemClaimRange
            simp [hfull]
          rw [hsame]
          exact ih
      · rw [bootmemClaimRange_of_not_kept hkept, ite_self, if_neg (fun h => hkept h.1)]
        exact ih

/-! ## One call -/

section Calls

variable {info : MemInfo} {claims : List BootClaim} {next : Nat → Nat} {npages : Nat}

/-- The search of one range finds the boundary, if enough bits are left behind it. -/
theorem Tracks.find_eq (htracks : Tracks info claims next) (hpos : 0 < npages)
    {i : Nat} (hi : i < claims.length) :
    bmFindFirstUnsetRange (info.ranges i).bm 0 ((info.ranges i).bm.len - 1) npages =
      if next i + npages ≤ claims[i].free then .ok (next i) else .error .notFound := by
  have hlen := htracks.len_eq i (lt_of_lt_of_le hi htracks.short)
  have hbound := (htracks.bounded _ (List.getElem_mem hi)).2.2
  have hbits : bootmemBits = 8192 := rfl
  have hfree := htracks.free_iff i hi
  have hspec : FirstRun (info.ranges i).bm 0 ((info.ranges i).bm.len - 1) npages false
      (bmFindFirstRange (info.ranges i).bm 0 ((info.ranges i).bm.len - 1) npages false) :=
    bmFindFirstRange_spec (by omega) (by omega) hpos
  -- the clear bits are those behind the boundary, so a run lies there
  have hrun : ∀ s, s + npages ≤ bootmemBits →
      ((info.ranges i).bm.RunAt npages false s ↔ next i ≤ s ∧ s + npages ≤ claims[i].free) := by
    intro s hs
    constructor
    · intro hrun
      have hfirst := (hfree s (by omega)).mp (hrun s le_rfl (by omega))
      have hlast := (hfree (s + npages - 1) (by omega)).mp (hrun _ (by omega) (by omega))
      omega
    · rintro ⟨hle, hend⟩ m hm hlt
      exact (hfree m (by omega)).mpr ⟨by omega, by omega⟩
  unfold bmFindFirstUnsetRange
  generalize bmFindFirstRange (info.ranges i).bm 0 _ npages false = found at hspec ⊢
  cases found with
  | ok s =>
      obtain ⟨-, hend, hs, hleast⟩ := hspec
      have hplace := (hrun s (by omega)).mp hs
      have hfit : next i + npages ≤ claims[i].free := by omega
      have hle := hleast (next i) (by omega) ((hrun (next i) (by omega)).mpr ⟨le_rfl, hfit⟩)
      rw [if_pos hfit]
      congr
      omega
  | error e =>
      cases e with
      | range => exact hspec.elim
      | notFound =>
          rw [if_neg]
          intro hfit
          have := hspec (next i) (by omega) ((hrun (next i) (by omega)).mpr ⟨le_rfl, hfit⟩)
          omega

/-- The boundaries after a successful call that took its pages from range `j`: a block
of more than one page loses the page behind it too. -/
def advance (next : Nat → Nat) (j npages : Nat) : Nat → Nat :=
  Function.update next j (next j + if npages = 1 then 1 else npages + 1)

theorem le_advance (next : Nat → Nat) (j npages i : Nat) : next i ≤ advance next j npages i := by
  unfold advance
  by_cases h : i = j
  · subst h
    simp
  · simp [Function.update_of_ne h]

theorem add_le_advance (next : Nat → Nat) (j npages : Nat) :
    next j + npages ≤ advance next j npages j := by
  unfold advance
  rw [Function.update_self]
  split
  · omega
  · omega

/-- Setting the bits of a block moves the boundary of its range. -/
theorem Tracks.advance (htracks : Tracks info claims next) {j : Nat} (hj : j < claims.length)
    {bm : Bitmap} (hlen : bm.len = bootmemBits)
    (hbits : ∀ b < bootmemBits, bm.bit b = ((info.ranges j).bm.bit b ||
      decide (next j ≤ b ∧ b < advance next j npages j))) :
    Tracks { info with
        ranges := Function.update info.ranges j { info.ranges j with bm := bm } }
      claims (advance next j npages) where
  ptr_eq := htracks.ptr_eq
  short := htracks.short
  start_eq := by
    intro i hi
    by_cases h : i = j
    · subst h
      simpa using htracks.start_eq i hi
    · simpa [Function.update_of_ne h] using htracks.start_eq i hi
  len_eq := by
    intro i hi
    by_cases h : i = j
    · subst h
      simpa using hlen
    · simpa [Function.update_of_ne h] using htracks.len_eq i hi
  free_iff := by
    intro i hi b hb
    by_cases h : i = j
    · subst h
      have hle := le_advance next i npages i
      have hold := htracks.free_iff i hi b hb
      simp only [Function.update_self, hbits b hb, Bool.or_eq_false_iff, hold,
        decide_eq_false_iff_not]
      omega
    · simpa [Mm.advance, Function.update_of_ne h] using htracks.free_iff i hi b hb
  untouched := by
    intro i hle hi b hb
    simpa [Function.update_of_ne (show i ≠ j by omega)] using htracks.untouched i hle hi b hb
  bounded := htracks.bounded

/-- The address of a page of a range is far from the end of the address space. -/
theorem Tracks.addr_lt (htracks : Tracks info claims next) {j : Nat} (hj : j < claims.length)
    {b : Nat} (hb : b < claims[j].free) :
    claims[j].start + pageSize * b < invalidAddress := by
  obtain ⟨-, hstart, hfree⟩ := htracks.bounded _ (List.getElem_mem hj)
  have hbits : bootmemBits = 8192 := rfl
  unfold pageSize invalidAddress
  omega

/-- A call takes the pages at the boundary of the range {lit}`j`. -/
structure TakesFrom (claims : List BootClaim) (next : Nat → Nat) (npages j : Nat)
    (hj : j < claims.length) (done : Nat × MemInfo) : Prop where
  fits : next j + npages ≤ claims[j].free
  inside : npages = 1 ∨ next j + npages < bootmemBits
  addr_eq : done.1 = claims[j].start + pageSize * next j
  tracks : Tracks done.2 claims (advance next j npages)

/-- The call takes the pages of the first range with enough of them, except that a block
that ends with the last bit of the map fails. -/
theorem bootmemAllocLoop_cases (htracks : Tracks info claims next) (hpos : 0 < npages)
    {turns i : Nat} (hturns : i + turns = claims.length)
    (hfull : ∀ k (hk : k < claims.length), k < i → claims[k].free < next k + npages) :
    (∃ j, ∃ hj : j < claims.length,
      (∀ k (hk : k < claims.length), k < j → claims[k].free < next k + npages) ∧
      TakesFrom claims next npages j hj (bootmemAllocLoop info npages turns i)) ∨
    (bootmemAllocLoop info npages turns i = (invalidAddress, info) ∧
      ∀ j (hj : j < claims.length),
        (∀ k (hk : k < claims.length), k < j → claims[k].free < next k + npages) →
        next j + npages ≤ claims[j].free → npages ≠ 1 ∧ next j + npages = bootmemBits) := by
  induction turns generalizing i with
  | zero =>
      right
      refine ⟨rfl, ?_⟩
      intro j hj _ hfit
      have := hfull j hj (by omega)
      omega
  | succ turns ih =>
      have hi : i < claims.length := by omega
      have hlen := htracks.len_eq i (lt_of_lt_of_le hi htracks.short)
      have hbits : bootmemBits = 8192 := rfl
      have hbound := (htracks.bounded _ (List.getElem_mem hi)).2.2
      simp only [bootmemAllocLoop, htracks.find_eq hpos hi]
      by_cases hfit : next i + npages ≤ claims[i].free
      · have haddr : u64 ((info.ranges i).start + pageSize * next i) =
            claims[i].start + pageSize * next i := by
          rw [htracks.start_eq i hi, u64_eq_of_lt]
          have := htracks.addr_lt hi (show next i < claims[i].free by omega)
          unfold invalidAddress at this
          omega
        simp only [if_pos hfit]
        by_cases hone : npages = 1
        · have hset : bmSetBit (info.ranges i).bm (next i) =
              .ok ((info.ranges i).bm.set (next i)) := if_neg (by omega)
          simp only [if_pos hone, hset]
          left
          refine ⟨i, hi, hfull, hfit, Or.inl hone, haddr, ?_⟩
          apply htracks.advance hi
          · exact hlen
          · intro b hb
            have hrange : (next i ≤ b ∧ b < advance next i npages i) ↔ b = next i := by
              unfold advance
              rw [Function.update_self, if_pos hone]
              omega
            rw [Bitmap.bit_set]
            simp only [hrange]
        · simp only [if_neg hone, u32_eq_of_lt (show next i + npages < 2 ^ 32 by omega)]
          by_cases hend : next i + npages < bootmemBits
          · have hset : bmSetRange (info.ranges i).bm (next i) (next i + npages) =
                .ok ((info.ranges i).bm.setRange (next i) (next i + npages)) :=
              bmSetRange_eq_ok (by omega) (by omega)
            simp only [hset]
            left
            refine ⟨i, hi, hfull, hfit, Or.inr hend, haddr, ?_⟩
            apply htracks.advance hi
            · exact (Bitmap.setRange_len _ _ _).trans hlen
            · intro b hb
              have hrange : (next i ≤ b ∧ b < advance next i npages i) ↔
                  (next i ≤ b ∧ b ≤ next i + npages) := by
                unfold advance
                rw [Function.update_self, if_neg hone]
                omega
              rw [Bitmap.bit_setRange]
              simp only [hrange]
          · right
            have herr : bmSetRange (info.ranges i).bm (next i) (next i + npages) =
                .error .range := if_pos (by omega)
            simp only [herr, true_and]
            intro j hj hearlier hfitj
            rcases Nat.lt_trichotomy j i with hlt | rfl | hgt
            · have := hfull j hj hlt
              omega
            · omega
            · have := hearlier i hi hgt
              omega
      · simp only [if_neg hfit]
        apply ih (by omega)
        intro k hk hlt
        rcases Nat.lt_succ_iff_lt_or_eq.mp hlt with hlt' | rfl
        · exact hfull k hk hlt'
        · omega

/-- Everything `mmu_bootmem_alloc_block` can do. -/
theorem mmuBootmemAllocBlock_cases (htracks : Tracks info claims next) (hpos : 0 < npages) :
    (∃ j, ∃ hj : j < claims.length,
      (∀ k (hk : k < claims.length), k < j → claims[k].free < next k + npages) ∧
      TakesFrom claims next npages j hj (mmuBootmemAllocBlock info npages)) ∨
    (mmuBootmemAllocBlock info npages = (invalidAddress, info) ∧
      ∀ j (hj : j < claims.length),
        (∀ k (hk : k < claims.length), k < j → claims[k].free < next k + npages) →
        next j + npages ≤ claims[j].free → npages ≠ 1 ∧ next j + npages = bootmemBits) := by
  unfold mmuBootmemAllocBlock
  rw [htracks.ptr_eq]
  exact bootmemAllocLoop_cases htracks hpos (by omega) (by omega)

/-- A call whose first range with enough pages is {lit}`j` takes them there. -/
theorem Tracks.takes (htracks : Tracks info claims next) (hpos : 0 < npages) {j : Nat}
    (hj : j < claims.length)
    (hearlier : ∀ k (hk : k < claims.length), k < j → claims[k].free < next k + npages)
    (hfits : next j + npages ≤ claims[j].free)
    (hinside : npages = 1 ∨ next j + npages < bootmemBits) :
    TakesFrom claims next npages j hj (mmuBootmemAllocBlock info npages) := by
  rcases mmuBootmemAllocBlock_cases htracks hpos with ⟨i, hi, hfirst, htakes⟩ | ⟨-, hfail⟩
  · rcases Nat.lt_trichotomy i j with hlt | rfl | hgt
    · have hfull := hearlier i hi hlt
      have hfit := htakes.fits
      omega
    · exact htakes
    · have hfull := hfirst j hj hgt
      omega
  · have hlast := hfail j hj hearlier hfits
    omega

/-! ## Sequences of calls -/

theorem bootmemCall_eq (info : MemInfo) (call : BootmemCall) :
    bootmemCall info call = mmuBootmemAllocBlock info call.npages := by
  cases call with
  | allocPage => rfl
  | allocBlock npages => rfl

theorem bootmemCalls_append (info : MemInfo) (calls more : List BootmemCall) :
    bootmemCalls info (calls ++ more) =
      ((bootmemCalls info calls).1 ++ (bootmemCalls (bootmemCalls info calls).2 more).1,
        (bootmemCalls (bootmemCalls info calls).2 more).2) := by
  induction calls generalizing info with
  | nil => rfl
  | cons call calls ih => simp [bootmemCalls, ih]

/-- Every result belongs to a call. -/
theorem bootmemCalls_npages {calls : List BootmemCall} (hcalls : ∀ call ∈ calls, 1 ≤ call.npages) :
    ∀ r ∈ (bootmemCalls info calls).1, 1 ≤ r.npages := by
  induction calls generalizing info with
  | nil => simp [bootmemCalls]
  | cons call calls ih =>
      simp only [List.forall_mem_cons] at hcalls
      simp only [bootmemCalls, List.forall_mem_cons]
      exact ⟨hcalls.1, ih hcalls.2⟩

/-- A result is pages of one range that were free before. -/
def Placed (claims : List BootClaim) (next : Nat → Nat) (result : BootmemResult) : Prop :=
  ∃ j, ∃ hj : j < claims.length, ∃ b, result.addr = claims[j].start + pageSize * b ∧
    next j ≤ b ∧ b + result.npages ≤ claims[j].free ∧
    (result.npages = 1 ∨ b + result.npages < bootmemBits)

theorem Placed.mono {next next' : Nat → Nat} {result : BootmemResult}
    (hplaced : Placed claims next' result) (hle : ∀ j, next j ≤ next' j) :
    Placed claims next result := by
  obtain ⟨j, hj, b, haddr, hnext, hrest⟩ := hplaced
  exact ⟨j, hj, b, haddr, (hle j).trans hnext, hrest⟩

/-- Pages of one range lie in its memory. -/
theorem pages_subset {claim : BootClaim} {b npages : Nat} (hend : b + npages ≤ claim.free) :
    Set.Ico (claim.start + pageSize * b) (claim.start + pageSize * b + pageSize * npages) ⊆
      claim.memory := by
  apply Set.Ico_subset_Ico
  · omega
  · have := Nat.mul_le_mul_left pageSize hend
    rw [Nat.mul_add] at this
    omega

/-- The pages at the boundary of a range and pages behind its new boundary are
different, also when these are pages of another range. -/
theorem Placed.disjoint {claims : List BootClaim} {next : Nat → Nat}
    (hclaims : claims.Pairwise fun c c' => Disjoint c.memory c'.memory)
    {j : Nat} (hj : j < claims.length) {result result' : BootmemResult}
    (haddr : result.addr = claims[j].start + pageSize * next j)
    (hend : next j + result.npages ≤ claims[j].free)
    (hplaced : Placed claims (advance next j result.npages) result') :
    Disjoint result.memory result'.memory := by
  obtain ⟨i, hi, b, haddr', hnext, hend', -⟩ := hplaced
  unfold BootmemResult.memory
  rw [haddr, haddr']
  by_cases h : i = j
  · subst h
    have hbehind := (add_le_advance next i result.npages).trans hnext
    have hpages := Nat.mul_le_mul_left pageSize hbehind
    rw [Nat.mul_add] at hpages
    rw [Set.Ico_disjoint_Ico]
    omega
  · have hmem : Disjoint claims[j].memory claims[i].memory := by
      rcases Nat.lt_or_gt_of_ne h with hlt | hgt
      · exact (List.pairwise_iff_getElem.mp hclaims i j hi hj hlt).symm
      · exact List.pairwise_iff_getElem.mp hclaims j i hj hi hgt
    exact Disjoint.mono (pages_subset hend) (pages_subset hend') hmem

/-- What a sequence of calls returns: free pages, and to different calls different ones. -/
theorem bootmemCalls_placed (htracks : Tracks info claims next)
    (hclaims : claims.Pairwise fun c c' => Disjoint c.memory c'.memory)
    {calls : List BootmemCall} (hcalls : ∀ call ∈ calls, 1 ≤ call.npages) :
    (∀ r ∈ (bootmemCalls info calls).1, r.Success → Placed claims next r) ∧
    (bootmemCalls info calls).1.Pairwise fun r r' =>
      r.Success → r'.Success → Disjoint r.memory r'.memory := by
  induction calls generalizing info next with
  | nil => simp [bootmemCalls]
  | cons call calls ih =>
      have hpos : 0 < call.npages := hcalls call List.mem_cons_self
      have hmore : ∀ c ∈ calls, 1 ≤ c.npages := fun c hc => hcalls c (List.mem_cons_of_mem _ hc)
      simp only [bootmemCalls, bootmemCall_eq, List.forall_mem_cons, List.pairwise_cons]
      rcases mmuBootmemAllocBlock_cases htracks hpos with ⟨j, hj, -, htakes⟩ | ⟨hfail, -⟩
      · obtain ⟨hplaced, hdisjoint⟩ := ih htakes.tracks hmore
        refine ⟨⟨?_, ?_⟩, ?_, hdisjoint⟩
        · intro _
          exact ⟨j, hj, next j, htakes.addr_eq, le_rfl, htakes.fits, htakes.inside⟩
        · intro r hr hsuccess
          exact (hplaced r hr hsuccess).mono (le_advance next j call.npages)
        · intro r hr _ hsuccess
          exact Placed.disjoint hclaims hj htakes.addr_eq htakes.fits (hplaced r hr hsuccess)
      · rw [hfail]
        obtain ⟨hplaced, hdisjoint⟩ := ih htracks hmore
        refine ⟨⟨?_, hplaced⟩, ?_, hdisjoint⟩
        · intro hsuccess
          exact absurd rfl hsuccess
        · intro r _ hsuccess
          exact absurd rfl hsuccess

/-- Single pages can be taken until a range is exhausted, and all its free pages are
among them. -/
theorem Tracks.drain (htracks : Tracks info claims next) {j : Nat} (hj : j < claims.length)
    (hearlier : ∀ k (hk : k < claims.length), k < j → claims[k].free ≤ next k) :
    ∃ calls next', (∀ call ∈ calls, 1 ≤ call.npages) ∧
      Tracks (bootmemCalls info calls).2 claims next' ∧
      claims[j].free ≤ next' j ∧ (∀ k ≠ j, next' k = next k) ∧
      ∀ b, next j ≤ b → b < claims[j].free →
        ⟨claims[j].start + pageSize * b, 1⟩ ∈ (bootmemCalls info calls).1 := by
  generalize hleft : claims[j].free - next j = left
  induction left generalizing info next with
  | zero =>
      refine ⟨[], next, by simp, htracks, by omega, fun _ _ => rfl, ?_⟩
      intro b hle hlt
      omega
  | succ left ih =>
      have htakes : TakesFrom claims next 1 j hj (mmuBootmemAllocBlock info 1) :=
        htracks.takes one_pos hj
          (fun k hk hlt => Nat.lt_succ_of_le (hearlier k hk hlt)) (by omega) (Or.inl rfl)
      have hself : Mm.advance next j 1 j = next j + 1 := by simp [Mm.advance]
      have hother : ∀ k ≠ j, Mm.advance next j 1 k = next k := by
        intro k hk
        simp [Mm.advance, Function.update_of_ne hk]
      obtain ⟨calls, next', hcalls, htracks', hdone, hsame, hmem⟩ := ih htakes.tracks
        (by
          intro k hk hlt
          rw [hother k hlt.ne]
          exact hearlier k hk hlt)
        (by omega)
      refine ⟨.allocPage :: calls, next', ?_, htracks', hdone, ?_, ?_⟩
      · simpa [BootmemCall.npages] using hcalls
      · intro k hk
        rw [hsame k hk, hother k hk]
      · intro b hle hlt
        simp only [bootmemCalls, List.mem_cons]
        rcases Nat.eq_or_lt_of_le hle with rfl | hlater
        · left
          congr
          exact htakes.addr_eq.symm
        · right
          exact hmem b (by omega) hlt

/-- The same for the ranges below {lit}`j`, one after the other. -/
theorem Tracks.drain_below (htracks : Tracks info claims next) {j : Nat}
    (hj : j ≤ claims.length) :
    ∃ calls next', (∀ call ∈ calls, 1 ≤ call.npages) ∧
      Tracks (bootmemCalls info calls).2 claims next' ∧
      (∀ k (hk : k < claims.length), k < j → claims[k].free ≤ next' k) ∧
      (∀ k, j ≤ k → next' k = next k) ∧
      ∀ k (hk : k < claims.length), k < j → ∀ b, next k ≤ b → b < claims[k].free →
        ⟨claims[k].start + pageSize * b, 1⟩ ∈ (bootmemCalls info calls).1 := by
  induction j with
  | zero => exact ⟨[], next, by simp, htracks, by simp, fun _ _ => rfl, by simp⟩
  | succ j ih =>
      obtain ⟨calls, next₁, hcalls, htracks₁, hdone, hsame, hmem⟩ := ih (by omega)
      obtain ⟨more, next₂, hmore, htracks₂, hdone', hsame', hmem'⟩ := htracks₁.drain hj hdone
      refine ⟨calls ++ more, next₂, ?_, ?_, ?_, ?_, ?_⟩
      · intro call hcall
        rcases List.mem_append.mp hcall with h | h
        · exact hcalls call h
        · exact hmore call h
      · rw [bootmemCalls_append]
        exact htracks₂
      · intro k hk hlt
        rcases Nat.lt_succ_iff_lt_or_eq.mp hlt with hlt' | rfl
        · rw [hsame' k hlt'.ne]
          exact hdone k hk hlt'
        · exact hdone'
      · intro k hle
        rw [hsame' k (by omega), hsame k (by omega)]
      · intro k hk hlt b hb hfree
        rw [bootmemCalls_append]
        rcases Nat.lt_succ_iff_lt_or_eq.mp hlt with hlt' | rfl
        · exact List.mem_append_left _ (hmem k hk hlt' b hb hfree)
        · apply List.mem_append_right
          apply hmem' b _ hfree
          rw [hsame k le_rfl]
          exact hb

end Calls

/-! ## The maps that are handed out right -/

/-- The free bits of a range stand for usable memory.  A block never ends with the last
bit of the map, so that page need not belong to the region of the others. -/
def BootClaim.Backed (entries : List MmapEntry) (claim : BootClaim) : Prop :=
  claim.free = 0 ∨
  (claim.free < bootmemBits ∧ InsideOne entries claim.start claim.free) ∨
  (claim.free = bootmemBits ∧ InsideOne entries claim.start (bootmemBits - 1) ∧
    InsideOne entries (claim.start + pageSize * (bootmemBits - 1)) 1)

/-- The condition on a map: the pages that its ranges stand for are usable memory, and
no two ranges share a page. -/
structure BootmemBacked (entries : List MmapEntry) (after : MmapEntry) : Prop where
  backed : ∀ claim ∈ bootmemClaims (mmapVisited entries after), claim.Backed entries
  apart : (bootmemClaims (mmapVisited entries after)).Pairwise fun c c' =>
    Disjoint c.memory c'.memory

theorem InsideOne.mono {entries : List MmapEntry} {start npages start' npages' : Nat}
    (hinside : InsideOne entries start npages)
    (hsub : Set.Ico start' (start' + pageSize * npages') ⊆
      Set.Ico start (start + pageSize * npages)) :
    InsideOne entries start' npages' := by
  obtain ⟨entry, hentry, husable, hregion⟩ := hinside
  exact ⟨entry, hentry, husable, hsub.trans hregion⟩

/-- Pages of a backed range that one call can take are inside one usable region. -/
theorem BootClaim.Backed.insideOne {entries : List MmapEntry} {claim : BootClaim}
    (hbacked : claim.Backed entries) {b npages : Nat} (hpos : 1 ≤ npages)
    (hend : b + npages ≤ claim.free) (hblock : npages = 1 ∨ b + npages < bootmemBits) :
    InsideOne entries (claim.start + pageSize * b) npages := by
  have hpages : ∀ m, b + npages ≤ m → Set.Ico (claim.start + pageSize * b)
      (claim.start + pageSize * b + pageSize * npages) ⊆
      Set.Ico claim.start (claim.start + pageSize * m) :=
    fun m hm => @pages_subset ⟨claim.start, m⟩ b npages hm
  rcases hbacked with hnone | ⟨-, hall⟩ | ⟨hmap, hfirst, hlast⟩
  · omega
  · exact hall.mono (hpages _ hend)
  · by_cases hbefore : b + npages ≤ bootmemBits - 1
    · exact hfirst.mono (hpages _ hbefore)
    · obtain rfl : npages = 1 := by omega
      obtain rfl : b = bootmemBits - 1 := by omega
      exact hlast

/-- On a backed map the allocator does what it should. -/
theorem BootmemBacked.sound {entries : List MmapEntry} {after : MmapEntry}
    (hbacked : BootmemBacked entries after) (info : MemInfo) :
    BootmemSound info entries after := by
  intro calls hcalls
  have htracks := mmuBootmemInit_tracks info entries after
  obtain ⟨hplaced, hdisjoint⟩ := bootmemCalls_placed htracks hbacked.apart hcalls
  refine ⟨?_, hdisjoint⟩
  intro r hr hsuccess
  obtain ⟨j, hj, b, haddr, -, hend, hblock⟩ := hplaced r hr hsuccess
  have hclaim := List.getElem_mem hj
  obtain ⟨haligned, -⟩ := htracks.bounded _ hclaim
  rw [haddr]
  constructor
  · unfold pageAligned at haligned ⊢
    rw [Nat.add_mul_mod_self_left, haligned]
  · exact (hbacked.backed _ hclaim).insideOne (bootmemCalls_npages hcalls r hr) hend hblock

/-- A block at the start of a range can be had: exhaust the ranges before it first. -/
theorem BootmemSound.insideOne {info : MemInfo} {entries : List MmapEntry} {after : MmapEntry}
    (hsound : BootmemSound info entries after) {j npages : Nat}
    (hj : j < (bootmemClaims (mmapVisited entries after)).length) (hpos : 1 ≤ npages)
    (hend : npages ≤ (bootmemClaims (mmapVisited entries after))[j].free)
    (hblock : npages < bootmemBits) :
    InsideOne entries (bootmemClaims (mmapVisited entries after))[j].start npages := by
  have htracks := mmuBootmemInit_tracks info entries after
  obtain ⟨calls, next, hcalls, htracks', hdone, hsame, -⟩ := htracks.drain_below hj.le
  have hzero : next j = 0 := hsame j le_rfl
  have htakes := htracks'.takes (by omega) hj
    (fun k hk hlt => by have := hdone k hk hlt; omega)
    (show next j + npages ≤ _ by omega) (Or.inr (by omega))
  have hresults := (hsound (calls ++ [.allocBlock npages]) (by
    intro call hcall
    rcases List.mem_append.mp hcall with h | h
    · exact hcalls call h
    · obtain rfl := List.mem_singleton.mp h
      exact hpos)).1
  rw [bootmemCalls_append] at hresults
  have haddr := htakes.addr_eq
  rw [hzero, Nat.mul_zero, Nat.add_zero] at haddr
  have hsuccess := htracks.addr_lt hj (show 0 < _ by omega)
  rw [Nat.mul_zero, Nat.add_zero] at hsuccess
  have hinside := (hresults
    ⟨(mmuBootmemAllocBlock (bootmemCalls (mmuBootmemInit info entries after) calls).2 npages).1,
      npages⟩
    (by simp [bootmemCalls, bootmemCall, BootmemCall.npages])
    (by
      unfold BootmemResult.Success
      rw [haddr]
      exact hsuccess.ne)).2
  rw [haddr] at hinside
  exact hinside

/-- Every page of a range can be had. -/
theorem BootmemSound.insideOne_page {info : MemInfo} {entries : List MmapEntry}
    {after : MmapEntry} (hsound : BootmemSound info entries after) {j b : Nat}
    (hj : j < (bootmemClaims (mmapVisited entries after)).length)
    (hb : b < (bootmemClaims (mmapVisited entries after))[j].free) :
    InsideOne entries ((bootmemClaims (mmapVisited entries after))[j].start + pageSize * b) 1 := by
  have htracks := mmuBootmemInit_tracks info entries after
  obtain ⟨calls, next, hcalls, -, -, -, hmem⟩ := htracks.drain_below hj
  have hpage := hmem j hj (by omega) b (by omega) hb
  exact ((hsound calls hcalls).1 _ hpage (htracks.addr_lt hj hb).ne).2

/-- The page of an address in a range is one of the range's pages. -/
theorem BootClaim.page_of_mem {claim : BootClaim} (haligned : pageAligned claim.start) {x : Nat}
    (hx : x ∈ claim.memory) :
    ∃ b < claim.free, claim.start + pageSize * b = roundDown x pageSize := by
  unfold BootClaim.memory pageAligned pageSize at *
  obtain ⟨hle, hlt⟩ := hx
  refine ⟨(x - claim.start) / 4096, by omega, ?_⟩
  unfold roundDown
  omega

/-- An address that two ranges share is handed out twice. -/
theorem BootmemSound.apart {info : MemInfo} {entries : List MmapEntry} {after : MmapEntry}
    (hsound : BootmemSound info entries after) :
    (bootmemClaims (mmapVisited entries after)).Pairwise fun c c' =>
      Disjoint c.memory c'.memory := by
  have htracks := mmuBootmemInit_tracks info entries after
  rw [List.pairwise_iff_getElem]
  intro i j hi hj hlt
  rw [Set.disjoint_left]
  intro x hxi hxj
  obtain ⟨b, hb, hpage⟩ :=
    BootClaim.page_of_mem (htracks.bounded _ (List.getElem_mem hi)).1 hxi
  obtain ⟨b', hb', hpage'⟩ :=
    BootClaim.page_of_mem (htracks.bounded _ (List.getElem_mem hj)).1 hxj
  obtain ⟨calls, next, hcalls, htracks', -, hsame, hmem⟩ := htracks.drain_below hi
  obtain ⟨more, next', hmore, -, -, -, hmem'⟩ := htracks'.drain_below hj
  have hfirst := hmem i hi (by omega) b (by omega) hb
  have hsecond := hmem' j hj (by omega) b' (by rw [hsame j hlt]; omega) hb'
  have hpairs := (hsound (calls ++ more) (by
    intro call hcall
    rcases List.mem_append.mp hcall with h | h
    · exact hcalls call h
    · exact hmore call h)).2
  rw [bootmemCalls_append] at hpairs
  have hdisjoint := (List.pairwise_append.mp hpairs).2.2 _ hfirst _ hsecond
    (htracks.addr_lt hi hb).ne (htracks.addr_lt hj hb').ne
  rw [hpage, hpage'] at hdisjoint
  have hself : roundDown x pageSize ∈
      (⟨roundDown x pageSize, 1⟩ : BootmemResult).memory := by
    simp [BootmemResult.memory, pageSize]
  exact Set.disjoint_left.mp hdisjoint hself hself

/-- A map on which the allocator does what it should is backed. -/
theorem BootmemSound.backed {info : MemInfo} {entries : List MmapEntry} {after : MmapEntry}
    (hsound : BootmemSound info entries after) : BootmemBacked entries after where
  backed := by
    intro claim hclaim
    have hbits : bootmemBits = 8192 := rfl
    obtain ⟨j, hj, rfl⟩ := List.mem_iff_getElem.mp hclaim
    have hbound := ((mmuBootmemInit_tracks info entries after).bounded _ hclaim).2.2
    rcases Nat.eq_zero_or_pos (bootmemClaims (mmapVisited entries after))[j].free with hnone | hpos
    · exact Or.inl hnone
    · rcases Nat.lt_or_eq_of_le hbound with hlt | heq
      · exact Or.inr (Or.inl ⟨hlt, hsound.insideOne hj hpos le_rfl hlt⟩)
      · right
        right
        refine ⟨heq, ?_, ?_⟩
        · exact hsound.insideOne hj (by omega) (by omega) (by omega)
        · exact hsound.insideOne_page hj (by omega)
  apart := hsound.apart

/-- Every successful result of every sequence of calls is whole pages of one usable
region, different for different calls, exactly when the map is backed. -/
theorem bootmem_sound_iff (info : MemInfo) (entries : List MmapEntry) (after : MmapEntry) :
    BootmemSound info entries after ↔ BootmemBacked entries after :=
  ⟨fun hsound => hsound.backed, fun hbacked => hbacked.sound info⟩

/-- `mem_info` before the first call: static memory is zero. -/
def zeroMemInfo : MemInfo where
  ranges := fun _ => ⟨0, 0, fun _ => 0⟩
  ptr := 0

/-- One available region of two pages at 1 MiB. -/
def twoPages : MmapEntry := ⟨0x100000#64, 0x2000#64, .available⟩

/-- The third call of `mmu_bootmem_alloc_page` on a map of two pages gets the page behind
them. -/
theorem twoPages_third_page : ¬ BootmemSound zeroMemInfo [twoPages] twoPages := by
  intro hsound
  obtain ⟨entry, hentry, -, hregion⟩ :=
    hsound.insideOne_page (j := 0) (b := 2) (by decide) (by decide)
  obtain rfl := List.mem_singleton.mp hentry
  have hin : (0x102000 : Nat) ∈ twoPages.region := hregion ⟨by decide, by decide⟩
  exact absurd hin.2 (by decide)

end Mm
end Micael
