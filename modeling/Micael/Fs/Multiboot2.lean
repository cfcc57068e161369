import Micael.Foundation.Memory
import Micael.Mm.Bootmem

/-!
# The walk over the Multiboot2 memory map

The boot loader leaves a list of tags in memory: a header of eight bytes, tags at addresses that are
multiples of eight, and an end tag.  `multiboot2_map_memory` walks the tags and calls its callback for
the entries of the memory-map tags.

Three things go wrong.  The walk adds 8 to a pointer to `unsigned long`, so that it starts 64 bytes
behind the header's address and not 8.  It folds the halves of a base and of a length into 32 bits.
And its inner loop takes the memory behind an empty memory-map tag for an entry.

The loops run for as many turns as they are given, and have no result when the turns run out.  The
boot loader passes the address of the list in a register of 32 bits.

Main results:

- Theorem {lit}`tagLoop_chain`: from a tag on, the walk visits the tags of the list and ends.
- Theorem {lit}`foldl_visitedCalls`: what the boot memory allocator is told about one tag.
- Theorem {lit}`multiboot2_map_memory_right`: when the walk reports every entry as it is; that this is
  necessary where a tag starts 64 bytes behind the header and no memory-map tag is empty.
-/

namespace Micael
namespace Fs

open Foundation Mm

/-! ## The walk -/

/-- `tag->type`. -/
def tagType (mem : Memory) (tag : Nat) : Nat := mem.load tag 4

/-- `tag->size`. -/
def tagSize (mem : Memory) (tag : Nat) : Nat := mem.load (tag + 4) 4

/-- `entry_size` of a memory-map tag. -/
def tagEntrySize (mem : Memory) (tag : Nat) : Nat := mem.load (tag + 8) 4

/-- `MULTIBOOT_TAG_TYPE_END`. -/
def tagTypeEnd : Nat := 0

/-- `MULTIBOOT_TAG_TYPE_MMAP`. -/
def tagTypeMmap : Nat := 6

/-- The number of a type of memory. -/
def memoryType : Nat → MultibootMemory
  | 1 => .available
  | 2 => .reserved
  | 3 => .acpiReclaimable
  | 4 => .nvs
  | 5 => .badram
  | _ => .other

/-- The memory-map entry at an address. -/
def readEntry (mem : Memory) (a : Nat) : MmapEntry where
  addr := BitVec.ofNat 64 (mem.load a 8)
  len := BitVec.ofNat 64 (mem.load (a + 8) 8)
  type := memoryType (mem.load (a + 16) 4)

/-- A call of the callback. -/
structure MmapCall where
  type : MultibootMemory
  addr : Nat
  len : Nat
deriving DecidableEq, Repr

/-- The call for an entry, if its type is known. -/
def entryCalls (entry : MmapEntry) : List MmapCall :=
  if entry.type = .other then [] else [⟨entry.type, foldHalves entry.addr, foldHalves entry.len⟩]

/-- The `do … while` loop over the entries of a tag, from the entry at `mmap` on. -/
def mmapLoop (mem : Memory) (tag : Nat) : Nat → Nat → Option (List MmapCall)
  | 0, _ => none
  | turns + 1, mmap =>
      let calls := entryCalls (readEntry mem mmap)
      let next := u64 (mmap + tagEntrySize mem tag)
      if next < u64 (tag + tagSize mem tag) then (mmapLoop mem tag turns next).map (calls ++ ·)
      else some calls

/-- The address of the next tag; the sum is that of an `unsigned`. -/
def nextTag (mem : Memory) (tag : Nat) : Nat := u64 (tag + u32 (tagSize mem tag + 7) / 8 * 8)

/-- The loop over the tags, from the one at `tag` on. -/
def tagLoop (mem : Memory) : Nat → Nat → Option (List MmapCall)
  | 0, _ => none
  | turns + 1, tag =>
      if tagType mem tag = tagTypeEnd then some []
      else if tagType mem tag = tagTypeMmap then
        (mmapLoop mem tag turns (u64 (tag + 16))).bind fun calls =>
          (tagLoop mem turns (nextTag mem tag)).map (calls ++ ·)
      else tagLoop mem turns (nextTag mem tag)

/-- The calls that `multiboot2_map_memory` makes in at most `turns` turns of its loops.  The address is
that of an `unsigned long`, so that the source adds eight times eight bytes to it. -/
def multiboot2Calls (mem : Memory) (address turns : Nat) : Option (List MmapCall) :=
  tagLoop mem turns (u64 (address + 8 * 8))

/-- `multiboot2_map_memory` ends after the given calls. -/
def MapsMemory (mem : Memory) (address : Nat) (calls : List MmapCall) : Prop :=
  ∃ turns, multiboot2Calls mem address turns = some calls

/-! ## The list of tags -/

/-- A tag is as large as its header, and a memory-map tag holds whole entries. -/
structure TagOk (mem : Memory) (tag : Nat) : Prop where
  size : 8 ≤ tagSize mem tag
  header : tagType mem tag = tagTypeMmap → 16 ≤ tagSize mem tag
  entry : tagType mem tag = tagTypeMmap → 24 ≤ tagEntrySize mem tag
  whole : tagType mem tag = tagTypeMmap → tagEntrySize mem tag ∣ tagSize mem tag - 16

/-- The addresses of the tags from `a` on, up to the end tag at `stop`. -/
inductive TagChain (mem : Memory) (stop : Nat) : Nat → List Nat → Prop
  | nil (htype : tagType mem stop = tagTypeEnd) : TagChain mem stop stop []
  | cons {a : Nat} {tags : List Nat} (htype : tagType mem a ≠ tagTypeEnd) (hok : TagOk mem a)
      (hrest : TagChain mem stop (a + (tagSize mem a + 7) / 8 * 8) tags) :
      TagChain mem stop a (a :: tags)

/-- A well-formed information structure at `base`: its size, the tags and the end tag at `stop`. -/
structure MultibootInfo (mem : Memory) (base : Nat) (tags : List Nat) (stop : Nat) : Prop where
  aligned : base % 8 = 0
  below : base < 2 ^ 32
  total : mem.load base 4 = stop + 8 - base
  chain : TagChain mem stop (base + 8) tags

/-- The entries of a memory-map tag. -/
def tagEntries (mem : Memory) (tag : Nat) : List MmapEntry :=
  if tagType mem tag = tagTypeMmap then
    (List.range ((tagSize mem tag - 16) / tagEntrySize mem tag)).map fun i =>
      readEntry mem (tag + 16 + i * tagEntrySize mem tag)
  else []

/-- The call that an entry of a known type calls for. -/
def entrySpec (entry : MmapEntry) : List MmapCall :=
  if entry.type = .other then [] else [⟨entry.type, entry.addr.toNat, entry.len.toNat⟩]

/-- The calls that the memory-map tags of a list call for. -/
def mmapSpec (mem : Memory) (tags : List Nat) : List MmapCall :=
  (tags.flatMap (tagEntries mem)).flatMap entrySpec

/-- The calls for one tag. -/
def visitedCalls (mem : Memory) (tag : Nat) : List MmapCall :=
  if tagType mem tag = tagTypeMmap then
    (mmapVisited (tagEntries mem tag) (readEntry mem (tag + 16))).flatMap entryCalls
  else []

/-- The callback is applied as the boot memory allocator takes it to be. -/
theorem foldl_visitedCalls {σ : Type} (mem : Memory) {tag : Nat}
    (htype : tagType mem tag = tagTypeMmap) (callback : σ → MultibootMemory → Nat → Nat → σ)
    (s : σ) :
    (visitedCalls mem tag).foldl (fun s call => callback s call.type call.addr call.len) s =
      multiboot2MapMemory (tagEntries mem tag) (readEntry mem (tag + 16)) callback s := by
  rw [visitedCalls, if_pos htype, multiboot2MapMemory]
  generalize mmapVisited (tagEntries mem tag) (readEntry mem (tag + 16)) = entries
  induction entries generalizing s with
  | nil => rfl
  | cons entry rest ih =>
      rw [List.flatMap_cons, List.foldl_append, List.foldl_cons, ih]
      unfold entryCalls
      by_cases hother : entry.type = .other
      · simp [hother]
      · simp [hother]

/-! ## Turns -/

variable {mem : Memory} {base stop a tag : Nat} {tags : List Nat}

theorem mmapLoop_mono {n m mmap : Nat} {calls : List MmapCall}
    (hret : mmapLoop mem tag n mmap = some calls) (hle : n ≤ m) :
    mmapLoop mem tag m mmap = some calls := by
  induction n generalizing m mmap calls with
  | zero => exact absurd hret (by simp [mmapLoop])
  | succ n ih =>
      obtain ⟨m, rfl⟩ : ∃ k, m = k + 1 := ⟨m - 1, by omega⟩
      unfold mmapLoop at hret ⊢
      simp only at hret ⊢
      split_ifs at hret ⊢
      · obtain ⟨rest, hrest, rfl⟩ := Option.map_eq_some_iff.mp hret
        rw [ih hrest (by omega)]
        rfl
      · exact hret

theorem tagLoop_mono {n m : Nat} {calls : List MmapCall} (hret : tagLoop mem n tag = some calls)
    (hle : n ≤ m) : tagLoop mem m tag = some calls := by
  induction n generalizing m tag calls with
  | zero => exact absurd hret (by simp [tagLoop])
  | succ n ih =>
      obtain ⟨m, rfl⟩ : ∃ k, m = k + 1 := ⟨m - 1, by omega⟩
      unfold tagLoop at hret ⊢
      split_ifs at hret ⊢
      · exact hret
      · obtain ⟨first, hfirst, hret⟩ := Option.bind_eq_some_iff.mp hret
        obtain ⟨rest, hrest, rfl⟩ := Option.map_eq_some_iff.mp hret
        rw [mmapLoop_mono hfirst (by omega), ih hrest (by omega)]
        rfl
      · exact ih hret (by omega)

/-- The calls of a walk that ends do not depend on the turns. -/
theorem MapsMemory.unique {calls calls' : List MmapCall} (h : MapsMemory mem base calls)
    (h' : MapsMemory mem base calls') : calls = calls' := by
  obtain ⟨n, hn⟩ := h
  obtain ⟨m, hm⟩ := h'
  have hfirst := tagLoop_mono hn (Nat.le_max_left n m)
  have hsecond := tagLoop_mono hm (Nat.le_max_right n m)
  exact Option.some.inj (hfirst.symm.trans hsecond)

/-! ## The walk over a well-formed list -/

/-- The tags lie between the start and the end tag. -/
theorem TagChain.bounds (h : TagChain mem stop a tags) :
    a ≤ stop ∧ ∀ t ∈ tags, a ≤ t ∧ t + (tagSize mem t + 7) / 8 * 8 ≤ stop := by
  induction h with
  | nil => exact ⟨le_rfl, fun t ht => absurd ht (by simp)⟩
  | cons htype hok hrest ih =>
      obtain ⟨hle, hall⟩ := ih
      refine ⟨by omega, fun t ht => ?_⟩
      rcases List.mem_cons.mp ht with rfl | hmem
      · exact ⟨le_rfl, hle⟩
      · obtain ⟨hlow, hhigh⟩ := hall t hmem
        exact ⟨by omega, hhigh⟩

/-- A list of tags is one from each of its tags on. -/
theorem TagChain.split (h : TagChain mem stop a tags) {x : Nat} (hx : x ∈ tags ++ [stop]) :
    ∃ before after, tags = before ++ after ∧ TagChain mem stop x after ∧ ∀ t ∈ before, t < x := by
  induction h with
  | nil htype =>
      obtain rfl : x = stop := by simpa using hx
      exact ⟨[], [], rfl, .nil htype, fun t ht => absurd ht (by simp)⟩
  | @cons a tags htype hok hrest ih =>
      by_cases hxa : x = a
      · subst hxa
        exact ⟨[], _, rfl, .cons htype hok hrest, fun t ht => absurd ht (by simp)⟩
      · have hmem : x ∈ tags ++ [stop] := by
          rcases List.mem_cons.mp hx with heq | hmem
          · exact absurd heq hxa
          · exact hmem
        obtain ⟨before, after, rfl, hafter, hbefore⟩ := ih hmem
        refine ⟨a :: before, after, rfl, hafter, fun t ht => ?_⟩
        rcases List.mem_cons.mp ht with rfl | hrest'
        · have hsize := hok.size
          have hlow : t + (tagSize mem t + 7) / 8 * 8 ≤ x := by
            rcases List.mem_append.mp hmem with hin | hend
            · exact (hrest.bounds.2 x hin).1
            · rw [List.mem_singleton.mp hend]
              exact hrest.bounds.1
          omega
        · exact hbefore t hrest'

/-- The inner loop visits the entries from number `i` on. -/
theorem mmapLoop_entries {n es : Nat} (hes : tagEntrySize mem tag = es) (hpos : 0 < es)
    (hsize : tagSize mem tag = 16 + n * es) (hfits : tag + 16 + n * es < 2 ^ 64) (k i : Nat)
    (hk : i + (k + 1) = n) :
    mmapLoop mem tag (k + 1) (tag + 16 + i * es) =
      some (((List.range' i (k + 1)).map fun j => readEntry mem (tag + 16 + j * es)).flatMap
        entryCalls) := by
  have hend : u64 (tag + tagSize mem tag) = tag + 16 + n * es := by
    rw [hsize, u64_eq_of_lt (by omega)]
    omega
  induction k generalizing i with
  | zero =>
      have hi : i * es + es = n * es := by rw [← hk, Nat.add_mul, Nat.one_mul]
      have hnext : u64 (tag + 16 + i * es + es) = tag + 16 + n * es := by
        rw [u64_eq_of_lt (by omega)]
        omega
      unfold mmapLoop
      simp only [hes, hnext, hend, lt_self_iff_false, if_false]
      simp
  | succ k ih =>
      have hi : i * es + es = (i + 1) * es := by rw [Nat.add_mul, Nat.one_mul]
      have hlt : (i + 1) * es < n * es := Nat.mul_lt_mul_of_pos_right (by omega) hpos
      have hnext : u64 (tag + 16 + i * es + es) = tag + 16 + (i + 1) * es := by
        rw [u64_eq_of_lt (by omega)]
        omega
      unfold mmapLoop
      simp only [hes, hnext, hend]
      rw [if_pos (by omega), ih (i + 1) (by omega)]
      simp [List.range'_succ]

/-- The inner loop ends after the entries of its tag, or after the memory behind an empty one. -/
theorem mmapLoop_tag (hok : TagOk mem tag) (htype : tagType mem tag = tagTypeMmap)
    (hbound : tag + tagSize mem tag + 2 ^ 32 < 2 ^ 64) :
    ∃ turns, mmapLoop mem tag turns (u64 (tag + 16)) = some (visitedCalls mem tag) := by
  obtain ⟨n, hn⟩ := hok.whole htype
  have hheader := hok.header htype
  have hentry := hok.entry htype
  have hcount : (tagSize mem tag - 16) / tagEntrySize mem tag = n := by
    rw [hn, Nat.mul_div_cancel_left _ (by omega)]
  have hsize : tagSize mem tag = 16 + n * tagEntrySize mem tag := by
    rw [Nat.mul_comm] at hn
    omega
  have hstart : u64 (tag + 16) = tag + 16 := u64_eq_of_lt (by omega)
  rw [hstart, visitedCalls, if_pos htype, tagEntries, if_pos htype, hcount]
  cases n with
  | zero =>
      refine ⟨1, ?_⟩
      have hwidth : tagEntrySize mem tag < 2 ^ 32 := mem.load_lt (tag + 8) 4
      have hnext : u64 (tag + 16 + tagEntrySize mem tag) = tag + 16 + tagEntrySize mem tag :=
        u64_eq_of_lt (by omega)
      have hend : u64 (tag + tagSize mem tag) = tag + 16 := by
        rw [u64_eq_of_lt (by omega), hsize]
        omega
      unfold mmapLoop
      simp only [hnext, hend]
      rw [if_neg (by omega)]
      simp [mmapVisited]
  | succ n =>
      refine ⟨n + 1, ?_⟩
      have hloop := mmapLoop_entries rfl (by omega) hsize (by omega) n 0 (by omega)
      rw [Nat.zero_mul, Nat.add_zero] at hloop
      rw [hloop, List.range_eq_range', List.range'_succ, List.map_cons, mmapVisited]

/-- The walk from a tag on visits the rest of the list. -/
theorem tagLoop_chain (h : TagChain mem stop a tags) (hbound : stop < a + 2 ^ 32)
    (hfits : stop + 2 ^ 33 < 2 ^ 64) :
    ∃ turns, tagLoop mem turns a = some (tags.flatMap (visitedCalls mem)) := by
  induction h with
  | nil htype =>
      refine ⟨1, ?_⟩
      unfold tagLoop
      rw [if_pos htype]
      rfl
  | @cons a tags htype hok hrest ih =>
      have hsize := hok.size
      have hle := hrest.bounds.1
      obtain ⟨n, hn⟩ := ih (by omega)
      have hnext : nextTag mem a = a + (tagSize mem a + 7) / 8 * 8 := by
        unfold nextTag
        rw [u32_eq_of_lt (by omega), u64_eq_of_lt (by omega)]
      by_cases hmmap : tagType mem a = tagTypeMmap
      · obtain ⟨m, hm⟩ := mmapLoop_tag hok hmmap (by omega)
        refine ⟨max n m + 1, ?_⟩
        unfold tagLoop
        rw [if_neg htype, if_pos hmmap, hnext, mmapLoop_mono hm (Nat.le_max_right n m),
          tagLoop_mono hn (Nat.le_max_left n m), List.flatMap_cons]
        rfl
      · refine ⟨n + 1, ?_⟩
        unfold tagLoop
        rw [if_neg htype, if_neg hmmap, hnext, hn, List.flatMap_cons, visitedCalls, if_neg hmmap,
          List.nil_append]

/-! ## What is reported -/

/-- A number of 64 bits is its folded halves just when it has 32 bits. -/
theorem foldHalves_eq_iff (word : BitVec 64) : foldHalves word = word.toNat ↔ word.toNat < 2 ^ 32 := by
  constructor
  · intro heq
    rw [← heq]
    exact foldHalves_lt word
  · intro hlt
    unfold foldHalves
    rw [BitVec.toNat_or, BitVec.toNat_ushiftRight, BitVec.toNat_and, Nat.shiftRight_eq_div_pow,
      Nat.div_eq_of_lt hlt, Nat.zero_or]
    have hmask : (0xffffffff#64).toNat = 2 ^ 32 - 1 := rfl
    rw [hmask, Nat.and_two_pow_sub_one_eq_mod, Nat.mod_eq_of_lt hlt]

theorem length_entryCalls (entry : MmapEntry) :
    (entryCalls entry).length = (entrySpec entry).length := by
  unfold entryCalls entrySpec
  split_ifs <;> rfl

/-- An entry is reported as it is just when its type is unknown or its numbers have 32 bits. -/
theorem entryCalls_eq_iff (entry : MmapEntry) :
    entryCalls entry = entrySpec entry ↔
      (entry.type ≠ .other → entry.addr.toNat < 2 ^ 32 ∧ entry.len.toNat < 2 ^ 32) := by
  unfold entryCalls entrySpec
  by_cases hother : entry.type = .other
  · simp [hother]
  · rw [if_neg hother, if_neg hother]
    simp [hother, foldHalves_eq_iff]

theorem entrySpec_eq_nil (entry : MmapEntry) : entrySpec entry = [] ↔ entry.type = .other := by
  unfold entrySpec
  split_ifs with hother
  · simp [hother]
  · simp [hother]

/-- Two lists of calls that are made entry by entry agree just when they do for every entry. -/
theorem flatMap_eq_iff {α β : Type} {f g : α → List β} (hlen : ∀ x, (f x).length = (g x).length)
    (xs : List α) : xs.flatMap f = xs.flatMap g ↔ ∀ x ∈ xs, f x = g x := by
  induction xs with
  | nil => simp
  | cons x xs ih =>
      rw [List.flatMap_cons, List.flatMap_cons, List.forall_mem_cons, ← ih]
      constructor
      · exact fun heq => List.append_inj heq (hlen x)
      · rintro ⟨hfirst, hrest⟩
        rw [hfirst, hrest]

theorem tagEntries_of_ne (h : tagType mem tag ≠ tagTypeMmap) : tagEntries mem tag = [] := if_neg h

/-- The calls for a tag whose memory-map is not empty are those for its entries. -/
theorem visitedCalls_of_ne_nil (h : tagType mem tag = tagTypeMmap → tagEntries mem tag ≠ []) :
    visitedCalls mem tag = (tagEntries mem tag).flatMap entryCalls := by
  unfold visitedCalls
  by_cases hmmap : tagType mem tag = tagTypeMmap
  · rw [if_pos hmmap]
    cases hentries : tagEntries mem tag with
    | nil => exact absurd hentries (h hmmap)
    | cons entry rest => rfl
  · rw [if_neg hmmap, tagEntries_of_ne hmmap]
    rfl

/-- When the walk reports every entry as it is: a tag starts 64 bytes behind the header, there is no
entry of a known type before it, no memory that is taken for an entry has a known type, and all
entries from there on lie below 4 GiB. -/
structure ReportsAll (mem : Memory) (base : Nat) (tags : List Nat) (stop : Nat) : Prop where
  starts : base + 64 ∈ tags ++ [stop]
  before : ∀ t ∈ tags, t < base + 64 → ∀ entry ∈ tagEntries mem t, entry.type = .other
  empty : ∀ t ∈ tags, base + 64 ≤ t → tagType mem t = tagTypeMmap → tagEntries mem t = [] →
    (readEntry mem (t + 16)).type = .other
  low : ∀ t ∈ tags, base + 64 ≤ t → ∀ entry ∈ tagEntries mem t, entry.type ≠ .other →
    entry.addr.toNat < 2 ^ 32 ∧ entry.len.toNat < 2 ^ 32

/-- What the walk reports when a tag starts where it does. -/
theorem MultibootInfo.walk (h : MultibootInfo mem base tags stop) {after : List Nat}
    (hafter : TagChain mem stop (base + 64) after) :
    MapsMemory mem base (after.flatMap (visitedCalls mem)) := by
  have hwidth : mem.load base 4 < 2 ^ 32 := mem.load_lt base 4
  have hbelow := h.below
  have htotal := h.total
  have hstop := h.chain.bounds.1
  obtain ⟨turns, hturns⟩ := tagLoop_chain hafter (by omega) (by omega)
  refine ⟨turns, ?_⟩
  unfold multiboot2Calls
  rw [u64_eq_of_lt (by omega)]
  exact hturns

/-- For every well-formed structure: if a tag starts 64 bytes behind the header, no entry of a known
type comes before it, no memory behind an empty memory-map tag looks like an entry of a known type, and
all entries of known types lie below 4 GiB, then `multiboot2_map_memory` ends and calls its callback
once for each entry of a known type, in order, with its base and length.  Where a tag starts 64 bytes
behind the header and no memory-map tag is empty from there on, this is necessary. -/
theorem multiboot2_map_memory_right (h : MultibootInfo mem base tags stop) :
    (ReportsAll mem base tags stop → MapsMemory mem base (mmapSpec mem tags)) ∧
      (base + 64 ∈ tags ++ [stop] →
        (∀ t ∈ tags, base + 64 ≤ t → tagType mem t = tagTypeMmap → tagEntries mem t ≠ []) →
        MapsMemory mem base (mmapSpec mem tags) → ReportsAll mem base tags stop) := by
  constructor
  · intro hright
    obtain ⟨before, after, rfl, hafter, hbefore⟩ := h.chain.split hright.starts
    have hlow := hafter.bounds.2
    have hskipped : (before.flatMap (tagEntries mem)).flatMap entrySpec = [] := by
      rw [List.flatMap_eq_nil_iff]
      intro entry hentry
      obtain ⟨t, ht, hmem⟩ := List.mem_flatMap.mp hentry
      rw [entrySpec_eq_nil]
      exact hright.before t (List.mem_append_left _ ht) (hbefore t ht) entry hmem
    have htags : ∀ t ∈ after, visitedCalls mem t = (tagEntries mem t).flatMap entrySpec := by
      intro t ht
      have hin : t ∈ before ++ after := List.mem_append_right _ ht
      by_cases hempty : tagType mem t = tagTypeMmap ∧ tagEntries mem t = []
      · obtain ⟨hmmap, hnil⟩ := hempty
        have hother := hright.empty t hin (hlow t ht).1 hmmap hnil
        rw [visitedCalls, if_pos hmmap, hnil]
        simp [mmapVisited, entryCalls, hother]
      · rw [visitedCalls_of_ne_nil fun hmmap hnil => hempty ⟨hmmap, hnil⟩]
        apply (flatMap_eq_iff length_entryCalls _).mpr
        intro entry hentry
        exact (entryCalls_eq_iff entry).mpr (hright.low t hin (hlow t ht).1 entry hentry)
    have hspec : mmapSpec mem (before ++ after) = after.flatMap (visitedCalls mem) := by
      rw [mmapSpec, List.flatMap_append, List.flatMap_append, hskipped, List.nil_append,
        List.flatMap_assoc]
      exact List.flatMap_congr fun t ht => (htags t ht).symm
    rw [hspec]
    exact h.walk hafter
  · intro hstarts hfull hmaps
    obtain ⟨before, after, rfl, hafter, hbefore⟩ := h.chain.split hstarts
    have hlow := hafter.bounds.2
    have hcalls : after.flatMap (visitedCalls mem) =
        (after.flatMap (tagEntries mem)).flatMap entryCalls := by
      rw [List.flatMap_assoc]
      refine List.flatMap_congr fun t ht => visitedCalls_of_ne_nil ?_
      exact hfull t (List.mem_append_right _ ht) (hlow t ht).1
    have heq := (h.walk hafter).unique hmaps
    rw [hcalls, mmapSpec, List.flatMap_append, List.flatMap_append] at heq
    generalize hskipped : (before.flatMap (tagEntries mem)).flatMap entrySpec = skipped at heq
    -- As many calls are made as there are entries of known types, so that none was skipped.
    have hlength : ((after.flatMap (tagEntries mem)).flatMap entryCalls).length =
        ((after.flatMap (tagEntries mem)).flatMap entrySpec).length := by
      simp only [List.length_flatMap, length_entryCalls]
    have hnone : skipped = [] := by
      have hsum := congrArg List.length heq
      rw [List.length_append, hlength] at hsum
      exact List.length_eq_zero_iff.mp (by omega)
    rw [hnone, List.nil_append] at heq
    have heach := (flatMap_eq_iff length_entryCalls _).mp heq
    refine ⟨hstarts, fun t ht htlt entry hentry => ?_, fun t ht hge hmmap hnil => ?_,
      fun t ht hge entry hentry => ?_⟩
    · rcases List.mem_append.mp ht with hin | hin
      · rw [hnone, List.flatMap_eq_nil_iff] at hskipped
        exact (entrySpec_eq_nil entry).mp
          (hskipped entry (List.mem_flatMap.mpr ⟨t, hin, hentry⟩))
      · have hge := (hlow t hin).1
        omega
    · exact absurd hnil (hfull t ht hge hmmap)
    · rcases List.mem_append.mp ht with hin | hin
      · have htlt := hbefore t hin
        omega
      · exact (entryCalls_eq_iff entry).mp (heach entry (List.mem_flatMap.mpr ⟨t, hin, hentry⟩))

/-- Memory that was never written. -/
def clearMemory : Memory := fun _ => 0

/-- A memory-map tag at `tag` with one entry: two pages of available memory at 1 MiB. -/
def storeMmapTag (mem : Memory) (tag : Nat) : Memory :=
  (((((mem.store tag 4 6).store (tag + 4) 4 40).store (tag + 8) 4 24).store (tag + 16) 8
    0x100000).store (tag + 24) 8 0x2000).store (tag + 32) 4 1

/-- A command line of 56 bytes, then the memory map, then the end tag. -/
def commandLineFirst : Memory :=
  storeMmapTag (((clearMemory.store 4096 4 112).store 4104 4 1).store 4108 4 56) 4160

theorem commandLineFirst_info : MultibootInfo commandLineFirst 4096 [4104, 4160] 4200 := by
  have hend : TagChain commandLineFirst 4200 4200 [] := .nil (by decide +kernel)
  have hmmap : TagChain commandLineFirst 4200 4160 [4160] := by
    refine .cons (by decide +kernel) ⟨?_, ?_, ?_, ?_⟩ ?_
    · decide +kernel
    · decide +kernel
    · decide +kernel
    · decide +kernel
    · have hsize : tagSize commandLineFirst 4160 = 40 := by decide +kernel
      rw [hsize]
      exact hend
  refine ⟨by decide, by decide, by decide +kernel, ?_⟩
  refine .cons (by decide +kernel) ⟨?_, ?_, ?_, ?_⟩ ?_
  · decide +kernel
  · decide +kernel
  · decide +kernel
  · decide +kernel
  · have hsize : tagSize commandLineFirst 4104 = 56 := by decide +kernel
    rw [hsize]
    exact hmmap

/-- The memory map behind the command line is reported. -/
theorem commandLineFirst_mapped :
    MapsMemory commandLineFirst 4096 [⟨.available, 0x100000, 0x2000⟩] := by
  have hright : ReportsAll commandLineFirst 4096 [4104, 4160] 4200 := by
    refine ⟨by decide, ?_, ?_, ?_⟩
    · decide +kernel
    · decide +kernel
    · decide +kernel
  have hspec : mmapSpec commandLineFirst [4104, 4160] = [⟨.available, 0x100000, 0x2000⟩] := by
    decide +kernel
  rw [← hspec]
  exact (multiboot2_map_memory_right commandLineFirst_info).1 hright

/-- The memory map is the first tag. -/
def memoryMapFirst : Memory := storeMmapTag (clearMemory.store 4096 4 56) 4104

/-- A memory map that is the first tag is not reported. -/
theorem first_tag_not_mapped :
    MultibootInfo memoryMapFirst 4096 [4104] 4144 ∧
      mmapSpec memoryMapFirst [4104] = [⟨.available, 0x100000, 0x2000⟩] ∧
      MapsMemory memoryMapFirst 4096 [] ∧
      ¬ MapsMemory memoryMapFirst 4096 (mmapSpec memoryMapFirst [4104]) := by
  have hspec : mmapSpec memoryMapFirst [4104] = [⟨.available, 0x100000, 0x2000⟩] := by
    decide +kernel
  have hnone : MapsMemory memoryMapFirst 4096 [] := ⟨1, by decide +kernel⟩
  refine ⟨⟨by decide, by decide, by decide +kernel, ?_⟩, hspec, hnone, fun hmaps => ?_⟩
  · refine .cons (by decide +kernel) ⟨?_, ?_, ?_, ?_⟩ ?_
    · decide +kernel
    · decide +kernel
    · decide +kernel
    · decide +kernel
    · have hsize : tagSize memoryMapFirst 4104 = 40 := by decide +kernel
      rw [hsize]
      exact .nil (by decide +kernel)
  · have heq := hnone.unique hmaps
    rw [hspec] at heq
    exact absurd heq (by simp)

end Fs
end Micael
