import Micael.Foundation.Tiling
import Micael.Mm.Types

/-!
# Claiming a page-aligned range

`__claim_range` cuts a range of memory into buddy blocks, from the largest
order down, and hands each block to a callback.  The callback's result is
dropped and cannot influence the cutting, so the function is modelled by the
list of calls it makes; a caller folds its callback over that list.

The inner loop advances the start address by `(b + 1) * BLOCK_SIZE` in its
`b`-th turn, so the `k`-th block of one order lies a triangular number of
blocks away from the first.

Main results:

- Theorem {lit}`claimOrders_tiles`: below the top order at most one block of
  each order is emitted, and the calls tile the range.
- Theorem {lit}`claimRange_tiles_iff`: the calls tile the range exactly when it
  is at most two blocks of the top order long.
-/

namespace Micael
namespace Mm

open Foundation

/-- A block of `2 ^ order` pages: the arguments of one
`callback(cb_param, start, order)` call. -/
structure PageBlock where
  start : Nat
  order : Nat
deriving DecidableEq, Repr

/-- The addresses of a block. -/
def PageBlock.addrs (block : PageBlock) : Set Nat :=
  blockAddrs block.start block.order

instance (block : PageBlock) (x : Nat) : Decidable (x ∈ block.addrs) :=
  inferInstanceAs (Decidable (x ∈ Set.Ico block.start (block.start + blockSize block.order)))

/-! ## The two loops of `__claim_range` -/

/-- The inner loop from turn `b` on, with `n` turns left: the calls it makes and
the start address it leaves behind. -/
def claimBlocks (order : Nat) : Nat → Nat → Nat → List PageBlock × Nat
  | 0, _, start => ([], start)
  | n + 1, b, start =>
      let rest := claimBlocks order n (b + 1) (u64 (start + (b + 1) * blockSize order))
      (⟨start, order⟩ :: rest.1, rest.2)

/-- The outer loop over the orders below `k`, the highest first. -/
def claimOrders : Nat → Nat → Nat → List PageBlock
  | 0, _, _ => []
  | order + 1, start, rangeLen =>
      let numBlocks := rangeLen / blockSize order
      let remBytes := rangeLen % blockSize order
      if 0 < numBlocks then
        let blocks := claimBlocks order numBlocks 0 start
        blocks.1 ++ claimOrders order blocks.2 remBytes
      else
        claimOrders order start rangeLen

/-- `__claim_range`: the calls made for the range from `start` to `stop`. -/
def claimRange (start stop : Nat) : List PageBlock :=
  let rangeLen := u64 (stop + 2 ^ 64 - start)
  if rangeLen < pageSize then []
  else claimOrders buddyMaxOrder start rangeLen

/-! ## The blocks of one order -/

/-- The distance, in blocks, of the `k`-th block of one order from the first. -/
def tri (k : Nat) : Nat := k * (k + 1) / 2

theorem tri_succ (k : Nat) : tri (k + 1) = tri k + (k + 1) := by
  unfold tri
  have h : (k + 1) * (k + 1 + 1) = k * (k + 1) + 2 * (k + 1) := by ring
  rw [h]
  omega

theorem two_mul_tri (k : Nat) : 2 * tri k = k * (k + 1) := by
  induction k with
  | zero => rfl
  | succ k ih =>
      rw [tri_succ, Nat.mul_add, ih]
      ring

/-- From turn `b` on, the `k`-th call lies `k * b + tri k` blocks away. -/
theorem mem_claimBlocks {order n b start : Nat} (hstart : start < 2 ^ 64)
    {call : PageBlock} :
    call ∈ (claimBlocks order n b start).1 ↔
      ∃ k < n, call = ⟨u64 (start + (k * b + tri k) * blockSize order), order⟩ := by
  induction n generalizing b start with
  | zero => simp [claimBlocks]
  | succ n ih =>
      simp only [claimBlocks, List.mem_cons]
      rw [ih (u64_lt _)]
      -- one more turn moves every later block by `b + 1` further blocks
      have hshift : ∀ k, u64 (u64 (start + (b + 1) * blockSize order) +
          (k * (b + 1) + tri k) * blockSize order) =
          u64 (start + ((k + 1) * b + tri (k + 1)) * blockSize order) := by
        intro k
        unfold u64
        rw [Nat.mod_add_mod, tri_succ]
        congr 1
        ring
      constructor
      · rintro (rfl | ⟨k, hk, rfl⟩)
        · refine ⟨0, by omega, ?_⟩
          simp [tri, u64_eq_of_lt hstart]
        · exact ⟨k + 1, by omega, by rw [hshift]⟩
      · rintro ⟨k, hk, rfl⟩
        cases k with
        | zero =>
            left
            simp [tri, u64_eq_of_lt hstart]
        | succ k => exact Or.inr ⟨k, by omega, by rw [hshift]⟩

theorem claimBlocks_start {order n b start : Nat} (hstart : start < 2 ^ 64) :
    (claimBlocks order n b start).2 =
      u64 (start + (n * b + tri n) * blockSize order) := by
  induction n generalizing b start with
  | zero => simp [claimBlocks, tri, u64_eq_of_lt hstart]
  | succ n ih =>
      simp only [claimBlocks]
      rw [ih (u64_lt _)]
      unfold u64
      rw [Nat.mod_add_mod, tri_succ]
      congr 1
      ring

/-! ## The orders below the top one -/

/-- A range shorter than a block of some order has no block of that order. -/
theorem claimOrders_of_lt {order start rangeLen : Nat} (hsmall : rangeLen < blockSize order) :
    claimOrders (order + 1) start rangeLen = claimOrders order start rangeLen := by
  have hnone : rangeLen / blockSize order = 0 := Nat.div_eq_of_lt hsmall
  simp only [claimOrders, hnone, lt_irrefl, if_false]

/-- A range of at least one block of some order and less than two has one block of that order. -/
theorem claimOrders_of_le {order start rangeLen : Nat} (hle : blockSize order ≤ rangeLen)
    (hlt : rangeLen < blockSize order + blockSize order) :
    claimOrders (order + 1) start rangeLen =
      ⟨start, order⟩ ::
        claimOrders order (u64 (start + blockSize order)) (rangeLen - blockSize order) := by
  have hone : rangeLen / blockSize order = 1 := by
    rw [Nat.div_eq_iff (blockSize_pos order)]
    omega
  have hrem : rangeLen % blockSize order = rangeLen - blockSize order := by
    rw [Nat.mod_eq_sub_mod hle, Nat.mod_eq_of_lt (by omega)]
  simp only [claimOrders, hone, hrem, claimBlocks, zero_add, one_mul, Nat.one_pos, if_true,
    List.singleton_append]

/-- A range shorter than one block of order `k` gets at most one block of each
lower order, and these blocks tile it. -/
theorem claimOrders_tiles {k start rangeLen : Nat} (hlt : rangeLen < blockSize k)
    (hpage : pageSize ∣ rangeLen) (hfit : start + rangeLen < 2 ^ 64) :
    Tiles ((claimOrders k start rangeLen).map PageBlock.addrs)
      (Set.Ico start (start + rangeLen)) := by
  induction k generalizing start rangeLen with
  | zero =>
      -- a multiple of the page size below one page is zero
      have hzero : rangeLen = 0 := Nat.eq_zero_of_dvd_of_lt hpage (by simpa [blockSize] using hlt)
      subst hzero
      simp [claimOrders, tiles_nil_iff]
  | succ order ih =>
      have hpos := blockSize_pos order
      rw [blockSize_succ] at hlt
      by_cases hsmall : rangeLen < blockSize order
      · rw [claimOrders_of_lt hsmall]
        exact ih hsmall hpage hfit
      · have hnext : u64 (start + blockSize order) = start + blockSize order :=
          u64_eq_of_lt (by omega)
        have hend : start + blockSize order + (rangeLen - blockSize order) =
            start + rangeLen := by omega
        have hrest : Tiles ((claimOrders order (start + blockSize order)
            (rangeLen - blockSize order)).map PageBlock.addrs)
            (Set.Ico (start + blockSize order) (start + rangeLen)) := by
          rw [← hend]
          exact ih (by omega) (Nat.dvd_sub hpage (pageSize_dvd_blockSize order)) (by omega)
        rw [claimOrders_of_le (not_lt.mp hsmall) hlt, hnext, List.map_cons]
        refine tiles_cons_iff.mpr ⟨_, Set.Ico_disjoint_Ico_same, ?_, hrest⟩
        exact Set.Ico_union_Ico_eq_Ico (Nat.le_add_right _ _)
          (Nat.add_le_add_left (not_lt.mp hsmall) _)

theorem claimOrders_order_lt {k start rangeLen : Nat} :
    ∀ call ∈ claimOrders k start rangeLen, call.order < k := by
  induction k generalizing start rangeLen with
  | zero => simp [claimOrders]
  | succ order ih =>
      intro call hcall
      simp only [claimOrders] at hcall
      split at hcall
      · rcases List.mem_append.mp hcall with hcall | hcall
        · have horder : ∀ n b s, ∀ c ∈ (claimBlocks order n b s).1, c.order = order := by
            intro n
            induction n with
            | zero => simp [claimBlocks]
            | succ n ihn =>
                intro b s c hc
                rcases List.mem_cons.mp hc with rfl | hc
                · rfl
                · exact ihn _ _ c hc
          exact (horder _ _ _ call hcall).trans_lt (Nat.lt_succ_self _)
        · exact (ih call hcall).trans (Nat.lt_succ_self _)
      · exact (ih call hcall).trans (Nat.lt_succ_self _)

/-- Whatever the arithmetic does, every call below order `k` describes a part of
the `rangeLen` bytes that follow `start`, up to wrap-around. -/
theorem claimOrders_mem_offset {k start rangeLen : Nat} (hlt : rangeLen < blockSize k)
    (hstart : start < 2 ^ 64) {call : PageBlock} (hcall : call ∈ claimOrders k start rangeLen) :
    ∃ j, call.start = u64 (start + j) ∧ j + blockSize call.order ≤ rangeLen := by
  induction k generalizing start rangeLen with
  | zero => simp [claimOrders] at hcall
  | succ order ih =>
      rw [blockSize_succ] at hlt
      by_cases hsmall : rangeLen < blockSize order
      · rw [claimOrders_of_lt hsmall] at hcall
        exact ih hsmall hstart hcall
      · rw [claimOrders_of_le (not_lt.mp hsmall) hlt] at hcall
        rcases List.mem_cons.mp hcall with rfl | hcall
        · exact ⟨0, by simp [u64_eq_of_lt hstart], by simpa using not_lt.mp hsmall⟩
        · obtain ⟨j, hj, hle⟩ := ih (by omega) (u64_lt _) hcall
          refine ⟨blockSize order + j, ?_, by omega⟩
          rw [hj]
          unfold u64
          rw [Nat.mod_add_mod, Nat.add_assoc]

/-- A non-empty range below the top order makes a first call at its own start. -/
theorem claimOrders_start_mem {k start rangeLen : Nat} (hpage : pageSize ∣ rangeLen)
    (hpos : 0 < rangeLen) (hk : 0 < k) :
    ∃ call ∈ claimOrders k start rangeLen, call.start = start := by
  induction k with
  | zero => omega
  | succ order ih =>
      by_cases hsmall : rangeLen < blockSize order
      · have horder : 0 < order := by
          rcases Nat.eq_zero_or_pos order with rfl | h
          · -- a positive multiple of the page size is at least one page
            have := Nat.le_of_dvd hpos hpage
            simp [blockSize] at hsmall
            omega
          · exact h
        rw [claimOrders_of_lt hsmall]
        exact ih horder
      · have hmany : 0 < rangeLen / blockSize order :=
          Nat.div_pos (not_lt.mp hsmall) (blockSize_pos order)
        obtain ⟨n, hn⟩ := Nat.exists_eq_succ_of_ne_zero hmany.ne'
        simp only [claimOrders, hmany, if_true]
        refine ⟨⟨start, order⟩, List.mem_append_left _ ?_, rfl⟩
        rw [hn]
        simp [claimBlocks]

/-! ## Several blocks of the top order -/

/-- The size of a block of the top order: 128 MiB. -/
def topBlockSize : Nat := blockSize (buddyMaxOrder - 1)

theorem topBlockSize_eq : topBlockSize = 2 ^ 27 := by decide

theorem claimOrders_zero_len (k start : Nat) : claimOrders k start 0 = [] := by
  induction k with
  | zero => rfl
  | succ order ih => simpa [claimOrders] using ih

/-- On a page-aligned range the early return of `__claim_range` changes nothing. -/
theorem claimRange_eq {start stop : Nat} (hstart : pageAligned start)
    (hstop : pageAligned stop) (hle : start ≤ stop) (hfit : stop < 2 ^ 64) :
    claimRange start stop = claimOrders buddyMaxOrder start (stop - start) := by
  have hlen : u64 (stop + 2 ^ 64 - start) = stop - start := by
    unfold u64
    omega
  unfold claimRange
  rw [hlen]
  by_cases hshort : stop - start < pageSize
  · -- both ends are page aligned, so a length below one page is zero
    have hzero : stop - start = 0 := by
      unfold pageAligned pageSize at *
      omega
    simp [hzero, claimOrders_zero_len]
  · simp [hshort]

/-- The top order emits its blocks at triangular distances and leaves the lower
orders a start that is a triangular number of blocks away. -/
theorem claimOrders_top {start rangeLen : Nat} (hstart : start < 2 ^ 64)
    (hlen : topBlockSize ≤ rangeLen) :
    claimOrders buddyMaxOrder start rangeLen =
      (claimBlocks (buddyMaxOrder - 1) (rangeLen / topBlockSize) 0 start).1 ++
        claimOrders (buddyMaxOrder - 1)
          (u64 (start + tri (rangeLen / topBlockSize) * topBlockSize))
          (rangeLen % topBlockSize) := by
  have hmany : 0 < rangeLen / topBlockSize :=
    Nat.div_pos hlen (by rw [topBlockSize_eq]; norm_num)
  have hunfold : claimOrders buddyMaxOrder start rangeLen =
      if 0 < rangeLen / topBlockSize then
        (claimBlocks (buddyMaxOrder - 1) (rangeLen / topBlockSize) 0 start).1 ++
          claimOrders (buddyMaxOrder - 1)
            (claimBlocks (buddyMaxOrder - 1) (rangeLen / topBlockSize) 0 start).2
            (rangeLen % topBlockSize)
      else claimOrders (buddyMaxOrder - 1) start rangeLen := rfl
  rw [hunfold, if_pos hmany, claimBlocks_start hstart]
  simp [topBlockSize]

/-- Among three or more turns, one leaves the first `n` blocks without reaching
block `2 * n`. -/
theorem exists_tri_between {n : Nat} (hn : 3 ≤ n) : ∃ k < n, n ≤ tri k ∧ tri k < 2 * n := by
  have hlast : n ≤ tri (n - 1) := by
    have h := two_mul_tri (n - 1)
    have hsub : n - 1 + 1 = n := by omega
    rw [hsub] at h
    have : 2 * n ≤ (n - 1) * n := Nat.mul_le_mul_right n (by omega)
    omega
  -- the first turn that reaches `n` overshoots by less than its own number
  have hex : ∃ k, n ≤ tri k := ⟨n - 1, hlast⟩
  let k := Nat.find hex
  have hk : n ≤ tri k := Nat.find_spec hex
  have hkn : k ≤ n - 1 := Nat.find_min' hex hlast
  have hpos : k ≠ 0 := by
    intro h0
    rw [h0] at hk
    simp [tri] at hk
    omega
  obtain ⟨j, hj⟩ := Nat.exists_eq_succ_of_ne_zero hpos
  have hprev : tri j < n := by
    exact not_le.mp (Nat.find_min hex (by omega))
  refine ⟨k, by omega, hk, ?_⟩
  rw [hj, tri_succ]
  omega

/-- No turn before the last possible one lands half way round the address space. -/
theorem tri_mod_ne {k : Nat} (hk : k + 1 < 2 ^ 37) : tri k % 2 ^ 37 ≠ 2 ^ 36 := by
  intro h
  have htri := two_mul_tri k
  have hdvd : 2 ^ 37 ∣ k * (k + 1) := by
    rw [← htri]
    omega
  -- consecutive numbers are coprime, so one of them carries the whole power of two
  have hcases : 2 ^ 37 ∣ k ∨ 2 ^ 37 ∣ k + 1 := by
    rcases Nat.even_or_odd k with heven | hodd
    · have hco : Nat.Coprime (2 ^ 37) (k + 1) :=
        (Nat.coprime_two_left.mpr heven.add_one).pow_left 37
      exact Or.inl (hco.dvd_of_dvd_mul_right hdvd)
    · have hco : Nat.Coprime (2 ^ 37) k := (Nat.coprime_two_left.mpr hodd).pow_left 37
      exact Or.inr (hco.dvd_of_dvd_mul_left hdvd)
  rcases hcases with hleft | hright
  · have hzero : k = 0 := Nat.eq_zero_of_dvd_of_lt hleft (by omega)
    subst hzero
    simp [tri] at h
  · have := Nat.le_of_dvd (by omega) hright
    omega

/-! ## When the calls describe the range -/

/-- The calls of `__claim_range` are pairwise disjoint blocks that make up the
range, all of an order the allocator has a list for. -/
def ClaimsExactly (start stop : Nat) : Prop :=
  Tiles ((claimRange start stop).map PageBlock.addrs) (Set.Ico start stop) ∧
    ∀ call ∈ claimRange start stop, call.order < buddyMaxOrder

theorem topBlock_addrs {start k : Nat} :
    (PageBlock.addrs ⟨u64 (start + tri k * topBlockSize), buddyMaxOrder - 1⟩) =
      Set.Ico (u64 (start + tri k * topBlockSize))
        (u64 (start + tri k * topBlockSize) + topBlockSize) :=
  rfl

theorem topBlock_div_mod (rangeLen : Nat) :
    rangeLen = 2 ^ 27 * (rangeLen / topBlockSize) + rangeLen % topBlockSize ∧
      rangeLen % topBlockSize < 2 ^ 27 := by
  rw [topBlockSize_eq]
  omega

/-- With two blocks and a remainder, the first smaller block is placed one block
too far. -/
theorem not_covered_of_two {start rangeLen : Nat} (hfit : start + rangeLen < 2 ^ 64)
    (htwo : rangeLen / topBlockSize = 2) (hrem : 0 < rangeLen % topBlockSize)
    (hpage : pageSize ∣ rangeLen) :
    ∃ call ∈ claimOrders buddyMaxOrder start rangeLen,
      ∃ x ∈ call.addrs, x ∉ Set.Ico start (start + rangeLen) := by
  have hB := topBlockSize_eq
  obtain ⟨hlen, hlt⟩ := topBlock_div_mod rangeLen
  have hpageRem : pageSize ∣ rangeLen % topBlockSize :=
    (Nat.dvd_mod_iff (pageSize_dvd_blockSize _)).mpr hpage
  obtain ⟨call, hcall, hat⟩ :=
    @claimOrders_start_mem (buddyMaxOrder - 1) (u64 (start + tri 2 * topBlockSize))
      _ hpageRem hrem (by decide)
  refine ⟨call, ?_, call.start, ⟨le_rfl, Nat.lt_add_of_pos_right (blockSize_pos _)⟩, ?_⟩
  · rw [claimOrders_top (by omega) (by omega), htwo]
    exact List.mem_append_right _ hcall
  · rw [hat, hB]
    simp only [Set.mem_Ico, tri, u64]
    omega

/-- With three or more blocks, but not half the address space, some block
leaves the range. -/
theorem not_covered_of_many {start rangeLen : Nat} (hfit : start + rangeLen < 2 ^ 64)
    (hmany : 3 ≤ rangeLen / topBlockSize) (hfew : rangeLen / topBlockSize ≤ 2 ^ 36) :
    ∃ call ∈ claimOrders buddyMaxOrder start rangeLen,
      ∃ x ∈ call.addrs, x ∉ Set.Ico start (start + rangeLen) := by
  have hB := topBlockSize_eq
  obtain ⟨hlen, hlt⟩ := topBlock_div_mod rangeLen
  obtain ⟨k, hk, hge, hlt⟩ := exists_tri_between hmany
  have hcall : ⟨u64 (start + tri k * topBlockSize), buddyMaxOrder - 1⟩ ∈
      claimOrders buddyMaxOrder start rangeLen := by
    rw [claimOrders_top (by omega) (by omega)]
    refine List.mem_append_left _ ((mem_claimBlocks (by omega)).mpr ⟨k, hk, ?_⟩)
    simp [topBlockSize]
  -- the block has wrapped round to below the range, or its last byte is past the range
  by_cases hwrap : start + tri k * topBlockSize < 2 ^ 64
  · refine ⟨_, hcall, start + tri k * topBlockSize + (topBlockSize - 1), ?_, ?_⟩
    · rw [topBlock_addrs, u64_eq_of_lt hwrap, Set.mem_Ico]
      omega
    · rw [hB, Set.mem_Ico]
      omega
  · refine ⟨_, hcall, u64 (start + tri k * topBlockSize), ?_, ?_⟩
    · rw [topBlock_addrs, Set.mem_Ico]
      omega
    · rw [hB] at hwrap ⊢
      simp only [Set.mem_Ico, u64]
      omega

/-- With more than half the address space, the block half way round is missed. -/
theorem not_covered_of_half {start rangeLen : Nat} (hfit : start + rangeLen < 2 ^ 64)
    (hhalf : 2 ^ 36 < rangeLen / topBlockSize) :
    ∃ x ∈ Set.Ico start (start + rangeLen),
      ∀ call ∈ claimOrders buddyMaxOrder start rangeLen, x ∉ call.addrs := by
  have hB := topBlockSize_eq
  obtain ⟨hlen, hmod⟩ := topBlock_div_mod rangeLen
  refine ⟨start + 2 ^ 63 + (2 ^ 27 - 1), ?_, ?_⟩
  · rw [Set.mem_Ico]
    omega
  · intro call hcall hx
    rw [claimOrders_top (by omega) (by omega)] at hcall
    rcases List.mem_append.mp hcall with htop | hlow
    · obtain ⟨k, hk, rfl⟩ := (mem_claimBlocks (by omega)).mp htop
      rw [Nat.mul_zero, Nat.zero_add] at hx
      have hx' : start + 2 ^ 63 + (2 ^ 27 - 1) ∈
          Set.Ico (u64 (start + tri k * topBlockSize))
            (u64 (start + tri k * topBlockSize) + topBlockSize) := hx
      refine tri_mod_ne (k := k) (by omega) ?_
      rw [hB] at hx'
      simp only [Set.mem_Ico, u64] at hx'
      omega
    · have hlt : rangeLen % topBlockSize < blockSize (buddyMaxOrder - 1) :=
        Nat.mod_lt _ (by rw [hB]; norm_num)
      obtain ⟨j, hj, hle⟩ := claimOrders_mem_offset hlt (u64_lt _) hlow
      have hx' : start + 2 ^ 63 + (2 ^ 27 - 1) ∈
          Set.Ico call.start (call.start + blockSize call.order) := hx
      rw [Set.mem_Ico, hj, hB] at hx'
      simp only [u64] at hx'
      omega

/-- `__claim_range` describes a page-aligned range exactly when the range is at
most two blocks of the top order (256 MiB) long. -/
theorem claimRange_tiles_iff {start stop : Nat} (hstart : pageAligned start)
    (hstop : pageAligned stop) (hle : start ≤ stop) (hfit : stop < 2 ^ 64) :
    ClaimsExactly start stop ↔ stop - start ≤ 2 * topBlockSize := by
  have hB := topBlockSize_eq
  have hpage : pageSize ∣ stop - start :=
    Nat.dvd_sub (Nat.dvd_of_mod_eq_zero hstop) (Nat.dvd_of_mod_eq_zero hstart)
  have hend : start + (stop - start) = stop := by omega
  unfold ClaimsExactly
  rw [claimRange_eq hstart hstop hle hfit]
  constructor
  · rintro ⟨htiles, -⟩
    by_contra hlong
    obtain ⟨hlen, hmod⟩ := topBlock_div_mod (stop - start)
    have hsum : start + (stop - start) < 2 ^ 64 := by omega
    have hinside : ∀ call ∈ claimOrders buddyMaxOrder start (stop - start),
        call.addrs ⊆ Set.Ico start (start + (stop - start)) := by
      intro call hcall
      rw [hend]
      exact htiles.subset (List.mem_map_of_mem hcall)
    by_cases htwo : (stop - start) / topBlockSize = 2
    · obtain ⟨call, hcall, x, hx, hout⟩ := not_covered_of_two hsum htwo (by omega) hpage
      exact hout (hinside call hcall hx)
    · by_cases hhalf : (stop - start) / topBlockSize ≤ 2 ^ 36
      · obtain ⟨call, hcall, x, hx, hout⟩ := not_covered_of_many hsum (by omega) hhalf
        exact hout (hinside call hcall hx)
      · obtain ⟨x, hx, hnone⟩ := not_covered_of_half hsum (not_le.mp hhalf)
        rw [hend, ← htiles.cover] at hx
        obtain ⟨p, hp, hxp⟩ := hx
        obtain ⟨call, hcall, rfl⟩ := List.mem_map.mp hp
        exact hnone call hcall hxp
  · intro hshort
    refine ⟨?_, claimOrders_order_lt⟩
    by_cases hexact : stop - start = 2 * topBlockSize
    · -- two whole blocks: the second start is still right, and nothing is left over
      have htwo : (stop - start) / topBlockSize = 2 := by
        rw [hexact, hB]
        norm_num
      have hnone : (stop - start) % topBlockSize = 0 := by
        rw [hexact, hB]
        norm_num
      rw [claimOrders_top (by omega) (by omega), htwo, hnone, claimOrders_zero_len,
        List.append_nil]
      have hnext : u64 (start + topBlockSize) = start + topBlockSize :=
        u64_eq_of_lt (by omega)
      have htiles : Tiles [Set.Ico start (start + topBlockSize),
          Set.Ico (start + topBlockSize) (start + topBlockSize + topBlockSize)]
          (Set.Ico start (start + topBlockSize + topBlockSize)) :=
        tiles_Ico_Ico (by omega) (by omega)
      have hstop' : start + topBlockSize + topBlockSize = stop := by omega
      rw [hstop'] at htiles
      simpa [claimBlocks, PageBlock.addrs, blockAddrs, ← topBlockSize.eq_1, hnext, hstop']
        using htiles
    · have hlt : stop - start < blockSize buddyMaxOrder := by
        have hsize : blockSize buddyMaxOrder = 2 * topBlockSize := by decide
        omega
      have htiles := @claimOrders_tiles buddyMaxOrder start (stop - start) hlt hpage (by omega)
      rwa [hend] at htiles

/-- A range of 16 MiB is claimed exactly. -/
theorem claimRange_tiles_sixteen_mib :
    ClaimsExactly 0x1000000 0x2000000 :=
  (claimRange_tiles_iff (by decide) (by decide) (by norm_num) (by norm_num)).mpr
    (by rw [topBlockSize_eq]; norm_num)

/-- The range from 0 to 384 MiB is not claimed exactly: the third 128 MiB block is
placed at 384 MiB, outside the range, and the block at 256 MiB is never claimed. -/
theorem claimRange_three_top_blocks :
    claimRange 0 (3 * topBlockSize) = [⟨0, 15⟩, ⟨0x8000000, 15⟩, ⟨0x18000000, 15⟩] ∧
      ¬ ClaimsExactly 0 (3 * topBlockSize) := by
  have hcalls : claimRange 0 (3 * topBlockSize) =
      [⟨0, 15⟩, ⟨0x8000000, 15⟩, ⟨0x18000000, 15⟩] := by decide
  refine ⟨hcalls, ?_⟩
  rintro ⟨htiles, -⟩
  rw [hcalls] at htiles
  have hlast : PageBlock.addrs ⟨0x18000000, 15⟩ ⊆ Set.Ico 0 (3 * topBlockSize) :=
    htiles.subset (by simp)
  have hmem : 0x18000000 ∈ PageBlock.addrs ⟨0x18000000, 15⟩ :=
    ⟨le_rfl, Nat.lt_add_of_pos_right (blockSize_pos _)⟩
  have := hlast hmem
  rw [topBlockSize_eq, Set.mem_Ico] at this
  omega

end Mm
end Micael
