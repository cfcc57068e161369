import Micael.Mm.BootInit

/-!
# Splitting a region of memory over the zones

`mmu_claim_range` rounds a region to pages and passes it to `__claim_range`, in one piece if
`__get_zone` finds a zone for it and in two if it reaches over 16 MiB.

Neither `__claim_range` nor `mmu_claim_range` asks whether the rounded start is below the rounded
end, and `__get_zone` wants a region of the first zone to end before the last byte of the zone does.

Main results:

- Theorem {lit}`mmuClaimRange_eq_flatMap`: the blocks that are added to the zones are those of the
  ranges that are passed to `__claim_range`.
- Theorem {lit}`claim_range_splits_iff`: the ranges are those of the whole pages of the region, each in
  its zone, exactly if the region has a page boundary and does not end at 16 MiB with a whole page.
-/

namespace Micael
namespace Mm

/-! ## The ranges -/

/-- The arguments of a call of `__claim_range`: a range and the zone for its blocks. -/
structure RangeCall where
  start : Nat
  stop : Nat
  zone : MmZoneId
deriving DecidableEq, Repr

/-- The addresses of a range. -/
def RangeCall.addrs (call : RangeCall) : Set Nat := Set.Ico call.start call.stop

/-- The call for the result of `__get_zone`, if it is a zone. -/
def rangeCallsIn : Option MmZoneId → Nat → Nat → List RangeCall
  | some zone, start, stop => [⟨start, stop, zone⟩]
  | none, _, _ => []

/-- The calls of `__claim_range` that `mmu_claim_range` makes. -/
def mmuRangeCalls (address len : Nat) : List RangeCall :=
  let stop := u64 (address + len)
  let inside := rangeCallsIn (getZone address stop) (roundUp address pageSize) (roundDown stop pageSize)
  if address < mmZoneNormalStart ∧ mmZoneDmaEnd < stop then
    inside ++ [⟨roundUp address pageSize, mmZoneDmaEnd, .dma⟩,
      ⟨mmZoneNormalStart, roundDown stop pageSize, .normal⟩]
  else inside

theorem zoneCallsIn_eq (zone : Option MmZoneId) (start stop : Nat) :
    zoneCallsIn zone start stop =
      (rangeCallsIn zone start stop).flatMap fun call => zoneCalls call.zone call.start call.stop := by
  cases zone with
  | none => rfl
  | some zone => simp [zoneCallsIn, rangeCallsIn]

/-- The blocks that `mmu_claim_range` adds are those of its calls of `__claim_range`. -/
theorem mmuClaimRange_eq_flatMap (address len : Nat) :
    mmuClaimRange address len =
      (mmuRangeCalls address len).flatMap fun call => zoneCalls call.zone call.start call.stop := by
  unfold mmuClaimRange mmuRangeCalls
  dsimp only
  split
  · simp [zoneCallsIn_eq, List.flatMap_append]
  · exact zoneCallsIn_eq _ _ _

/-! ## What the ranges should be -/

/-- The addresses of the whole pages of a region. -/
def wholePages (address stop : Nat) : Set Nat :=
  {x | address ≤ x / pageSize * pageSize ∧ (x / pageSize + 1) * pageSize ≤ stop}

/-- The zone of an address. -/
def zoneOf (x : Nat) : MmZoneId := if x < mmZoneNormalStart then .dma else .normal

/-- The ranges are ordered and disjoint, they cover the whole pages of a region and nothing else, and
every address is in a range of its zone. -/
structure SplitsRegion (calls : List RangeCall) (address stop : Nat) : Prop where
  ordered : ∀ call ∈ calls, call.start ≤ call.stop
  disjoint : calls.Pairwise fun call call' => Disjoint call.addrs call'.addrs
  cover : {x | ∃ call ∈ calls, x ∈ call.addrs} = wholePages address stop
  zones : ∀ call ∈ calls, ∀ x ∈ call.addrs, call.zone = zoneOf x

/-- A page starts in the region or right behind it. -/
def HasBoundary (address stop : Nat) : Prop :=
  ∃ page, address ≤ page * pageSize ∧ page * pageSize ≤ stop

section Rounding

variable {address stop : Nat}

/-- With a page boundary, the rounded region is that of the whole pages. -/
theorem HasBoundary.rounded (h : HasBoundary address stop) (hstop : stop < 2 ^ 64) :
    roundUp address pageSize ≤ roundDown stop pageSize ∧ address ≤ roundUp address pageSize ∧
      roundUp address pageSize < address + pageSize ∧ roundUp address pageSize % pageSize = 0 := by
  obtain ⟨page, hfrom, hto⟩ := h
  unfold roundUp roundDown u64
  unfold pageSize at *
  split
  · omega
  · omega

/-- Without one, the rounded region is upside down, or its start has wrapped around to zero. -/
theorem not_rounded (h : ¬ HasBoundary address stop) (hle : address ≤ stop) (hstop : stop < 2 ^ 64) :
    roundDown stop pageSize < roundUp address pageSize ∨
      roundUp address pageSize = 0 ∧ 0 < roundDown stop pageSize := by
  have hnone : stop / 4096 < (address + 4095) / 4096 := by
    by_contra hle
    refine h ⟨(address + 4095) / 4096, ?_, ?_⟩
    · unfold pageSize
      omega
    · unfold pageSize
      omega
  unfold roundUp roundDown u64 pageSize
  split
  · omega
  · omega

/-- The whole pages of a region with a page boundary. -/
theorem HasBoundary.wholePages_eq (h : HasBoundary address stop) (hstop : stop < 2 ^ 64) :
    wholePages address stop = Set.Ico (roundUp address pageSize) (roundDown stop pageSize) := by
  have hrounded := h.rounded hstop
  ext x
  simp only [wholePages, Set.mem_ofPred_eq, Set.mem_Ico]
  unfold roundDown at *
  unfold pageSize at *
  omega

/-- A region without a page boundary has no whole page. -/
theorem wholePages_of_no_boundary (h : ¬ HasBoundary address stop) : wholePages address stop = ∅ := by
  apply Set.eq_empty_of_forall_notMem
  rintro x ⟨hfrom, hto⟩
  have hstart : x / pageSize * pageSize ≤ stop :=
    (Nat.mul_le_mul_right _ (Nat.le_succ _)).trans hto
  exact h ⟨x / pageSize, hfrom, hstart⟩

end Rounding

/-! ## The split -/

section Split

variable {address stop : Nat}

/-- A region that goes to one zone is treated right exactly if it has a page boundary. -/
theorem splitsRegion_single_iff {zone : MmZoneId} (hle : address ≤ stop) (hstop : stop < 2 ^ 64)
    (hzone : ∀ x, address ≤ x → x < stop → zone = zoneOf x) :
    SplitsRegion [⟨roundUp address pageSize, roundDown stop pageSize, zone⟩] address stop ↔
      HasBoundary address stop := by
  constructor
  · intro hsplit
    by_contra hnone
    rcases not_rounded hnone hle hstop with hdown | ⟨hzero, hpos⟩
    · have := hsplit.ordered _ List.mem_cons_self
      dsimp only at this
      omega
    · -- the first page is claimed, and the region has none
      have hmem : (0 : Nat) ∈ wholePages address stop := by
        rw [← hsplit.cover]
        exact ⟨_, List.mem_cons_self, hzero.le, hpos⟩
      rw [wholePages_of_no_boundary hnone] at hmem
      exact hmem
  · intro hboundary
    obtain ⟨hordered, hfrom, -, -⟩ := hboundary.rounded hstop
    constructor
    case ordered => simpa using hordered
    case disjoint => exact List.pairwise_singleton _ _
    case cover =>
      rw [hboundary.wholePages_eq hstop]
      simp [RangeCall.addrs, Set.Ico]
    case zones =>
      intro call hcall x hx
      obtain rfl := List.mem_singleton.mp hcall
      have hdown : roundDown stop pageSize ≤ stop := Nat.div_mul_le_self _ _
      exact hzone x (hfrom.trans hx.1) (hx.2.trans_le hdown)

/-- A region that reaches over the end of the first zone is split at that end. -/
theorem splitsRegion_two (hlow : address < mmZoneNormalStart) (hhigh : mmZoneNormalStart < stop)
    (hstop : stop < 2 ^ 64) :
    SplitsRegion [⟨roundUp address pageSize, mmZoneDmaEnd, .dma⟩,
      ⟨mmZoneNormalStart, roundDown stop pageSize, .normal⟩] address stop := by
  have hboundary : HasBoundary address stop := ⟨4096, hlow.le, hhigh.le⟩
  obtain ⟨-, hfrom, hup, halign⟩ := hboundary.rounded hstop
  have hfirst : roundUp address pageSize ≤ mmZoneNormalStart := by
    unfold mmZoneNormalStart pageSize at *
    omega
  have hsecond : mmZoneNormalStart ≤ roundDown stop pageSize := by
    unfold mmZoneNormalStart roundDown pageSize at *
    omega
  constructor
  case ordered =>
    intro call hcall
    rcases List.mem_pair.mp hcall with rfl | rfl
    · exact hfirst
    · exact hsecond
  case disjoint =>
    apply List.pairwise_pair.mpr
    exact Set.Ico_disjoint_Ico_same
  case cover =>
    rw [hboundary.wholePages_eq hstop, ← Set.Ico_union_Ico_eq_Ico hfirst hsecond]
    ext x
    simp [RangeCall.addrs, mmZoneDmaEnd]
  case zones =>
    intro call hcall x hx
    rcases List.mem_pair.mp hcall with rfl | rfl
    · exact (if_pos hx.2).symm
    · exact (if_neg (not_lt.mpr hx.1)).symm

/-- A region that ends with the first zone is not claimed. -/
theorem splitsRegion_nil_iff (hlow : address < mmZoneNormalStart) :
    SplitsRegion [] address mmZoneNormalStart ↔ ¬ address ≤ mmZoneNormalStart - pageSize := by
  constructor
  · intro hsplit hle
    have hmem : mmZoneNormalStart - pageSize ∈ wholePages address mmZoneNormalStart := by
      refine ⟨?_, ?_⟩
      · unfold mmZoneNormalStart pageSize at *
        omega
      · decide
    rw [← hsplit.cover] at hmem
    obtain ⟨call, hcall, -⟩ := hmem
    cases hcall
  · intro hgt
    constructor
    case ordered => simp
    case disjoint => exact List.Pairwise.nil
    case cover =>
      have hboundary : HasBoundary address mmZoneNormalStart := ⟨4096, hlow.le, le_rfl⟩
      obtain ⟨-, hfrom, hup, halign⟩ := hboundary.rounded (by decide)
      rw [hboundary.wholePages_eq (by decide)]
      ext x
      simp only [List.not_mem_nil, false_and, exists_false, Set.ofPred_false, Set.mem_empty_iff_false,
        Set.mem_Ico, false_iff]
      unfold mmZoneNormalStart roundDown at *
      unfold pageSize at *
      omega
    case zones => simp

end Split

/-- The ranges that a region is split into are ordered and disjoint, cover its whole pages and nothing
else, and are in the right zones exactly if the region has a page boundary and does not end at 16 MiB
with a whole page before it. -/
theorem claim_range_splits_iff {address len : Nat} (hfit : address + len < 2 ^ 64 - 1) :
    SplitsRegion (mmuRangeCalls address len) address (address + len) ↔
      HasBoundary address (address + len) ∧
        ¬ (address ≤ mmZoneNormalStart - pageSize ∧ address + len = mmZoneNormalStart) := by
  have hstop : u64 (address + len) = address + len := Nat.mod_eq_of_lt (by omega)
  have hlt : address + len < 2 ^ 64 := by omega
  unfold mmuRangeCalls
  dsimp only
  rw [hstop]
  rcases lt_trichotomy (address + len) mmZoneNormalStart with hbelow | hend | habove
  · have hzone : getZone address (address + len) = some .dma := if_pos hbelow
    rw [if_neg (by unfold mmZoneDmaEnd; omega), hzone, rangeCallsIn,
      splitsRegion_single_iff (by omega) hlt fun x _ hx => (if_pos (by omega)).symm]
    constructor
    · exact fun hboundary => ⟨hboundary, fun hends => hbelow.ne hends.2⟩
    · exact fun h => h.1
  · rw [if_neg (by unfold mmZoneDmaEnd; omega)]
    by_cases hlow : address < mmZoneNormalStart
    · have hzone : getZone address (address + len) = none := by
        unfold getZone
        rw [if_neg (by omega), if_neg (by omega), if_neg (by unfold mmZoneNormalEnd; omega)]
      rw [hzone, rangeCallsIn, hend, splitsRegion_nil_iff hlow]
      constructor
      · exact fun hgt => ⟨⟨4096, hlow.le, le_rfl⟩, fun hends => hgt hends.1⟩
      · exact fun h hle => h.2 ⟨hle, rfl⟩
    · have hzone : getZone address (address + len) = some .normal := by
        unfold getZone mmZoneNormalEnd
        rw [if_neg (by omega), if_pos (by omega)]
      rw [hzone, rangeCallsIn,
        splitsRegion_single_iff (by omega) hlt fun x hx _ => (if_neg (by omega)).symm]
      constructor
      · refine fun hboundary => ⟨hboundary, fun hends => hlow (hends.1.trans_lt ?_)⟩
        decide
      · exact fun h => h.1
  · by_cases hlow : address < mmZoneNormalStart
    · have hzone : getZone address (address + len) = none := by
        unfold getZone
        rw [if_neg (by omega), if_neg (by omega), if_neg (by unfold mmZoneNormalEnd; omega)]
      rw [if_pos ⟨hlow, habove⟩, hzone, rangeCallsIn, List.nil_append]
      constructor
      · exact fun _ => ⟨⟨4096, hlow.le, habove.le⟩, fun hends => habove.ne' hends.2⟩
      · exact fun _ => splitsRegion_two hlow habove hlt
    · have hzone : getZone address (address + len) = some .normal := by
        unfold getZone mmZoneNormalEnd
        rw [if_neg (by omega), if_pos (by omega)]
      rw [if_neg (by omega), hzone, rangeCallsIn,
        splitsRegion_single_iff (by omega) hlt fun x hx _ => (if_neg (by omega)).symm]
      constructor
      · exact fun hboundary => ⟨hboundary, fun hends => habove.ne' hends.2⟩
      · exact fun h => h.1

/-- A usual region: conventional memory above the first megabyte. -/
theorem upper_memory_splits : mmuRangeCalls 0x100000 0x7ee0000 =
    [⟨0x100000, 0x1000000, .dma⟩, ⟨0x1000000, 0x7fe0000, .normal⟩] ∧
      SplitsRegion (mmuRangeCalls 0x100000 0x7ee0000) 0x100000 0x7fe0000 :=
  ⟨by decide, (claim_range_splits_iff (by decide)).mpr ⟨⟨256, by decide, by decide⟩, by decide⟩⟩

/-- The first zone as a whole is not claimed, and a region within a page gets a range with a negative
length. -/
theorem first_zone_not_claimed :
    mmuRangeCalls 0 0x1000000 = [] ∧ ¬ SplitsRegion (mmuRangeCalls 0 0x1000000) 0 0x1000000 ∧
      mmuRangeCalls 0x2000100 0x200 = [⟨0x2001000, 0x2000000, .normal⟩] ∧
      ¬ SplitsRegion (mmuRangeCalls 0x2000100 0x200) 0x2000100 0x2000300 := by
  have hnone : mmuRangeCalls 0 0x1000000 = [] := by decide
  have hdown : mmuRangeCalls 0x2000100 0x200 = [⟨0x2001000, 0x2000000, .normal⟩] := by decide
  refine ⟨hnone, ?_, hdown, ?_⟩
  · rw [hnone]
    intro hsplit
    have hmem : (0 : Nat) ∈ wholePages 0 0x1000000 := ⟨by decide, by decide⟩
    rw [← hsplit.cover] at hmem
    obtain ⟨call, hcall, -⟩ := hmem
    cases hcall
  · rw [hdown]
    intro hsplit
    have hordered := hsplit.ordered _ List.mem_cons_self
    exact absurd hordered (by decide)

end Mm
end Micael
