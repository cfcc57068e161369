import Mathlib.Order.Bounds.Basic
import Micael.Lib.Bitmap

/-!
# Bitmaps as sets

A bitmap stands for the set of its bits.  The updates insert and delete, `bm_test_bit` decides membership, and the
searches look for the least element and for the least run.

Every call compares the indices that it is given with the number of bits, but `bm_set_bit` compares the number of a
word with it.

Main results:

- Theorem {lit}`Bitmap.elems_setRange`, {lit}`Bitmap.elems_unsetRange`: what the loops do to the set.
- Theorem {lit}`bmFindFirstRange_searches`: the search for a run, for all bounds.
- Theorem {lit}`bitmap_refines_set_iff`: when a call is right about the set.
- Theorem {lit}`bitmap_range_search`: both searches for a run.
-/

namespace Micael
namespace Lib

variable {bm : Bitmap}

/-! ## The set of a bitmap -/

namespace Bitmap

/-- The bits that are set, those of the words behind the array included. -/
def elems (bm : Bitmap) : Set Nat := {m | bm.bit m = true}

/-- The first bits of the runs of `l` bits with a value between the bits `n` and `k`. -/
def runs (bm : Bitmap) (n k l : Nat) (bitStatus : Bool) : Set Nat :=
  {s | n ≤ s ∧ s + l - 1 ≤ k ∧ ∀ i < l, bm.bit (s + i) = bitStatus}

theorem mem_elems {m : Nat} : m ∈ bm.elems ↔ bm.bit m = true :=
  Iff.rfl

theorem elems_set (bm : Bitmap) (n : Nat) : (bm.set n).elems = insert n bm.elems := by
  ext m
  rw [mem_elems, bit_set, Set.mem_insert_iff, mem_elems]
  simp [or_comm]

theorem elems_unset (bm : Bitmap) (n : Nat) : (bm.unset n).elems = bm.elems \ {n} := by
  ext m
  rw [mem_elems, bit_unset, Set.mem_sdiff, mem_elems]
  simp

/-- `bm_set_range` inserts an interval. -/
theorem elems_setRange (bm : Bitmap) (n k : Nat) : (bm.setRange n k).elems = bm.elems ∪ Set.Icc n k := by
  ext m
  rw [mem_elems, bit_setRange, Set.mem_union, mem_elems, Set.mem_Icc]
  simp

/-- `bm_unset_range` deletes an interval. -/
theorem elems_unsetRange (bm : Bitmap) (n k : Nat) : (bm.unsetRange n k).elems = bm.elems \ Set.Icc n k := by
  ext m
  rw [mem_elems, bit_unsetRange, Set.mem_sdiff, mem_elems, Set.mem_Icc, Bool.and_eq_true, Bool.not_eq_true',
    decide_eq_false_iff_not]

theorem mem_runs_iff {n k l s : Nat} {bitStatus : Bool} (hl : 0 < l) :
    s ∈ bm.runs n k l bitStatus ↔ n ≤ s ∧ s + l ≤ k + 1 ∧ bm.RunAt l bitStatus s := by
  have hbits : (∀ i < l, bm.bit (s + i) = bitStatus) ↔ bm.RunAt l bitStatus s := by
    constructor
    · intro hall m hle hlt
      obtain ⟨i, rfl⟩ := Nat.exists_eq_add_of_le hle
      exact hall i (by omega)
    · intro hrun i hi
      exact hrun (s + i) (by omega) (by omega)
  have hend : s + l - 1 ≤ k ↔ s + l ≤ k + 1 := by omega
  rw [runs, Set.mem_ofPred_eq, hbits, hend]

/-- A run of one bit. -/
theorem runs_one (bm : Bitmap) (n k : Nat) (bitStatus : Bool) :
    bm.runs n k 1 bitStatus = {s | n ≤ s ∧ s ≤ k ∧ bm.bit s = bitStatus} := by
  ext s
  simp [runs]

end Bitmap

/-! ## Searches -/

/-- The `int` is the least element of the set, or `BM_NOT_FOUND_ERROR` when there is none. -/
def Searches (S : Set Nat) (r : Int) : Prop :=
  (∀ s : Nat, r = s ↔ IsLeast S s) ∧ (r = BmError.notFound.toInt ↔ S = ∅)

theorem Searches.of_least {S : Set Nat} {s : Nat} (h : IsLeast S s) : Searches S s := by
  constructor
  · intro t
    rw [Nat.cast_inj]
    constructor
    · rintro rfl
      exact h
    · exact fun ht => h.unique ht
  · constructor
    · intro hneg
      rw [BmError.toInt] at hneg
      omega
    · rintro rfl
      exact absurd h.1 (Set.notMem_empty s)

theorem Searches.of_empty {S : Set Nat} (h : S = ∅) : Searches S BmError.notFound.toInt := by
  constructor
  · intro t
    constructor
    · intro hneg
      rw [BmError.toInt] at hneg
      omega
    · intro ht
      rw [h] at ht
      exact absurd ht.1 (Set.notMem_empty t)
  · exact iff_of_true rfl h

/-- A search between bits of the bitmap does not report a range error. -/
theorem Searches.ne_range {S : Set Nat} {r : Int} (h : Searches S r) : r ≠ BmError.range.toInt := by
  rcases S.eq_empty_or_nonempty with hempty | hsome
  · rw [h.2.mpr hempty]
    decide
  · have hleast : IsLeast S (sInf S) := ⟨Nat.sInf_mem hsome, fun s hs => Nat.sInf_le hs⟩
    rw [(h.1 (sInf S)).mpr hleast, BmError.toInt]
    omega

/-- The number of a bit is not changed by its conversion. -/
theorem bmResult_ok {s : Nat} (hs : s < 2 ^ 31) : bmResult (.ok s) = s := by
  have hint : bmResult (.ok s) = (s : Int).bmod (2 ^ 32) := rfl
  rw [hint, Int.bmod_eq_of_le (by omega) (by omega)]

/-- A search whose result fits into an `int` and is the first run finds the least one. -/
theorem FirstRun.searches {n k l : Nat} {bitStatus : Bool} {r : Except BmError Nat} (hl : 0 < l)
    (hk : k < 2 ^ 31) (h : FirstRun bm n k l bitStatus r) :
    Searches (bm.runs n k l bitStatus) (bmResult r) := by
  match r, h with
  | .ok s, ⟨hn, hend, hrun, hleast⟩ =>
      rw [bmResult_ok (show s < 2 ^ 31 by omega)]
      apply Searches.of_least
      refine ⟨(Bitmap.mem_runs_iff hl).mpr ⟨hn, hend, hrun⟩, ?_⟩
      intro t ht
      obtain ⟨hnt, -, hrunt⟩ := (Bitmap.mem_runs_iff hl).mp ht
      exact hleast t hnt hrunt
  | .error .notFound, hnone =>
      apply Searches.of_empty
      apply Set.eq_empty_of_forall_notMem
      intro t ht
      obtain ⟨hnt, hendt, hrunt⟩ := (Bitmap.mem_runs_iff hl).mp ht
      have hlate := hnone t hnt hrunt
      omega

/-- `bm_find_first_range` between bits of the bitmap, in either order. -/
theorem bmFindFirstRange_searches {n k l : Nat} (bitStatus : Bool) (hlen : bm.len ≤ 2 ^ 31) (hn : n < bm.len)
    (hk : k < bm.len) (hl : 0 < l) :
    Searches (bm.runs n k l bitStatus) (bmResult (bmFindFirstRange bm n k l bitStatus)) := by
  by_cases hle : n ≤ k
  · exact (bmFindFirstRange_spec hle hk hl).searches hl (by omega)
  · -- the loop does not turn
    have hturns : k + 1 - n = 0 := by omega
    rw [bmFindFirstRange, if_neg (by omega), hturns, findRangeLoop]
    apply Searches.of_empty
    apply Set.eq_empty_of_forall_notMem
    intro t ht
    obtain ⟨hnt, hendt, -⟩ := (Bitmap.mem_runs_iff hl).mp ht
    omega

/-- `bm_find_first` between bits of the bitmap, in either order. -/
theorem bmFindFirst_searches {n k : Nat} (bitStatus : Bool) (hlen : bm.len ≤ 2 ^ 31) (hn : n < bm.len)
    (hk : k < bm.len) :
    Searches {s | n ≤ s ∧ s ≤ k ∧ bm.bit s = bitStatus} (bmResult (bmFindFirst bm n k bitStatus)) := by
  have hrange : bmFindFirst bm n k bitStatus = bmFindFirstRange bm n k 1 bitStatus := by
    rw [bmFindFirst, bmFindFirstRange, findFirstLoop_eq]
  rw [hrange, ← Bitmap.runs_one]
  exact bmFindFirstRange_searches bitStatus hlen hn hk one_pos

/-- Both searches for a run find the least one, and report that there is none just when there is none. -/
theorem bitmap_range_search {n k l : Nat} (hlen : bm.len ≤ 2 ^ 31) (hn : n < bm.len) (hk : k < bm.len)
    (hl : 1 ≤ l) :
    Searches (bm.runs n k l true) (bmResult (bmFindFirstSetRange bm n k l)) ∧
      Searches (bm.runs n k l false) (bmResult (bmFindFirstUnsetRange bm n k l)) :=
  ⟨bmFindFirstRange_searches true hlen hn hk hl, bmFindFirstRange_searches false hlen hn hk hl⟩

/-- A bitmap of one word. -/
def oneWord : Bitmap := bmAllocBitmap 20 fun _ => 0

theorem oneWord_searches :
    Searches (oneWord.runs 12 31 20 true) (bmResult (bmFindFirstSetRange oneWord 12 31 20)) ∧
      Searches (oneWord.runs 12 31 20 false) (bmResult (bmFindFirstUnsetRange oneWord 12 31 20)) :=
  bitmap_range_search (by decide) (by decide) (by decide) (by decide)

/-! ## All calls -/

/-- A call on a bitmap, with its indices. -/
inductive BmCall where
  | setBit (n : Nat)
  | unsetBit (n : Nat)
  | setRange (n k : Nat)
  | unsetRange (n k : Nat)
  | testBit (n : Nat)
  | findFirstSet (n k : Nat)
  | findFirstUnset (n k : Nat)

/-- An index of the call is not below the number of bits. -/
def BmCall.Outside (bm : Bitmap) : BmCall → Prop
  | setBit n | unsetBit n | testBit n => bm.len ≤ n
  | setRange n k | unsetRange n k | findFirstSet n k | findFirstUnset n k => bm.len ≤ n ∨ bm.len ≤ k

/-- The `int` that a call returns, and the bitmap after it. -/
def BmCall.run (bm : Bitmap) : BmCall → Int × Bitmap
  | setBit n => (bmStatus (bmSetBit bm n), bmAfter bm (bmSetBit bm n))
  | unsetBit n => (bmStatus (bmUnsetBit bm n), bmAfter bm (bmUnsetBit bm n))
  | setRange n k => (bmStatus (bmSetRange bm n k), bmAfter bm (bmSetRange bm n k))
  | unsetRange n k => (bmStatus (bmUnsetRange bm n k), bmAfter bm (bmUnsetRange bm n k))
  | testBit n => (bmResult (bmTestBit bm n), bm)
  | findFirstSet n k => (bmResult (bmFindFirstSet bm n k), bm)
  | findFirstUnset n k => (bmResult (bmFindFirstUnset bm n k), bm)

/-- What a call within the bitmap does to its set, and what it returns. -/
def BmCall.Meets (bm : Bitmap) (r : Int × Bitmap) : BmCall → Prop
  | setBit n => r.1 = 0 ∧ r.2.elems = insert n bm.elems
  | unsetBit n => r.1 = 0 ∧ r.2.elems = bm.elems \ {n}
  | setRange n k => r.1 = 0 ∧ r.2.elems = bm.elems ∪ Set.Icc n k
  | unsetRange n k => r.1 = 0 ∧ r.2.elems = bm.elems \ Set.Icc n k
  | testBit n => r.2 = bm ∧ (r.1 = 1 ∧ n ∈ bm.elems ∨ r.1 = 0 ∧ n ∉ bm.elems)
  | findFirstSet n k => r.2 = bm ∧ Searches {s | n ≤ s ∧ s ≤ k ∧ s ∈ bm.elems} r.1
  | findFirstUnset n k => r.2 = bm ∧ Searches {s | n ≤ s ∧ s ≤ k ∧ s ∉ bm.elems} r.1

/-- The call returns `BM_RANGE_ERROR` just when an index is outside, and then changes nothing; otherwise it does
to the set what it says. -/
structure BmCall.Right (bm : Bitmap) (call : BmCall) : Prop where
  range : (call.run bm).1 = BmError.range.toInt ↔ call.Outside bm
  kept : call.Outside bm → (call.run bm).2 = bm
  len : (call.run bm).2.len = bm.len
  meets : ¬ call.Outside bm → call.Meets bm (call.run bm)

/-- The condition: `bm_set_bit` gets no index from `bm->len` to `32 * bm->len + 31`. -/
def BmCall.Noticed (bm : Bitmap) : BmCall → Prop
  | setBit n => n < bm.len ∨ bm.len < n / 32
  | _ => True

theorem zero_ne_range : (0 : Int) ≠ BmError.range.toInt := by
  decide

/-- A call that notices what is outside, and does what it says inside. -/
theorem BmCall.Right.of_cases {call : BmCall}
    (hout : call.Outside bm → call.run bm = (BmError.range.toInt, bm))
    (hin : ¬ call.Outside bm →
      (call.run bm).1 ≠ BmError.range.toInt ∧ (call.run bm).2.len = bm.len ∧ call.Meets bm (call.run bm)) :
    call.Right bm := by
  by_cases h : call.Outside bm
  · constructor
    case range => exact iff_of_true (congrArg Prod.fst (hout h)) h
    case kept => exact fun _ => congrArg Prod.snd (hout h)
    case len => rw [hout h]
    case meets => exact fun hnot => absurd h hnot
  · obtain ⟨hrange, hlen, hmeets⟩ := hin h
    constructor
    case range => exact iff_of_false hrange h
    case kept => exact fun hyes => absurd hyes h
    case len => exact hlen
    case meets => exact fun _ => hmeets

/-- An update that compares its indices with the number of bits. -/
theorem BmCall.Right.of_update {call : BmCall} {r : Except BmError Bitmap} {bm' : Bitmap}
    (hrun : call.run bm = (bmStatus r, bmAfter bm r)) (hout : call.Outside bm → r = .error .range)
    (hin : ¬ call.Outside bm → r = .ok bm') (hlen : bm'.len = bm.len) (hmeets : call.Meets bm (0, bm')) :
    call.Right bm := by
  apply BmCall.Right.of_cases
  · intro h
    rw [hrun, hout h]
    rfl
  · intro h
    have hdone : call.run bm = (0, bm') := by
      rw [hrun, hin h]
      rfl
    rw [hdone]
    exact ⟨zero_ne_range, hlen, hmeets⟩

/-- A call that reads. -/
theorem BmCall.Right.of_result {call : BmCall} {r : Except BmError Nat} (hrun : call.run bm = (bmResult r, bm))
    (hout : call.Outside bm → r = .error .range)
    (hin : ¬ call.Outside bm → bmResult r ≠ BmError.range.toInt ∧ call.Meets bm (bmResult r, bm)) :
    call.Right bm := by
  apply BmCall.Right.of_cases
  · intro h
    rw [hrun, hout h]
    rfl
  · intro h
    rw [hrun]
    exact ⟨(hin h).1, rfl, (hin h).2⟩

theorem right_testBit (bm : Bitmap) (n : Nat) : (BmCall.testBit n).Right bm := by
  apply BmCall.Right.of_result rfl
  · exact fun h => if_pos h
  · intro h
    have hbit : bmTestBit bm n = .ok (bm.bit n).toNat := if_neg h
    rw [hbit]
    cases hn : bm.bit n with
    | false => exact ⟨by decide, rfl, .inr ⟨rfl, by simp [Bitmap.mem_elems, hn]⟩⟩
    | true => exact ⟨by decide, rfl, .inl ⟨rfl, Bitmap.mem_elems.mpr hn⟩⟩

/-- A search compares both bounds with the number of bits. -/
theorem bmFindFirst_outside {n k : Nat} {bitStatus : Bool} (h : bm.len ≤ n ∨ bm.len ≤ k) :
    bmFindFirst bm n k bitStatus = .error .range :=
  if_pos h

theorem right_findFirstSet (hlen : bm.len ≤ 2 ^ 31) (n k : Nat) : (BmCall.findFirstSet n k).Right bm := by
  apply BmCall.Right.of_result rfl
  · exact bmFindFirst_outside
  · intro h
    have hin : ¬ (bm.len ≤ n ∨ bm.len ≤ k) := h
    have hsearch := bmFindFirst_searches true hlen (n := n) (k := k) (by omega) (by omega)
    exact ⟨hsearch.ne_range, rfl, hsearch⟩

theorem right_findFirstUnset (hlen : bm.len ≤ 2 ^ 31) (n k : Nat) : (BmCall.findFirstUnset n k).Right bm := by
  apply BmCall.Right.of_result rfl
  · exact bmFindFirst_outside
  · intro h
    have hin : ¬ (bm.len ≤ n ∨ bm.len ≤ k) := h
    have hsearch := bmFindFirst_searches false hlen (n := n) (k := k) (by omega) (by omega)
    refine ⟨hsearch.ne_range, rfl, ?_⟩
    simp only [Bitmap.mem_elems, Bool.not_eq_true]
    exact hsearch

/-- `bm_set_bit` is right just when it gets no index that it takes for one of the bitmap. -/
theorem right_setBit_iff (bm : Bitmap) (n : Nat) :
    (BmCall.setBit n).Right bm ↔ n < bm.len ∨ bm.len < n / 32 := by
  constructor
  · intro h
    by_contra hmissed
    rw [not_or, not_lt, not_lt] at hmissed
    have hset : bmSetBit bm n = .ok (bm.set n) := if_neg (by omega)
    have hrange := h.range.mpr hmissed.1
    rw [BmCall.run, hset] at hrange
    exact zero_ne_range hrange
  · intro h
    apply BmCall.Right.of_cases
    · intro hout
      have hfar : bm.len < n / 32 := h.resolve_left (not_lt.mpr hout)
      have hset : bmSetBit bm n = .error .range := if_pos hfar
      rw [BmCall.run, hset]
      rfl
    · intro hin
      have hn : n < bm.len := not_le.mp hin
      have hset : bmSetBit bm n = .ok (bm.set n) := if_neg (by omega)
      rw [BmCall.run, hset]
      exact ⟨zero_ne_range, rfl, rfl, bm.elems_set n⟩

/-- A call does to the set what it says and notices every index outside, just when it is no call of `bm_set_bit`
with an index that is too large as a bit but not as a word. -/
theorem bitmap_refines_set_iff (hlen : bm.len ≤ 2 ^ 31) (call : BmCall) : call.Right bm ↔ call.Noticed bm := by
  cases call with
  | setBit n => exact right_setBit_iff bm n
  | unsetBit n =>
      apply iff_of_true _ trivial
      exact .of_update rfl (fun h => if_pos h) (fun h => if_neg h) rfl ⟨rfl, bm.elems_unset n⟩
  | setRange n k =>
      apply iff_of_true _ trivial
      exact .of_update rfl (fun h => if_pos h) (fun h => if_neg h) (bm.setRange_len n k)
        ⟨rfl, bm.elems_setRange n k⟩
  | unsetRange n k =>
      apply iff_of_true _ trivial
      exact .of_update rfl (fun h => if_pos h) (fun h => if_neg h) (bm.unsetRange_len n k)
        ⟨rfl, bm.elems_unsetRange n k⟩
  | testBit n => exact iff_of_true (right_testBit bm n) trivial
  | findFirstSet n k => exact iff_of_true (right_findFirstSet hlen n k) trivial
  | findFirstUnset n k => exact iff_of_true (right_findFirstUnset hlen n k) trivial

theorem oneWord_last_bit : (BmCall.setBit 31).Right oneWord :=
  (bitmap_refines_set_iff (by decide) (.setBit 31)).mpr (.inl (by decide))

/-- The bit behind a bitmap of one word is set without an error. -/
theorem bit_behind_bitmap_set : ¬ ∀ (bm : Bitmap) (call : BmCall), bm.len ≤ 2 ^ 31 → call.Right bm := by
  intro hall
  have hright := hall oneWord (.setBit 32) (by decide)
  have hrange := hright.range.mpr (show oneWord.len ≤ 32 by decide)
  exact absurd hrange (by decide)

end Lib
end Micael
