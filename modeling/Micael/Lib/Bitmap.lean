import Micael.Foundation.Loop
import Micael.Kernel.Machine

/-!
# Bitmaps

`lib/bitmap.c` keeps a bitmap as an array of 32-bit words.  The ranges that
`bm_set_range` and `bm_unset_range` write are inclusive at both ends.

Main results:

- Theorem {lit}`bit_setRange` and {lit}`bit_unsetRange`: what the two loops leave in
  every bit.
- Theorem {lit}`bmFindFirstRange_spec`: the search returns the first run of the wanted
  length, and reports that there is none only when there is none.
- Theorem {lit}`bmFindFirst_spec`: the same for a single bit.
-/

namespace Micael
namespace Lib

open Foundation

/-- `bitmap_t`: the number of bits and the words that hold them. -/
structure Bitmap where
  len : Nat
  bits : Nat → BitVec 32

/-- The error results of `BM_STATUS` that the range operations return. -/
inductive BmError where
  /-- `BM_NOT_FOUND_ERROR` -/
  | notFound
  /-- `BM_RANGE_ERROR` -/
  | range
deriving DecidableEq, Repr

namespace Bitmap

/-- `((bm->bits[n / 32] & (1 << (n % 32))) >> (n % 32))`, as a truth value. -/
def bit (bm : Bitmap) (n : Nat) : Bool :=
  (bm.bits (n / 32)).getLsbD (n % 32)

/-- `bm->bits[n / 32] |= 1 << (n % 32)`. -/
def set (bm : Bitmap) (n : Nat) : Bitmap :=
  { bm with
    bits := Function.update bm.bits (n / 32) (bm.bits (n / 32) ||| 1#32 <<< (n % 32)) }

/-- `bm->bits[n / 32] &= ~(1 << (n % 32))`. -/
def unset (bm : Bitmap) (n : Nat) : Bitmap :=
  { bm with
    bits := Function.update bm.bits (n / 32) (bm.bits (n / 32) &&& ~~~(1#32 <<< (n % 32))) }

/-- The loop `while (n <= k)` that sets every bit it meets. -/
def setRange (bm : Bitmap) (n k : Nat) : Bitmap :=
  (List.range (k + 1 - n)).foldl (fun bm i => bm.set (n + i)) bm

/-- The loop `while (n <= k)` that clears every bit it meets. -/
def unsetRange (bm : Bitmap) (n k : Nat) : Bitmap :=
  (List.range (k + 1 - n)).foldl (fun bm i => bm.unset (n + i)) bm

end Bitmap

/-- `bm_alloc_bitmap`, when both allocations succeed: a whole number of words, all zero.  What lies behind
the array is arbitrary. -/
def bmAllocBitmap (nmemb : Nat) (behind : Nat → BitVec 32) : Bitmap :=
  let words := if nmemb % 32 ≠ 0 then nmemb / 32 + 1 else nmemb / 32
  { len := words * 32
    bits := fun i => if i < words then 0 else behind i }

/-- `bm_set_bit`; its range check divides the bit number by 32. -/
def bmSetBit (bm : Bitmap) (n : Nat) : Except BmError Bitmap :=
  if n / 32 > bm.len then .error .range
  else .ok (bm.set n)

/-- `bm_set_range`. -/
def bmSetRange (bm : Bitmap) (n k : Nat) : Except BmError Bitmap :=
  if n ≥ bm.len ∨ k ≥ bm.len then .error .range
  else .ok (bm.setRange n k)

/-- `bm_unset_bit`. -/
def bmUnsetBit (bm : Bitmap) (n : Nat) : Except BmError Bitmap :=
  if n ≥ bm.len then .error .range
  else .ok (bm.unset n)

/-- `bm_unset_range`. -/
def bmUnsetRange (bm : Bitmap) (n k : Nat) : Except BmError Bitmap :=
  if n ≥ bm.len ∨ k ≥ bm.len then .error .range
  else .ok (bm.unsetRange n k)

/-- The bitmap after an update whose status the caller drops. -/
def bmAfter (bm : Bitmap) : Except BmError Bitmap → Bitmap
  | .ok bm' => bm'
  | .error _ => bm

/-- `bm_test_bit`. -/
def bmTestBit (bm : Bitmap) (n : Nat) : Except BmError Nat :=
  if n ≥ bm.len then .error .range
  else .ok (bm.bit n).toNat

/-- The loop of `bm_find_first`. -/
def findFirstLoop (bm : Bitmap) (bitStatus : Bool) : Nat → Nat → Except BmError Nat
  | 0, _ => .error .notFound
  | turns + 1, n => if bm.bit n = bitStatus then .ok n else findFirstLoop bm bitStatus turns (n + 1)

/-- `bm_find_first`. -/
def bmFindFirst (bm : Bitmap) (n k : Nat) (bitStatus : Bool) : Except BmError Nat :=
  if n ≥ bm.len ∨ k ≥ bm.len then .error .range
  else findFirstLoop bm bitStatus (k + 1 - n) n

/-- `bm_find_first_unset`. -/
def bmFindFirstUnset (bm : Bitmap) (n k : Nat) : Except BmError Nat := bmFindFirst bm n k false

/-- `bm_find_first_set`. -/
def bmFindFirstSet (bm : Bitmap) (n k : Nat) : Except BmError Nat := bmFindFirst bm n k true

/-- The loop of `bm_find_first_range` with `turns` turns left: `start` is the first
bit of the current run, if there is one, and `curLen` its length so far. -/
def findRangeLoop (bm : Bitmap) (len : Nat) (bitStatus : Bool) :
    Nat → Nat → Option Nat → Nat → Except BmError Nat
  | 0, _, _, _ => .error .notFound
  | turns + 1, n, start, curLen =>
      if bm.bit n = bitStatus then
        if curLen + 1 = len then .ok (start.getD n)
        else findRangeLoop bm len bitStatus turns (n + 1) (some (start.getD n)) (curLen + 1)
      else findRangeLoop bm len bitStatus turns (n + 1) none 0

/-- `bm_find_first_range`. -/
def bmFindFirstRange (bm : Bitmap) (n k len : Nat) (bitStatus : Bool) : Except BmError Nat :=
  if n ≥ bm.len ∨ k ≥ bm.len then .error .range
  else findRangeLoop bm len bitStatus (k + 1 - n) n none 0

/-- `bm_find_first_unset_range`. -/
def bmFindFirstUnsetRange (bm : Bitmap) (n k len : Nat) : Except BmError Nat :=
  bmFindFirstRange bm n k len false

/-- `bm_find_first_set_range`. -/
def bmFindFirstSetRange (bm : Bitmap) (n k len : Nat) : Except BmError Nat :=
  bmFindFirstRange bm n k len true

/-! ## Results -/

/-- The number of an error. -/
def BmError.toInt : BmError → Int
  | notFound => -2
  | range => -3

/-- The `int` that a test or a search returns. -/
def bmResult : Except BmError Nat → Int
  | .ok n => (n : Int).bmod (2 ^ 32)
  | .error e => e.toInt

/-- The `int` that an update returns. -/
def bmStatus : Except BmError Bitmap → Int
  | .ok _ => 0
  | .error e => e.toInt

/-! ## Single bits -/

namespace Bitmap

@[simp]
theorem set_len (bm : Bitmap) (n : Nat) : (bm.set n).len = bm.len :=
  rfl

@[simp]
theorem unset_len (bm : Bitmap) (n : Nat) : (bm.unset n).len = bm.len :=
  rfl

/-- Two bits in the same word are the same bit when their positions agree. -/
theorem word_position_eq {n m : Nat} (hword : m / 32 = n / 32) :
    m % 32 = n % 32 ↔ m = n := by
  omega

/-- The bit at `i` of the word with the single bit `j` set. -/
theorem getLsbD_one_shiftLeft {i j : Nat} (hi : i < 32) :
    (1#32 <<< j).getLsbD i = decide (i = j) := by
  rw [BitVec.getLsbD_shiftLeft, BitVec.getLsbD_one]
  by_cases h : i < j
  · have hne : i ≠ j := by omega
    simp [h, hne]
  · have hiff : i - j = 0 ↔ i = j := by omega
    simp [h, hi, hiff]

theorem bit_set (bm : Bitmap) (n m : Nat) :
    (bm.set n).bit m = (bm.bit m || decide (m = n)) := by
  simp only [bit, set]
  by_cases hword : m / 32 = n / 32
  · rw [hword, Function.update_self, BitVec.getLsbD_or,
      getLsbD_one_shiftLeft (Nat.mod_lt _ (by norm_num))]
    simp only [word_position_eq hword]
  · have hne : m ≠ n := fun h => hword (by rw [h])
    rw [Function.update_of_ne hword]
    simp [hne]

theorem bit_unset (bm : Bitmap) (n m : Nat) :
    (bm.unset n).bit m = (bm.bit m && !decide (m = n)) := by
  simp only [bit, unset]
  have hpos : m % 32 < 32 := Nat.mod_lt _ (by norm_num)
  by_cases hword : m / 32 = n / 32
  · rw [hword, Function.update_self, BitVec.getLsbD_and, BitVec.getLsbD_not,
      getLsbD_one_shiftLeft hpos]
    simp only [word_position_eq hword, hpos, decide_true, Bool.true_and]
  · have hne : m ≠ n := fun h => hword (by rw [h])
    rw [Function.update_of_ne hword]
    simp [hne]

/-! ## Ranges of bits -/

@[simp]
theorem setRange_len (bm : Bitmap) (n k : Nat) : (bm.setRange n k).len = bm.len := by
  unfold setRange
  apply foldl_range_invariant (fun _ (bm' : Bitmap) => bm'.len = bm.len)
  · rfl
  · intro i _ bm' h
    exact h

@[simp]
theorem unsetRange_len (bm : Bitmap) (n k : Nat) : (bm.unsetRange n k).len = bm.len := by
  unfold unsetRange
  apply foldl_range_invariant (fun _ (bm' : Bitmap) => bm'.len = bm.len)
  · rfl
  · intro i _ bm' h
    exact h

/-- `bm_set_range` sets the bits from `n` to `k`, both included. -/
theorem bit_setRange (bm : Bitmap) (n k m : Nat) :
    (bm.setRange n k).bit m = (bm.bit m || decide (n ≤ m ∧ m ≤ k)) := by
  have hloop := foldl_range_invariant
    (fun i bm' => ∀ m, bm'.bit m = (bm.bit m || decide (n ≤ m ∧ m < n + i)))
    (f := fun bm i => Bitmap.set bm (n + i)) (n := k + 1 - n) (s := bm)
    (by
      intro m
      have hempty : ¬(n ≤ m ∧ m < n + 0) := by omega
      simp only [hempty, decide_false, Bool.or_false])
    (by
      intro i _ bm' hinv m
      have hgrow : (n ≤ m ∧ m < n + (i + 1)) ↔ (n ≤ m ∧ m < n + i) ∨ m = n + i := by omega
      rw [bit_set, hinv m, Bool.or_assoc, ← Bool.decide_or]
      simp only [hgrow])
  have hend : (n ≤ m ∧ m < n + (k + 1 - n)) ↔ (n ≤ m ∧ m ≤ k) := by omega
  have hm := hloop m
  simp only [hend] at hm
  exact hm

/-- `bm_unset_range` clears the bits from `n` to `k`, both included. -/
theorem bit_unsetRange (bm : Bitmap) (n k m : Nat) :
    (bm.unsetRange n k).bit m = (bm.bit m && !decide (n ≤ m ∧ m ≤ k)) := by
  have hloop := foldl_range_invariant
    (fun i bm' => ∀ m, bm'.bit m = (bm.bit m && !decide (n ≤ m ∧ m < n + i)))
    (f := fun bm i => Bitmap.unset bm (n + i)) (n := k + 1 - n) (s := bm)
    (by
      intro m
      have hempty : ¬(n ≤ m ∧ m < n + 0) := by omega
      simp only [hempty, decide_false, Bool.not_false, Bool.and_true])
    (by
      intro i _ bm' hinv m
      have hgrow : (n ≤ m ∧ m < n + (i + 1)) ↔ (n ≤ m ∧ m < n + i) ∨ m = n + i := by omega
      rw [bit_unset, hinv m, Bool.and_assoc, ← Bool.not_or, ← Bool.decide_or]
      simp only [hgrow])
  have hend : (n ≤ m ∧ m < n + (k + 1 - n)) ↔ (n ≤ m ∧ m ≤ k) := by omega
  have hm := hloop m
  simp only [hend] at hm
  exact hm

end Bitmap

theorem bmSetRange_eq_ok {bm : Bitmap} {n k : Nat} (hn : n < bm.len) (hk : k < bm.len) :
    bmSetRange bm n k = .ok (bm.setRange n k) :=
  if_neg (by omega)

theorem bmUnsetRange_eq_ok {bm : Bitmap} {n k : Nat} (hn : n < bm.len) (hk : k < bm.len) :
    bmUnsetRange bm n k = .ok (bm.unsetRange n k) :=
  if_neg (by omega)

/-! ## The search -/

namespace Bitmap

/-- There are `len` bits with the given value from bit `s` on. -/
def RunAt (bm : Bitmap) (len : Nat) (bitStatus : Bool) (s : Nat) : Prop :=
  ∀ m, s ≤ m → m < s + len → bm.bit m = bitStatus

end Bitmap

/-- What the search says: the first run inside the bits from `n` to `k`, or that there
is none. -/
def FirstRun (bm : Bitmap) (n k len : Nat) (bitStatus : Bool) : Except BmError Nat → Prop
  | .ok s => n ≤ s ∧ s + len ≤ k + 1 ∧ bm.RunAt len bitStatus s ∧
      ∀ t, n ≤ t → bm.RunAt len bitStatus t → s ≤ t
  | .error .notFound => ∀ t, n ≤ t → bm.RunAt len bitStatus t → k + 1 < t + len
  | .error .range => False

/-- The loop invariant: the bits from `s` to the current one are the run the loop
follows, it is too short yet, and no run starts before it. -/
theorem findRangeLoop_spec {bm : Bitmap} {n₀ k len : Nat} {bitStatus : Bool}
    {turns n curLen : Nat} {start : Option Nat} (hturns : n + turns = k + 1)
    (hfirst : n₀ ≤ start.getD n) (hcur : start.getD n + curLen = n) (hshort : curLen < len)
    (hrun : ∀ m, start.getD n ≤ m → m < n → bm.bit m = bitStatus)
    (hleast : ∀ t, n₀ ≤ t → bm.RunAt len bitStatus t → start.getD n ≤ t) :
    FirstRun bm n₀ k len bitStatus (findRangeLoop bm len bitStatus turns n start curLen) := by
  induction turns generalizing n start curLen with
  | zero =>
      intro t ht hrunt
      have := hleast t ht hrunt
      omega
  | succ turns ih =>
      unfold findRangeLoop
      by_cases hbit : bm.bit n = bitStatus
      · have hlonger : ∀ m, start.getD n ≤ m → m < n + 1 → bm.bit m = bitStatus := by
          intro m hm hlt
          rcases Nat.lt_succ_iff_lt_or_eq.mp hlt with hlt' | rfl
          · exact hrun m hm hlt'
          · exact hbit
        rw [if_pos hbit]
        by_cases hlen : curLen + 1 = len
        · rw [if_pos hlen]
          refine ⟨hfirst, by omega, ?_, hleast⟩
          intro m hm hlt
          exact hlonger m hm (by omega)
        · rw [if_neg hlen]
          apply ih
          · omega
          · exact hfirst
          · simp only [Option.getD_some]
            omega
          · omega
          · exact hlonger
          · exact hleast
      · rw [if_neg hbit]
        apply ih
        · omega
        · simp only [Option.getD_none]
          omega
        · simp
        · omega
        · intro m hm hlt
          simp only [Option.getD_none] at hm
          omega
        · -- a run that starts at or before this bit would contain it
          intro t ht hrunt
          have hge := hleast t ht hrunt
          by_contra hlt
          simp only [Option.getD_none, not_le] at hlt
          exact hbit (hrunt n (by omega) (by omega))

/-- `bm_find_first_range` returns the first run of the wanted length. -/
theorem bmFindFirstRange_spec {bm : Bitmap} {n k len : Nat} {bitStatus : Bool}
    (hn : n ≤ k) (hk : k < bm.len) (hlen : 0 < len) :
    FirstRun bm n k len bitStatus (bmFindFirstRange bm n k len bitStatus) := by
  unfold bmFindFirstRange
  rw [if_neg (by omega)]
  apply findRangeLoop_spec
  · omega
  · simp
  · simp
  · exact hlen
  · intro m hm hlt
    simp only [Option.getD_none] at hm
    omega
  · intro t ht _
    simpa using ht

/-- The search for a bit is the search for a run of one bit. -/
theorem findFirstLoop_eq (bm : Bitmap) (bitStatus : Bool) (turns n : Nat) :
    findFirstLoop bm bitStatus turns n = findRangeLoop bm 1 bitStatus turns n none 0 := by
  induction turns generalizing n with
  | zero => rfl
  | succ turns ih => rw [findFirstLoop, findRangeLoop, if_pos rfl, Option.getD_none, ih]

/-- `bm_find_first` returns the first bit with the value. -/
theorem bmFindFirst_spec {bm : Bitmap} {n k : Nat} {bitStatus : Bool} (hn : n ≤ k) (hk : k < bm.len) :
    FirstRun bm n k 1 bitStatus (bmFindFirst bm n k bitStatus) := by
  have hrange : bmFindFirst bm n k bitStatus = bmFindFirstRange bm n k 1 bitStatus := by
    rw [bmFindFirst, bmFindFirstRange, findFirstLoop_eq]
  rw [hrange]
  exact bmFindFirstRange_spec hn hk one_pos

end Lib
end Micael
