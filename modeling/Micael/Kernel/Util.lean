import Micael.Foundation.Loop
import Micael.Foundation.Memory

/-!
# Copying bytes

The loops of `kmemcpy` and `kmemmove`, one byte a turn, and what they leave behind.

Main results:

- Lemma {lit}`kmemcpy_apply`: what `kmemcpy` leaves at every address.
- Lemma {lit}`kmemmove_apply`: the same for `kmemmove`, for overlapping regions too.
- Theorem {lit}`kmemmove_window`: a window moves as a whole, however it overlaps with the other one.
-/

namespace Micael
namespace Kernel

open Foundation

/-- One turn of a copying loop. -/
def putByte (mem : Memory) (a : Nat) (byte : UInt8) : Memory := Function.update mem a byte

theorem putByte_apply (mem : Memory) (a x : Nat) (byte : UInt8) :
    putByte mem a byte x = if x = a then byte else mem x :=
  Function.update_apply mem a byte x

/-- `kmemcpy`: the two objects are distinct (`restrict`), each with its own addresses. -/
def kmemcpy (dst : Memory) (dstptr : Nat) (src : Memory) (srcptr size : Nat) : Memory :=
  (List.range size).foldl (fun mem i => putByte mem (dstptr + i) (src (srcptr + i))) dst

/-- `kmemmove` inside one object: upwards when the destination lies below the source, else
downwards. -/
def kmemmove (mem : Memory) (dstptr srcptr size : Nat) : Memory :=
  if dstptr < srcptr then
    (List.range size).foldl (fun mem i => putByte mem (dstptr + i) (mem (srcptr + i))) mem
  else
    (List.range size).foldl
      (fun mem i => putByte mem (dstptr + (size - i) - 1) (mem (srcptr + (size - i) - 1))) mem

/-- `kmemcpy` replaces its window and nothing else. -/
theorem kmemcpy_apply (dst : Memory) (dstptr : Nat) (src : Memory) (srcptr size x : Nat) :
    kmemcpy dst dstptr src srcptr size x =
      if dstptr ≤ x ∧ x < dstptr + size then src (srcptr + (x - dstptr)) else dst x := by
  have hloop := foldl_range_invariant (f := fun mem i => putByte mem (dstptr + i) (src (srcptr + i)))
    (fun i mem => ∀ x, mem x =
      if dstptr ≤ x ∧ x < dstptr + i then src (srcptr + (x - dstptr)) else dst x)
    (n := size) (s := dst) (fun x => by simp) ?_
  · exact hloop x
  · intro i mem _ hmem x
    rw [putByte_apply, hmem x]
    by_cases hx : x = dstptr + i
    · subst hx
      simp
    · have hiff : (dstptr ≤ x ∧ x < dstptr + (i + 1)) ↔ (dstptr ≤ x ∧ x < dstptr + i) := by omega
      simp only [hx, if_false, hiff]

/-- `kmemmove` replaces its window by what the source held before the call, whichever way the
two windows overlap. -/
theorem kmemmove_apply (mem : Memory) (dstptr srcptr size x : Nat) :
    kmemmove mem dstptr srcptr size x =
      if dstptr ≤ x ∧ x < dstptr + size then mem (srcptr + (x - dstptr)) else mem x := by
  unfold kmemmove
  split
  next hup =>
    -- the byte read in turn `i` lies above everything written so far
    have hloop := foldl_range_invariant
      (f := fun mem i => putByte mem (dstptr + i) (mem (srcptr + i)))
      (fun i cur => ∀ x, cur x =
        if dstptr ≤ x ∧ x < dstptr + i then mem (srcptr + (x - dstptr)) else mem x)
      (n := size) (s := mem) (fun x => by simp) ?_
    · exact hloop x
    · intro i hi cur hcur x
      have hread : cur (srcptr + i) = mem (srcptr + i) := by
        rw [hcur, if_neg (by omega)]
      rw [putByte_apply, hread, hcur x]
      by_cases hx : x = dstptr + i
      · subst hx
        simp
      · have hiff : (dstptr ≤ x ∧ x < dstptr + (i + 1)) ↔ (dstptr ≤ x ∧ x < dstptr + i) := by
          omega
        simp only [hx, if_false, hiff]
  next hdown =>
    -- the byte read in turn `i` lies below everything written so far
    have hloop := foldl_range_invariant
      (f := fun mem i =>
        putByte mem (dstptr + (size - i) - 1) (mem (srcptr + (size - i) - 1)))
      (fun i cur => ∀ x, cur x =
        if dstptr + (size - i) ≤ x ∧ x < dstptr + size then mem (srcptr + (x - dstptr)) else mem x)
      (n := size) (s := mem) (fun x => by rw [if_neg (by omega)]) ?_
    · simpa using hloop x
    · intro i hi cur hcur x
      have hread : cur (srcptr + (size - i) - 1) = mem (srcptr + (size - i) - 1) := by
        rw [hcur, if_neg (by omega)]
      rw [putByte_apply, hread, hcur x]
      by_cases hx : x = dstptr + (size - i) - 1
      · subst hx
        rw [if_pos rfl, if_pos (by omega)]
        congr 1
        omega
      · have hiff : (dstptr + (size - (i + 1)) ≤ x ∧ x < dstptr + size) ↔
            (dstptr + (size - i) ≤ x ∧ x < dstptr + size) := by omega
        simp only [hx, if_false, hiff]

/-- Every byte of the destination is what the source held before the call, and no other byte has changed. -/
theorem kmemmove_window (mem : Memory) (dstptr srcptr size : Nat) :
    (∀ i < size, kmemmove mem dstptr srcptr size (dstptr + i) = mem (srcptr + i)) ∧
      ∀ x ∉ Set.Ico dstptr (dstptr + size), kmemmove mem dstptr srcptr size x = mem x := by
  constructor
  · intro i hi
    rw [kmemmove_apply, if_pos ⟨Nat.le_add_right _ _, Nat.add_lt_add_left hi _⟩, Nat.add_sub_cancel_left]
  · intro x hx
    have hout : ¬ (dstptr ≤ x ∧ x < dstptr + size) := fun h => hx (Set.mem_Ico.mpr h)
    rw [kmemmove_apply, if_neg hout]

/-- The bytes of the window `kmemcpy` wrote. -/
theorem bytes_kmemcpy (dst : Memory) (dstptr : Nat) (src : Memory) (srcptr size : Nat) :
    (kmemcpy dst dstptr src srcptr size).bytes dstptr size = src.bytes srcptr size := by
  refine Memory.bytes_eq_of_apply fun i hi => ?_
  rw [kmemcpy_apply, if_pos (by omega), Nat.add_sub_cancel_left]

/-- Bytes outside the window `kmemcpy` wrote. -/
theorem bytes_kmemcpy_of_disjoint {dst : Memory} {dstptr : Nat} {src : Memory} {srcptr size a n : Nat}
    (h : a + n ≤ dstptr ∨ dstptr + size ≤ a) :
    (kmemcpy dst dstptr src srcptr size).bytes a n = dst.bytes a n := by
  refine Memory.bytes_eq_of_apply fun i hi => ?_
  rw [kmemcpy_apply, if_neg (by omega)]

end Kernel
end Micael
