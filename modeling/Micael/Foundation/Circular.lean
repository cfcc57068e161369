import Mathlib.Tactic

/-!
# Bounded queues by counters

A circular buffer of `n` cells between a writer and a reader.  What was written and what was read are kept
whole; element number `i` of what was written stands in cell `i % n` until it has been read.  A full and an
empty buffer differ only in the numbers of elements, not in the cells that come next.

Main results:

- Theorem {lit}`Circular.Holds.put`: writing into a buffer that is not full.
- Theorem {lit}`Circular.Holds.get`: reading from a buffer that is not empty.
- Theorem {lit}`Circular.wrap_succ`: the cell that comes next.
-/

namespace Micael
namespace Foundation
namespace Circular

variable {α : Type*} {cells : Nat → α} {n : Nat} {written read : List α}

/-- What was read is a part of what was written, and the rest of it fits into the cells and stands there. -/
structure Holds (cells : Nat → α) (n : Nat) (written read : List α) : Prop where
  fifo : read <+: written
  room : written.length ≤ read.length + n
  stored : ∀ i, read.length ≤ i → i < written.length → written[i]? = some (cells (i % n))

/-- A new buffer, whatever its cells hold. -/
theorem Holds.empty (cells : Nat → α) (n : Nat) : Holds cells n [] [] := by
  constructor
  case fifo => exact List.prefix_rfl
  case room => exact Nat.zero_le _
  case stored => exact fun i _ hi => absurd hi (Nat.not_lt_zero i)

/-- Elements less than one turn apart stand in different cells. -/
theorem mod_ne_of_lt {i k : Nat} (hik : i < k) (hturn : k < i + n) : i % n ≠ k % n := by
  intro heq
  have hdvd : n ∣ k - i := (Nat.modEq_iff_dvd' hik.le).mp heq
  have hle : n ≤ k - i := Nat.le_of_dvd (Nat.sub_pos_of_lt hik) hdvd
  omega

/-- Writing into a buffer that is not full. -/
theorem Holds.put (h : Holds cells n written read) (hroom : written.length < read.length + n) (x : α) :
    Holds (Function.update cells (written.length % n) x) n (written ++ [x]) read := by
  constructor
  case fifo => exact h.fifo.trans (List.prefix_append _ _)
  case room =>
    rw [List.length_append, List.length_singleton]
    exact hroom
  case stored =>
    intro i hread hi
    rw [List.length_append, List.length_singleton] at hi
    rcases Nat.lt_or_eq_of_le (Nat.le_of_lt_succ hi) with hold | rfl
    · have hne : i % n ≠ written.length % n := mod_ne_of_lt hold (by omega)
      rw [List.getElem?_append_left hold, Function.update_of_ne hne]
      exact h.stored i hread hold
    · rw [List.getElem?_concat_length, Function.update_self]

/-- Reading from a buffer that is not empty. -/
theorem Holds.get (h : Holds cells n written read) (hmore : read.length < written.length) :
    Holds cells n written (read ++ [cells (read.length % n)]) := by
  have hnext : written[read.length]? = some (cells (read.length % n)) :=
    h.stored read.length (Nat.le_refl _) hmore
  have hlen : (read ++ [cells (read.length % n)]).length = read.length + 1 := by
    rw [List.length_append, List.length_singleton]
  constructor
  case fifo =>
    obtain ⟨rest, rfl⟩ := h.fifo
    rw [List.getElem?_append_right (Nat.le_refl _), Nat.sub_self] at hnext
    obtain ⟨tail, rfl⟩ := List.head?_eq_some_iff.mp ((List.head?_eq_getElem?).trans hnext)
    exact ⟨tail, by rw [List.append_assoc, List.singleton_append]⟩
  case room =>
    have hroom := h.room
    omega
  case stored =>
    intro i hread hi
    exact h.stored i (by omega) hi

/-- A counter that starts again at `n` is the number of elements modulo `n`. -/
theorem wrap_succ (hpos : 0 < n) (k : Nat) : (if n ≤ k % n + 1 then 0 else k % n + 1) = (k + 1) % n := by
  have hlt : k % n < n := Nat.mod_lt k hpos
  have hmod : (k + 1) % n = (k % n + 1) % n := (Nat.mod_add_mod k n 1).symm
  rw [hmod]
  by_cases hfull : k % n + 1 = n
  · rw [if_pos (Nat.le_of_eq hfull.symm), hfull, Nat.mod_self]
  · rw [if_neg (by omega)]
    exact (Nat.mod_eq_of_lt (by omega)).symm

end Circular
end Foundation
end Micael
