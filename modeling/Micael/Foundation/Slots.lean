import Mathlib.Algebra.BigOperators.Group.Finset.Basic
import Mathlib.Tactic

/-!
# Slots that are filled and counted

Pieces arrive one at a time, each with the number of the slot it belongs to.  A receiver that has no
record of what has arrived keeps two numbers beside the slots: how many pieces were entered, and the sum
of their weights.  A piece that arrives again is counted again, so that both numbers may be too high.

Main results:

- Theorem {lit}`Tally.update`: what one piece does to the numbers.
- Theorem {lit}`Tally.total_eq_sum`: when no more pieces were entered than there are filled slots in front,
  the sum is right.
-/

namespace Micael
namespace Foundation

variable {α : Type*}

/-- The filled slots among the first `n`. -/
def filledSlots (n : ℕ) (slots : ℕ → Option α) : Finset ℕ :=
  (Finset.range n).filter fun i => (slots i).isSome

/-- The weight of what is in a slot. -/
def slotWeight (weight : α → ℤ) (slots : ℕ → Option α) (i : ℕ) : ℤ := (slots i).elim 0 weight

/-- Only the first `n` slots are filled; the count is not below their number, and when it is that number
the total is the sum of their weights. -/
structure Tally (weight : α → ℤ) (n : ℕ) (slots : ℕ → Option α) (count total : ℤ) : Prop where
  bounded : ∀ i, slots i ≠ none → i < n
  count_le : ((filledSlots n slots).card : ℤ) ≤ count
  total_eq : ((filledSlots n slots).card : ℤ) = count →
    total = ∑ i ∈ Finset.range n, slotWeight weight slots i

variable {weight : α → ℤ} {n k : ℕ} {slots : ℕ → Option α} {count total : ℤ} {a : α}

@[simp]
theorem mem_filledSlots {i : ℕ} : i ∈ filledSlots n slots ↔ i < n ∧ slots i ≠ none := by
  rw [filledSlots, Finset.mem_filter, Finset.mem_range, Option.isSome_iff_ne_none]

/-- Slots in which nothing was entered. -/
theorem Tally.empty (weight : α → ℤ) (n : ℕ) : Tally weight n (fun _ => none) 0 0 where
  bounded := fun i hi => absurd rfl hi
  count_le := by simp [filledSlots]
  total_eq := by simp [slotWeight]

theorem filledSlots_update (hk : k < n) :
    filledSlots n (Function.update slots k (some a)) = insert k (filledSlots n slots) := by
  ext i
  rw [Finset.mem_insert, mem_filledSlots, mem_filledSlots]
  by_cases hi : i = k
  · subst hi
    simp [hk]
  · rw [Function.update_of_ne hi]
    exact ⟨.inr, fun h => h.resolve_left hi⟩

theorem slotWeight_update (weight : α → ℤ) (slots : ℕ → Option α) (k : ℕ) (a : α) :
    slotWeight weight (Function.update slots k (some a)) =
      Function.update (slotWeight weight slots) k (weight a) := by
  funext i
  by_cases hi : i = k
  · subst hi
    simp [slotWeight]
  · simp only [slotWeight, Function.update_of_ne hi]

/-- A piece is entered, whether its slot was filled or not. -/
theorem Tally.update (h : Tally weight n slots count total) (hk : k < n) (a : α) :
    Tally weight n (Function.update slots k (some a)) (count + 1) (total + weight a) where
  bounded := by
    intro i hi
    by_cases heq : i = k
    · exact heq ▸ hk
    · rw [Function.update_of_ne heq] at hi
      exact h.bounded i hi
  count_le := by
    rw [filledSlots_update hk]
    have hcard := Finset.card_insert_le k (filledSlots n slots)
    have hle := h.count_le
    omega
  total_eq := by
    intro hcount
    rw [filledSlots_update hk] at hcount
    have hle := h.count_le
    -- A slot that was filled before leaves the count too high.
    have hnew : k ∉ filledSlots n slots := by
      intro hmem
      rw [Finset.insert_eq_of_mem hmem] at hcount
      omega
    rw [Finset.card_insert_of_notMem hnew] at hcount
    push_cast at hcount
    have hold := h.total_eq (by omega)
    have hzero : slotWeight weight slots k = 0 := by
      have hnone : slots k = none := by
        by_contra hne
        exact hnew (mem_filledSlots.mpr ⟨hk, hne⟩)
      rw [slotWeight, hnone]
      rfl
    have hmem : k ∈ Finset.range n := Finset.mem_range.mpr hk
    rw [hold, slotWeight_update, Finset.sum_update_of_mem hmem, Finset.sdiff_singleton_eq_erase,
      ← Finset.add_sum_erase _ _ hmem, hzero]
    ring

/-- When as many pieces were entered as there are slots in front that are filled, these are the filled
slots. -/
theorem Tally.filledSlots_eq (h : Tally weight n slots count total) {m : ℕ} (hcount : count = m)
    (hall : ∀ i < m, slots i ≠ none) : filledSlots n slots = Finset.range m := by
  have hsub : Finset.range m ⊆ filledSlots n slots := by
    intro i hi
    have hne := hall i (Finset.mem_range.mp hi)
    exact mem_filledSlots.mpr ⟨h.bounded i hne, hne⟩
  have hcard : (filledSlots n slots).card ≤ (Finset.range m).card := by
    have hle := h.count_le
    rw [Finset.card_range]
    omega
  exact (Finset.eq_of_subset_of_card_le hsub hcard).symm

/-- The total is then the sum of the weights of these slots. -/
theorem Tally.total_eq_sum (h : Tally weight n slots count total) {m : ℕ} (hcount : count = m)
    (hall : ∀ i < m, slots i ≠ none) : total = ∑ i ∈ Finset.range m, slotWeight weight slots i := by
  have hfilled := h.filledSlots_eq hcount hall
  have hsub : Finset.range m ⊆ Finset.range n := by
    rw [← hfilled, filledSlots]
    exact Finset.filter_subset _ _
  rw [h.total_eq (by rw [hfilled, Finset.card_range, hcount])]
  refine (Finset.sum_subset hsub fun i hi hnot => ?_).symm
  rw [← hfilled, mem_filledSlots, not_and, not_not] at hnot
  rw [slotWeight, hnot (Finset.mem_range.mp hi)]
  rfl

end Foundation
end Micael
