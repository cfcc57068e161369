import Mathlib.Tactic
import Mathlib.Data.ZMod.Defs
import Mathlib.Data.Fintype.Card

/-!
# Ring buffers

A ring of `n` slots holds a queue when the slots, read from the head of the queue and round the
ring, are the elements of the queue followed by empty slots.

Main results:

- Theorem {lit}`Ring.Holds.append`: filling the first empty slot appends to the queue.
- Theorem {lit}`Ring.Holds.tail`: emptying the head slot and moving the head removes the oldest element.
- Theorem {lit}`Ring.Holds.card`: the number of filled slots is the length of the queue.
-/

namespace Micael
namespace Foundation
namespace Ring

variable {α : Type*} {n : Nat} [NeZero n]

/-- The slots from `head` on are the elements of the queue, then empty. -/
def Holds (slots : Fin n → Option α) (head : Fin n) (queue : List α) : Prop :=
  ∀ i : Fin n, slots (head + i) = queue[i.val]?

variable {slots : Fin n → Option α} {head : Fin n} {queue : List α} {x : α}

/-- The oldest element stands in the head slot. -/
theorem Holds.first (h : Holds slots head queue) : slots head = queue.head? := by
  have hzero := h 0
  rw [add_zero, Fin.val_zero] at hzero
  rw [hzero, List.head?_eq_getElem?]

/-- Every slot is reached from the head. -/
theorem Holds.apply (h : Holds slots head queue) (i : Fin n) :
    slots i = queue[(i - head).val]? := by
  rw [← h (i - head), add_sub_cancel]

/-- The slot behind the youngest element is empty. -/
theorem Holds.free (h : Holds slots head queue) (hlen : queue.length < n) :
    slots (head + Fin.ofNat n queue.length) = none := by
  rw [h, Fin.val_ofNat, Nat.mod_eq_of_lt hlen]
  exact List.getElem?_eq_none (Nat.le_refl _)

/-- When the ring is full, the slot behind the youngest element is the head. -/
theorem next_of_full (hlen : queue.length = n) : head + Fin.ofNat n queue.length = head := by
  have hzero : Fin.ofNat n queue.length = 0 := by
    apply Fin.ext
    rw [Fin.val_ofNat, hlen, Nat.mod_self, Fin.val_zero]
  rw [hzero, add_zero]

/-- Both ends of the queue count slots round the ring: the slot behind a queue that grew. -/
theorem next_succ (k : Nat) : head + Fin.ofNat n k + 1 = head + Fin.ofNat n (k + 1) := by
  rw [add_assoc]
  congr 1
  apply Fin.ext
  rw [Fin.val_add, Fin.val_ofNat, Fin.val_ofNat, Fin.val_one', Nat.add_mod_mod, Nat.mod_add_mod]

/-- The slot behind a queue whose head moved. -/
theorem succ_next (k : Nat) : head + 1 + Fin.ofNat n k = head + Fin.ofNat n (k + 1) := by
  rw [← next_succ, add_right_comm]

/-- Filling the first empty slot appends to the queue. -/
theorem Holds.append (h : Holds slots head queue) (hlen : queue.length < n) :
    Holds (Function.update slots (head + Fin.ofNat n queue.length) (some x)) head
      (queue ++ [x]) := by
  intro i
  by_cases hi : i = Fin.ofNat n queue.length
  · subst hi
    rw [Function.update_self, Fin.val_ofNat, Nat.mod_eq_of_lt hlen]
    simp
  · have hne : head + i ≠ head + Fin.ofNat n queue.length := fun heq => hi (add_left_cancel heq)
    have hval : i.val ≠ queue.length := by
      intro heq
      apply hi
      apply Fin.ext
      rw [Fin.val_ofNat, Nat.mod_eq_of_lt hlen, heq]
    rw [Function.update_of_ne hne, h i]
    rcases Nat.lt_or_ge i.val queue.length with hlt | hge
    · rw [List.getElem?_append_left hlt]
    · rw [List.getElem?_eq_none hge, List.getElem?_eq_none]
      rw [List.length_append, List.length_singleton]
      omega

/-- Emptying the head slot and moving the head removes the oldest element. -/
theorem Holds.tail (h : Holds slots head queue) (hlen : queue.length ≤ n) :
    Holds (Function.update slots head none) (head + 1) queue.tail := by
  intro i
  rw [List.getElem?_tail]
  by_cases hlast : i.val + 1 = n
  · -- the slot in front of the new head is the one that was emptied
    have hone : head + 1 + i = head := by
      have hzero : (1 : Fin n) + i = 0 := by
        apply Fin.ext
        rw [Fin.val_add, Fin.val_one', Nat.mod_add_mod, Fin.val_zero, Nat.add_comm, hlast,
          Nat.mod_self]
      rw [add_assoc, hzero, add_zero]
    rw [hone, Function.update_self, List.getElem?_eq_none (by omega)]
  · have hval : (1 + i : Fin n).val = i.val + 1 := by
      rw [Fin.val_add, Fin.val_one', Nat.mod_add_mod, Nat.add_comm, Nat.mod_eq_of_lt (by omega)]
    have hne : head + 1 + i ≠ head := by
      intro heq
      rw [add_assoc] at heq
      have hzero : (1 + i : Fin n) = 0 := by simpa using heq
      rw [hzero, Fin.val_zero] at hval
      omega
    rw [Function.update_of_ne hne, add_assoc, h (1 + i), hval]

/-- The number of filled slots is the length of the queue. -/
theorem Holds.card (h : Holds slots head queue) (hlen : queue.length ≤ n) :
    (Finset.univ.filter fun i => (slots i).isSome).card = queue.length := by
  have hshift : (Finset.univ.filter fun i => (slots i).isSome) =
      (Finset.univ.filter fun i : Fin n => i.val < queue.length).map
        (Equiv.addLeft head).toEmbedding := by
    ext i
    simp only [Finset.mem_filter, Finset.mem_univ, true_and, Finset.mem_map_equiv,
      Equiv.addLeft_symm_apply, h.apply i]
    rw [neg_add_eq_sub]
    simp
  rw [hshift, Finset.card_map, Fin.card_filter_val_lt, Nat.min_eq_right hlen]

end Ring
end Foundation
end Micael
