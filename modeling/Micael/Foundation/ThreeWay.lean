import Mathlib.Tactic
import Mathlib.Data.List.Lex

/-!
# Three-way comparison

The result of a comparison function in a linear order: negative, zero or positive.  What such a function
promises (zero just for equals, the opposite for exchanged arguments, transitivity) is what a linear order has.

Main results:

- Theorem {lit}`ThreeWay.sign_eq_zero_iff`, {lit}`ThreeWay.sign_swap`, {lit}`ThreeWay.sign_nonpos_iff`: the
  comparison of any two elements.
- Theorem {lit}`ThreeWay.sign_cons`: lists are compared at the first place where they differ.
-/

namespace Micael
namespace Foundation
namespace ThreeWay

variable {α : Type*} [LinearOrder α]

/-- Which of two elements is smaller. -/
def sign (x y : α) : Int := if x < y then -1 else if y < x then 1 else 0

theorem sign_of_lt {x y : α} (h : x < y) : sign x y = -1 :=
  if_pos h

theorem sign_of_gt {x y : α} (h : y < x) : sign x y = 1 := by
  rw [sign, if_neg (not_lt_of_gt h), if_pos h]

@[simp]
theorem sign_self (x : α) : sign x x = 0 := by
  rw [sign, if_neg (lt_irrefl x), if_neg (lt_irrefl x)]

/-- Just equals compare as zero. -/
theorem sign_eq_zero_iff {x y : α} : sign x y = 0 ↔ x = y := by
  rcases lt_trichotomy x y with hlt | rfl | hgt
  · simp [sign_of_lt hlt, hlt.ne]
  · simp
  · simp [sign_of_gt hgt, hgt.ne']

/-- The opposite for exchanged arguments. -/
theorem sign_swap (x y : α) : sign y x = -sign x y := by
  rcases lt_trichotomy x y with hlt | rfl | hgt
  · rw [sign_of_lt hlt, sign_of_gt hlt, neg_neg]
  · rw [sign_self, neg_zero]
  · rw [sign_of_gt hgt, sign_of_lt hgt]

/-- Up to zero for what is not larger. -/
theorem sign_nonpos_iff {x y : α} : sign x y ≤ 0 ↔ x ≤ y := by
  rcases lt_trichotomy x y with hlt | rfl | hgt
  · simp [sign_of_lt hlt, hlt.le]
  · simp
  · simp [sign_of_gt hgt, hgt]

/-- Lists are compared at the first place where they differ. -/
theorem sign_cons (x y : α) (xs ys : List α) :
    sign (x :: xs) (y :: ys) = if x < y then -1 else if y < x then 1 else sign xs ys := by
  rcases lt_trichotomy x y with hlt | rfl | hgt
  · rw [if_pos hlt, sign_of_lt (List.cons_lt_cons_iff.mpr (.inl hlt))]
  · have hcons : ∀ as bs : List α, as < bs → x :: as < x :: bs :=
      fun as bs h => List.cons_lt_cons_iff.mpr (.inr ⟨rfl, h⟩)
    rw [if_neg (lt_irrefl x), if_neg (lt_irrefl x)]
    rcases lt_trichotomy xs ys with hlt | rfl | hgt
    · rw [sign_of_lt hlt, sign_of_lt (hcons xs ys hlt)]
    · rw [sign_self, sign_self]
    · rw [sign_of_gt hgt, sign_of_gt (hcons ys xs hgt)]
  · rw [if_neg (not_lt_of_gt hgt), if_pos hgt, sign_of_gt (List.cons_lt_cons_iff.mpr (.inl hgt))]

end ThreeWay
end Foundation
end Micael
