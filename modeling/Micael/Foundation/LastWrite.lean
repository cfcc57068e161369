import Mathlib.Tactic

/-!
# The last write wins

A list of writers passes over one cell.  Each of them leaves the cell alone or puts a value into it, so that
the cell ends with the value of the last one that wrote.  Some of the writes are meant for the cell, and the
others stray into it.

Main results:

- Theorem {lit}`lastWrite_of_split`: the cell holds what the last writer put there.
- Theorem {lit}`lastWrite_eq_iff`: the cell ends as if there had been no strays, just when every stray write
  is followed by another write or put the right value there.
-/

namespace Micael
namespace Foundation

variable {α β : Type*} (write : α → Option β)

/-- The cell after every writer of a list has passed. -/
def lastWrite (xs : List α) (v : β) : β := xs.foldl (fun v x => (write x).getD v) v

@[simp] theorem lastWrite_nil (v : β) : lastWrite write [] v = v := rfl

@[simp] theorem lastWrite_cons (x : α) (xs : List α) (v : β) :
    lastWrite write (x :: xs) v = lastWrite write xs ((write x).getD v) := rfl

theorem lastWrite_append (xs ys : List α) (v : β) :
    lastWrite write (xs ++ ys) v = lastWrite write ys (lastWrite write xs v) :=
  List.foldl_append

/-- A cell that nobody writes keeps its value. -/
theorem lastWrite_of_none {xs : List α} (hnone : ∀ x ∈ xs, write x = none) (v : β) :
    lastWrite write xs v = v := by
  induction xs with
  | nil => rfl
  | cons x xs ih =>
      rw [lastWrite_cons, hnone x List.mem_cons_self]
      exact ih fun y hy => hnone y (List.mem_cons_of_mem x hy)

/-- A cell holds what the last writer put there. -/
theorem lastWrite_of_split {before after : List α} {x : α} {b : β} (hx : write x = some b)
    (hafter : ∀ y ∈ after, write y = none) (v : β) :
    lastWrite write (before ++ x :: after) v = b := by
  rw [lastWrite_append, lastWrite_cons, hx]
  exact lastWrite_of_none write hafter b

/-- The last of the values that are put into the cell. -/
theorem lastWrite_eq_getLast? (xs : List α) (v : β) :
    lastWrite write xs v = (xs.filterMap write).getLast?.getD v := by
  induction xs generalizing v with
  | nil => rfl
  | cons x xs ih =>
      rw [lastWrite_cons, ih]
      cases hx : write x with
      | none => rw [List.filterMap_cons_none hx, Option.getD_none]
      | some b =>
          rw [List.filterMap_cons_some hx, List.getLast?_cons]
          cases (xs.filterMap write).getLast? <;> rfl

/-- Among the writers of a list that write at all, there is a last one. -/
theorem exists_last_writer {xs : List α} (hsome : ∃ x ∈ xs, write x ≠ none) :
    ∃ before x after b, xs = before ++ x :: after ∧ write x = some b ∧
      ∀ y ∈ after, write y = none := by
  induction xs with
  | nil => exact absurd hsome (by simp)
  | cons x xs ih =>
      by_cases hlater : ∃ y ∈ xs, write y ≠ none
      · obtain ⟨before, y, after, b, hxs, hy, hafter⟩ := ih hlater
        exact ⟨x :: before, y, after, b, by rw [hxs, List.cons_append], hy, hafter⟩
      · push Not at hlater
        obtain ⟨y, hy, hwrites⟩ := hsome
        rcases List.mem_cons.mp hy with rfl | hin
        · obtain ⟨b, hb⟩ := Option.ne_none_iff_exists'.mp hwrites
          exact ⟨[], y, xs, b, rfl, hb, hlater⟩
        · exact absurd (hlater y hin) hwrites

/-- Every write that is not one of the `own` writes is followed by another write, or put a given value into
the cell. -/
def StraysRepaired (own : α → Option β) (xs : List α) (right : β) : Prop :=
  ∀ before x after b, xs = before ++ x :: after → write x = some b → own x = none →
    (∃ y ∈ after, write y ≠ none) ∨ b = right

/-- The cell ends as if there had been its own writes only, just when the strays are repaired. -/
theorem lastWrite_eq_iff {own : α → Option β} (hown : ∀ x b, own x = some b → write x = some b)
    (xs : List α) (v : β) :
    lastWrite write xs v = lastWrite own xs v ↔
      StraysRepaired write own xs (lastWrite own xs v) := by
  constructor
  · intro hsame before x after b hxs hx _
    by_cases hlater : ∃ y ∈ after, write y ≠ none
    · exact .inl hlater
    · push Not at hlater
      refine .inr ?_
      rw [← hsame, hxs, lastWrite_of_split write hx hlater]
  · intro hrepaired
    have hquiet : ∀ y, write y = none → own y = none := by
      intro y hy
      by_contra hne
      obtain ⟨b, hb⟩ := Option.ne_none_iff_exists'.mp hne
      exact absurd (hown y b hb) (by simp [hy])
    by_cases hsome : ∃ x ∈ xs, write x ≠ none
    · obtain ⟨before, x, after, b, hxs, hx, hafter⟩ := exists_last_writer write hsome
      have hlast : lastWrite write xs v = b := by
        rw [hxs, lastWrite_of_split write hx hafter]
      cases hmine : own x with
      | none =>
          rcases hrepaired before x after b hxs hx hmine with ⟨y, hy, hwrites⟩ | hright
          · exact absurd (hafter y hy) hwrites
          · rw [hlast, hright]
      | some c =>
          obtain rfl : c = b := Option.some.inj ((hown x c hmine).symm.trans hx)
          rw [hlast, hxs, lastWrite_of_split own hmine fun y hy => hquiet y (hafter y hy)]
    · push Not at hsome
      rw [lastWrite_of_none write hsome,
        lastWrite_of_none own fun x hx => hquiet x (hsome x hx)]

end Foundation
end Micael
