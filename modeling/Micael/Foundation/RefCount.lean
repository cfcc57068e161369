import Mathlib.Tactic

/-!
# Reference counts

Holders share objects; every holder has one.  An object has a count, and what a count should be is the
number of the holders of its object.  A count is looked at only while the object has a holder, so that
the count of an object that was let go does not matter.

A holder that lets go of an object decrements its count if it is at least two, and otherwise it is the
last one, which has to release the object.

Main results:

- Theorem {lit}`Counts.share`, {lit}`Counts.fresh`: a new holder of an object that is held, or of a new one.
- Theorem {lit}`Counts.drop`, {lit}`Counts.last`: a holder goes, and others are left or not.
-/

namespace Micael
namespace Foundation

variable {τ : Type*}

/-- The number of holders of an object. -/
def holderCount (holders : List τ) (object : τ → Nat) (c : Nat) : Nat :=
  holders.countP fun t => object t = c

/-- The object has a holder. -/
def Held (holders : List τ) (object : τ → Nat) (c : Nat) : Prop := ∃ t ∈ holders, object t = c

/-- The counts of the objects that are held are right. -/
def Counts (holders : List τ) (object : τ → Nat) (count : Nat → Nat) : Prop :=
  ∀ c, Held holders object c → count c = holderCount holders object c

variable {holders : List τ} {object : τ → Nat} {count : Nat → Nat} {t : τ} {c : Nat}

theorem held_cons : Held (t :: holders) object c ↔ object t = c ∨ Held holders object c := by
  simp [Held]

theorem holderCount_cons : holderCount (t :: holders) object c =
    holderCount holders object c + if object t = c then 1 else 0 := by
  simp [holderCount, List.countP_cons]

theorem held_iff_pos : Held holders object c ↔ 0 < holderCount holders object c := by
  simp [Held, holderCount, List.countP_pos_iff]

/-- A new holder of an object that is held. -/
theorem Counts.share {child : τ} (h : Counts holders object count) (ht : t ∈ holders)
    (hchild : object child = object t) :
    Counts (child :: holders) object (Function.update count (object t) (count (object t) + 1)) := by
  intro c hheld
  rw [holderCount_cons, hchild]
  by_cases hc : object t = c
  · subst hc
    rw [Function.update_self, if_pos rfl, h _ ⟨t, ht, rfl⟩]
  · rw [Function.update_of_ne (Ne.symm hc), if_neg hc, Nat.add_zero]
    apply h
    exact (held_cons.mp hheld).resolve_left fun heq => hc (hchild.symm.trans heq)

/-- The first holder of an object. -/
theorem Counts.fresh {child : τ} (h : Counts holders object count)
    (hnew : ¬ Held holders object (object child)) :
    Counts (child :: holders) object (Function.update count (object child) 1) := by
  intro c hheld
  rw [holderCount_cons]
  by_cases hc : object child = c
  · subst hc
    have hzero : holderCount holders object (object child) = 0 :=
      Nat.eq_zero_of_not_pos fun hpos => hnew (held_iff_pos.mpr hpos)
    rw [Function.update_self, if_pos rfl, hzero]
  · rw [Function.update_of_ne (Ne.symm hc), if_neg hc, Nat.add_zero]
    exact h c ((held_cons.mp hheld).resolve_left hc)

variable [DecidableEq τ]

/-- A holder that goes was one of the holders of its object. -/
theorem holderCount_erase (ht : t ∈ holders) : holderCount holders object c =
    holderCount (holders.erase t) object c + if object t = c then 1 else 0 := by
  rw [← holderCount_cons]
  exact (List.perm_cons_erase ht).countP_eq _

theorem Held.of_erase (h : Held (holders.erase t) object c) : Held holders object c := by
  obtain ⟨u, hu, huc⟩ := h
  exact ⟨u, List.mem_of_mem_erase hu, huc⟩

/-- A holder goes and the count says that others are left. -/
theorem Counts.drop (h : Counts holders object count) (ht : t ∈ holders)
    (htwo : 2 ≤ count (object t)) :
    Counts (holders.erase t) object (Function.update count (object t) (count (object t) - 1)) ∧
      Held (holders.erase t) object (object t) := by
  have hcount := h _ ⟨t, ht, rfl⟩
  have herase : holderCount holders object (object t) =
      holderCount (holders.erase t) object (object t) + 1 := by
    rw [holderCount_erase ht, if_pos rfl]
  constructor
  · intro c hheld
    by_cases hc : object t = c
    · subst hc
      rw [Function.update_self]
      omega
    · have hsame : holderCount holders object c = holderCount (holders.erase t) object c := by
        rw [holderCount_erase ht, if_neg hc, Nat.add_zero]
      rw [Function.update_of_ne (Ne.symm hc), h c hheld.of_erase, hsame]
  · rw [held_iff_pos]
    omega

/-- A holder goes and the count says that it was the last one. -/
theorem Counts.last (h : Counts holders object count) (ht : t ∈ holders)
    (hone : ¬ 2 ≤ count (object t)) :
    Counts (holders.erase t) object count ∧ ¬ Held (holders.erase t) object (object t) := by
  have hcount := h _ ⟨t, ht, rfl⟩
  have herase : holderCount holders object (object t) =
      holderCount (holders.erase t) object (object t) + 1 := by
    rw [holderCount_erase ht, if_pos rfl]
  have hlast : ¬ Held (holders.erase t) object (object t) := by
    rw [held_iff_pos]
    omega
  refine ⟨fun c hheld => ?_, hlast⟩
  have hc : object t ≠ c := by
    rintro rfl
    exact hlast hheld
  have hsame : holderCount holders object c = holderCount (holders.erase t) object c := by
    rw [holderCount_erase ht, if_neg hc, Nat.add_zero]
  rw [h c hheld.of_erase, hsame]

/-- Of the objects, only that of the holder who goes may have no holder left. -/
theorem held_erase_iff (ht : t ∈ holders) (hc : c ≠ object t) :
    Held (holders.erase t) object c ↔ Held holders object c := by
  have hsame : holderCount holders object c = holderCount (holders.erase t) object c := by
    rw [holderCount_erase ht, if_neg (Ne.symm hc), Nat.add_zero]
  rw [held_iff_pos, held_iff_pos, hsame]

end Foundation
end Micael
