import Mathlib.Data.Set.Lattice
import Mathlib.Order.Interval.Set.Disjoint
import Mathlib.Tactic
import Mathlib.Order.CompletePartialOrder

/-!
# Tilings of a region by a list of pieces

An allocator, an arena and a memory map all describe one region of an address
space as a list of pieces that do not overlap and leave nothing out.  This
module fixes that notion for an arbitrary address type, together with the few
ways such a list is edited: reordering, adding a piece, and exchanging one
piece for the pieces of a tiling of it.

Main results:

- Theorem {lit}`Tiles.perm`: the order of the pieces is irrelevant.
- Theorem {lit}`tiles_cons_iff`: a tiling is a first piece and a tiling of the
  rest of the region.
- Theorem {lit}`Tiles.append`: tilings of disjoint regions are concatenated.
- Theorem {lit}`Tiles.refine`: one piece may be exchanged for a tiling of it.
-/

namespace Micael
namespace Foundation

variable {α : Type*}

/-- The points covered by a list of pieces. -/
def covered (pieces : List (Set α)) : Set α :=
  {x | ∃ p ∈ pieces, x ∈ p}

@[simp]
theorem mem_covered {pieces : List (Set α)} {x : α} :
    x ∈ covered pieces ↔ ∃ p ∈ pieces, x ∈ p :=
  Iff.rfl

@[simp]
theorem covered_nil : covered ([] : List (Set α)) = ∅ := by
  ext x
  simp

@[simp]
theorem covered_cons (p : Set α) (pieces : List (Set α)) :
    covered (p :: pieces) = p ∪ covered pieces := by
  ext x
  simp

@[simp]
theorem covered_append (left right : List (Set α)) :
    covered (left ++ right) = covered left ∪ covered right := by
  ext x
  simp [or_and_right, exists_or]

theorem covered_perm {left right : List (Set α)} (h : left.Perm right) :
    covered left = covered right := by
  ext x
  simp [h.mem_iff]

/-- A piece is disjoint from everything a list covers exactly when it is
disjoint from every piece of the list. -/
theorem disjoint_covered_iff {p : Set α} {pieces : List (Set α)} :
    Disjoint p (covered pieces) ↔ ∀ q ∈ pieces, Disjoint p q := by
  simp only [Set.disjoint_left, mem_covered]
  constructor
  · intro h q hq x hxp hxq
    exact h hxp ⟨q, hq, hxq⟩
  · rintro h x hxp ⟨q, hq, hxq⟩
    exact h q hq hxp hxq

/-- The pieces are pairwise disjoint and together make up the region. -/
structure Tiles (pieces : List (Set α)) (region : Set α) : Prop where
  disjoint : pieces.Pairwise Disjoint
  cover : covered pieces = region

theorem tiles_nil_iff {region : Set α} : Tiles [] region ↔ region = ∅ := by
  constructor
  · intro h
    rw [← h.cover, covered_nil]
  · rintro rfl
    exact ⟨List.Pairwise.nil, covered_nil⟩

theorem tiles_singleton (p : Set α) : Tiles [p] p :=
  ⟨List.pairwise_singleton _ _, by simp⟩

/-- The order in which the pieces are listed does not matter. -/
theorem Tiles.perm {left right : List (Set α)} {region : Set α}
    (h : Tiles left region) (hperm : left.Perm right) : Tiles right region where
  disjoint := (hperm.pairwise_iff fun h => Disjoint.symm h).mp h.disjoint
  cover := (covered_perm hperm).symm.trans h.cover

/-- A tiling is a first piece and a tiling of what it leaves. -/
theorem tiles_cons_iff {p : Set α} {pieces : List (Set α)} {region : Set α} :
    Tiles (p :: pieces) region ↔
      ∃ rest, Disjoint p rest ∧ p ∪ rest = region ∧ Tiles pieces rest := by
  constructor
  · rintro ⟨hdisj, hcover⟩
    rw [List.pairwise_cons] at hdisj
    refine ⟨covered pieces, disjoint_covered_iff.mpr hdisj.1, ?_, hdisj.2, rfl⟩
    rw [← hcover, covered_cons]
  · rintro ⟨rest, hdisj, hunion, htiles⟩
    refine ⟨List.pairwise_cons.mpr ⟨?_, htiles.disjoint⟩, ?_⟩
    · rw [← htiles.cover] at hdisj
      exact disjoint_covered_iff.mp hdisj
    · rw [covered_cons, htiles.cover, hunion]

/-- Tilings of two disjoint regions form a tiling of the union. -/
theorem Tiles.append {left right : List (Set α)} {r₁ r₂ : Set α}
    (hleft : Tiles left r₁) (hright : Tiles right r₂) (hdisj : Disjoint r₁ r₂) :
    Tiles (left ++ right) (r₁ ∪ r₂) where
  disjoint := by
    refine List.pairwise_append.mpr ⟨hleft.disjoint, hright.disjoint, ?_⟩
    intro p hp q hq
    have hsub₁ : p ⊆ r₁ := fun x hx => hleft.cover ▸ ⟨p, hp, hx⟩
    have hsub₂ : q ⊆ r₂ := fun x hx => hright.cover ▸ ⟨q, hq, hx⟩
    exact hdisj.mono hsub₁ hsub₂
  cover := by rw [covered_append, hleft.cover, hright.cover]

/-- Every piece of a tiling lies inside the region. -/
theorem Tiles.subset {pieces : List (Set α)} {region p : Set α}
    (h : Tiles pieces region) (hp : p ∈ pieces) : p ⊆ region := by
  intro x hx
  rw [← h.cover]
  exact ⟨p, hp, hx⟩

/-- One piece may be exchanged for the pieces of a tiling of it. -/
theorem Tiles.refine {p : Set α} {pieces parts : List (Set α)} {region : Set α}
    (h : Tiles (p :: pieces) region) (hparts : Tiles parts p) :
    Tiles (parts ++ pieces) region := by
  obtain ⟨rest, hdisj, hunion, htiles⟩ := tiles_cons_iff.mp h
  rw [← hunion]
  exact hparts.append htiles hdisj

/-- Two adjacent intervals tile the interval they make up. -/
theorem tiles_Ico_Ico [LinearOrder α] {a b c : α} (hab : a ≤ b) (hbc : b ≤ c) :
    Tiles [Set.Ico a b, Set.Ico b c] (Set.Ico a c) where
  disjoint := by
    simp [Set.Ico_disjoint_Ico_same]
  cover := by
    simp [Set.Ico_union_Ico_eq_Ico hab hbc]

end Foundation
end Micael
