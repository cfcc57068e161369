import Mathlib.Tactic
import Mathlib.Data.Multiset.Range
import Mathlib.Logic.Equiv.Basic

/-!
# Binary max-heaps in an array

The keys of a heap are a function of the position, of which the first `n` values count.  A heap is
ordered when no key is above the key of its parent.  Sifting up and sifting down each move one
position that may be out of order: the swap of the position with its parent, or with its largest
child, keeps everything else in order.

Main results:

- Theorem {lit}`BinaryHeap.Ordered.le_root`: the root has the largest key.
- Theorem {lit}`BinaryHeap.UpTo.swap`, {lit}`BinaryHeap.UpTo.ordered`: one step and the end of sifting up.
- Theorem {lit}`BinaryHeap.DownTo.swap`, {lit}`BinaryHeap.DownTo.ordered`: one step and the end of sifting down.
- Theorem {lit}`BinaryHeap.contents_swap`, {lit}`BinaryHeap.contents_update`: a swap keeps the
  elements, and a write replaces one.
-/

namespace Micael
namespace Foundation
namespace BinaryHeap

/-- The parent of a position. -/
def parent (i : Nat) : Nat := (i - 1) / 2

theorem parent_lt {i : Nat} (h : 0 < i) : parent i < i := by
  unfold parent
  omega

section Swap

variable {γ : Type*} (f : Nat → γ) (i j : Nat)

theorem swap_left : (f ∘ Equiv.swap i j) i = f j := by
  rw [Function.comp_apply, Equiv.swap_apply_left]

theorem swap_right : (f ∘ Equiv.swap i j) j = f i := by
  rw [Function.comp_apply, Equiv.swap_apply_right]

theorem swap_other {i j k : Nat} (hi : k ≠ i) (hj : k ≠ j) : (f ∘ Equiv.swap i j) k = f k := by
  rw [Function.comp_apply, Equiv.swap_apply_of_ne_of_ne hi hj]

end Swap

section Order

variable {β : Type*} [LinearOrder β] {f : Nat → β} {n i b : Nat}

/-- No key is above the key of its parent. -/
def Ordered (f : Nat → β) (n : Nat) : Prop := ∀ k, 0 < k → k < n → f k ≤ f (parent k)

/-- The root has the largest key. -/
theorem Ordered.le_root (h : Ordered f n) : ∀ k < n, f k ≤ f 0 := by
  intro k
  induction k using Nat.strongRecOn with
  | ind k ih =>
      intro hk
      rcases Nat.eq_zero_or_pos k with rfl | hpos
      · exact le_refl _
      · have hlt := parent_lt hpos
        exact le_trans (h k hpos hk) (ih (parent k) hlt (lt_trans hlt hk))

/-- Ordered but for position `i`, whose key may be above that of its parent. -/
structure UpTo (f : Nat → β) (n i : Nat) : Prop where
  except : ∀ k, 0 < k → k < n → k ≠ i → f k ≤ f (parent k)
  grand : 0 < i → ∀ k, 0 < k → k < n → parent k = i → f k ≤ f (parent i)

/-- Ordered but for position `i`, whose key may be below those of its children. -/
structure DownTo (f : Nat → β) (n i : Nat) : Prop where
  except : ∀ k, 0 < k → k < n → parent k ≠ i → f k ≤ f (parent k)
  grand : 0 < i → ∀ k, 0 < k → k < n → parent k = i → f k ≤ f (parent i)

/-- The end of sifting up. -/
theorem UpTo.ordered (h : UpTo f n i) (hstop : i = 0 ∨ f i ≤ f (parent i)) : Ordered f n := by
  intro k hpos hk
  by_cases hki : k = i
  · subst hki
    rcases hstop with rfl | hle
    · exact absurd hpos (lt_irrefl 0)
    · exact hle
  · exact h.except k hpos hk hki

/-- One step of sifting up. -/
theorem UpTo.swap (h : UpTo f n i) (hpos : 0 < i) (hi : i < n) (hlt : f (parent i) < f i) :
    UpTo (f ∘ Equiv.swap i (parent i)) n (parent i) := by
  have hp := parent_lt hpos
  have hparent : ∀ k, 0 < k → k < n → k ≠ i → parent k = parent i → f k ≤ f (parent i) := by
    intro k hkpos hk hki hkp
    exact hkp ▸ h.except k hkpos hk hki
  constructor
  · intro k hkpos hk hkp
    by_cases hki : k = i
    · subst hki
      rw [swap_left, swap_right]
      exact hlt.le
    · rw [swap_other f hki hkp]
      by_cases hchild : parent k = i
      · rw [hchild, swap_left]
        exact h.grand hpos k hkpos hk hchild
      · by_cases hsibling : parent k = parent i
        · rw [hsibling, swap_right]
          exact le_trans (hparent k hkpos hk hki hsibling) hlt.le
        · rw [swap_other f hchild hsibling]
          exact h.except k hkpos hk hki
  · intro hppos k hkpos hk hkp
    have hpp := parent_lt hppos
    rw [swap_other f (by omega : parent (parent i) ≠ i) (by omega)]
    have hup : f (parent i) ≤ f (parent (parent i)) :=
      h.except (parent i) hppos (by omega) (by omega)
    by_cases hki : k = i
    · subst hki
      rw [swap_left]
      exact hup
    · have hkne := parent_lt hkpos
      rw [swap_other f hki (by omega)]
      exact le_trans (hparent k hkpos hk hki hkp) hup

/-- The end of sifting down. -/
theorem DownTo.ordered (h : DownTo f n i)
    (hstop : ∀ k, 0 < k → k < n → parent k = i → f k ≤ f i) : Ordered f n := by
  intro k hpos hk
  by_cases hki : parent k = i
  · rw [hki]
    exact hstop k hpos hk hki
  · exact h.except k hpos hk hki

/-- One step of sifting down: `b` is the largest child. -/
theorem DownTo.swap (h : DownTo f n i) (hpos : 0 < b) (hb : b < n) (hchild : parent b = i)
    (hlt : f i < f b) (hlargest : ∀ k, 0 < k → k < n → parent k = i → f k ≤ f b) :
    DownTo (f ∘ Equiv.swap i b) n b := by
  have hib : i < b := hchild ▸ parent_lt hpos
  constructor
  · intro k hkpos hk hkb
    by_cases hkeq : k = b
    · subst hkeq
      rw [swap_right, hchild, swap_left]
      exact hlt.le
    · by_cases hki : k = i
      · subst hki
        have hkp := parent_lt hkpos
        rw [swap_left, swap_other f (by omega) (by omega)]
        exact h.grand hkpos b hpos hb hchild
      · rw [swap_other f hki hkeq]
        by_cases hsibling : parent k = i
        · rw [hsibling, swap_left]
          exact hlargest k hkpos hk hsibling
        · rw [swap_other f hsibling hkb]
          exact h.except k hkpos hk hsibling
  · intro _ k hkpos hk hkb
    have hkp := parent_lt hkpos
    rw [swap_other f (by omega) (by omega), hchild, swap_left]
    exact hkb ▸ h.except k hkpos hk (by omega)

end Order

section Contents

variable {γ : Type*} {e e' : Nat → γ} {n : Nat}

/-- The first `n` elements, as a multiset. -/
def contents (e : Nat → γ) (n : Nat) : Multiset γ := (Multiset.range n).map e

theorem contents_zero (e : Nat → γ) : contents e 0 = 0 := by
  simp [contents]

theorem contents_succ (e : Nat → γ) (n : Nat) : contents e (n + 1) = e n ::ₘ contents e n := by
  simp [contents, Multiset.range_succ]

theorem contents_congr (h : ∀ k < n, e k = e' k) : contents e n = contents e' n :=
  Multiset.map_congr rfl fun k hk => h k (Multiset.mem_range.mp hk)

theorem card_contents (e : Nat → γ) (n : Nat) : Multiset.card (contents e n) = n := by
  simp [contents]

theorem mem_contents {x : γ} : x ∈ contents e n ↔ ∃ k < n, e k = x := by
  simp [contents]

/-- Writing position `i` replaces one element. -/
theorem contents_update {i : Nat} (hi : i < n) (x : γ) :
    e i ::ₘ contents (Function.update e i x) n = x ::ₘ contents e n := by
  induction n with
  | zero => exact absurd hi (Nat.not_lt_zero i)
  | succ n ih =>
      rw [contents_succ, contents_succ]
      by_cases hin : i = n
      · subst hin
        have hkeep : contents (Function.update e i x) i = contents e i :=
          contents_congr fun k hk => Function.update_of_ne hk.ne x e
        rw [hkeep, Function.update_self, Multiset.cons_swap]
      · rw [Function.update_of_ne (Ne.symm hin), Multiset.cons_swap, ih (by omega),
          Multiset.cons_swap]

/-- A swap of two positions keeps the elements. -/
theorem contents_swap {i j : Nat} (hi : i < n) (hj : j < n) :
    contents (e ∘ Equiv.swap i j) n = contents e n := by
  have hkeep : ∀ k < n, Equiv.swap i j k < n := by
    intro k hk
    rw [Equiv.swap_apply_def]
    split_ifs <;> assumption
  have hrange : (Multiset.range n).map (Equiv.swap i j) = Multiset.range n := by
    refine (Multiset.Nodup.ext ?_ (Multiset.nodup_range n)).mpr fun k => ?_
    · exact (Multiset.nodup_range n).map (Equiv.swap i j).injective
    · rw [Multiset.mem_map, Multiset.mem_range]
      constructor
      · rintro ⟨m, hm, rfl⟩
        exact hkeep m (Multiset.mem_range.mp hm)
      · intro hk
        refine ⟨Equiv.swap i j k, Multiset.mem_range.mpr (hkeep k hk), ?_⟩
        exact Equiv.swap_apply_self i j k
  rw [contents, ← Multiset.map_map, hrange, contents]

end Contents

end BinaryHeap
end Foundation
end Micael
