import Mathlib.Tactic

/-!
# Loops over an initial segment of the natural numbers

A `for` loop of a program is a fold over a range.  An invariant that one turn carries
from the counter `i` to `i + 1` holds at the end.

Main results:

- Theorem {lit}`foldl_range_invariant`: loops that cannot fail.
- Theorem {lit}`foldlM_range_invariant`: loops that can fail, when they do not.
- Theorem {lit}`foldlM_range_returns`: when they do not.
- Theorem {lit}`foldlM_range_turn`: every turn of a loop that ends succeeds.
-/

namespace Micael
namespace Foundation

variable {σ ε : Type}

/-- The invariant rule for a loop that cannot fail. -/
theorem foldl_range_invariant {f : σ → Nat → σ} (inv : Nat → σ → Prop) {n : Nat} {s : σ}
    (hstart : inv 0 s) (hstep : ∀ i < n, ∀ t, inv i t → inv (i + 1) (f t i)) :
    inv n ((List.range n).foldl f s) := by
  induction n with
  | zero => exact hstart
  | succ n ih =>
      rw [List.range_succ, List.foldl_append, List.foldl_cons, List.foldl_nil]
      exact hstep n (by omega) _ (ih fun i hi => hstep i (by omega))

/-- The invariant rule for a loop that can fail. -/
theorem foldlM_range_invariant {f : σ → Nat → Except ε σ} (inv : Nat → σ → Prop) {n : Nat}
    {s t : σ} (hstart : inv 0 s)
    (hstep : ∀ i < n, ∀ u v, inv i u → f u i = .ok v → inv (i + 1) v)
    (hloop : (List.range n).foldlM f s = .ok t) : inv n t := by
  induction n generalizing t with
  | zero =>
      cases hloop
      exact hstart
  | succ n ih =>
      rw [List.range_succ, List.foldlM_append] at hloop
      cases hfirst : (List.range n).foldlM f s with
      | error e =>
          rw [hfirst] at hloop
          cases hloop
      | ok u =>
          rw [hfirst] at hloop
          have hlast : f u n = .ok t := by
            cases hfun : f u n with
            | error e => simp [bind, Except.bind, List.foldlM, hfun] at hloop
            | ok v => simpa [bind, Except.bind, List.foldlM, hfun, pure, Except.pure] using hloop
          exact hstep n (by omega) u t (ih (fun i hi => hstep i (by omega)) hfirst) hlast

/-- A loop that can fail does not if no turn does. -/
theorem foldlM_range_returns {f : σ → Nat → Except ε σ} (inv : Nat → σ → Prop) {n : Nat} {s : σ}
    (hstart : inv 0 s) (hstep : ∀ i < n, ∀ u, inv i u → ∃ v, f u i = .ok v ∧ inv (i + 1) v) :
    ∃ t, (List.range n).foldlM f s = .ok t ∧ inv n t := by
  induction n with
  | zero => exact ⟨s, rfl, hstart⟩
  | succ n ih =>
      obtain ⟨u, hu, hinv⟩ := ih fun i hi => hstep i (by omega)
      obtain ⟨v, hv, hinv'⟩ := hstep n (by omega) u hinv
      refine ⟨v, ?_, hinv'⟩
      rw [List.range_succ, List.foldlM_append, hu]
      simp [bind, Except.bind, List.foldlM, hv, pure, Except.pure]

/-- Every turn of a loop that ends succeeds, in the state that the turns before it leave. -/
theorem foldlM_range_turn {f : σ → Nat → Except ε σ} {n i : Nat} {s t : σ} (hi : i < n)
    (hloop : (List.range n).foldlM f s = .ok t) :
    ∃ u v, (List.range i).foldlM f s = .ok u ∧ f u i = .ok v := by
  induction n generalizing t with
  | zero => omega
  | succ n ih =>
      rw [List.range_succ, List.foldlM_append] at hloop
      cases hfirst : (List.range n).foldlM f s with
      | error e =>
          rw [hfirst] at hloop
          cases hloop
      | ok u =>
          rcases Nat.lt_or_eq_of_le (Nat.le_of_lt_succ hi) with hlt | rfl
          · exact ih hlt hfirst
          · rw [hfirst] at hloop
            cases hfun : f u i with
            | error e => simp [bind, Except.bind, List.foldlM, hfun] at hloop
            | ok v => exact ⟨u, v, hfirst, hfun⟩

end Foundation
end Micael
