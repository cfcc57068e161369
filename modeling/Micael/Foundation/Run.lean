import Mathlib.Tactic

/-!
# Runs of a labelled transition system

A component is described by a step relation over its states; the label of a
step is the call that was made, with its arguments and whatever its environment
supplied.  A run is a finite sequence of steps, so the states a run ends in are
exactly the states the component can be observed in.

Main results:

- Theorem {lit}`Run.invariant`: a property of the first state that every step
  preserves holds in every state reached.
- Theorem {lit}`Run.restrict`: a condition on the calls of a run becomes part of its steps.
- Theorem {lit}`Run.safe_iff`: when a step breaks a property exactly if it does not meet a condition,
  the property holds along a run exactly if all its steps meet the condition.
- Theorem {lit}`Run.steps_iff`: the same for a property of the steps.
- Theorem {lit}`Run.simulation`: a relation to an abstract state that every step
  preserves relates every state reached to an abstract run of the same calls.
-/

namespace Micael
namespace Foundation

variable {σ τ ι : Type*}

/-- The state {lit}`t` is reached from {lit}`s` by the calls {lit}`ops`, in order. -/
inductive Run (step : σ → ι → σ → Prop) (s : σ) : List ι → σ → Prop
  | nil : Run step s [] s
  | snoc {ops : List ι} {t u : σ} {op : ι} :
      Run step s ops t → step t op u → Run step s (ops ++ [op]) u

/-- A run without calls ends where it starts. -/
theorem Run.of_nil {step : σ → ι → σ → Prop} {s t : σ} (hrun : Run step s [] t) : t = s := by
  generalize hcalls : [] = calls at hrun
  cases hrun with
  | nil => rfl
  | snoc hfirst hlast => exact absurd hcalls (by simp)

/-- The last step of a run. -/
theorem Run.of_concat {step : σ → ι → σ → Prop} {s u : σ} {ops : List ι} {op : ι}
    (hrun : Run step s (ops ++ [op]) u) : ∃ t, Run step s ops t ∧ step t op u := by
  generalize hcalls : ops ++ [op] = calls at hrun
  cases hrun with
  | nil => exact absurd hcalls (by simp)
  | snoc hfirst hlast =>
      obtain ⟨rfl, hop⟩ := List.append_inj' hcalls rfl
      obtain rfl := List.singleton_inj.mp hop
      exact ⟨_, hfirst, hlast⟩

/-- A run of one call is a step. -/
theorem Run.of_singleton {step : σ → ι → σ → Prop} {s t : σ} {op : ι} (hrun : Run step s [op] t) :
    step s op t := by
  obtain ⟨u, hnil, hstep⟩ := Run.of_concat (show Run step s ([] ++ [op]) t from hrun)
  obtain rfl := hnil.of_nil
  exact hstep

/-- A call of a run is the last one or one of those before it. -/
theorem concat_prefix_concat {pre ops : List ι} {op last : ι} (hpre : pre ++ [op] <+: ops ++ [last]) :
    (pre = ops ∧ op = last) ∨ pre ++ [op] <+: ops := by
  rcases List.prefix_concat_iff.mp hpre with heq | hshort
  · obtain ⟨hops, hop⟩ := List.append_inj' heq rfl
    exact .inl ⟨hops, List.singleton_inj.mp hop⟩
  · exact .inr hshort

/-- The call of a run of one call. -/
theorem concat_prefix_singleton {pre : List ι} {op last : ι} (hpre : pre ++ [op] <+: [last]) :
    pre = [] ∧ op = last := by
  rcases concat_prefix_concat (show pre ++ [op] <+: [] ++ [last] from hpre) with hlast | hshort
  · exact hlast
  · exact absurd (List.prefix_nil.mp hshort) (by simp)

/-- The calls of a run of two calls. -/
theorem concat_prefix_pair {pre : List ι} {op first last : ι} (hpre : pre ++ [op] <+: [first, last]) :
    (pre = [first] ∧ op = last) ∨ pre = [] ∧ op = first :=
  (concat_prefix_concat (show pre ++ [op] <+: [first] ++ [last] from hpre)).imp_right
    concat_prefix_singleton

/-- Every initial part of a run is a run. -/
theorem Run.of_prefix {step : σ → ι → σ → Prop} {s t : σ} {ops pre : List ι}
    (hrun : Run step s ops t) (hpre : pre <+: ops) : ∃ u, Run step s pre u := by
  induction hrun with
  | nil =>
      obtain rfl := List.prefix_nil.mp hpre
      exact ⟨s, .nil⟩
  | snoc hfirst hlast ih =>
      rcases List.prefix_concat_iff.mp hpre with rfl | hshort
      · exact ⟨_, .snoc hfirst hlast⟩
      · exact ih hshort

/-- A run can be continued by another one. -/
theorem Run.append {step : σ → ι → σ → Prop} {s t u : σ} {ops ops' : List ι} (hfirst : Run step s ops t)
    (hrest : Run step t ops' u) : Run step s (ops ++ ops') u := by
  induction hrest with
  | nil =>
      rw [List.append_nil]
      exact hfirst
  | snoc _ hlast ih =>
      rw [← List.append_assoc]
      exact .snoc ih hlast

/-- What holds at first and is kept by every step holds in every state reached. -/
theorem Run.invariant {step : σ → ι → σ → Prop} (inv : σ → Prop)
    (hstep : ∀ s op t, inv s → step s op t → inv t)
    {s t : σ} {ops : List ι} (hrun : Run step s ops t) (hs : inv s) : inv t := by
  induction hrun with
  | nil => exact hs
  | snoc _ hlast ih => exact hstep _ _ _ ih hlast

/-- A run is one of every system that has its steps. -/
theorem Run.mono {step step' : σ → ι → σ → Prop} (hsub : ∀ s op t, step s op t → step' s op t)
    {s t : σ} {ops : List ι} (hrun : Run step s ops t) : Run step' s ops t := by
  induction hrun with
  | nil => exact .nil
  | snoc _ hlast ih => exact .snoc ih (hsub _ _ _ hlast)

/-- A run all of whose calls satisfy a condition is a run of the steps that do. -/
theorem Run.restrict {step : σ → ι → σ → Prop} {cond : ι → Prop} {s t : σ} {ops : List ι}
    (hrun : Run step s ops t) (hops : ∀ op ∈ ops, cond op) :
    Run (fun s op t => step s op t ∧ cond op) s ops t := by
  induction hrun with
  | nil => exact .nil
  | snoc _ hlast ih =>
      refine .snoc (ih fun op hop => hops op (List.mem_append_left _ hop)) ⟨hlast, ?_⟩
      exact hops _ (List.mem_append_right _ (List.mem_singleton.mpr rfl))

section Safe

variable {step : σ → ι → σ → Prop} {inv prop : σ → Prop} {good : σ → ι → Prop} {s t : σ}
  {ops : List ι}

/-- Steps that meet the condition keep the invariant along a run. -/
theorem Run.inv_of_good (hkeep : ∀ s op t, inv s → step s op t → good s op → inv t)
    (hs : inv s) (hrun : Run step s ops t)
    (hgood : ∀ pre op u v, pre ++ [op] <+: ops → Run step s pre u → step u op v → good u op) :
    inv t := by
  induction hrun with
  | nil => exact hs
  | snoc hfirst hlast ih =>
      have hbefore := ih fun pre op u v hpre =>
        hgood pre op u v (hpre.trans (List.prefix_append _ _))
      exact hkeep _ _ _ hbefore hlast (hgood _ _ _ _ List.prefix_rfl hfirst hlast)

/-- If a step after which the property holds must have met the condition, the property along a
run gives the invariant. -/
theorem Run.inv_of_prop (hkeep : ∀ s op t, inv s → step s op t → good s op → inv t)
    (hbreak : ∀ s op t, inv s → step s op t → prop t → good s op) (hs : inv s)
    (hrun : Run step s ops t) (hprop : ∀ pre u, pre <+: ops → Run step s pre u → prop u) :
    inv t := by
  induction hrun with
  | nil => exact hs
  | snoc hfirst hlast ih =>
      have hbefore := ih fun pre u hpre => hprop pre u (hpre.trans (List.prefix_append _ _))
      have hafter := hprop _ _ List.prefix_rfl (.snoc hfirst hlast)
      exact hkeep _ _ _ hbefore hlast (hbreak _ _ _ hbefore hlast hafter)

/-- A property that follows from the invariant, and that a step breaks when it does not meet the
condition, holds in every state of a run exactly if every step meets the condition. -/
theorem Run.safe_iff (hinv : ∀ s, inv s → prop s)
    (hkeep : ∀ s op t, inv s → step s op t → good s op → inv t)
    (hbreak : ∀ s op t, inv s → step s op t → prop t → good s op) (hs : inv s) (ops : List ι) :
    (∀ pre t, pre <+: ops → Run step s pre t → prop t) ↔
      ∀ pre op t u, pre ++ [op] <+: ops → Run step s pre t → step t op u → good t op := by
  constructor
  · intro hprop pre op t u hpre hrun hstep
    have hbefore : inv t := Run.inv_of_prop hkeep hbreak hs hrun fun p v hp =>
      hprop p v ((hp.trans (List.prefix_append _ _)).trans hpre)
    exact hbreak t op u hbefore hstep (hprop _ u hpre (.snoc hrun hstep))
  · intro hgood pre t hpre hrun
    apply hinv
    exact Run.inv_of_good hkeep hs hrun fun p op u v hp => hgood p op u v (hp.trans hpre)

/-- When, from the invariant, a step is as it should be exactly if it meets the condition, all steps
of a run are as they should be exactly if all of them meet it. -/
theorem Run.steps_iff {right : σ → ι → Prop}
    (hkeep : ∀ s op t, inv s → step s op t → good s op → inv t)
    (hiff : ∀ s op t, inv s → step s op t → (right s op ↔ good s op)) (hs : inv s)
    (ops : List ι) :
    (∀ pre op t u, pre ++ [op] <+: ops → Run step s pre t → step t op u → right t op) ↔
      ∀ pre op t u, pre ++ [op] <+: ops → Run step s pre t → step t op u → good t op := by
  have hearlier : ∀ {p pre : List ι} {op : ι}, p <+: pre → pre ++ [op] <+: ops → p <+: ops :=
    fun hp hpre => (hp.trans (List.prefix_append _ _)).trans hpre
  constructor
  · intro hright pre op t u hpre hrun hstep
    have hkept : ∀ s op t, inv s → step s op t → right s op → inv t :=
      fun v op' w hv hstep' hr => hkeep v op' w hv hstep' ((hiff v op' w hv hstep').mp hr)
    have hbefore : inv t := by
      apply Run.inv_of_good hkept hs hrun
      intro p op' v w hp hrun' hstep'
      exact hright p op' v w (hearlier hp hpre) hrun' hstep'
    exact (hiff t op u hbefore hstep).mp (hright pre op t u hpre hrun hstep)
  · intro hgood pre op t u hpre hrun hstep
    have hbefore : inv t := by
      apply Run.inv_of_good hkeep hs hrun
      intro p op' v w hp hrun' hstep'
      exact hgood p op' v w (hearlier hp hpre) hrun' hstep'
    exact (hiff t op u hbefore hstep).mpr (hgood pre op t u hpre hrun hstep)

end Safe

/-- A relation to an abstract system that every step keeps is kept by a run. -/
theorem Run.simulation {step : σ → ι → σ → Prop} {abs : τ → ι → τ → Prop}
    (rel : σ → τ → Prop)
    (hstep : ∀ s op t a, rel s a → step s op t → ∃ b, abs a op b ∧ rel t b)
    {s t : σ} {a : τ} {ops : List ι} (hrun : Run step s ops t) (hs : rel s a) :
    ∃ b, Run abs a ops b ∧ rel t b := by
  induction hrun with
  | nil => exact ⟨a, .nil, hs⟩
  | snoc _ hlast ih =>
      obtain ⟨b, hb, hrel⟩ := ih
      obtain ⟨c, hc, hrel'⟩ := hstep _ _ _ _ hrel hlast
      exact ⟨c, .snoc hb hc, hrel'⟩

end Foundation
end Micael
