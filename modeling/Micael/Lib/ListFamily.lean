import Micael.Lib.List

/-!
# Several lists over one set of nodes

The nodes of a kernel structure are linked into one of several lists at a time.  A family gives the
contents of the list of every head; no node is in two lists.  Each list operation changes the
contents of the lists it names and keeps the family.

Main results:

- Theorem {lit}`ListRing.unique`: the links determine the contents of a list.
- Theorems {lit}`ListFamily.append`, {lit}`ListFamily.remove` and {lit}`ListFamily.clear`: insertion,
  removal and `list_init` in a family.
-/

namespace Micael
namespace Lib

variable {ν : Type}

/-- A chain that starts at a node is determined by the links, up to the node where it ends. -/
theorem Links.Linked.unique {l : Links ν} {a h : ν} {xs ys : List ν}
    (hxs : l.Linked (a :: xs ++ [h])) (hys : l.Linked (a :: ys ++ [h])) (hx : h ∉ xs) (hy : h ∉ ys) :
    xs = ys := by
  induction xs generalizing a ys with
  | nil =>
      cases ys with
      | nil => rfl
      | cons y ys =>
          have hend : (l a).next = some h := (List.isChain_cons_cons.mp hxs).1.1
          have hnext : (l a).next = some y := (List.isChain_cons_cons.mp hys).1.1
          obtain rfl := Option.some.inj (hend.symm.trans hnext)
          exact absurd List.mem_cons_self hy
  | cons x xs ih =>
      obtain ⟨hax, hrest⟩ := List.isChain_cons_cons.mp hxs
      cases ys with
      | nil =>
          have hend : (l a).next = some h := (List.isChain_cons_cons.mp hys).1.1
          obtain rfl := Option.some.inj (hend.symm.trans hax.1)
          exact absurd List.mem_cons_self hx
      | cons y ys =>
          obtain ⟨hay, hrest'⟩ := List.isChain_cons_cons.mp hys
          obtain rfl := Option.some.inj (hax.1.symm.trans hay.1)
          have hx' : h ∉ xs := fun hmem => hx (List.mem_cons_of_mem x hmem)
          have hy' : h ∉ ys := fun hmem => hy (List.mem_cons_of_mem x hmem)
          rw [ih hrest hrest' hx' hy']

/-- The links determine the contents of a list. -/
theorem ListRing.unique {l : Links ν} {h : ν} {xs ys : List ν} (hxs : ListRing l h xs)
    (hys : ListRing l h ys) : xs = ys :=
  hxs.linked.unique hys.linked (List.nodup_cons.mp hxs.nodup).1 (List.nodup_cons.mp hys.nodup).1

/-- The lists of the heads {lit}`H` hold the nodes {lit}`xs`, and no node is in two of them. -/
structure ListFamily (l : Links ν) (H : Set ν) (xs : ν → List ν) : Prop where
  ring : ∀ h ∈ H, ListRing l h (xs h)
  apart : ∀ h ∈ H, ∀ h' ∈ H, h ≠ h' → List.Disjoint (h :: xs h) (h' :: xs h')

/-- A node that is in none of the lists, and not one of their heads. -/
def Loose (H : Set ν) (xs : ν → List ν) (t : ν) : Prop := ∀ h ∈ H, t ∉ h :: xs h

variable [DecidableEq ν] {l : Links ν} {H : Set ν} {xs : ν → List ν} {h t : ν}

/-- A change inside one list keeps the family. -/
theorem ListFamily.change {l' : Links ν} {ys : List ν} (hfam : ListFamily l H xs) (hh : h ∈ H)
    (hring : ListRing l' h ys) (hother : ∀ u, u ∉ h :: xs h → u ∉ h :: ys → l' u = l u)
    (hnew : ∀ u ∈ ys, u ∈ xs h ∨ Loose H xs u) :
    ListFamily l' H (Function.update xs h ys) := by
  have hapart : ∀ h' ∈ H, h' ≠ h → List.Disjoint (h :: ys) (h' :: xs h') := by
    intro h' hh' hne u hu hu'
    have hold := hfam.apart h hh h' hh' hne.symm
    rcases List.mem_cons.mp hu with rfl | hmem
    · exact hold List.mem_cons_self hu'
    · rcases hnew u hmem with hin | hloose
      · exact hold (List.mem_cons_of_mem h hin) hu'
      · exact hloose h' hh' hu'
  constructor
  case ring =>
    intro h' hh'
    by_cases heq : h' = h
    · subst heq
      rwa [Function.update_self]
    · rw [Function.update_of_ne heq]
      refine (hfam.ring h' hh').congr fun u hu => hother u ?_ ?_
      · exact fun hmem => hfam.apart h hh h' hh' (Ne.symm heq) hmem hu
      · exact fun hmem => hapart h' hh' heq hmem hu
  case apart =>
    intro h₁ hh₁ h₂ hh₂ hne
    by_cases h1 : h₁ = h
    · subst h1
      rw [Function.update_self, Function.update_of_ne (Ne.symm hne)]
      exact hapart h₂ hh₂ (Ne.symm hne)
    · by_cases h2 : h₂ = h
      · subst h2
        rw [Function.update_self, Function.update_of_ne h1]
        exact (hapart h₁ hh₁ h1).symm
      · rw [Function.update_of_ne h1, Function.update_of_ne h2]
        exact hfam.apart h₁ hh₁ h₂ hh₂ hne

/-- `list_append` of a loose node. -/
theorem ListFamily.append (hfam : ListFamily l H xs) (hh : h ∈ H) (ht : Loose H xs t) :
    ListFamily (listAppend l h t) H (Function.update xs h (t :: xs h)) := by
  have hring := hfam.ring h hh
  apply hfam.change hh (hring.append (ht h hh))
  · intro u _ hu
    exact hring.append_other (ht h hh) hu
  · intro u hu
    rcases List.mem_cons.mp hu with rfl | hmem
    · exact .inr ht
    · exact .inl hmem

/-- `list_remove` of a node of a list; the node is loose then. -/
theorem ListFamily.remove {as bs : List ν} (hfam : ListFamily l H xs) (hh : h ∈ H)
    (hxs : xs h = as ++ t :: bs) :
    ListFamily (listRemove l t) H (Function.update xs h (as ++ bs)) ∧
      Loose H (Function.update xs h (as ++ bs)) t := by
  have hring := hfam.ring h hh
  rw [hxs] at hring
  have hnodup := hring.nodup
  constructor
  · apply hfam.change hh hring.remove
    · intro u _ hu
      exact hring.remove_other hu
    · intro u hu
      left
      rw [hxs]
      rcases List.mem_append.mp hu with hmem | hmem
      · exact List.mem_append_left _ hmem
      · exact List.mem_append_right _ (List.mem_cons_of_mem t hmem)
  · intro h' hh'
    by_cases heq : h' = h
    · subst heq
      rw [Function.update_self]
      grind
    · rw [Function.update_of_ne heq]
      have hmem : t ∈ h :: xs h := by simp [hxs]
      exact fun hmem' => hfam.apart h hh h' hh' (Ne.symm heq) hmem hmem'

/-- `list_init` of a head of the family. -/
theorem ListFamily.clear (hfam : ListFamily l H xs) (hh : h ∈ H) :
    ListFamily (listInit l h) H (Function.update xs h []) := by
  apply hfam.change hh (ListRing.init l h)
  · intro u _ hu
    exact listInit_other l fun heq => hu (heq ▸ List.mem_cons_self)
  · intro u hu
    cases hu

/-- A node stays loose when a new head comes. -/
theorem Loose.addHead (ht : Loose H xs t) (hne : t ≠ h) :
    Loose (insert h H) (Function.update xs h []) t := by
  intro h' hh' hmem
  by_cases heq : h' = h
  · subst heq
    rw [Function.update_self] at hmem
    exact hne (List.mem_singleton.mp hmem)
  · rw [Function.update_of_ne heq] at hmem
    exact ht h' (hh'.resolve_left heq) hmem

/-- `list_init` of a new head. -/
theorem ListFamily.addHead (hfam : ListFamily l H xs) (hh : Loose H xs h) :
    ListFamily (listInit l h) (insert h H) (Function.update xs h []) := by
  have hne : ∀ h' ∈ H, h' ≠ h := by
    rintro h' hh' rfl
    exact hh h' hh' List.mem_cons_self
  constructor
  case ring =>
    intro h' hh'
    rcases hh' with rfl | hmem
    · rw [Function.update_self]
      exact ListRing.init l h'
    · rw [Function.update_of_ne (hne h' hmem)]
      refine (hfam.ring h' hmem).congr fun u hu => listInit_other l ?_
      rintro rfl
      exact hh h' hmem hu
  case apart =>
    intro h₁ hh₁ h₂ hh₂ hne₁₂
    rcases hh₁ with rfl | hmem₁
    · rcases hh₂ with rfl | hmem₂
      · exact absurd rfl hne₁₂
      · rw [Function.update_self, Function.update_of_ne (hne h₂ hmem₂)]
        intro u hu hu'
        obtain rfl := List.mem_singleton.mp hu
        exact hh h₂ hmem₂ hu'
    · rcases hh₂ with rfl | hmem₂
      · rw [Function.update_self, Function.update_of_ne (hne h₁ hmem₁)]
        intro u hu hu'
        obtain rfl := List.mem_singleton.mp hu'
        exact hh h₁ hmem₁ hu
      · rw [Function.update_of_ne (hne h₁ hmem₁), Function.update_of_ne (hne h₂ hmem₂)]
        exact hfam.apart h₁ hmem₁ h₂ hmem₂ hne₁₂

/-- A store to a node that is loose. -/
theorem ListFamily.initLoose (hfam : ListFamily l H xs) (ht : Loose H xs t) :
    ListFamily (listInit l t) H xs := by
  refine ⟨fun h hh => (hfam.ring h hh).congr fun u hu => listInit_other l ?_, hfam.apart⟩
  rintro rfl
  exact ht h hh hu

end Lib
end Micael
