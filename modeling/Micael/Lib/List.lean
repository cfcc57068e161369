import Mathlib.Tactic
import Mathlib.Data.List.Chain

/-!
# The intrusive doubly linked list

A list is a ring of nodes through its head: `next` and `prev` of every node point at its
neighbours, and an empty list is a head that points at itself.  Removing a node rewrites its
neighbours only, so that the links of the removed node stay as they were.

A list that starts with `list_init_null` is not a ring: its last node has no `next`, and its head
no `prev`.

Main results:

- Theorem {lit}`ListRing.init`, {lit}`ListRing.append`, {lit}`ListRing.remove`: what the three operations make
  of a ring.
- Theorem {lit}`ListRing.congr`: a ring depends on the links of its own nodes only.
- Theorem {lit}`ListRing.append_last`: insertion before the head.
- Theorem {lit}`Links.Chain.append`, {lit}`Links.Chain.remove`: the same for a list that ends with null.
- Theorem {lit}`listRemove_walk_iff`: when a removal keeps what is reached along `next`, in any links.
-/

namespace Micael
namespace Lib

variable {ν : Type} [DecidableEq ν]

/-! ## The operations -/

/-- `list_head_t`; `none` is a null pointer. -/
structure ListHead (ν : Type) where
  next : Option ν
  prev : Option ν
deriving DecidableEq, Repr

/-- The links of all nodes. -/
abbrev Links (ν : Type) := ν → ListHead ν

/-- The store `s->next = x`. -/
def Links.setNext (l : Links ν) (s : ν) (x : Option ν) : Links ν :=
  Function.update l s { l s with next := x }

/-- The store `s->prev = x`. -/
def Links.setPrev (l : Links ν) (s : ν) (x : Option ν) : Links ν :=
  Function.update l s { l s with prev := x }

/-- `list_init`. -/
def listInit (l : Links ν) (s : ν) : Links ν := (l.setNext s (some s)).setPrev s (some s)

/-- `list_init_null`. -/
def listInitNull (l : Links ν) (s : ν) : Links ν := (l.setNext s none).setPrev s none

/-- A store through `s->next`, when it is not null. -/
def Links.setNextPrev (l : Links ν) (s : ν) (x : Option ν) : Links ν :=
  match (l s).next with
  | none => l
  | some n => l.setPrev n x

/-- A store through `s->prev`, when it is not null. -/
def Links.setPrevNext (l : Links ν) (s : ν) (x : Option ν) : Links ν :=
  match (l s).prev with
  | none => l
  | some p => l.setNext p x

/-- `list_remove`. -/
def listRemove (l : Links ν) (s : ν) : Links ν :=
  let l := l.setNextPrev s (l s).prev
  l.setPrevNext s (l s).next

/-- `list_append`: insert `t` after `s`. -/
def listAppend (l : Links ν) (s t : ν) : Links ν :=
  let l := (l.setNext t (l s).next).setPrev t (some s)
  let l := l.setNextPrev s (some t)
  l.setNext s (some t)

/-! ## Stores -/

@[simp] theorem Links.setNext_next (l : Links ν) (s t : ν) (x : Option ν) :
    (l.setNext s x t).next = if t = s then x else (l t).next := by
  unfold Links.setNext
  by_cases hts : t = s
  · subst hts
    rw [Function.update_self, if_pos rfl]
  · rw [Function.update_of_ne hts, if_neg hts]

@[simp] theorem Links.setNext_prev (l : Links ν) (s t : ν) (x : Option ν) :
    (l.setNext s x t).prev = (l t).prev := by
  unfold Links.setNext
  by_cases hts : t = s
  · subst hts
    rw [Function.update_self]
  · rw [Function.update_of_ne hts]

@[simp] theorem Links.setPrev_prev (l : Links ν) (s t : ν) (x : Option ν) :
    (l.setPrev s x t).prev = if t = s then x else (l t).prev := by
  unfold Links.setPrev
  by_cases hts : t = s
  · subst hts
    rw [Function.update_self, if_pos rfl]
  · rw [Function.update_of_ne hts, if_neg hts]

@[simp] theorem Links.setPrev_next (l : Links ν) (s t : ν) (x : Option ν) :
    (l.setPrev s x t).next = (l t).next := by
  unfold Links.setPrev
  by_cases hts : t = s
  · subst hts
    rw [Function.update_self]
  · rw [Function.update_of_ne hts]

theorem listInit_next (l : Links ν) (s t : ν) :
    (listInit l s t).next = if t = s then some s else (l t).next := by
  simp [listInit]

theorem listInit_prev (l : Links ν) (s t : ν) :
    (listInit l s t).prev = if t = s then some s else (l t).prev := by
  simp [listInit]

/-- Where `list_remove` writes: `prev` of the next node and `next` of the one before. -/
theorem listRemove_links {l : Links ν} {s n p : ν} (hnext : (l s).next = some n)
    (hprev : (l s).prev = some p) (hne : s ≠ n) (t : ν) :
    (listRemove l s t).next = (if t = p then some n else (l t).next) ∧
      (listRemove l s t).prev = (if t = n then some p else (l t).prev) := by
  simp [listRemove, Links.setNextPrev, Links.setPrevNext, hnext, hprev, hne]

/-- Where `list_append` writes. -/
theorem listAppend_links {l : Links ν} {s t n : ν} (hnext : (l s).next = some n) (hne : s ≠ t)
    (u : ν) :
    (listAppend l s t u).next = (if u = s then some t else if u = t then some n else (l u).next) ∧
      (listAppend l s t u).prev =
        (if u = n then some t else if u = t then some s else (l u).prev) := by
  simp [listAppend, Links.setNextPrev, hnext, hne]

/-! ## Rings -/

/-- Node `b` comes after node `a`. -/
def Links.Follows (l : Links ν) (a b : ν) : Prop := (l a).next = some b ∧ (l b).prev = some a

/-- The nodes `L` are linked in this order. -/
def Links.Linked (l : Links ν) (L : List ν) : Prop := L.IsChain l.Follows

omit [DecidableEq ν] in
/-- A chain depends on the links between its nodes only. -/
theorem Links.Linked.congr {l l' : Links ν} {L : List ν} (hL : l.Linked L)
    (hnext : ∀ a ∈ L.dropLast, (l' a).next = (l a).next)
    (hprev : ∀ b ∈ L.tail, (l' b).prev = (l b).prev) : l'.Linked L := by
  induction L with
  | nil => exact .nil
  | cons a L ih =>
      cases L with
      | nil => exact .singleton a
      | cons b L =>
          obtain ⟨hab, hrest⟩ := List.isChain_cons_cons.mp hL
          refine List.isChain_cons_cons.mpr ⟨⟨?_, ?_⟩, ih hrest ?_ ?_⟩
          · rw [hnext a (by simp)]
            exact hab.1
          · rw [hprev b (by simp)]
            exact hab.2
          · intro c hc
            exact hnext c (by simp [hc])
          · intro c hc
            exact hprev c (List.mem_cons_of_mem b hc)

/-- The list with head `h` holds the nodes `xs`, in this order. -/
structure ListRing (l : Links ν) (h : ν) (xs : List ν) : Prop where
  nodup : (h :: xs).Nodup
  linked : l.Linked (h :: xs ++ [h])

omit [DecidableEq ν] in
/-- A ring depends on the links of its own nodes only. -/
theorem ListRing.congr {l l' : Links ν} {h : ν} {xs : List ν} (hring : ListRing l h xs)
    (hsame : ∀ a ∈ h :: xs, l' a = l a) : ListRing l' h xs where
  nodup := hring.nodup
  linked := by
    refine hring.linked.congr (fun a ha => ?_) fun b hb => ?_
    · rw [hsame a (by rwa [List.dropLast_concat] at ha)]
    · rw [hsame b]
      have hb' : b ∈ xs ++ [h] := hb
      rcases List.mem_append.mp hb' with hxs | hh
      · exact List.mem_cons_of_mem h hxs
      · exact List.mem_singleton.mp hh ▸ List.mem_cons_self

/-- `list_init` makes an empty list. -/
theorem ListRing.init (l : Links ν) (h : ν) : ListRing (listInit l h) h [] where
  nodup := List.nodup_singleton h
  linked := by
    refine List.isChain_pair.mpr ⟨?_, ?_⟩
    · rw [listInit_next, if_pos rfl]
    · rw [listInit_prev, if_pos rfl]

omit [DecidableEq ν] in
/-- The first node of a list, or its head when it is empty. -/
theorem ListRing.next_head {l : Links ν} {h : ν} {xs : List ν} (hring : ListRing l h xs) :
    (l h).next = some (xs.head?.getD h) := by
  cases xs with
  | nil => exact (List.isChain_cons_cons.mp hring.linked).1.1
  | cons x xs => exact (List.isChain_cons_cons.mp hring.linked).1.1

/-- `list_append` to the head inserts a node at the front. -/
theorem ListRing.append {l : Links ν} {h t : ν} {xs : List ν} (hring : ListRing l h xs)
    (ht : t ∉ h :: xs) : ListRing (listAppend l h t) h (t :: xs) := by
  obtain ⟨n, v, hsplit⟩ : ∃ n v, xs ++ [h] = n :: v := List.exists_cons_of_ne_nil (by simp)
  have hlinked : l.Linked (h :: n :: v) := hsplit ▸ hring.linked
  obtain ⟨hhn, hrest⟩ := List.isChain_cons_cons.mp hlinked
  have hnodup : (n :: v).Nodup := by
    rw [← hsplit]
    exact (List.perm_append_singleton h xs).nodup_iff.mpr hring.nodup
  have hmem : ∀ a ∈ n :: v, a ≠ t := by
    intro a ha hat
    rw [← hsplit, List.mem_append, List.mem_singleton] at ha
    exact ht (hat ▸ ha.elim (List.mem_cons_of_mem h) fun hah => hah ▸ List.mem_cons_self)
  have hht : h ≠ t := fun heq => ht (heq ▸ List.mem_cons_self)
  have hlinks := listAppend_links hhn.1 hht
  constructor
  · exact (List.Perm.swap h t xs).nodup_iff.mp (List.nodup_cons.mpr ⟨ht, hring.nodup⟩)
  · show (listAppend l h t).Linked (h :: t :: (xs ++ [h]))
    rw [hsplit]
    have hnt := hmem n List.mem_cons_self
    refine List.isChain_cons_cons.mpr ⟨⟨?_, ?_⟩, List.isChain_cons_cons.mpr ⟨⟨?_, ?_⟩, ?_⟩⟩
    · rw [(hlinks h).1, if_pos rfl]
    · rw [(hlinks t).2, if_neg (Ne.symm hnt), if_pos rfl]
    · rw [(hlinks t).1, if_neg (Ne.symm hht), if_pos rfl]
    · rw [(hlinks n).2, if_pos rfl]
    · refine Links.Linked.congr hrest (fun a ha => ?_) fun b hb => ?_
      · have hah : a ≠ h := by
          rw [← hsplit, List.dropLast_concat] at ha
          exact fun heq => (List.nodup_cons.mp hring.nodup).1 (heq ▸ ha)
        rw [(hlinks a).1, if_neg hah, if_neg (hmem a (List.dropLast_subset _ ha))]
      · have hbn : b ≠ n := fun heq => (List.nodup_cons.mp hnodup).1 (heq ▸ hb)
        rw [(hlinks b).2, if_neg hbn, if_neg (hmem b (List.mem_cons_of_mem n hb))]

/-- `list_remove` takes a node out of its list. -/
theorem ListRing.remove {l : Links ν} {h t : ν} {as bs : List ν} (hring : ListRing l h (as ++ t :: bs)) :
    ListRing (listRemove l t) h (as ++ bs) := by
  obtain ⟨u, p, hfront⟩ : ∃ u p, h :: as = u ++ [p] :=
    ⟨_, _, (List.dropLast_concat_getLast (List.cons_ne_nil h as)).symm⟩
  obtain ⟨n, v, hback⟩ : ∃ n v, bs ++ [h] = n :: v := List.exists_cons_of_ne_nil (by simp)
  have hnodup : (h :: as ++ t :: bs).Nodup := hring.nodup
  have hp : p ∈ h :: as := hfront ▸ List.mem_append_right u (List.mem_singleton.mpr rfl)
  have hn : n ∈ bs ++ [h] := hback ▸ List.mem_cons_self
  have hlinked : l.Linked (u ++ p :: t :: n :: v) := by
    have hall : h :: (as ++ t :: bs) ++ [h] = u ++ p :: t :: n :: v := by
      rw [← hback, List.append_cons u p, ← hfront]
      simp
    exact hall ▸ hring.linked
  obtain ⟨hbefore, hpt, htail⟩ := List.isChain_append_cons_cons.mp hlinked
  obtain ⟨htn, hafter⟩ := List.isChain_cons_cons.mp htail
  have hlinks := listRemove_links htn.1 hpt.2 (by grind)
  constructor
  · have hsub : (h :: as ++ bs).Nodup :=
      hnodup.sublist ((List.sublist_cons_self t bs).append_left (h :: as))
    exact hsub
  · have hall : h :: (as ++ bs) ++ [h] = u ++ p :: n :: v := by
      rw [← hback, List.append_cons u p, ← hfront]
      simp
    rw [hall]
    refine List.isChain_append_cons_cons.mpr ⟨?_, ⟨?_, ?_⟩, ?_⟩
    · refine Links.Linked.congr hbefore (fun a ha => ?_) fun b hb => ?_
      · rw [(hlinks a).1, if_neg]
        rw [List.dropLast_concat] at ha
        have hu : (u ++ [p]).Nodup := hfront ▸ hnodup.of_append_left
        exact fun heq => (List.nodup_append.mp hu).2.2 a ha p (List.mem_singleton.mpr rfl) heq
      · rw [(hlinks b).2, if_neg]
        rw [← hfront, List.tail_cons] at hb
        grind
    · rw [(hlinks p).1, if_pos rfl]
    · rw [(hlinks n).2, if_pos rfl]
    · refine Links.Linked.congr hafter (fun a ha => ?_) fun b hb => ?_
      · rw [(hlinks a).1, if_neg]
        rw [← hback, List.dropLast_concat] at ha
        grind
      · rw [(hlinks b).2, if_neg]
        have hv : (n :: v).Nodup := by
          rw [← hback]
          grind
        exact fun heq => (List.nodup_cons.mp hv).1 (heq ▸ hb)

theorem listInit_other (l : Links ν) {s u : ν} (hu : u ≠ s) : listInit l s u = l u := by
  have hnext := listInit_next l s u
  have hprev := listInit_prev l s u
  rw [if_neg hu] at hnext hprev
  cases hl : l u
  cases hl' : listInit l s u
  simp_all

/-- A node that points at itself is not changed by its removal. -/
theorem listRemove_unlinked {l : Links ν} {s : ν} (hs : l s = ⟨some s, some s⟩) :
    listRemove l s = l := by
  have hprev : l.setPrev s (some s) = l := by
    unfold Links.setPrev
    rw [hs, ← hs, Function.update_eq_self]
  have hnext : l.setNext s (some s) = l := by
    unfold Links.setNext
    rw [hs, ← hs, Function.update_eq_self]
  unfold listRemove Links.setNextPrev Links.setPrevNext
  simp only [hs, hprev, hnext]

/-- Insertion at the front touches the nodes of the list only. -/
theorem ListRing.append_other {l : Links ν} {h t u : ν} {xs : List ν} (hring : ListRing l h xs)
    (ht : t ∉ h :: xs) (hu : u ∉ h :: t :: xs) : listAppend l h t u = l u := by
  have hht : h ≠ t := fun heq => ht (heq ▸ List.mem_cons_self)
  have hlinks := listAppend_links hring.next_head hht u
  have hfirst : u ≠ xs.head?.getD h := by
    cases xs with
    | nil => exact fun heq => hu (heq ▸ List.mem_cons_self)
    | cons x xs => exact fun heq => hu (by simp [show u = x from heq])
  have huh : u ≠ h := fun heq => hu (heq ▸ List.mem_cons_self)
  have hut : u ≠ t := fun heq => hu (by simp [heq])
  rw [if_neg huh, if_neg hut, if_neg hfirst, if_neg hut] at hlinks
  cases hl : l u
  cases hl' : listAppend l h t u
  simp_all

omit [DecidableEq ν] in
/-- The neighbours of a node in its list. -/
theorem ListRing.neighbours {l : Links ν} {h t : ν} {as bs : List ν}
    (hring : ListRing l h (as ++ t :: bs)) :
    ∃ p n, (l t).next = some n ∧ (l t).prev = some p ∧ t ≠ n ∧ p ∈ h :: as ∧ n ∈ bs ++ [h] := by
  obtain ⟨u, p, hfront⟩ : ∃ u p, h :: as = u ++ [p] :=
    ⟨_, _, (List.dropLast_concat_getLast (List.cons_ne_nil h as)).symm⟩
  obtain ⟨n, v, hback⟩ : ∃ n v, bs ++ [h] = n :: v := List.exists_cons_of_ne_nil (by simp)
  have hall : h :: (as ++ t :: bs) ++ [h] = u ++ p :: t :: n :: v := by
    rw [← hback, List.append_cons u p, ← hfront]
    simp
  have hlinked : l.Linked (u ++ p :: t :: n :: v) := hall ▸ hring.linked
  obtain ⟨-, hpt, htail⟩ := List.isChain_append_cons_cons.mp hlinked
  obtain ⟨htn, -⟩ := List.isChain_cons_cons.mp htail
  have hn : n ∈ bs ++ [h] := hback ▸ List.mem_cons_self
  have hnodup : (h :: as ++ t :: bs).Nodup := hring.nodup
  refine ⟨p, n, htn.1, hpt.2, by grind, ?_, hn⟩
  exact hfront ▸ List.mem_append_right u (List.mem_singleton.mpr rfl)

/-- Removal touches the nodes of the list only. -/
theorem ListRing.remove_other {l : Links ν} {h t u : ν} {as bs : List ν}
    (hring : ListRing l h (as ++ t :: bs)) (hu : u ∉ h :: (as ++ bs)) :
    listRemove l t u = l u := by
  obtain ⟨p, n, hnext, hprev, hne, hp, hn⟩ := hring.neighbours
  have hlinks := listRemove_links hnext hprev hne u
  have hup : u ≠ p := fun heq => hu (by subst heq; simp at hp ⊢; tauto)
  have hun : u ≠ n := fun heq => hu (by subst heq; simp at hn ⊢; tauto)
  rw [if_neg hup, if_neg hun] at hlinks
  cases hl : l u
  cases hl' : listRemove l t u
  simp_all

/-- The links of a removed node stay as they were. -/
theorem ListRing.remove_self {l : Links ν} {h t : ν} {xs : List ν} (hring : ListRing l h (t :: xs)) :
    (listRemove l t t).next = some (xs.head?.getD h) := by
  obtain ⟨n, v, hback⟩ : ∃ n v, xs ++ [h] = n :: v := List.exists_cons_of_ne_nil (by simp)
  have hlinked : l.Linked (h :: t :: n :: v) := hback ▸ hring.linked
  obtain ⟨hht, hrest⟩ := List.isChain_cons_cons.mp hlinked
  obtain ⟨htn, -⟩ := List.isChain_cons_cons.mp hrest
  have hnodup := hring.nodup
  have hn : n ∈ xs ++ [h] := hback ▸ List.mem_cons_self
  have hfirst : xs.head?.getD h = n := by
    cases xs with
    | nil => exact (List.cons.inj hback).1
    | cons x xs => exact (List.cons.inj hback).1
  rw [(listRemove_links htn.1 hht.2 (by grind) t).1, if_neg (by grind), htn.1, hfirst]

/-! ### Other heads -/

omit [DecidableEq ν] in
/-- A ring may be read from its first node on. -/
theorem ListRing.rotate {l : Links ν} {h x : ν} {xs : List ν} (hring : ListRing l h (x :: xs)) :
    ListRing l x (xs ++ [h]) where
  nodup := (List.perm_append_singleton h (x :: xs)).nodup_iff.mpr hring.nodup
  linked := by
    obtain ⟨hhx, hrest⟩ := List.isChain_cons_cons.mp hring.linked
    refine List.isChain_append.mpr ⟨hrest, .singleton x, ?_⟩
    intro a ha b hb
    rw [← List.cons_append, List.getLast?_concat, Option.mem_some_iff] at ha
    rw [List.head?_cons, Option.mem_some_iff] at hb
    rw [← ha, ← hb]
    exact hhx

omit [DecidableEq ν] in
/-- A ring may be read from its last node on. -/
theorem ListRing.rotate_last {l : Links ν} {h p : ν} {xs : List ν} (hring : ListRing l h (xs ++ [p])) :
    ListRing l p (h :: xs) where
  nodup := (List.perm_append_singleton p (h :: xs)).nodup_iff.mp hring.nodup
  linked := by
    have hlinked : l.Linked ((h :: xs) ++ p :: [h]) := by simpa using hring.linked
    obtain ⟨hinit, hlast⟩ := List.isChain_split.mp hlinked
    exact List.isChain_cons_cons.mpr ⟨(List.isChain_cons_cons.mp hlast).1, hinit⟩

omit [DecidableEq ν] in
/-- The node before the head. -/
theorem ListRing.prev_head {l : Links ν} {h : ν} {xs : List ν} (hring : ListRing l h xs) :
    (l h).prev = some (xs.getLast?.getD h) := by
  rcases List.eq_nil_or_concat' xs with rfl | ⟨ys, p, rfl⟩
  · exact (List.isChain_cons_cons.mp hring.linked).1.2
  · rw [List.getLast?_concat, Option.getD_some]
    exact (List.isChain_cons_cons.mp hring.rotate_last.linked).1.2

/-- `list_append` to the node before the head inserts a node at the end. -/
theorem ListRing.append_last {l : Links ν} {h t : ν} {xs : List ν} (hring : ListRing l h xs)
    (ht : t ∉ h :: xs) : ListRing (listAppend l (xs.getLast?.getD h) t) h (xs ++ [t]) := by
  rcases List.eq_nil_or_concat' xs with rfl | ⟨ys, p, rfl⟩
  · exact hring.append ht
  · rw [List.getLast?_concat, Option.getD_some]
    have hturned := hring.rotate_last.append (t := t) (by grind)
    -- read from `p` the ring is `t`, `h`, and so on
    exact hturned.rotate.rotate

/-- Insertion at the end touches the nodes of the list only. -/
theorem ListRing.append_last_other {l : Links ν} {h t u : ν} {xs : List ν} (hring : ListRing l h xs)
    (ht : t ∉ h :: xs) (hu : u ∉ h :: (xs ++ [t])) :
    listAppend l (xs.getLast?.getD h) t u = l u := by
  rcases List.eq_nil_or_concat' xs with rfl | ⟨ys, p, rfl⟩
  · exact hring.append_other ht hu
  · rw [List.getLast?_concat, Option.getD_some]
    exact hring.rotate_last.append_other (by grind) (by grind)

/-! ## Lists that end with null -/

/-- The nodes `xs` follow the node `h` in this order, and the last of them has no `next`. -/
def Links.Chain (l : Links ν) : ν → List ν → Prop
  | h, [] => (l h).next = none
  | h, x :: xs => (l h).next = some x ∧ (l x).prev = some h ∧ Links.Chain l x xs

omit [DecidableEq ν] in
theorem Links.Chain.next_head {l : Links ν} {h : ν} {xs : List ν} (hchain : l.Chain h xs) :
    (l h).next = xs.head? := by
  cases xs with
  | nil => exact hchain
  | cons x xs => exact hchain.1

omit [DecidableEq ν] in
/-- A chain depends on the links of its own nodes only. -/
theorem Links.Chain.congr {l l' : Links ν} {h : ν} {xs : List ν} (hchain : l.Chain h xs)
    (hnext : ∀ a ∈ h :: xs, (l' a).next = (l a).next)
    (hprev : ∀ a ∈ xs, (l' a).prev = (l a).prev) : l'.Chain h xs := by
  induction xs generalizing h with
  | nil =>
      rw [Links.Chain, hnext h List.mem_cons_self]
      exact hchain
  | cons x xs ih =>
      obtain ⟨hhx, hxh, hrest⟩ := hchain
      refine ⟨?_, ?_, ih hrest ?_ ?_⟩
      · rw [hnext h List.mem_cons_self]
        exact hhx
      · rw [hprev x List.mem_cons_self]
        exact hxh
      · intro a ha
        exact hnext a (List.mem_cons_of_mem h ha)
      · intro a ha
        exact hprev a (List.mem_cons_of_mem x ha)

omit [DecidableEq ν] in
/-- The links of a node in the middle of a chain. -/
theorem Links.Chain.links {l : Links ν} {h t : ν} {as bs : List ν}
    (hchain : l.Chain h (as ++ t :: bs)) :
    (l t).next = bs.head? ∧ ∃ p ∈ h :: as, (l t).prev = some p := by
  induction as generalizing h with
  | nil => exact ⟨hchain.2.2.next_head, h, List.mem_cons_self, hchain.2.1⟩
  | cons a as ih =>
      obtain ⟨hnext, p, hp, hprev⟩ := ih hchain.2.2
      exact ⟨hnext, p, List.mem_cons_of_mem h hp, hprev⟩

/-- What `list_remove` leaves in the links of every node. -/
theorem listRemove_apply {l : Links ν} {s : ν} (hself : (l s).next ≠ some s) (t : ν) :
    (listRemove l s t).next = (if (l s).prev = some t then (l s).next else (l t).next) ∧
      (listRemove l s t).prev = (if (l s).next = some t then (l s).prev else (l t).prev) := by
  unfold listRemove Links.setNextPrev Links.setPrevNext
  cases hnext : (l s).next with
  | none =>
      cases hprev : (l s).prev with
      | none => simp
      | some p => simp [hnext, eq_comm]
  | some n =>
      have hsn : s ≠ n := fun h => hself (by rw [hnext, h])
      cases hprev : (l s).prev with
      | none => simp [hprev, hsn, eq_comm]
      | some p => simp [hprev, hnext, hsn, eq_comm]

/-- `list_append` to the head inserts a node at the front. -/
theorem Links.Chain.append {l : Links ν} {h t : ν} {xs : List ν} (hchain : l.Chain h xs)
    (hnodup : (h :: xs).Nodup) (ht : t ∉ h :: xs) : (listAppend l h t).Chain h (t :: xs) := by
  have hth : t ≠ h := fun heq => ht (heq ▸ List.mem_cons_self)
  cases xs with
  | nil =>
      have hnone : (l h).next = none := hchain
      simp [Links.Chain, listAppend, Links.setNextPrev, hnone, hth, Ne.symm hth]
  | cons x xs =>
      have hlinks := listAppend_links hchain.1 (Ne.symm hth)
      have hxh : x ≠ h := by grind
      have hxt : x ≠ t := by grind
      refine ⟨?_, ?_, ?_, ?_, ?_⟩
      · rw [(hlinks h).1, if_pos rfl]
      · rw [(hlinks t).2, if_neg (Ne.symm hxt), if_pos rfl]
      · rw [(hlinks t).1, if_neg hth, if_pos rfl]
      · rw [(hlinks x).2, if_pos rfl]
      · apply hchain.2.2.congr
        · intro a ha
          rw [(hlinks a).1, if_neg (by grind), if_neg (by grind)]
        · intro a ha
          rw [(hlinks a).2, if_neg (by grind), if_neg (by grind)]

/-- `list_remove` takes a node out of its chain. -/
theorem Links.Chain.remove {l : Links ν} {h t : ν} {as bs : List ν}
    (hchain : l.Chain h (as ++ t :: bs)) (hnodup : (h :: (as ++ t :: bs)).Nodup) :
    (listRemove l t).Chain h (as ++ bs) := by
  obtain ⟨hnext, p, hp, hprev⟩ := hchain.links
  have hself : (l t).next ≠ some t := by
    rw [hnext]
    cases bs with
    | nil => simp
    | cons b bs => grind
  have happly := listRemove_apply hself
  induction as generalizing h with
  | nil =>
      obtain rfl := List.mem_singleton.mp hp
      cases bs with
      | nil =>
          rw [List.append_nil, Links.Chain, (happly p).1, if_pos hprev, hnext]
          rfl
      | cons b bs =>
          obtain ⟨-, -, -, -, hrest⟩ := hchain
          refine ⟨?_, ?_, ?_⟩
          · rw [(happly p).1, if_pos hprev, hnext]
            rfl
          · have hb : (l t).next = some b := hnext
            rw [(happly b).2, if_pos hb, hprev]
          · apply hrest.congr
            · intro a ha
              rw [(happly a).1, if_neg]
              rw [hprev]
              grind
            · intro a ha
              rw [(happly a).2, if_neg]
              rw [hnext]
              grind
  | cons a as ih =>
      obtain ⟨hha, hah, hrest⟩ := hchain
      obtain ⟨q, hq, hprev'⟩ := hrest.links.2
      obtain rfl : p = q := Option.some.inj (hprev.symm.trans hprev')
      refine ⟨?_, ?_, ih hrest (List.nodup_cons.mp hnodup).2 hq⟩
      · rw [(happly h).1, if_neg]
        · exact hha
        · rw [hprev]
          grind
      · rw [(happly a).2, if_neg]
        · exact hah
        · rw [hnext]
          cases bs with
          | nil => simp
          | cons b bs => grind

/-! ## Walks -/

/-- The node after `n` steps along `next` from the node `h`. -/
def Links.walk (l : Links ν) (h : ν) : Nat → Option ν
  | 0 => some h
  | n + 1 => (l.walk h n).bind fun x => (l x).next

/-- What `list_remove` leaves in `next` of every node, wherever the removed node points. -/
theorem listRemove_next (l : Links ν) (s t : ν) :
    (listRemove l s t).next = if (l s).prev = some t then (l s).next else (l t).next := by
  by_cases hself : (l s).next = some s
  · -- The first store writes `prev` of the removed node itself, which it leaves as it was.
    have hsame : l.setPrev s (l s).prev = l := Function.update_eq_self s l
    have hfirst : l.setNextPrev s (l s).prev = l := by
      unfold Links.setNextPrev
      rw [hself]
      exact hsame
    unfold listRemove Links.setPrevNext
    simp only [hfirst]
    cases hprev : (l s).prev with
    | none => simp
    | some p => simp [eq_comm]
  · exact (listRemove_apply hself t).1

/-- The removal of a node keeps a walk just when it keeps `next` of every node that the walk comes to. -/
theorem listRemove_walk_iff (l : Links ν) (s h : ν) :
    (∀ n, (listRemove l s).walk h n = l.walk h n) ↔
      ∀ p, (l s).prev = some p → (∃ n, l.walk h n = some p) → (l p).next = (l s).next := by
  constructor
  · rintro hwalk p hprev ⟨n, hn⟩
    have hnext := hwalk (n + 1)
    rw [Links.walk, Links.walk, hwalk n, hn, Option.bind_some, Option.bind_some, listRemove_next,
      if_pos hprev] at hnext
    exact hnext.symm
  · intro hkept n
    induction n with
    | zero => rfl
    | succ n ih =>
        rw [Links.walk, Links.walk, ih]
        cases hn : l.walk h n with
        | none => rfl
        | some x =>
            rw [Option.bind_some, Option.bind_some, listRemove_next]
            by_cases hprev : (l s).prev = some x
            · rw [if_pos hprev, hkept x hprev ⟨n, hn⟩]
            · rw [if_neg hprev]

end Lib
end Micael
