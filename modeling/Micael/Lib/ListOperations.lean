import Micael.Lib.List

/-!
# Operations on lists of either shape

The same operations serve lists that are rings and lists that end with null.  A list is given by all of its
nodes, and an operation by the node that it gets, wherever this is.

`list_prepend` stores `s->prev` before it reads it again for the last store, so that what it writes is the link
of the new node.

Main results:

- Theorem {lit}`listAppend_apply`, {lit}`listRemove_prev`: what the operations leave in any links.
- Theorem {lit}`Links.WellFormed.append`, {lit}`Links.WellFormed.remove`: the list after them.
- Theorem {lit}`Links.WellFormed.init`, {lit}`Links.WellFormed.initNull`: new lists.
- Theorem {lit}`list_append_remove`: both operations on a list of either shape, and one after the other.
- Theorem {lit}`listPrepend_wrong`: what `list_prepend` leaves is no list.
-/

namespace Micael
namespace Lib

variable {ν : Type}

/-! ## Lists of either shape -/

/-- The two shapes of a list. -/
inductive ListKind where
  | circular
  | nullTerminated
deriving DecidableEq, Repr

/-- The nodes of a list that ends with null, from its first node `h` on. -/
structure NullList (l : Links ν) (h : ν) (xs : List ν) : Prop where
  nodup : (h :: xs).Nodup
  first : (l h).prev = none
  chain : l.Chain h xs

/-- The nodes are those of a list of this shape, in this order; a ring may be read from any of its nodes on. -/
def Links.WellFormed (l : Links ν) (kind : ListKind) : List ν → Prop
  | [] => True
  | h :: xs =>
      match kind with
      | .circular => ListRing l h xs
      | .nullTerminated => NullList l h xs

variable [DecidableEq ν]

/-- `list_prepend`: insert `t` before `s`. -/
def listPrepend (l : Links ν) (s t : ν) : Links ν :=
  let l := (l.setPrev t (l s).prev).setNext t (some s)
  let l := l.setPrev s (some t)
  l.setPrevNext s (some t)

/-! ## Links after an operation -/

section Any

variable {l : Links ν} {s t u : ν}

/-- What `list_append` leaves in the links of every node. -/
theorem listAppend_apply (hne : s ≠ t) (u : ν) :
    (listAppend l s t u).next = (if u = s then some t else if u = t then (l s).next else (l u).next) ∧
      (listAppend l s t u).prev =
        (if (l s).next = some u then some t else if u = t then some s else (l u).prev) := by
  cases hnext : (l s).next with
  | none => simp [listAppend, Links.setNextPrev, hnext, hne]
  | some n => simp [listAppend, Links.setNextPrev, hnext, hne, eq_comm]

/-- What `list_remove` leaves in `prev` of every node, wherever the removed node points. -/
theorem listRemove_prev (l : Links ν) (s u : ν) :
    (listRemove l s u).prev = if (l s).next = some u then (l s).prev else (l u).prev := by
  by_cases hself : (l s).next = some s
  · have hsame : l.setPrev s (l s).prev = l := Function.update_eq_self s l
    have hfirst : l.setNextPrev s (l s).prev = l := by
      rw [Links.setNextPrev, hself]
      exact hsame
    have hkept : (listRemove l s u).prev = (l u).prev := by
      unfold listRemove Links.setPrevNext
      simp only [hfirst]
      cases (l s).prev with
      | none => rfl
      | some p => rw [Links.setNext_prev]
    rw [hkept, hself]
    by_cases hsu : s = u
    · rw [hsu, if_pos rfl]
    · rw [if_neg fun heq => hsu (Option.some.inj heq)]
  · exact (listRemove_apply hself u).2

omit [DecidableEq ν] in
theorem ListHead.eq_of_links {a b : ListHead ν} (hnext : a.next = b.next) (hprev : a.prev = b.prev) : a = b := by
  cases a
  cases b
  cases hnext
  cases hprev
  rfl

/-- Nodes that are not at the place of an insertion keep their links. -/
theorem listAppend_other (hne : s ≠ t) (hs : u ≠ s) (ht : u ≠ t) (hnext : (l s).next ≠ some u) :
    listAppend l s t u = l u := by
  obtain ⟨hn, hp⟩ := listAppend_apply (l := l) hne u
  apply ListHead.eq_of_links
  · rw [hn, if_neg hs, if_neg ht]
  · rw [hp, if_neg hnext, if_neg ht]

/-- Nodes that are no neighbours of a removed node keep their links, and so does the removed node. -/
theorem listRemove_other (h : u = s ∨ (l s).next ≠ some u ∧ (l s).prev ≠ some u) : listRemove l s u = l u := by
  have hn := listRemove_next l s u
  have hp := listRemove_prev l s u
  rcases h with rfl | ⟨hnext, hprev⟩
  · rw [ite_self] at hn hp
    exact ListHead.eq_of_links hn hp
  · rw [if_neg hprev] at hn
    rw [if_neg hnext] at hp
    exact ListHead.eq_of_links hn hp

/-- The removal of a node that was inserted restores all links but its own. -/
theorem listRemove_listAppend (hne : s ≠ t) (hnext : (l s).next ≠ some t)
    (hback : ∀ n, (l s).next = some n → (l n).prev = some s) (hu : u ≠ t) :
    listRemove (listAppend l s t) t u = l u := by
  obtain ⟨htn, htp⟩ := listAppend_apply (l := l) hne t
  obtain ⟨hun, hup⟩ := listAppend_apply (l := l) hne u
  rw [if_neg (Ne.symm hne), if_pos rfl] at htn
  rw [if_neg hnext, if_pos rfl] at htp
  rw [if_neg hu] at hun hup
  apply ListHead.eq_of_links
  · rw [listRemove_next, htp, htn, hun]
    by_cases hsu : s = u
    · rw [if_pos (congrArg some hsu), hsu]
    · rw [if_neg fun heq => hsu (Option.some.inj heq), if_neg (Ne.symm hsu)]
  · rw [listRemove_prev, htn, htp, hup]
    by_cases hsu : (l s).next = some u
    · rw [if_pos hsu, hback u hsu]
    · rw [if_neg hsu, if_neg hsu]

end Any

/-! ## Rings -/

section Rings

variable {l : Links ν} {h s t : ν} {xs as bs : List ν}

omit [DecidableEq ν] in
/-- A ring may be read from any of its nodes on. -/
theorem ListRing.rotate_to (hring : ListRing l h (as ++ s :: bs)) : ListRing l s (bs ++ h :: as) := by
  induction as generalizing h bs with
  | nil => exact hring.rotate
  | cons a as ih =>
      have hturned : ListRing l a (as ++ s :: (bs ++ [h])) := by
        rw [← List.cons_append, ← List.append_assoc]
        exact hring.rotate
      rw [List.append_cons]
      exact ih hturned

omit [DecidableEq ν] in
/-- A ring from one of its nodes on. -/
theorem Links.wellFormed_circular_iff :
    l.WellFormed .circular (as ++ s :: bs) ↔ ListRing l s (bs ++ as) := by
  cases as with
  | nil =>
      rw [List.nil_append, List.append_nil]
      exact Iff.rfl
  | cons a as =>
      constructor
      · exact fun hring => ListRing.rotate_to (h := a) hring
      · exact fun hring => ListRing.rotate_to (s := a) hring

/-- `list_remove` takes out the node that a ring is read from. -/
theorem ListRing.remove_head (hring : ListRing l s xs) : (listRemove l s).WellFormed .circular xs := by
  cases xs with
  | nil => exact trivial
  | cons x xs =>
      have hturned : ListRing l x (xs ++ s :: []) := hring.rotate
      have hrest := hturned.remove
      rw [List.append_nil] at hrest
      exact hrest

omit [DecidableEq ν] in
/-- The next node points back, and the one before is in the list as well. -/
theorem ListRing.head_links (hring : ListRing l s xs) :
    (∀ n, (l s).next = some n → n ∈ s :: xs ∧ (l n).prev = some s) ∧
      ∀ p, (l s).prev = some p → p ∈ s :: xs := by
  constructor
  · intro n hn
    cases xs with
    | nil =>
        have hself := (List.isChain_pair.mp hring.linked)
        obtain rfl := Option.some.inj (hself.1.symm.trans hn)
        exact ⟨List.mem_cons_self, hself.2⟩
    | cons x xs =>
        have hfirst := (List.isChain_cons_cons.mp hring.linked).1
        obtain rfl := Option.some.inj (hfirst.1.symm.trans hn)
        exact ⟨List.mem_cons_of_mem s List.mem_cons_self, hfirst.2⟩
  · intro p hp
    rw [hring.prev_head, Option.some.injEq] at hp
    subst hp
    cases hlast : xs.getLast? with
    | none => exact List.mem_cons_self
    | some x => exact List.mem_cons_of_mem s (List.mem_of_getLast? hlast)

end Rings

/-! ## Lists that end with null -/

section NullLists

variable {l : Links ν} {h s t : ν} {xs as bs : List ν}

omit [DecidableEq ν] in
/-- A chain from a node in its middle on. -/
theorem Links.Chain.suffix (hchain : l.Chain h (as ++ s :: bs)) : l.Chain s bs := by
  induction as generalizing h with
  | nil => exact hchain.2.2
  | cons a as ih => exact ih hchain.2.2

omit [DecidableEq ν] in
/-- The node that comes next is in the chain, and points back. -/
theorem Links.Chain.next_links {n : ν} (hchain : l.Chain s xs) (hn : (l s).next = some n) :
    n ∈ xs ∧ (l n).prev = some s := by
  cases xs with
  | nil => exact absurd (hn.symm.trans hchain) (Option.some_ne_none n)
  | cons x xs =>
      obtain rfl := Option.some.inj (hchain.1.symm.trans hn)
      exact ⟨List.mem_cons_self, hchain.2.1⟩

omit [DecidableEq ν] in
theorem Links.Chain.next_ne (hchain : l.Chain s xs) {n : ν} (hn : n ∉ xs) : (l s).next ≠ some n :=
  fun heq => hn (hchain.next_links heq).1

/-- `list_append` after any node of a chain. -/
theorem Links.Chain.append_inner (hchain : l.Chain h (as ++ s :: bs)) (hnodup : (h :: (as ++ s :: bs)).Nodup)
    (ht : t ∉ h :: (as ++ s :: bs)) : (listAppend l s t).Chain h (as ++ s :: t :: bs) := by
  have hst : s ≠ t := by grind
  have hsuffix := hchain.suffix
  induction as generalizing h with
  | nil =>
      obtain ⟨hhs, hsh, hrest⟩ := hchain
      have hself : (l s).next ≠ some s := hsuffix.next_ne (by grind)
      refine ⟨?_, ?_, hrest.append (List.nodup_cons.mp hnodup).2 (by grind)⟩
      · rw [(listAppend_apply hst h).1, if_neg (by grind), if_neg (by grind)]
        exact hhs
      · rw [(listAppend_apply hst s).2, if_neg hself, if_neg hst]
        exact hsh
  | cons a as ih =>
      obtain ⟨hha, hah, hrest⟩ := hchain
      have hbefore : (l s).next ≠ some a := hsuffix.next_ne (by grind)
      refine ⟨?_, ?_, ih hrest (List.nodup_cons.mp hnodup).2 (by grind)⟩
      · rw [(listAppend_apply hst h).1, if_neg (by grind), if_neg (by grind)]
        exact hha
      · rw [(listAppend_apply hst a).2, if_neg hbefore, if_neg (by grind)]
        exact hah

omit [DecidableEq ν] in
/-- A list that ends with null, from any of its nodes on. -/
theorem NullList.suffix (hlist : l.WellFormed .nullTerminated (as ++ s :: bs)) : l.Chain s bs := by
  cases as with
  | nil => exact hlist.chain
  | cons a as => exact (NullList.chain hlist).suffix

omit [DecidableEq ν] in
/-- The node before another one of a list is in it as well. -/
theorem NullList.prev_mem {p : ν} (hlist : l.WellFormed .nullTerminated (as ++ s :: bs))
    (hp : (l s).prev = some p) : p ∈ as := by
  cases as with
  | nil => exact absurd (hp.symm.trans (NullList.first hlist)) (Option.some_ne_none p)
  | cons a as =>
      obtain ⟨-, q, hq, hprev⟩ := (NullList.chain hlist).links
      obtain rfl := Option.some.inj (hprev.symm.trans hp)
      exact hq

omit [DecidableEq ν] in
theorem nodup_insert (hnodup : (as ++ s :: bs).Nodup) (ht : t ∉ as ++ s :: bs) : (as ++ s :: t :: bs).Nodup := by
  have hperm : (t :: (as ++ s :: bs)).Perm (as ++ s :: t :: bs) := by
    rw [List.append_cons as s bs, List.append_cons as s (t :: bs)]
    exact List.perm_middle.symm
  exact hperm.nodup_iff.mp (List.nodup_cons.mpr ⟨ht, hnodup⟩)

/-- `list_append` after any node of a list. -/
theorem NullList.append (hlist : l.WellFormed .nullTerminated (as ++ s :: bs)) (ht : t ∉ as ++ s :: bs) :
    (listAppend l s t).WellFormed .nullTerminated (as ++ s :: t :: bs) := by
  have hsuffix := NullList.suffix hlist
  have hst : s ≠ t := by grind
  cases as with
  | nil =>
      have hhead : NullList l s bs := hlist
      have hself : (l s).next ≠ some s := hsuffix.next_ne (List.nodup_cons.mp hhead.nodup).1
      have hmore : ([] ++ s :: t :: bs).Nodup := nodup_insert hhead.nodup ht
      constructor
      case nodup => exact hmore
      case first =>
        rw [(listAppend_apply hst s).2, if_neg hself, if_neg hst]
        exact hhead.first
      case chain => exact hhead.chain.append hhead.nodup ht
  | cons a as =>
      have hinner : NullList l a (as ++ s :: bs) := hlist
      have hnodup := hinner.nodup
      have hback : (l s).next ≠ some a := hsuffix.next_ne (by grind)
      have hmore : (a :: as ++ s :: t :: bs).Nodup := nodup_insert hinner.nodup ht
      constructor
      case nodup => exact hmore
      case first =>
        rw [(listAppend_apply hst a).2, if_neg hback, if_neg (by grind)]
        exact hinner.first
      case chain => exact hinner.chain.append_inner hinner.nodup ht

/-- `list_remove` of any node of a list. -/
theorem NullList.remove (hlist : l.WellFormed .nullTerminated (as ++ s :: bs)) :
    (listRemove l s).WellFormed .nullTerminated (as ++ bs) := by
  have hsuffix := NullList.suffix hlist
  cases as with
  | nil =>
      cases bs with
      | nil => exact trivial
      | cons b bs =>
          obtain ⟨hnodup, hfirst, hnext, -, hchain⟩ := hlist
          constructor
          case nodup => exact (List.nodup_cons.mp hnodup).2
          case first =>
            rw [listRemove_prev, if_pos hnext]
            exact hfirst
          case chain =>
            apply hchain.congr
            · intro a ha
              rw [listRemove_next, hfirst, if_neg (Option.some_ne_none a).symm]
            · intro a ha
              rw [listRemove_prev, hnext, if_neg]
              grind
  | cons a as =>
      have hinner : NullList l a (as ++ s :: bs) := hlist
      have hnodup := hinner.nodup
      have hback : (l s).next ≠ some a := hsuffix.next_ne (by grind)
      have hsub : (a :: (as ++ bs)).Sublist (a :: (as ++ s :: bs)) :=
        ((List.sublist_cons_self s bs).append_left as).cons_cons a
      constructor
      case nodup => exact hnodup.sublist hsub
      case first =>
        rw [listRemove_prev, if_neg hback]
        exact hinner.first
      case chain => exact hinner.chain.remove hnodup

end NullLists

/-! ## Both shapes -/

section Both

variable {l : Links ν} {kind : ListKind} {s t u : ν} {as bs : List ν}

omit [DecidableEq ν] in
/-- The neighbours of a node are in its list, and the next one points back. -/
theorem Links.WellFormed.links (hlist : l.WellFormed kind (as ++ s :: bs)) :
    (∀ n, (l s).next = some n → n ∈ as ++ s :: bs ∧ (l n).prev = some s) ∧
      ∀ p, (l s).prev = some p → p ∈ as ++ s :: bs := by
  cases kind with
  | circular =>
      have hmem : ∀ a, a ∈ s :: (bs ++ as) ↔ a ∈ as ++ s :: bs := by grind
      obtain ⟨hnext, hprev⟩ := (Links.wellFormed_circular_iff.mp hlist).head_links
      simp only [hmem] at hnext hprev
      exact ⟨hnext, hprev⟩
  | nullTerminated =>
      constructor
      · intro n hn
        obtain ⟨hmem, hback⟩ := (NullList.suffix hlist).next_links hn
        exact ⟨List.mem_append_right as (List.mem_cons_of_mem s hmem), hback⟩
      · intro p hp
        exact List.mem_append_left _ (NullList.prev_mem hlist hp)

/-- `list_append` inserts a node directly after the other one. -/
theorem Links.WellFormed.append (hlist : l.WellFormed kind (as ++ s :: bs)) (ht : t ∉ as ++ s :: bs) :
    (listAppend l s t).WellFormed kind (as ++ s :: t :: bs) := by
  cases kind with
  | circular =>
      have hring := Links.wellFormed_circular_iff.mp hlist
      exact Links.wellFormed_circular_iff.mpr (hring.append (by grind))
  | nullTerminated => exact NullList.append hlist ht

/-- `list_remove` leaves the list of the other nodes. -/
theorem Links.WellFormed.remove (hlist : l.WellFormed kind (as ++ s :: bs)) :
    (listRemove l s).WellFormed kind (as ++ bs) := by
  cases kind with
  | circular =>
      have hrest := (Links.wellFormed_circular_iff.mp hlist).remove_head
      cases bs with
      | nil =>
          rw [List.append_nil]
          exact hrest
      | cons b bs => exact Links.wellFormed_circular_iff.mpr hrest
  | nullTerminated => exact NullList.remove hlist

/-- Nodes that are in no list with the removed one keep their links, and so does the removed one. -/
theorem Links.WellFormed.remove_other (hlist : l.WellFormed kind (as ++ s :: bs)) (hu : u ∉ as ++ bs) :
    listRemove l s u = l u := by
  obtain ⟨hnext, hprev⟩ := hlist.links
  apply listRemove_other
  by_cases hus : u = s
  · exact .inl hus
  · have hout : u ∉ as ++ s :: bs := by grind
    exact .inr ⟨fun heq => hout (hnext u heq).1, fun heq => hout (hprev u heq)⟩

/-- Operations on a list of either shape: an insertion puts the node directly after the other one, a removal takes it
out, nodes of other lists keep their links, and the removal of the inserted node restores all links of the
list. -/
theorem list_append_remove (hlist : l.WellFormed kind (as ++ s :: bs)) :
    (∀ t ∉ as ++ s :: bs,
      (listAppend l s t).WellFormed kind (as ++ s :: t :: bs) ∧
        (∀ u ∉ as ++ s :: bs, u ≠ t → listAppend l s t u = l u) ∧
        ∀ u ≠ t, listRemove (listAppend l s t) t u = l u) ∧
      (listRemove l s).WellFormed kind (as ++ bs) ∧
      ∀ u ∉ as ++ bs, listRemove l s u = l u := by
  obtain ⟨hnext, -⟩ := hlist.links
  have hmem : s ∈ as ++ s :: bs := List.mem_append_right as List.mem_cons_self
  refine ⟨?_, hlist.remove, fun u hu => hlist.remove_other hu⟩
  intro t ht
  have hst : s ≠ t := fun heq => ht (heq ▸ hmem)
  refine ⟨hlist.append ht, ?_, ?_⟩
  · intro u hu hut
    exact listAppend_other hst (fun heq => hu (heq ▸ hmem)) hut fun heq => hu (hnext u heq).1
  · intro u hut
    exact listRemove_listAppend hst (fun heq => ht (hnext t heq).1) (fun n hn => (hnext n hn).2) hut

/-- `list_init` makes a ring of one node. -/
theorem Links.WellFormed.init (l : Links ν) (s : ν) : (listInit l s).WellFormed .circular [s] :=
  ListRing.init l s

/-- `list_init_null` makes a list of one node that ends with null. -/
theorem Links.WellFormed.initNull (l : Links ν) (s : ν) : (listInitNull l s).WellFormed .nullTerminated [s] := by
  constructor
  case nodup => exact List.nodup_singleton s
  case first => rw [listInitNull, Links.setPrev_prev, if_pos rfl]
  case chain => rw [Links.Chain, listInitNull, Links.setPrev_next, Links.setNext_next, if_pos rfl]

end Both

/-- A ring of node 0. -/
def oneRing : Links Nat := listInit (fun _ => ⟨none, none⟩) 0

/-- A ring of three nodes. -/
def threeRing : Links Nat := listAppend (listAppend oneRing 0 2) 0 1

theorem threeRing_wellFormed : threeRing.WellFormed .circular ([0] ++ 1 :: [2]) := by
  have hone : oneRing.WellFormed .circular ([] ++ 0 :: []) := Links.WellFormed.init _ 0
  have htwo : (listAppend oneRing 0 2).WellFormed .circular ([] ++ 0 :: [2]) := hone.append (by decide)
  exact htwo.append (by decide)

/-- A node is inserted in the middle of the ring and removed again, and the middle one is removed. -/
theorem threeRing_append_remove :
    (listAppend threeRing 1 3).WellFormed .circular [0, 1, 3, 2] ∧
      (∀ u ≠ 3, listRemove (listAppend threeRing 1 3) 3 u = threeRing u) ∧
      (listRemove threeRing 1).WellFormed .circular [0, 2] := by
  obtain ⟨happend, hremove, -⟩ := list_append_remove threeRing_wellFormed
  obtain ⟨hlist, -, hback⟩ := happend 3 (by decide)
  exact ⟨hlist, hback, hremove⟩

/-! ## Insertion before a node -/

section Prepend

variable {l : Links ν} {s t : ν} {as bs L : List ν}

/-- What is promised of `list_prepend`: the links are those that `list_append` to the node before leaves, and the
new node is directly before the other one. -/
structure PrependRight (l : Links ν) (s t : ν) (as bs : List ν) : Prop where
  links : ∀ p, (l s).prev = some p → listPrepend l s t = listAppend l p t
  list : (listPrepend l s t).WellFormed .circular (as ++ t :: s :: bs)

/-- The last store of `list_prepend` goes to the new node. -/
theorem listPrepend_next (l : Links ν) (s t : ν) : (listPrepend l s t t).next = some t := by
  simp [listPrepend, Links.setPrevNext]

omit [DecidableEq ν] in
/-- A ring of several nodes has no node that points at itself. -/
theorem Links.WellFormed.next_ne_self (hlist : l.WellFormed .circular L) (ht : t ∈ L) (hs : s ∈ L) (hne : s ≠ t) :
    (l t).next ≠ some t := by
  obtain ⟨as, bs, rfl⟩ := List.append_of_mem ht
  have hring := Links.wellFormed_circular_iff.mp hlist
  have hother : s ∈ bs ++ as := by grind
  intro hself
  rw [hring.next_head, Option.some.injEq] at hself
  have hnodup := hring.nodup
  cases hxs : bs ++ as with
  | nil =>
      rw [hxs] at hother
      exact List.not_mem_nil hother
  | cons x xs =>
      rw [hxs] at hself hnodup
      have hx : x = t := hself
      exact (List.nodup_cons.mp hnodup).1 (hx ▸ List.mem_cons_self)

/-- No ring holds both nodes after `list_prepend`. -/
theorem listPrepend_not_ring (hne : s ≠ t) (hs : s ∈ L) (ht : t ∈ L) :
    ¬ (listPrepend l s t).WellFormed .circular L :=
  fun hlist => hlist.next_ne_self ht hs hne (listPrepend_next l s t)

/-- `list_prepend` never leaves the links that `list_append` to the node before leaves. -/
theorem listPrepend_ne_listAppend {p : ν} (hlist : l.WellFormed .circular (as ++ s :: bs))
    (ht : t ∉ as ++ s :: bs) (hp : (l s).prev = some p) : listPrepend l s t ≠ listAppend l p t := by
  have hne : s ≠ t := by grind
  have hmem := hlist.links.2 p hp
  have hs : s ∈ as ++ s :: bs := List.mem_append_right as List.mem_cons_self
  intro hsame
  obtain ⟨cs, ds, hsplit⟩ := List.append_of_mem hmem
  rw [hsplit] at hlist ht hs
  have hlonger := hlist.append ht
  rw [← hsame] at hlonger
  exact listPrepend_not_ring hne (by grind) (by grind) hlonger

/-- For no ring and no node does `list_prepend` do what it says: the links differ from those after `list_append`, and
there is no ring that holds both nodes. -/
theorem listPrepend_wrong (hlist : l.WellFormed .circular (as ++ s :: bs)) (ht : t ∉ as ++ s :: bs) :
    ¬ PrependRight l s t as bs ∧
      (∀ p, (l s).prev = some p → listPrepend l s t ≠ listAppend l p t) ∧
      ∀ L, s ∈ L → t ∈ L → ¬ (listPrepend l s t).WellFormed .circular L := by
  have hne : s ≠ t := by grind
  refine ⟨?_, fun p hp => listPrepend_ne_listAppend hlist ht hp, fun L hs ht => listPrepend_not_ring hne hs ht⟩
  intro hright
  exact listPrepend_not_ring hne (by simp) (by simp) hright.list

theorem oneRing_prepend_wrong : ¬ PrependRight oneRing 0 1 [] [] := by
  have hring : oneRing.WellFormed .circular ([] ++ 0 :: []) := Links.WellFormed.init _ 0
  exact (listPrepend_wrong hring (by decide)).1

/-- The new node points at itself, and is not before the node of a ring of one node. -/
theorem prepended_node_points_at_itself :
    ¬ ∀ (l : Links Nat) (s t : Nat) (as bs : List Nat), l.WellFormed .circular (as ++ s :: bs) →
      t ∉ as ++ s :: bs → PrependRight l s t as bs := by
  intro hall
  have hright := hall oneRing 0 1 [] [] (ListRing.init _ 0) (by decide)
  have hsame := congrFun (hright.links 0 (by decide)) 1
  exact absurd hsame (by decide)

end Prepend

end Lib
end Micael
