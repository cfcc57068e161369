import Micael.Foundation.BinaryHeap
import Micael.Foundation.Run
import Micael.Kernel.Machine

/-!
# The binary heap of the scheduler

A max-heap of key and payload pairs in an array of fixed capacity.  Removing an element that is
not the root overwrites its key with `INT_MAX`, sifts it to the root and removes the root.

Positions are an `int` in the source.  A capacity that the block allocator can serve is far below
`2 ^ 30`, so they are natural numbers here.  The heap pointer itself is not null, `kmalloc` does
not return null, and the payload type stands for the non-null pointers.

Main results:

- Theorem {lit}`maxHeapify_spec` and {lit}`siftUp_spec`: both sifts end in an ordered heap with
  the same elements.
- Theorem {lit}`removeElem_spec`: removing any element by way of the root removes just that element.
- Theorem {lit}`bheap_is_priorityMultiset`: in every run the heap is ordered and behaves as a
  multiset of pairs from which a pair of largest key is taken.
-/

namespace Micael
namespace Lib

open Foundation BinaryHeap

variable {α ω : Type}

/-! ## The heap and its operations -/

/-- `INT_MAX`. -/
def intMax : Int := 2 ^ 31 - 1

/-- `INT_MIN`. -/
def intMin : Int := -2 ^ 31

/-- `struct elem`. -/
structure Elem (α : Type) where
  key : Int
  payload : α
deriving DecidableEq, Repr

/-- `bheap_t`. -/
structure Bheap (α : Type) where
  size : Nat
  capacity : Nat
  elems : Nat → Elem α

/-- `EPP`, the elements in a page. -/
def epp : Nat := 4096 / 16

/-- `LEFT(i)`. -/
def left (i : Nat) : Nat := 2 * i + 1

/-- `RIGHT(i)`. -/
def right (i : Nat) : Nat := 2 * i + 2

/-- The key at a position. -/
def Bheap.keyAt (h : Bheap α) (i : Nat) : Int := (h.elems i).key

/-- `__swap`. -/
def Bheap.swap (h : Bheap α) (i p : Nat) : Bheap α :=
  { h with elems := Function.update (Function.update h.elems p (h.elems i)) i (h.elems p) }

/-- A test of `__max_heapify`: position `c` takes the place of `b` when its key is larger. -/
def Bheap.larger (h : Bheap α) (b c : Nat) : Nat :=
  if c < h.size ∧ h.keyAt c > h.keyAt b then c else b

/-- The position `b` of `__max_heapify`: the largest of `i` and its children. -/
def Bheap.largest (h : Bheap α) (i : Nat) : Nat := h.larger (h.larger i (left i)) (right i)

/-- `__max_heapify`, with the depth of its recursion. -/
def maxHeapify : Nat → Bheap α → Nat → Bheap α
  | 0, h, _ => h
  | depth + 1, h, i =>
      let b := h.largest i
      if b ≠ i then maxHeapify depth (h.swap i b) b else h

/-- The loop that sifts up, in `bh_insert` and `__remove_elem`, with the number of its turns. -/
def siftUp : Nat → Bheap α → Nat → Bheap α
  | 0, h, _ => h
  | turns + 1, h, i =>
      if i ≠ 0 ∧ h.keyAt i > h.keyAt (parent i) then siftUp turns (h.swap i (parent i)) (parent i)
      else h

/-- `bh_remove_max`; an error is a null pointer and the value of `errno`. -/
def bhRemoveMax (h : Bheap α) : Except Errno α × Bheap α :=
  if h.size = 0 then (.error .enoent, h)
  else if h.size = 1 then (.ok (h.elems 0).payload, { h with size := 0 })
  else
    let payload := (h.elems 0).payload
    let h' : Bheap α :=
      { h with
        elems := Function.update h.elems 0 (h.elems (h.size - 1))
        size := h.size - 1 }
    (.ok payload, maxHeapify h'.size h' 0)

/-- The element at `i` with the key that `__remove_elem` gives it. -/
def Bheap.raise (h : Bheap α) (i : Nat) : Bheap α :=
  { h with elems := Function.update h.elems i ⟨intMax, (h.elems i).payload⟩ }

/-- `__remove_elem`. -/
def removeElem (h : Bheap α) (i : Nat) : Except Errno α × Bheap α :=
  bhRemoveMax (siftUp i (h.raise i) i)

/-- `bh_init`; the pages hold what was in them before. -/
def bhInit (items : Nat) (garbage : Nat → Elem α) : Bheap α :=
  let npages := items / epp + if items % epp ≠ 0 then 1 else 0
  ⟨0, npages * epp, garbage⟩

/-- `bh_insert`.  The source returns no value after an insertion, so that its callers may not look
at one. -/
def bhInsert (h : Bheap α) (key : Int) : Option α → Except Errno Unit × Bheap α
  | none => (.error .einval, h)
  | some payload =>
      if h.size = h.capacity then (.error .enospc, h)
      else
        let h' : Bheap α :=
          { h with
            elems := Function.update h.elems h.size ⟨key, payload⟩
            size := h.size + 1 }
        (.ok (), siftUp (h'.size - 1) h' (h'.size - 1))

/-- The first position whose element satisfies `p`, from `i` on and with `n` positions left. -/
def firstFrom (p : Elem α → Bool) (h : Bheap α) : Nat → Nat → Option Nat
  | 0, _ => none
  | n + 1, i => if p (h.elems i) then some i else firstFrom p h n (i + 1)

/-- The loop of `bh_remove` and `bh_remove_pld`. -/
def removeFirst (p : Elem α → Bool) (h : Bheap α) : Except Errno α × Bheap α :=
  match firstFrom p h h.size 0 with
  | some i => removeElem h i
  | none => (.error .enoent, h)

/-- `bh_remove`. -/
def bhRemove (h : Bheap α) (key : Int) : Except Errno α × Bheap α :=
  if h.size = 0 then (.error .enoent, h) else removeFirst (fun x => x.key = key) h

/-- `bh_remove_pld`. -/
def bhRemovePld (h : Bheap α) :
    Option ω → Option (ω → α → Bool) → Except Errno α × Bheap α
  | some arg, some cc => removeFirst (fun x => cc arg x.payload) h
  | _, _ => (.error .einval, h)

/-- `bh_peek_max`. -/
def bhPeekMax (h : Bheap α) : Int := if h.size = 0 then intMin else h.keyAt 0

/-! ## The two sifts -/

theorem Bheap.swap_elems (h : Bheap α) (i p : Nat) :
    (h.swap i p).elems = h.elems ∘ Equiv.swap i p := by
  funext k
  by_cases hki : k = i
  · subst hki
    rw [swap_left]
    exact Function.update_self ..
  · by_cases hkp : k = p
    · subst hkp
      rw [swap_right]
      exact (Function.update_of_ne hki ..).trans (Function.update_self ..)
    · rw [swap_other h.elems hki hkp]
      exact (Function.update_of_ne hki ..).trans (Function.update_of_ne hkp ..)

theorem Bheap.swap_keyAt (h : Bheap α) (i p : Nat) :
    (h.swap i p).keyAt = h.keyAt ∘ Equiv.swap i p := by
  funext k
  exact congrArg Elem.key (congrFun (h.swap_elems i p) k)

/-- The pairs of a heap. -/
def Bheap.pairs (h : Bheap α) : Multiset (Elem α) := contents h.elems h.size

/-- A heap with the same pairs in another order. -/
structure Rearranged (h h' : Bheap α) : Prop where
  size : h'.size = h.size
  capacity : h'.capacity = h.capacity
  pairs : h'.pairs = h.pairs

theorem Rearranged.refl (h : Bheap α) : Rearranged h h := ⟨rfl, rfl, rfl⟩

theorem Rearranged.trans {h h' h'' : Bheap α} (hfirst : Rearranged h h')
    (hsecond : Rearranged h' h'') : Rearranged h h'' where
  size := hsecond.size.trans hfirst.size
  capacity := hsecond.capacity.trans hfirst.capacity
  pairs := hsecond.pairs.trans hfirst.pairs

theorem Rearranged.swap {h : Bheap α} {i p : Nat} (hi : i < h.size) (hp : p < h.size) :
    Rearranged h (h.swap i p) where
  size := rfl
  capacity := rfl
  pairs := by
    show contents (h.swap i p).elems h.size = contents h.elems h.size
    rw [h.swap_elems, contents_swap hi hp]

/-- The two children of a position. -/
theorem eq_left_or_right {k i : Nat} (hpos : 0 < k) (hparent : parent k = i) :
    k = left i ∨ k = right i := by
  unfold parent at hparent
  unfold left right
  omega

theorem Bheap.larger_cases (h : Bheap α) (b c : Nat) :
    h.larger b c = b ∨ h.larger b c = c ∧ c < h.size ∧ h.keyAt b < h.keyAt c := by
  by_cases hc : c < h.size ∧ h.keyAt c > h.keyAt b
  · exact .inr ⟨if_pos hc, hc.1, hc.2⟩
  · exact .inl (if_neg hc)

theorem Bheap.le_larger_left (h : Bheap α) (b c : Nat) : h.keyAt b ≤ h.keyAt (h.larger b c) := by
  rcases h.larger_cases b c with heq | ⟨heq, -, hlt⟩
  · rw [heq]
  · rw [heq]
    exact hlt.le

theorem Bheap.le_larger_right (h : Bheap α) (b : Nat) {c : Nat} (hc : c < h.size) :
    h.keyAt c ≤ h.keyAt (h.larger b c) := by
  unfold Bheap.larger
  split_ifs with hlt
  · exact le_refl _
  · exact not_lt.mp fun hgt => hlt ⟨hc, hgt⟩

/-- No child of `i` is above the position found. -/
theorem Bheap.le_largest (h : Bheap α) (i : Nat) {k : Nat} (hpos : 0 < k) (hk : k < h.size)
    (hparent : parent k = i) : h.keyAt k ≤ h.keyAt (h.largest i) := by
  rcases eq_left_or_right hpos hparent with rfl | rfl
  · exact (h.le_larger_right i hk).trans (h.le_larger_left _ _)
  · exact h.le_larger_right _ hk

/-- The position found is `i` or a child with a larger key. -/
theorem Bheap.largest_cases (h : Bheap α) (i : Nat) :
    h.largest i = i ∨
      0 < h.largest i ∧ h.largest i < h.size ∧ parent (h.largest i) = i ∧
        h.keyAt i < h.keyAt (h.largest i) := by
  have hleft : 0 < left i ∧ parent (left i) = i := by
    unfold left parent
    omega
  have hright : 0 < right i ∧ parent (right i) = i := by
    unfold right parent
    omega
  unfold Bheap.largest
  rcases h.larger_cases (h.larger i (left i)) (right i) with heq | ⟨heq, hlt, hkey⟩
  · rw [heq]
    rcases h.larger_cases i (left i) with hi | ⟨hl, hlt, hkey⟩
    · exact .inl hi
    · rw [hl]
      exact .inr ⟨hleft.1, hlt, hleft.2, hkey⟩
  · rw [heq]
    exact .inr ⟨hright.1, hlt, hright.2, (h.le_larger_left i (left i)).trans_lt hkey⟩

/-- Sifting down puts a heap in order whose only fault is at `i`, and moves nothing in or out. -/
theorem maxHeapify_spec (depth : Nat) {i : Nat} {h : Bheap α} (hdown : DownTo h.keyAt h.size i)
    (hi : i < h.size) (hdepth : h.size ≤ i + depth) :
    Ordered (maxHeapify depth h i).keyAt (maxHeapify depth h i).size ∧
      Rearranged h (maxHeapify depth h i) := by
  induction depth generalizing h i with
  | zero => omega
  | succ depth ih =>
      rw [maxHeapify]
      rcases h.largest_cases i with hstop | ⟨hpos, hlt, hparent, hkey⟩
      · rw [if_neg (not_not_intro hstop)]
        refine ⟨hdown.ordered fun k hkpos hk hkp => ?_, .refl h⟩
        exact hstop ▸ h.le_largest i hkpos hk hkp
      · have hib : i < h.largest i := by
          have hlt := parent_lt hpos
          rwa [hparent] at hlt
        rw [if_pos hib.ne']
        have hmoved : DownTo (h.swap i (h.largest i)).keyAt h.size (h.largest i) := by
          rw [h.swap_keyAt]
          exact hdown.swap hpos hlt hparent hkey fun k => h.le_largest i
        obtain ⟨hordered, hrest⟩ := ih hmoved hlt (by simp only [Bheap.swap]; omega)
        exact ⟨hordered, (Rearranged.swap hi hlt).trans hrest⟩

/-- Sifting up puts a heap in order whose only fault is at `i`, and moves nothing in or out. -/
theorem siftUp_spec {turns i : Nat} {h : Bheap α} (hup : UpTo h.keyAt h.size i)
    (hi : i < h.size) (hturns : i ≤ turns) :
    Ordered (siftUp turns h i).keyAt (siftUp turns h i).size ∧
      Rearranged h (siftUp turns h i) := by
  induction turns generalizing h i with
  | zero => exact ⟨hup.ordered (.inl (by omega)), .refl h⟩
  | succ turns ih =>
      rw [siftUp]
      by_cases hgo : i ≠ 0 ∧ h.keyAt i > h.keyAt (parent i)
      · have hpos : 0 < i := Nat.pos_of_ne_zero hgo.1
        have hlt := parent_lt hpos
        rw [if_pos hgo]
        have hmoved : UpTo (h.swap i (parent i)).keyAt h.size (parent i) := by
          rw [h.swap_keyAt]
          exact hup.swap hpos hi hgo.2
        obtain ⟨hordered, hrest⟩ := ih hmoved (hlt.trans hi) (by omega)
        exact ⟨hordered, (Rearranged.swap hi (hlt.trans hi)).trans hrest⟩
      · rw [if_neg hgo]
        refine ⟨hup.ordered ?_, .refl h⟩
        by_cases hzero : i = 0
        · exact .inl hzero
        · exact .inr (not_lt.mp fun hlt => hgo ⟨hzero, hlt⟩)

/-- An element above all before it is sifted to the root. -/
theorem siftUp_root {turns i : Nat} {h : Bheap α} (hkeys : ∀ k < i, h.keyAt k < h.keyAt i)
    (hturns : i ≤ turns) : (siftUp turns h i).elems 0 = h.elems i := by
  induction turns generalizing h i with
  | zero =>
      obtain rfl : i = 0 := by omega
      rfl
  | succ turns ih =>
      rw [siftUp]
      by_cases hzero : i = 0
      · subst hzero
        rw [if_neg fun h => h.1 rfl]
      · have hlt := parent_lt (Nat.pos_of_ne_zero hzero)
        rw [if_pos ⟨hzero, hkeys _ hlt⟩, ih ?_ (by omega)]
        · rw [h.swap_elems, swap_right]
        · intro k hk
          rw [h.swap_keyAt, swap_right, swap_other h.keyAt (by omega) (by omega)]
          exact hkeys k (by omega)

/-! ## The operations on a heap in order -/

/-- The heap `h'` is in order and has the pairs of `h` without `x`. -/
structure Took (h h' : Bheap α) (x : Elem α) : Prop where
  ordered : Ordered h'.keyAt h'.size
  capacity : h'.capacity = h.capacity
  pairs : h.pairs = x ::ₘ h'.pairs

theorem Bheap.card_pairs (h : Bheap α) : Multiset.card h.pairs = h.size :=
  card_contents h.elems h.size

theorem Bheap.mem_pairs {h : Bheap α} {x : Elem α} : x ∈ h.pairs ↔ ∃ k < h.size, h.elems k = x :=
  mem_contents

/-- The heap with its last element moved to the root, as `__max_heapify` finds it. -/
def Bheap.lastToRoot (h : Bheap α) : Bheap α :=
  { h with
    elems := Function.update h.elems 0 (h.elems (h.size - 1))
    size := h.size - 1 }

theorem Bheap.lastToRoot_pairs (h : Bheap α) (hsize : 1 < h.size) :
    h.elems 0 ::ₘ h.lastToRoot.pairs = h.pairs := by
  obtain ⟨n, hn⟩ : ∃ n, h.size = n + 1 := ⟨h.size - 1, by omega⟩
  have hroot : h.elems 0 ::ₘ contents (Function.update h.elems 0 (h.elems n)) n =
      h.elems n ::ₘ contents h.elems n := contents_update (by omega) _
  unfold Bheap.pairs Bheap.lastToRoot
  rw [hn, Nat.add_sub_cancel, hroot, contents_succ]

theorem Bheap.lastToRoot_downTo {h : Bheap α} (hordered : Ordered h.keyAt h.size) :
    DownTo h.lastToRoot.keyAt h.lastToRoot.size 0 := by
  have hkeep : ∀ k, 0 < k → h.lastToRoot.keyAt k = h.keyAt k := by
    intro k hk
    exact congrArg Elem.key (Function.update_of_ne hk.ne' ..)
  constructor
  · intro k hpos hk hparent
    rw [hkeep k hpos, hkeep (parent k) (Nat.pos_of_ne_zero hparent)]
    exact hordered k hpos (lt_of_lt_of_le hk (Nat.sub_le _ _))
  · intro hzero
    exact absurd hzero (lt_irrefl 0)

/-- `bh_remove_max` takes the root. -/
theorem bhRemoveMax_spec {h : Bheap α} (hordered : Ordered h.keyAt h.size) (hsize : 0 < h.size) :
    ∃ h', bhRemoveMax h = (.ok (h.elems 0).payload, h') ∧ Took h h' (h.elems 0) := by
  unfold bhRemoveMax
  rw [if_neg hsize.ne']
  by_cases hone : h.size = 1
  · rw [if_pos hone]
    refine ⟨_, rfl, ?_, rfl, ?_⟩
    · intro k _ hk
      exact absurd hk (Nat.not_lt_zero k)
    · unfold Bheap.pairs
      rw [hone, contents_succ]
  · rw [if_neg hone]
    have hmany : 1 < h.size := by omega
    obtain ⟨hdone, hrest⟩ := maxHeapify_spec (h.size - 1)
      (h.lastToRoot_downTo hordered) (Nat.sub_pos_of_lt hmany) (by simp [Bheap.lastToRoot])
    refine ⟨_, rfl, hdone, hrest.capacity, ?_⟩
    rw [← h.lastToRoot_pairs hmany]
    exact congrArg _ hrest.pairs.symm

theorem Bheap.raise_keyAt_self (h : Bheap α) (i : Nat) : (h.raise i).keyAt i = intMax := by
  simp [Bheap.raise, Bheap.keyAt]

theorem Bheap.raise_keyAt_other (h : Bheap α) {i k : Nat} (hk : k ≠ i) :
    (h.raise i).keyAt k = h.keyAt k := by
  simp [Bheap.raise, Bheap.keyAt, hk]

/-- A raised key is out of order with its parent only. -/
theorem Bheap.raise_upTo {h : Bheap α} {i : Nat} (hordered : Ordered h.keyAt h.size)
    (hi : i < h.size) (hbelow : ∀ k < h.size, h.keyAt k < intMax) :
    UpTo (h.raise i).keyAt h.size i := by
  constructor
  · intro k hpos hk hki
    rw [h.raise_keyAt_other hki]
    by_cases hparent : parent k = i
    · rw [hparent, h.raise_keyAt_self]
      exact (hbelow k hk).le
    · rw [h.raise_keyAt_other hparent]
      exact hordered k hpos hk
  · intro hipos k hpos hk hparent
    have hki := parent_lt hpos
    have hip := parent_lt hipos
    rw [h.raise_keyAt_other (by omega : k ≠ i), h.raise_keyAt_other (by omega : parent i ≠ i)]
    calc h.keyAt k ≤ h.keyAt (parent k) := hordered k hpos hk
      _ = h.keyAt i := by rw [hparent]
      _ ≤ h.keyAt (parent i) := hordered i hipos hi

/-- `__remove_elem` takes the element at its position, though its key was overwritten. -/
theorem removeElem_spec {h : Bheap α} {i : Nat} (hordered : Ordered h.keyAt h.size)
    (hi : i < h.size) (hbelow : ∀ k < h.size, h.keyAt k < intMax) :
    ∃ h', removeElem h i = (.ok (h.elems i).payload, h') ∧ Took h h' (h.elems i) := by
  obtain ⟨hsifted, hsame⟩ := siftUp_spec (h := h.raise i) (h.raise_upTo hordered hi hbelow) hi
    (le_refl i)
  have hroot : (siftUp i (h.raise i) i).elems 0 = ⟨intMax, (h.elems i).payload⟩ := by
    rw [siftUp_root _ (le_refl i)]
    · exact Function.update_self ..
    · intro k hk
      rw [h.raise_keyAt_self, h.raise_keyAt_other hk.ne]
      exact hbelow k (hk.trans hi)
  obtain ⟨h', hmax, htook⟩ := bhRemoveMax_spec hsifted (by rw [hsame.size]; exact Nat.zero_lt_of_lt hi)
  rw [hroot] at hmax htook
  refine ⟨h', hmax, htook.ordered, htook.capacity.trans hsame.capacity, ?_⟩
  have hraised : h.elems i ::ₘ (h.raise i).pairs = ⟨intMax, (h.elems i).payload⟩ ::ₘ h.pairs :=
    contents_update hi _
  rw [← hsame.pairs, htook.pairs, Multiset.cons_swap] at hraised
  exact (Multiset.cons_inj_right _).mp hraised.symm

/-- The heap with a pair behind its last element, as the loop of `bh_insert` finds it. -/
def Bheap.append (h : Bheap α) (x : Elem α) : Bheap α :=
  { h with
    elems := Function.update h.elems h.size x
    size := h.size + 1 }

theorem Bheap.append_keyAt_other (h : Bheap α) (x : Elem α) {k : Nat} (hk : k < h.size) :
    (h.append x).keyAt k = h.keyAt k := by
  simp [Bheap.append, Bheap.keyAt, hk.ne]

theorem Bheap.append_pairs (h : Bheap α) (x : Elem α) : (h.append x).pairs = x ::ₘ h.pairs := by
  have hkeep : contents (Function.update h.elems h.size x) h.size = contents h.elems h.size :=
    contents_congr fun k hk => Function.update_of_ne hk.ne ..
  show contents (Function.update h.elems h.size x) (h.size + 1) = x ::ₘ contents h.elems h.size
  rw [contents_succ, hkeep, Function.update_self]

/-- A new last element is out of order with its parent only. -/
theorem Bheap.append_upTo {h : Bheap α} (hordered : Ordered h.keyAt h.size) (x : Elem α) :
    UpTo (h.append x).keyAt (h.append x).size h.size := by
  constructor
  · intro k hpos hk hkne
    have hk' : k < h.size := lt_of_le_of_ne (Nat.le_of_lt_succ hk) hkne
    rw [h.append_keyAt_other x hk', h.append_keyAt_other x ((parent_lt hpos).trans hk')]
    exact hordered k hpos hk'
  · intro _ k hpos hk hparent
    have hlt := parent_lt hpos
    have hk' : k < h.size + 1 := hk
    omega

/-- `bh_insert` of a payload into a heap that is not full adds the pair. -/
theorem bhInsert_spec {h : Bheap α} (hordered : Ordered h.keyAt h.size)
    (hfull : h.size ≠ h.capacity) (key : Int) (payload : α) :
    ∃ h', bhInsert h key (some payload) = (.ok (), h') ∧ Ordered h'.keyAt h'.size ∧
      h'.capacity = h.capacity ∧ h'.pairs = ⟨key, payload⟩ ::ₘ h.pairs := by
  obtain ⟨hsifted, hsame⟩ := siftUp_spec (h.append_upTo hordered ⟨key, payload⟩)
    (Nat.lt_succ_self h.size) (le_refl h.size)
  refine ⟨_, if_neg hfull, hsifted, hsame.capacity, ?_⟩
  exact hsame.pairs.trans (h.append_pairs ⟨key, payload⟩)

theorem firstFrom_some {p : Elem α → Bool} {h : Bheap α} {n i k : Nat}
    (hfound : firstFrom p h n i = some k) : k < i + n ∧ p (h.elems k) = true := by
  induction n generalizing i with
  | zero => exact absurd hfound (by simp [firstFrom])
  | succ n ih =>
      rw [firstFrom] at hfound
      by_cases hp : p (h.elems i) = true
      · rw [if_pos hp] at hfound
        obtain rfl := Option.some.inj hfound
        exact ⟨by omega, hp⟩
      · rw [if_neg hp] at hfound
        obtain ⟨hk, hpk⟩ := ih hfound
        exact ⟨by omega, hpk⟩

theorem firstFrom_none {p : Elem α → Bool} {h : Bheap α} {n i : Nat}
    (hfound : firstFrom p h n i = none) : ∀ k, i ≤ k → k < i + n → p (h.elems k) = false := by
  induction n generalizing i with
  | zero =>
      intro k hik hk
      omega
  | succ n ih =>
      intro k hik hk
      rw [firstFrom] at hfound
      by_cases hp : p (h.elems i) = true
      · rw [if_pos hp] at hfound
        exact absurd hfound (by simp)
      · rw [if_neg hp] at hfound
        rcases Nat.eq_or_lt_of_le hik with rfl | hlt
        · exact Bool.eq_false_iff.mpr hp
        · exact ih hfound k hlt (by omega)

/-- The loops of `bh_remove` and `bh_remove_pld` take a pair that satisfies the test, and fail
without a change when there is none. -/
theorem removeFirst_spec {h : Bheap α} (p : Elem α → Bool) (hordered : Ordered h.keyAt h.size)
    (hbelow : ∀ x ∈ h.pairs, x.key < intMax) :
    (∃ x h', removeFirst p h = (.ok x.payload, h') ∧ p x = true ∧ Took h h' x) ∨
      removeFirst p h = (.error .enoent, h) ∧ ∀ x ∈ h.pairs, p x = false := by
  unfold removeFirst
  generalize hfound : firstFrom p h h.size 0 = found
  cases found with
  | none =>
      refine .inr ⟨rfl, fun x hx => ?_⟩
      obtain ⟨k, hk, rfl⟩ := Bheap.mem_pairs.mp hx
      exact firstFrom_none hfound k (Nat.zero_le k) (by omega)
  | some i =>
      obtain ⟨hi, hpi⟩ := firstFrom_some hfound
      obtain ⟨h', heq, htook⟩ := removeElem_spec hordered (by omega : i < h.size)
        fun k hk => hbelow _ (Bheap.mem_pairs.mpr ⟨k, hk, rfl⟩)
      exact .inl ⟨h.elems i, h', heq, hpi, htook⟩

/-! ## Runs -/

/-- A call of the heap with its result. -/
inductive BhCall (α ω : Type) where
  | insert (key : Int) (payload : Option α) (r : Except Errno Unit)
  | removeMax (r : Except Errno α)
  | remove (key : Int) (r : Except Errno α)
  | removePld (arg : Option ω) (cc : Option (ω → α → Bool)) (r : Except Errno α)
  | peekMax (r : Int)

/-- One call of the heap. -/
def BhStep (h : Bheap α) (call : BhCall α ω) (h' : Bheap α) : Prop :=
  match call with
  | .insert key payload r => bhInsert h key payload = (r, h')
  | .removeMax r => bhRemoveMax h = (r, h')
  | .remove key r => bhRemove h key = (r, h')
  | .removePld arg cc r => bhRemovePld h arg cc = (r, h')
  | .peekMax r => bhPeekMax h = r ∧ h' = h

/-- A key that is inserted is below `INT_MAX`. -/
def BhCall.KeyBelow : BhCall α ω → Prop
  | .insert key _ _ => key < intMax
  | _ => True

/-- The pair `x` has the largest key. -/
def Largest (x : Elem α) (m : Multiset (Elem α)) : Prop := ∀ y ∈ m, y.key ≤ x.key

/-- A priority multiset that holds at most `cap` pairs. -/
inductive PqStep (cap : Nat) :
    Multiset (Elem α) → BhCall α ω → Multiset (Elem α) → Prop
  | insert {m key payload} (hroom : Multiset.card m < cap) :
      PqStep cap m (.insert key (some payload) (.ok ())) (⟨key, payload⟩ ::ₘ m)
  | insertFull {m key payload} (hfull : Multiset.card m = cap) :
      PqStep cap m (.insert key (some payload) (.error .enospc)) m
  | insertNull {m key} : PqStep cap m (.insert key none (.error .einval)) m
  | removeMax {x m} (hmax : Largest x (x ::ₘ m)) :
      PqStep cap (x ::ₘ m) (.removeMax (.ok x.payload)) m
  | removeMaxEmpty : PqStep cap 0 (.removeMax (.error .enoent)) 0
  | remove {x m key} (hkey : x.key = key) :
      PqStep cap (x ::ₘ m) (.remove key (.ok x.payload)) m
  | removeMissing {m key} (hkey : ∀ x ∈ m, x.key ≠ key) :
      PqStep cap m (.remove key (.error .enoent)) m
  | removePld {x m arg cc} (hcc : cc arg x.payload = true) :
      PqStep cap (x ::ₘ m) (.removePld (some arg) (some cc) (.ok x.payload)) m
  | removePldMissing {m arg cc} (hcc : ∀ x ∈ m, cc arg x.payload = false) :
      PqStep cap m (.removePld (some arg) (some cc) (.error .enoent)) m
  | removePldNull {m arg cc} (hnull : arg = none ∨ cc = none) :
      PqStep cap m (.removePld arg cc (.error .einval)) m
  | peekMax {x m} (hx : x ∈ m) (hmax : Largest x m) : PqStep cap m (.peekMax x.key) m
  | peekMaxEmpty : PqStep cap 0 (.peekMax intMin) 0

/-- The heap holds the pairs `m` in order. -/
structure HoldsPairs (cap : Nat) (h : Bheap α) (m : Multiset (Elem α)) : Prop where
  ordered : Ordered h.keyAt h.size
  pairs : h.pairs = m
  capacity : h.capacity = cap
  fits : Multiset.card m ≤ cap
  below : ∀ x ∈ m, x.key < intMax

variable {cap : Nat} {h h' : Bheap α} {m : Multiset (Elem α)}

theorem HoldsPairs.card (hm : HoldsPairs cap h m) : Multiset.card m = h.size := by
  rw [← hm.pairs, h.card_pairs]

/-- The root of a heap that is not empty is a pair of largest key. -/
theorem HoldsPairs.root (hm : HoldsPairs cap h m) (hsize : 0 < h.size) :
    h.elems 0 ∈ m ∧ Largest (h.elems 0) m := by
  rw [← hm.pairs]
  refine ⟨Bheap.mem_pairs.mpr ⟨0, hsize, rfl⟩, fun y hy => ?_⟩
  obtain ⟨k, hk, rfl⟩ := Bheap.mem_pairs.mp hy
  exact hm.ordered.le_root k hk

/-- Taking a pair out of a heap takes it out of its pairs. -/
theorem HoldsPairs.took {x : Elem α} (hm : HoldsPairs cap h m) (htook : Took h h' x) :
    ∃ m', m = x ::ₘ m' ∧ HoldsPairs cap h' m' := by
  have hpairs : m = x ::ₘ h'.pairs := hm.pairs.symm.trans htook.pairs
  refine ⟨h'.pairs, hpairs, htook.ordered, rfl, htook.capacity.trans hm.capacity, ?_, ?_⟩
  · have hcard := congrArg Multiset.card hpairs
    rw [Multiset.card_cons] at hcard
    have hfits := hm.fits
    omega
  · intro y hy
    exact hm.below y (hpairs ▸ Multiset.mem_cons_of_mem hy)

theorem HoldsPairs.insert_step {key : Int} {payload : Option α} {r : Except Errno Unit}
    (hm : HoldsPairs cap h m) (hkey : key < intMax) (hstep : bhInsert h key payload = (r, h')) :
    ∃ m', PqStep (ω := ω) cap m (.insert key payload r) m' ∧ HoldsPairs cap h' m' := by
  cases payload with
  | none =>
      obtain ⟨rfl, rfl⟩ := Prod.mk.inj hstep
      exact ⟨m, .insertNull, hm⟩
  | some payload =>
      by_cases hfull : h.size = h.capacity
      · have hret : bhInsert h key (some payload) = (.error .enospc, h) := if_pos hfull
        obtain ⟨rfl, rfl⟩ := Prod.mk.inj (hret.symm.trans hstep)
        exact ⟨m, .insertFull (by rw [hm.card, hfull, hm.capacity]), hm⟩
      · obtain ⟨t, hret, hordered, hcap, hpairs⟩ := bhInsert_spec hm.ordered hfull key payload
        obtain ⟨rfl, rfl⟩ := Prod.mk.inj (hret.symm.trans hstep)
        have hroom : Multiset.card m < cap := by
          refine lt_of_le_of_ne hm.fits fun heq => hfull ?_
          rw [← hm.card, heq, hm.capacity]
        refine ⟨_, .insert hroom, hordered, ?_, hcap.trans hm.capacity, ?_, ?_⟩
        · rw [hpairs, hm.pairs]
        · rw [Multiset.card_cons]
          exact hroom
        · intro x hx
          rcases Multiset.mem_cons.mp hx with rfl | hx
          · exact hkey
          · exact hm.below x hx

theorem HoldsPairs.removeMax_step {r : Except Errno α} (hm : HoldsPairs cap h m)
    (hstep : bhRemoveMax h = (r, h')) :
    ∃ m', PqStep (ω := ω) cap m (.removeMax r) m' ∧ HoldsPairs cap h' m' := by
  rcases Nat.eq_zero_or_pos h.size with hzero | hpos
  · have hret : bhRemoveMax h = (.error .enoent, h) := if_pos hzero
    obtain ⟨rfl, rfl⟩ := Prod.mk.inj (hret.symm.trans hstep)
    obtain rfl : m = 0 := Multiset.card_eq_zero.mp (hm.card.trans hzero)
    exact ⟨0, .removeMaxEmpty, hm⟩
  · obtain ⟨t, hret, htook⟩ := bhRemoveMax_spec hm.ordered hpos
    obtain ⟨rfl, rfl⟩ := Prod.mk.inj (hret.symm.trans hstep)
    have hroot := (hm.root hpos).2
    obtain ⟨m', rfl, hm'⟩ := hm.took htook
    exact ⟨m', .removeMax hroot, hm'⟩

theorem HoldsPairs.remove_step {key : Int} {r : Except Errno α} (hm : HoldsPairs cap h m)
    (hstep : bhRemove h key = (r, h')) :
    ∃ m', PqStep (ω := ω) cap m (.remove key r) m' ∧ HoldsPairs cap h' m' := by
  rcases Nat.eq_zero_or_pos h.size with hzero | hpos
  · have hret : bhRemove h key = (.error .enoent, h) := if_pos hzero
    obtain ⟨rfl, rfl⟩ := Prod.mk.inj (hret.symm.trans hstep)
    obtain rfl : m = 0 := Multiset.card_eq_zero.mp (hm.card.trans hzero)
    exact ⟨0, .removeMissing (by simp), hm⟩
  · have hloop : bhRemove h key = removeFirst (fun x => x.key = key) h := if_neg hpos.ne'
    rw [hloop] at hstep
    rcases removeFirst_spec (fun x => x.key = key) hm.ordered (hm.pairs ▸ hm.below)
      with ⟨x, t, hret, hx, htook⟩ | ⟨hret, hnone⟩
    · obtain ⟨rfl, rfl⟩ := Prod.mk.inj (hret.symm.trans hstep)
      obtain ⟨m', rfl, hm'⟩ := hm.took htook
      exact ⟨m', .remove (of_decide_eq_true hx), hm'⟩
    · obtain ⟨rfl, rfl⟩ := Prod.mk.inj (hret.symm.trans hstep)
      rw [hm.pairs] at hnone
      exact ⟨m, .removeMissing fun x hx => of_decide_eq_false (hnone x hx), hm⟩

theorem HoldsPairs.removePld_step {arg : Option ω} {cc : Option (ω → α → Bool)}
    {r : Except Errno α} (hm : HoldsPairs cap h m) (hstep : bhRemovePld h arg cc = (r, h')) :
    ∃ m', PqStep cap m (.removePld arg cc r) m' ∧ HoldsPairs cap h' m' := by
  by_cases hnull : arg = none ∨ cc = none
  · have hret : bhRemovePld h arg cc = (.error .einval, h) := by
      rcases hnull with rfl | rfl
      · rfl
      · cases arg <;> rfl
    obtain ⟨rfl, rfl⟩ := Prod.mk.inj (hret.symm.trans hstep)
    exact ⟨m, .removePldNull hnull, hm⟩
  · obtain ⟨hargne, hccne⟩ := not_or.mp hnull
    obtain ⟨a, rfl⟩ := Option.ne_none_iff_exists'.mp hargne
    obtain ⟨c, rfl⟩ := Option.ne_none_iff_exists'.mp hccne
    rcases removeFirst_spec (fun x => c a x.payload) hm.ordered (hm.pairs ▸ hm.below)
      with ⟨x, t, hret, hx, htook⟩ | ⟨hret, hnone⟩
    · obtain ⟨rfl, rfl⟩ := Prod.mk.inj (hret.symm.trans hstep)
      obtain ⟨m', rfl, hm'⟩ := hm.took htook
      exact ⟨m', .removePld hx, hm'⟩
    · obtain ⟨rfl, rfl⟩ := Prod.mk.inj (hret.symm.trans hstep)
      rw [hm.pairs] at hnone
      exact ⟨m, .removePldMissing hnone, hm⟩

theorem HoldsPairs.peekMax_step {r : Int} (hm : HoldsPairs cap h m) (hret : bhPeekMax h = r) :
    PqStep (ω := ω) cap m (.peekMax r) m := by
  subst hret
  unfold bhPeekMax
  rcases Nat.eq_zero_or_pos h.size with hzero | hpos
  · obtain rfl : m = 0 := Multiset.card_eq_zero.mp (hm.card.trans hzero)
    rw [if_pos hzero]
    exact .peekMaxEmpty
  · rw [if_neg hpos.ne']
    exact .peekMax (hm.root hpos).1 (hm.root hpos).2

/-- One call keeps the heap in step with its pairs. -/
theorem HoldsPairs.step {call : BhCall α ω} (hm : HoldsPairs cap h m)
    (hstep : BhStep h call h') (hkey : call.KeyBelow) :
    ∃ m', PqStep cap m call m' ∧ HoldsPairs cap h' m' := by
  cases call with
  | insert key payload r => exact hm.insert_step hkey hstep
  | removeMax r => exact hm.removeMax_step hstep
  | remove key r => exact hm.remove_step hstep
  | removePld arg cc r => exact hm.removePld_step hstep
  | peekMax r =>
      obtain ⟨hret, rfl⟩ := hstep
      exact ⟨m, hm.peekMax_step hret, hm⟩

/-- Every run from an empty heap is a run of the priority multiset with the same results, that ends
in the pairs of the heap; the heap is in order, and an insertion into a full heap changes nothing. -/
theorem bheap_is_priorityMultiset {h₀ : Bheap α} {calls : List (BhCall α ω)}
    (hempty : h₀.size = 0) (hrun : Run BhStep h₀ calls h)
    (hkeys : ∀ call ∈ calls, call.KeyBelow) :
    Run (PqStep h₀.capacity) 0 calls h.pairs ∧
      (∀ i, 0 < i → i < h.size → h.keyAt i ≤ h.keyAt (parent i)) ∧
      ∀ key payload, Multiset.card h.pairs = h₀.capacity →
        bhInsert h key (some payload) = (.error .enospc, h) := by
  have hstart : HoldsPairs h₀.capacity h₀ 0 := by
    refine ⟨fun k _ hk => ?_, ?_, rfl, Nat.zero_le _, by simp⟩
    · omega
    · unfold Bheap.pairs
      rw [hempty, contents_zero]
  obtain ⟨m, habs, hm⟩ := Run.simulation (HoldsPairs h₀.capacity)
    (fun _ _ _ _ hm hstep => hm.step hstep.1 hstep.2) (hrun.restrict hkeys) hstart
  rw [hm.pairs]
  refine ⟨habs, hm.ordered, fun key payload hfull => if_pos ?_⟩
  rw [← hm.card, hfull, hm.capacity]

/-- A heap of 256 pairs whose pages were zeroed. -/
def zeroedHeap : Bheap Nat := bhInit 1 fun _ => ⟨0, 0⟩

/-- The heap after one insertion. -/
def onePair : Bheap Nat := (bhInsert zeroedHeap 3 (some 30)).2

/-- The heap after two insertions. -/
def twoPairs : Bheap Nat := (bhInsert onePair 5 (some 50)).2

theorem bheap_is_priorityMultiset_two :
    (bhRemoveMax twoPairs).2.size = 1 ∧
      Run (PqStep (ω := Unit) 256) 0
        [.insert 3 (some 30) (.ok ()), .insert 5 (some 50) (.ok ()), .removeMax (.ok 50)]
        (bhRemoveMax twoPairs).2.pairs := by
  have hfirst : BhStep (ω := Unit) zeroedHeap (.insert 3 (some 30) (.ok ())) onePair := rfl
  have hsecond : BhStep (ω := Unit) onePair (.insert 5 (some 50) (.ok ())) twoPairs := rfl
  have hthird : BhStep (ω := Unit) twoPairs (.removeMax (.ok 50)) (bhRemoveMax twoPairs).2 := rfl
  refine ⟨rfl, ?_⟩
  refine (bheap_is_priorityMultiset rfl (.snoc (.snoc (.snoc .nil hfirst) hsecond) hthird) ?_).1
  simp [BhCall.KeyBelow, intMax]

end Lib
end Micael
