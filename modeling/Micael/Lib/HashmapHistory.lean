import Micael.Lib.HashmapInsert

/-!
# Histories of a hash map: its size, absent keys and its end

`hm_remove` clears the flag of an item and does nothing else.  The count of a map is that of all
insertions, the item keeps its key, and a slot that had an item once has one for good.

So `hm_get_size` and the test for a full map are right until the first removal only.  The removal of
an absent key looks through the window of the key, and needs twelve slots that were all used, none
of them last for this key.  And `hm_dealloc_hashmap`, which takes the count for the number of items
and looks for them at the front of the bucket array, frees the right pointers only if they are there.

Main results:

- Theorem {lit}`hm_size_right_iff`: the count is right along a history exactly if nothing is removed.
- Theorem {lit}`hm_remove_absent_iff`: when `hm_remove` reports that a key is absent.
- Theorem {lit}`hm_dealloc_right_iff`: the teardown frees every item once, and nothing else, exactly if
  the items are those of the first slots and as many as there were insertions.
-/

namespace Micael
namespace Lib

open Foundation

variable {K : Type*} {hash : K → UInt32}

/-! ## The size -/

/-- `hm_get_size` of a map that is not null. -/
def hmGetSize (hm : Hashmap) : Nat := hm.len

/-- The keys that are present. -/
def HmState.present (s : HmState K) : Set K := {k | s.expected k ≠ none}

/-- The slots with an occupied item. -/
def Hashmap.occupiedSlots (hm : Hashmap) : Set Nat := {index | hm.Occupied index}

/-- The size is the number of keys that are present, and an insertion reports a lack of space only
when all slots of the map or all slots of the key's window are occupied. -/
structure HmState.SizeRight (hash : K → UInt32) (s : HmState K) : Prop where
  size : s.present.encard = hmGetSize s.map
  enospc : ∀ k elem, (hmInsert hash s.map k elem).1 = some .enospc →
    (∀ index < s.map.cap, s.map.Occupied index) ∨
      ∀ i < bucketMaxLen, s.map.Occupied (s.map.slot (hash k) i)

/-- The call is no removal. -/
def HmOp.Keeps : HmOp K → Prop
  | .remove _ => False
  | _ => True

/-- The count is that of the occupied slots and that of the keys that are present. -/
structure HmState.Counted (s : HmState K) : Prop where
  below : ∀ index, s.map.Occupied index → index < s.map.cap
  slots : s.map.occupiedSlots.encard = s.map.len
  keys : s.present.encard = s.map.len

theorem counted_alloc (cap : Nat) : HmState.Counted ⟨hmAllocHashmap cap, fun _ : K => none⟩ where
  below _ h := by
    obtain ⟨_, helem, -⟩ := h
    cases helem
  slots := by
    have hnone : (hmAllocHashmap cap).occupiedSlots = ∅ := by
      apply Set.eq_empty_of_forall_notMem
      rintro index ⟨_, helem, -⟩
      cases helem
    rw [hnone, Set.encard_empty]
    rfl
  keys := by
    have hnone : HmState.present ⟨hmAllocHashmap cap, fun _ : K => none⟩ = ∅ := by
      apply Set.eq_empty_of_forall_notMem
      exact fun k hk => hk rfl
    rw [hnone, Set.encard_empty]
    rfl

/-- A search for a free bucket that fails has met occupied slots only. -/
theorem findFreeLoop_none {hm : Hashmap} {key : UInt32} {n i : Nat}
    (h : findFreeLoop hm n (hm.slot key i) = none) :
    ∀ j < n, hm.Occupied (hm.slot key (i + j)) := by
  induction n generalizing i with
  | zero => omega
  | succ n ih =>
      intro j hj
      cases helem : hm.elem (hm.slot key i) with
      | none => simp [findFreeLoop, helem] at h
      | some item =>
          cases hocc : item.occupied with
          | false => simp [findFreeLoop, helem, hocc] at h
          | true =>
              simp only [findFreeLoop, helem, hocc, Bool.true_eq_false, if_false,
                Hashmap.next_slot] at h
              cases j with
              | zero => exact ⟨item, helem, hocc⟩
              | succ j =>
                  have hnext := ih h j (by omega)
                  rwa [Nat.add_assoc, Nat.add_comm 1 j] at hnext

/-- When an insertion reports a lack of space. -/
theorem hmInsert_enospc {hm : Hashmap} {k : K} {elem : Nat}
    (h : (hmInsert hash hm k elem).1 = some .enospc) :
    hm.len = hm.cap ∨ ∀ i < bucketMaxLen, hm.Occupied (hm.slot (hash k) i) := by
  unfold hmInsert at h
  by_cases hnull : elem = 0
  · simp [hnull] at h
  · by_cases hfull : hm.len = hm.cap
    · exact .inl hfull
    · by_cases hmax : hash k = uint32Max
      · simp [hnull, hfull, hmax] at h
      · right
        rw [if_neg hnull, if_neg hfull, if_neg hmax] at h
        cases hfree : hmFindFreeBucket hm (hash k) with
        | some index => simp [hfree] at h
        | none =>
            rw [hmFindFreeBucket, ← Hashmap.slot_zero] at hfree
            intro i hi
            simpa only [Nat.zero_add] using findFreeLoop_none hfree i hi

/-- A count that is right gives the size and the test for a full map. -/
theorem HmState.Counted.sizeRight {s : HmState K} (h : s.Counted) : s.SizeRight hash where
  size := h.keys
  enospc k elem herror := by
    rcases hmInsert_enospc herror with hfull | hwindow
    · left
      -- as many occupied slots as there are slots
      have hsub : s.map.occupiedSlots ⊆ Set.Iio s.map.cap := fun index => h.below index
      have hcard : (Set.Iio s.map.cap).encard ≤ s.map.occupiedSlots.encard := by
        rw [h.slots, hfull, Set.encard_eq_coe_toFinset_card]
        simp
      have hall := (Set.finite_Iio s.map.cap).eq_of_subset_of_encard_le' hsub hcard
      intro index hindex
      have hmem : index ∈ s.map.occupiedSlots := hall ▸ hindex
      exact hmem
    · exact .inr hwindow

/-- A removal vacates a slot or does nothing. -/
theorem hmRemove_cases {hm hm' : Hashmap} {k : K} {e : Option Errno}
    (hcall : hmRemove hash hm k = .ok (e, hm')) : hm' = hm ∨ ∃ index, hm' = hm.vacate index := by
  unfold hmRemove at hcall
  by_cases hmax : hash k = uint32Max
  · rw [if_pos hmax] at hcall
    exact .inl (congrArg Prod.snd (Except.ok.inj hcall)).symm
  · rw [if_neg hmax] at hcall
    obtain ⟨found, -, hend⟩ := Halt.bind_eq_ok.mp hcall
    cases found with
    | none => exact .inl (congrArg Prod.snd (Except.ok.inj hend)).symm
    | some index => exact .inr ⟨index, (congrArg Prod.snd (Except.ok.inj hend)).symm⟩

/-- A removal leaves the count. -/
theorem hmRemove_len {hm hm' : Hashmap} {k : K} {e : Option Errno}
    (hcall : hmRemove hash hm k = .ok (e, hm')) : hm'.len = hm.len := by
  rcases hmRemove_cases hcall with rfl | ⟨index, rfl⟩
  · rfl
  · rfl

section Steps

variable [DecidableEq K]

/-- A successful insertion of an absent key adds one to all counts. -/
theorem HmState.Counted.inserted {s : HmState K} (h : s.Counted) {k : K} {elem : Nat} {hm : Hashmap}
    (habsent : s.expected k = none) (hcall : hmInsert hash s.map k elem = (none, hm)) :
    HmState.Counted ⟨hm, Function.update s.expected k (some elem)⟩ := by
  have hroom : s.map.len ≠ s.map.cap := by
    intro hfull
    by_cases hnull : elem = 0
    · simp [hmInsert, hnull] at hcall
    · simp [hmInsert, hnull, hfull] at hcall
  obtain ⟨-, i, -, hvacant, -, rfl⟩ := hmInsert_eq_put hcall
  have hcap : 0 < s.map.cap := by
    by_contra hzero
    have hempty : s.map.occupiedSlots = ∅ := by
      apply Set.eq_empty_of_forall_notMem
      intro index hindex
      have := h.below index hindex
      omega
    have hslots := h.slots
    rw [hempty, Set.encard_empty] at hslots
    have hlen : s.map.len = 0 := by exact_mod_cast hslots.symm
    omega
  generalize hindex : s.map.slot (hash k) i = index at hvacant
  have hlt : index < s.map.cap := hindex ▸ Nat.mod_lt _ hcap
  have hoccupied : (s.map.put index (hash k) elem).occupiedSlots =
      insert index s.map.occupiedSlots := by
    ext index'
    constructor
    · rintro hocc
      obtain ⟨key, data, hholds⟩ := Hashmap.Occupied.holds hocc
      rw [Hashmap.put_holds_iff] at hholds
      split at hholds
      · next heq => exact Set.mem_insert_iff.mpr (.inl heq)
      · exact Set.mem_insert_of_mem _ hholds.occupied
    · rintro (rfl | hocc)
      · exact (s.map.put_holds_self _ _ _).occupied
      · exact Hashmap.Occupied.put hocc hvacant
  have hpresent : HmState.present ⟨s.map.put index (hash k) elem,
      Function.update s.expected k (some elem)⟩ = insert k s.present := by
    ext k'
    by_cases hk : k' = k
    · subst hk
      simp [HmState.present]
    · simp [HmState.present, hk]
  constructor
  case below =>
      intro index' hocc
      have hmem : index' ∈ insert index s.map.occupiedSlots := hoccupied ▸ hocc
      rcases hmem with rfl | hold
      · exact hlt
      · exact h.below index' hold
  case slots =>
      have hnew : index ∉ s.map.occupiedSlots := hvacant
      simp only [hoccupied]
      rw [Set.encard_insert_of_notMem hnew, h.slots]
      rfl
  case keys =>
      have hnew : k ∉ s.present := fun hk => hk habsent
      rw [hpresent, Set.encard_insert_of_notMem hnew, h.keys]
      rfl

/-- Without a removal the count stays right. -/
theorem HmState.Counted.step {s t : HmState K} {op : HmOp K} (h : s.Counted)
    (hstep : HmStep hash s op t) (hkeeps : op.Keeps) : t.Counted := by
  cases hstep with
  | insert habsent hcall => exact h.inserted habsent hcall
  | insertError habsent hcall => exact ⟨hmInsert_error hcall ▸ h.below,
      hmInsert_error hcall ▸ h.slots, hmInsert_error hcall ▸ h.keys⟩
  | remove hpresent hcall => exact hkeeps.elim
  | get => exact h

/-- The removal of a present key makes the size wrong. -/
theorem HmState.Counted.not_right {s t : HmState K} {op : HmOp K} (h : s.Counted)
    (hstep : HmStep hash s op t) (hright : t.SizeRight hash) : op.Keeps := by
  cases hstep with
  | insert => trivial
  | insertError => trivial
  | get => trivial
  | @remove k hm e hpresent hcall =>
      exfalso
      have hinsert : insert k (HmState.present ⟨hm, Function.update s.expected k none⟩) =
          s.present := by
        ext k'
        by_cases hk : k' = k
        · subst hk
          simpa [HmState.present] using hpresent
        · simp [HmState.present, hk]
      have hgone : k ∉ HmState.present ⟨hm, Function.update s.expected k none⟩ := by
        simp [HmState.present]
      have hbefore := h.keys
      rw [← hinsert, Set.encard_insert_of_notMem hgone, hright.size] at hbefore
      have hlen : hm.len + 1 = s.map.len := by exact_mod_cast hbefore
      rw [hmRemove_len hcall] at hlen
      omega

/-- Along a history, the size is the number of present keys and a lack of space is reported only for
want of slots exactly if nothing is removed. -/
theorem hm_size_right_iff (hash : K → UInt32) (cap : Nat) (ops : List (HmOp K)) :
    (∀ pre s, pre <+: ops → Run (HmStep hash) ⟨hmAllocHashmap cap, fun _ => none⟩ pre s →
        s.SizeRight hash) ↔
      ∀ pre op s t, pre ++ [op] <+: ops →
        Run (HmStep hash) ⟨hmAllocHashmap cap, fun _ => none⟩ pre s → HmStep hash s op t →
        op.Keeps := by
  have hkeep : ∀ s op t, HmState.Counted s → HmStep hash s op t → op.Keeps → HmState.Counted t :=
    fun _ _ _ h hstep hkeeps => h.step hstep hkeeps
  have hbreak : ∀ s op t, HmState.Counted s → HmStep hash s op t → t.SizeRight hash → op.Keeps :=
    fun _ _ _ h hstep hright => h.not_right hstep hright
  exact Run.safe_iff (fun _ h => h.sizeRight) hkeep hbreak (counted_alloc cap) ops

end Steps

/-- After an insertion and the removal of the same key the size is one, and no key is present. -/
theorem hm_size_wrong_after_remove :
    ¬ ∀ s : HmState Bool, Run (HmStep collidingKeys) ⟨hmAllocHashmap 8, fun _ => none⟩
        [.insert false 100, .remove false] s → s.SizeRight collidingKeys := by
  intro hclaim
  have hrun : ∃ s : HmState Bool, Run (HmStep collidingKeys) ⟨hmAllocHashmap 8, fun _ => none⟩
      [.insert false 100, .remove false] s ∧ hmGetSize s.map = 1 ∧ ∀ k, s.expected k = none :=
    ⟨_, (Run.nil.snoc (.insert rfl rfl)).snoc (.remove (by decide) rfl), rfl, by decide⟩
  obtain ⟨s, hrun, hone, hexpected⟩ := hrun
  have hnone : s.present = ∅ := by
    apply Set.eq_empty_of_forall_notMem
    exact fun k hk => hk (hexpected k)
  have hsize := (hclaim s hrun).size
  rw [hnone, hone, Set.encard_empty] at hsize
  exact absurd hsize (by decide)

/-! ## Absent keys -/

/-- A map, what its user expects of it, and the key that every slot was last used for. -/
structure HmHistory (K : Type*) extends HmState K where
  users : Nat → Option K

/-- One call, with any key. -/
inductive HmHistoryStep [DecidableEq K] (hash : K → UInt32) :
    HmHistory K → HmOp K → HmHistory K → Prop
  | insert {s : HmHistory K} {k : K} {elem index : Nat} {hm : Hashmap}
      (hfree : hmFindFreeBucket s.map (hash k) = some index)
      (hcall : hmInsert hash s.map k elem = (none, hm)) :
      HmHistoryStep hash s (.insert k elem)
        ⟨⟨hm, Function.update s.expected k (some elem)⟩, Function.update s.users index (some k)⟩
  | insertError {s : HmHistory K} {k : K} {elem : Nat} {hm : Hashmap} {e : Errno}
      (hcall : hmInsert hash s.map k elem = (some e, hm)) :
      HmHistoryStep hash s (.insert k elem) ⟨⟨hm, s.expected⟩, s.users⟩
  | remove {s : HmHistory K} {k : K} {hm : Hashmap} {e : Option Errno}
      (hcall : hmRemove hash s.map k = .ok (e, hm)) :
      HmHistoryStep hash s (.remove k) ⟨⟨hm, Function.update s.expected k none⟩, s.users⟩
  | get {s : HmHistory K} {k : K} : HmHistoryStep hash s (.get k) s

/-- A map that nothing was done with. -/
def hmHistoryStart (K : Type*) (cap : Nat) : HmHistory K :=
  ⟨⟨hmAllocHashmap cap, fun _ => none⟩, fun _ => none⟩

/-- A slot has an item if it was used, and the item has the hash of the key it was used for. -/
def HmHistory.Tracks (hash : K → UInt32) (s : HmHistory K) : Prop :=
  ∀ index, (s.map.elem index).map HmItem.key = (s.users index).map hash

/-- A removal changes no key of an item. -/
theorem hmRemove_keys {hm hm' : Hashmap} {k : K} {e : Option Errno}
    (hcall : hmRemove hash hm k = .ok (e, hm')) (index : Nat) :
    (hm'.elem index).map HmItem.key = (hm.elem index).map HmItem.key := by
  rcases hmRemove_cases hcall with rfl | ⟨index', rfl⟩
  · rfl
  · by_cases hindex : index = index'
    · subst hindex
      simp only [Hashmap.vacate, Function.update_self, Option.map_map]
      rfl
    · rw [Hashmap.vacate_elem_of_ne hindex]

/-- The search for a free bucket and the insertion agree on the slot. -/
theorem hmInsert_eq_put_of_free {hm hm' : Hashmap} {k : K} {elem index : Nat}
    (hfree : hmFindFreeBucket hm (hash k) = some index)
    (hcall : hmInsert hash hm k elem = (none, hm')) : hm' = hm.put index (hash k) elem := by
  unfold hmInsert at hcall
  split_ifs at hcall
  · cases hcall
  · cases hcall
  · cases hcall
  · rw [hfree] at hcall
    exact (congrArg Prod.snd hcall).symm

theorem HmHistory.Tracks.step [DecidableEq K] {s t : HmHistory K} {op : HmOp K}
    (h : s.Tracks hash) (hstep : HmHistoryStep hash s op t) : t.Tracks hash := by
  intro index
  cases hstep with
  | @insert k elem index' hm hfree hcall =>
      obtain rfl := hmInsert_eq_put_of_free hfree hcall
      by_cases hindex : index = index'
      · subst hindex
        simp [Hashmap.put]
      · simpa [Hashmap.put, hindex] using h index
  | insertError hcall =>
      obtain rfl := hmInsert_error hcall
      exact h index
  | remove hcall => exact (hmRemove_keys hcall index).trans (h index)
  | get => exact h index

/-- The loop of a removal finds nothing exactly if all its slots have items of other keys. -/
theorem removeLoop_none_iff {hm : Hashmap} {key : UInt32} {n i : Nat} :
    removeLoop hm key n (hm.slot key i) = .ok none ↔
      ∀ j < n, ∃ key', (hm.elem (hm.slot key (i + j))).map HmItem.key = some key' ∧ key' ≠ key := by
  induction n generalizing i with
  | zero => simp [removeLoop]
  | succ n ih =>
      have hshift : ∀ j, i + 1 + j = i + (j + 1) := fun j => by omega
      have hfirst : removeLoop hm key (n + 1) (hm.slot key i) = .ok none ↔
          (∃ key', (hm.elem (hm.slot key i)).map HmItem.key = some key' ∧ key' ≠ key) ∧
            removeLoop hm key n (hm.slot key (i + 1)) = .ok none := by
        cases helem : hm.elem (hm.slot key i) with
        | none => simp [removeLoop, helem]
        | some item =>
            by_cases hkey : item.key = key
            · simp [removeLoop, helem, hkey]
            · simp [removeLoop, helem, hkey, Hashmap.next_slot]
      rw [hfirst, ih]
      constructor
      · rintro ⟨hhead, hrest⟩ j hj
        cases j with
        | zero => exact hhead
        | succ j =>
            rw [← hshift]
            exact hrest j (by omega)
      · intro hall
        refine ⟨hall 0 (by omega), fun j hj => ?_⟩
        rw [hshift]
        exact hall (j + 1) (by omega)

/-- A removal reports an absent key exactly if its loop ran to the end. -/
theorem hmRemove_enoent_iff {hm : Hashmap} {k : K} :
    hmRemove hash hm k = .ok (some .enoent, hm) ↔ hash k ≠ uint32Max ∧
      removeLoop hm (hash k) bucketMaxLen (hm.slot (hash k) 0) = .ok none := by
  unfold hmRemove
  rw [Hashmap.slot_zero]
  by_cases hmax : hash k = uint32Max
  · simp [hmax]
  · rw [if_neg hmax]
    cases removeLoop hm (hash k) bucketMaxLen ((hash k).toNat % hm.cap) with
    | error e => simp [bind, Except.bind]
    | ok found =>
        cases found with
        | none => simp [bind, Except.bind, hmax, pure, Except.pure]
        | some index => simp [bind, Except.bind, hmax, pure, Except.pure]

/-- In every state of every history, the removal of an absent key reports that and changes nothing
exactly if the key is valid and all twelve slots of its window were used, each last for a key with
another hash. -/
theorem hm_remove_absent_iff [DecidableEq K] {cap : Nat} {ops : List (HmOp K)} {s : HmHistory K}
    (hrun : Run (HmHistoryStep hash) (hmHistoryStart K cap) ops s) :
    ∀ k, s.expected k = none → (hmRemove hash s.map k = .ok (some .enoent, s.map) ↔
      hash k ≠ uint32Max ∧ ∀ i < bucketMaxLen, ∃ k', s.users (s.map.slot (hash k) i) = some k' ∧
        hash k' ≠ hash k) := by
  intro k _
  have htracks : s.Tracks hash :=
    hrun.invariant (HmHistory.Tracks hash) (fun _ _ _ h hstep => h.step hstep) fun _ => rfl
  rw [hmRemove_enoent_iff, removeLoop_none_iff]
  refine and_congr_right fun _ => forall₂_congr fun i _ => ?_
  rw [Nat.zero_add, htracks]
  constructor
  · rintro ⟨key, hkey, hne⟩
    obtain ⟨k', hk', rfl⟩ := Option.map_eq_some_iff.mp hkey
    exact ⟨k', hk', hne⟩
  · rintro ⟨k', hk', hne⟩
    exact ⟨hash k', by rw [hk', Option.map_some], hne⟩

/-- A hash that `hm_add_hash_func` could set: the low half of the key. -/
def smallKeys (k : Nat) : UInt32 := UInt32.ofNat k

/-- A map of one slot that was used for the key 5: every turn of a probe meets that item. -/
theorem hm_remove_absent_of_full :
    ∃ s, Run (HmHistoryStep smallKeys) (hmHistoryStart Nat 1) [.insert 5 100] s ∧
      s.expected 6 = none ∧ hmRemove smallKeys s.map 6 = .ok (some .enoent, s.map) := by
  have hrun : ∃ s, Run (HmHistoryStep smallKeys) (hmHistoryStart Nat 1) [.insert 5 100] s ∧
      s.expected 6 = none ∧ s.users 0 = some 5 ∧ s.map.cap = 1 :=
    ⟨_, Run.nil.snoc (.insert rfl rfl), rfl, rfl, rfl⟩
  obtain ⟨s, hrun, habsent, husers, hcap⟩ := hrun
  refine ⟨s, hrun, habsent, (hm_remove_absent_iff hrun 6 habsent).mpr ⟨by decide, fun i _ => ?_⟩⟩
  refine ⟨5, ?_, by decide⟩
  rw [Hashmap.slot, hcap, Nat.mod_one, husers]

/-- The first call of a removal on a new map reads through a null pointer. -/
theorem hm_remove_absent_faults : ¬ ∀ (cap : Nat) (ops : List (HmOp Nat)) (s : HmHistory Nat),
    Run (HmHistoryStep smallKeys) (hmHistoryStart Nat cap) ops s → ∀ k, s.expected k = none →
      hmRemove smallKeys s.map k = .ok (some .enoent, s.map) := by
  intro hclaim
  have hfault : hmRemove smallKeys (hmHistoryStart Nat 8).map 3 = .error .fault := rfl
  have hcall := hclaim 8 [] (hmHistoryStart Nat 8) .nil 3 rfl
  rw [hfault] at hcall
  cases hcall

/-! ## The end of a map -/

/-- A map with its pointers: where the map object and the bucket array are, what the array holds, and
the items that were allocated for it. -/
structure HmAlloc where
  map : Hashmap
  self : Nat
  array : Nat
  elem : Nat → Nat
  items : List Nat

/-- `hm_insert`, which gets the pointer `item` if it allocates an item. -/
def hmInsertItem (hash : K → UInt32) (h : HmAlloc) (k : K) (data item : Nat) :
    Option Errno × HmAlloc :=
  let r := hmInsert hash h.map k data
  match r.1, hmFindFreeBucket h.map (hash k) with
  | none, some index =>
      if h.map.elem index = none then
        (none, { h with
          map := r.2
          elem := Function.update h.elem index item
          items := item :: h.items })
      else (none, { h with map := r.2 })
  | e, _ => (e, { h with map := r.2 })

/-- The pointers that `hm_dealloc_hashmap` passes to `kfree`, in order. -/
def hmDeallocHashmap (h : HmAlloc) : List Nat :=
  if h.self = 0 then []
  else if h.array = 0 then [h.self]
  else (List.range h.map.len).map h.elem ++ [h.array, h.self]

/-- `hm_alloc_hashmap`: `self` and `array` are what `kmalloc` and `kcalloc` returned, and `behind` is
what lies behind the array. -/
def hmAllocPointers (cap self array : Nat) (behind : Nat → Nat) : HmAlloc where
  map := hmAllocHashmap cap
  self := self
  array := array
  elem index := if index < cap then 0 else behind index
  items := []

/-- A call of a history of a map, with the pointer for a new item. -/
inductive HmAllocCall (K : Type*) where
  | insert (k : K) (data item : Nat)
  | remove (k : K)

/-- What the map has in the heap. -/
def HmAlloc.blocks (h : HmAlloc) : List Nat := h.items ++ [h.array, h.self]

/-- One call.  A new item is not null and none of the blocks that the map has. -/
inductive HmAllocStep (hash : K → UInt32) : HmAlloc → HmAllocCall K → HmAlloc → Prop
  | insert {h h' : HmAlloc} {k : K} {data item : Nat} {e : Option Errno} (hitem : item ≠ 0)
      (hfresh : item ∉ h.blocks) (hcall : hmInsertItem hash h k data item = (e, h')) :
      HmAllocStep hash h (.insert k data item) h'
  | remove {h : HmAlloc} {k : K} {hm : Hashmap} {e : Option Errno}
      (hcall : hmRemove hash h.map k = .ok (e, hm)) :
      HmAllocStep hash h (.remove k) { h with map := hm }

/-- No pointer is freed twice, none of them is null, and those that are freed are the items, the
array and the map object. -/
structure HmAlloc.FreesAll (h : HmAlloc) : Prop where
  once : (hmDeallocHashmap h).Nodup
  nonnull : 0 ∉ hmDeallocHashmap h
  exact : ∀ p, p ∈ hmDeallocHashmap h ↔ p ∈ h.items ∨ p = h.array ∨ p = h.self

/-- The slots that have an item are those before the count. -/
def HmAlloc.InFront (h : HmAlloc) : Prop :=
  ∀ index < h.map.cap, h.map.elem index ≠ none ↔ index < h.map.len

/-- The items are those that the slots point to, each slot with an item has one of its own, and all
other slots of the array are null. -/
structure HmAlloc.Pointers (h : HmAlloc) (slots : List Nat) : Prop where
  len_le : h.map.len ≤ h.map.cap
  nodup : slots.Nodup
  items : h.items = slots.map h.elem
  distinct : h.blocks.Nodup
  nonnull : 0 ∉ h.blocks
  mem_slots : ∀ index, index ∈ slots ↔ h.map.elem index ≠ none
  below : ∀ index ∈ slots, index < h.map.cap
  null : ∀ index < h.map.cap, index ∉ slots → h.elem index = 0

theorem pointers_start {self array : Nat} (cap : Nat) (behind : Nat → Nat) (hself : self ≠ 0)
    (harray : array ≠ 0) (hne : array ≠ self) :
    (hmAllocPointers cap self array behind).Pointers [] where
  len_le := Nat.zero_le _
  nodup := List.nodup_nil
  items := rfl
  distinct := by simp [HmAlloc.blocks, hmAllocPointers, hne]
  nonnull := by simp [HmAlloc.blocks, hmAllocPointers, hself.symm, harray.symm]
  mem_slots _ := by simp [hmAllocPointers, hmAllocHashmap]
  below _ h := by cases h
  null _ hlt _ := if_pos hlt

/-- The map object and the array are there, so the teardown runs its loop. -/
theorem HmAlloc.Pointers.dealloc_eq {h : HmAlloc} {slots : List Nat} (hp : h.Pointers slots) :
    hmDeallocHashmap h = (List.range h.map.len).map h.elem ++ [h.array, h.self] := by
  have hself : h.self ≠ 0 := fun hzero => hp.nonnull (by simp [HmAlloc.blocks, hzero])
  have harray : h.array ≠ 0 := fun hzero => hp.nonnull (by simp [HmAlloc.blocks, hzero])
  rw [hmDeallocHashmap, if_neg hself, if_neg harray]

/-- The teardown frees what it should exactly if it frees the blocks of the map in some order. -/
theorem HmAlloc.Pointers.freesAll_iff_perm {h : HmAlloc} {slots : List Nat} (hp : h.Pointers slots) :
    h.FreesAll ↔ (hmDeallocHashmap h).Perm h.blocks := by
  have hmem : ∀ p, p ∈ h.blocks ↔ p ∈ h.items ∨ p = h.array ∨ p = h.self := by
    simp [HmAlloc.blocks]
  constructor
  · intro hall
    apply (List.perm_ext_iff_of_nodup hall.once hp.distinct).mpr
    intro p
    rw [hall.exact, hmem]
  · intro hperm
    refine ⟨hperm.nodup_iff.mpr hp.distinct, fun hzero => hp.nonnull (hperm.mem_iff.mp hzero), ?_⟩
    intro p
    rw [hperm.mem_iff, hmem]

/-- The items are in front exactly if the teardown frees what it should. -/
theorem HmAlloc.Pointers.freesAll_iff {h : HmAlloc} {slots : List Nat} (hp : h.Pointers slots) :
    h.FreesAll ↔ h.InFront := by
  rw [hp.freesAll_iff_perm, hp.dealloc_eq, HmAlloc.blocks, List.perm_append_right_iff, hp.items]
  constructor
  · intro hperm
    -- what is freed are items, so the first slots have one
    have hsub : ∀ index ∈ List.range h.map.len, index ∈ slots := by
      intro index hindex
      have hlt : index < h.map.cap := (List.mem_range.mp hindex).trans_le hp.len_le
      by_contra hnot
      have hmem : h.elem index ∈ h.items := by
        rw [hp.items]
        exact hperm.mem_iff.mp (List.mem_map_of_mem hindex)
      rw [hp.null index hlt hnot] at hmem
      exact hp.nonnull (List.mem_append_left _ hmem)
    have hlength : slots.length = h.map.len := by
      have := hperm.length_eq
      simpa using this.symm
    have hsame : (List.range h.map.len).Perm slots := by
      apply List.Subperm.perm_of_length_le (List.subperm_of_subset List.nodup_range hsub)
      rw [List.length_range, hlength]
    intro index _
    rw [← hp.mem_slots, ← hsame.mem_iff, List.mem_range]
  · intro hfront
    apply List.Perm.map
    apply (List.perm_ext_iff_of_nodup List.nodup_range hp.nodup).mpr
    intro index
    rw [List.mem_range, hp.mem_slots]
    constructor
    · intro hlt
      exact (hfront index (hlt.trans_le hp.len_le)).mpr hlt
    · intro helem
      exact (hfront index (hp.below index ((hp.mem_slots index).mpr helem))).mp helem

/-- A successful insertion went into the slot that the search for a free bucket gave, and the count
was below the capacity. -/
theorem hmInsert_free {hm hm' : Hashmap} {k : K} {data : Nat}
    (hcall : hmInsert hash hm k data = (none, hm')) :
    hm.len ≠ hm.cap ∧ ∃ i, hmFindFreeBucket hm (hash k) = some (hm.slot (hash k) i) := by
  unfold hmInsert at hcall
  split_ifs at hcall with hnull hfull hmax
  · cases hcall
  · cases hcall
  · cases hcall
  · cases hfree : hmFindFreeBucket hm (hash k) with
    | none =>
        rw [hfree] at hcall
        cases hcall
    | some index =>
        rw [hmFindFreeBucket, ← Hashmap.slot_zero] at hfree
        obtain ⟨i, -, rfl, -⟩ := findFreeLoop_some hfree
        exact ⟨hfull, 0 + i, rfl⟩

/-- What a call of `hm_insert` does to the pointers. -/
theorem hmInsertItem_cases {h h' : HmAlloc} {k : K} {data item : Nat} {e : Option Errno}
    (hcall : hmInsertItem hash h k data item = (e, h')) :
    h' = h ∨ h.map.len ≠ h.map.cap ∧ ∃ i,
      (h.map.elem (h.map.slot (hash k) i) ≠ none ∧
          h' = { h with map := h.map.put (h.map.slot (hash k) i) (hash k) data } ∨
        h.map.elem (h.map.slot (hash k) i) = none ∧ h' = { h with
          map := h.map.put (h.map.slot (hash k) i) (hash k) data
          elem := Function.update h.elem (h.map.slot (hash k) i) item
          items := item :: h.items }) := by
  unfold hmInsertItem at hcall
  cases hinsert : hmInsert hash h.map k data with
  | mk error hm =>
      cases error with
      | some error =>
          obtain rfl := hmInsert_error hinsert
          rw [hinsert] at hcall
          exact .inl (congrArg Prod.snd hcall).symm
      | none =>
          obtain ⟨hroom, i, hfree⟩ := hmInsert_free hinsert
          obtain rfl := hmInsert_eq_put_of_free hfree hinsert
          rw [hinsert, hfree] at hcall
          refine .inr ⟨hroom, i, ?_⟩
          by_cases helem : h.map.elem (h.map.slot (hash k) i) = none
          · simp only [helem, if_true] at hcall
            exact .inr ⟨helem, (congrArg Prod.snd hcall).symm⟩
          · simp only [helem, if_false] at hcall
            exact .inl ⟨helem, (congrArg Prod.snd hcall).symm⟩

/-- The map object changes and the pointers stay. -/
theorem HmAlloc.Pointers.setMap {h : HmAlloc} {slots : List Nat} (hp : h.Pointers slots)
    {hm : Hashmap} (hcap : hm.cap = h.map.cap) (hlen : hm.len ≤ hm.cap)
    (hitem : ∀ index, hm.elem index ≠ none ↔ h.map.elem index ≠ none) :
    HmAlloc.Pointers { h with map := hm } slots where
  len_le := hlen
  nodup := hp.nodup
  items := hp.items
  distinct := hp.distinct
  nonnull := hp.nonnull
  mem_slots index := (hp.mem_slots index).trans (hitem index).symm
  below index hindex := hcap ▸ hp.below index hindex
  null index hlt := hp.null index (hcap ▸ hlt)

/-- A new item for a slot that had none. -/
theorem HmAlloc.Pointers.addItem {h : HmAlloc} {slots : List Nat} (hp : h.Pointers slots)
    {index item data : Nat} {key : UInt32} (hlt : index < h.map.cap) (hroom : h.map.len ≠ h.map.cap)
    (hnone : h.map.elem index = none) (hitem : item ≠ 0) (hfresh : item ∉ h.blocks) :
    HmAlloc.Pointers { h with
      map := h.map.put index key data
      elem := Function.update h.elem index item
      items := item :: h.items } (index :: slots) := by
  have hnew : index ∉ slots := fun hmem => (hp.mem_slots index).mp hmem hnone
  have hkeep : ∀ index' ∈ slots, Function.update h.elem index item index' = h.elem index' := by
    intro index' hmem
    apply Function.update_of_ne
    rintro rfl
    exact hnew hmem
  have hlen := hp.len_le
  constructor
  case len_le =>
      simp only [Hashmap.put]
      omega
  case nodup => exact List.nodup_cons.mpr ⟨hnew, hp.nodup⟩
  case items =>
      simp only [List.map_cons, Function.update_self, List.map_congr_left hkeep, hp.items]
  case distinct => exact List.nodup_cons.mpr ⟨hfresh, hp.distinct⟩
  case nonnull =>
      intro hzero
      rcases List.mem_cons.mp hzero with heq | hmem
      · exact hitem heq.symm
      · exact hp.nonnull hmem
  case mem_slots =>
      intro index'
      by_cases hindex : index' = index
      · subst hindex
        simp [Hashmap.put]
      · simp [Hashmap.put, hindex, hp.mem_slots]
  case below =>
      intro index' hmem
      rcases List.mem_cons.mp hmem with rfl | hmem
      · exact hlt
      · exact hp.below index' hmem
  case null =>
      intro index' hlt' hnot
      obtain ⟨hne, hnot⟩ := not_or.mp (List.mem_cons.not.mp hnot)
      exact (Function.update_of_ne hne _ _).trans (hp.null index' hlt' hnot)

/-- A call keeps the pointers in order. -/
theorem HmAlloc.Pointers.step {h h' : HmAlloc} {slots : List Nat} {call : HmAllocCall K}
    (hp : h.Pointers slots) (hstep : HmAllocStep hash h call h') : ∃ slots', h'.Pointers slots' := by
  cases hstep with
  | @remove k hm e hcall =>
      refine ⟨slots, hp.setMap ?_ ?_ fun index => ?_⟩
      · rcases hmRemove_cases hcall with rfl | ⟨index, rfl⟩
        · rfl
        · rfl
      · rcases hmRemove_cases hcall with rfl | ⟨index, rfl⟩
        · exact hp.len_le
        · exact hp.len_le
      · have hkeys := hmRemove_keys hcall index
        rw [Ne, Ne, ← Option.map_eq_none_iff (f := HmItem.key), hkeys, Option.map_eq_none_iff]
  | @insert _ k data item e hitem hfresh hcall =>
      rcases hmInsertItem_cases hcall with rfl | ⟨hroom, i, hcases⟩
      · exact ⟨slots, hp⟩
      · have hlen := hp.len_le
        have hlt : h.map.slot (hash k) i < h.map.cap := Nat.mod_lt _ (by omega)
        rcases hcases with ⟨helem, rfl⟩ | ⟨hnone, rfl⟩
        · refine ⟨slots, hp.setMap rfl (by simp only [Hashmap.put]; omega) fun index => ?_⟩
          by_cases hindex : index = h.map.slot (hash k) i
          · subst hindex
            simpa [Hashmap.put] using helem
          · simp [Hashmap.put, hindex]
        · exact ⟨_, hp.addItem hlt hroom hnone hitem hfresh⟩

/-- In every state of every history, the teardown frees every item, the array and the map object, each
once, and nothing else, exactly if the items are those of the first slots, as many as were
inserted. -/
theorem hm_dealloc_right_iff {cap self array : Nat} {behind : Nat → Nat} {calls : List (HmAllocCall K)}
    {h : HmAlloc} (hself : self ≠ 0) (harray : array ≠ 0) (hne : array ≠ self)
    (hrun : Run (HmAllocStep hash) (hmAllocPointers cap self array behind) calls h) :
    h.FreesAll ↔ h.InFront := by
  have hinv : ∃ slots, h.Pointers slots := by
    refine hrun.invariant (fun h => ∃ slots, h.Pointers slots) ?_ ?_
    · rintro s call t ⟨slots, hp⟩ hstep
      exact hp.step hstep
    · exact ⟨[], pointers_start cap behind hself harray hne⟩
  obtain ⟨slots, hp⟩ := hinv
  exact hp.freesAll_iff

/-- A map whose only item is in its first slot is torn down as it should be. -/
theorem first_slot_dealloc_right :
    ∃ h, Run (HmAllocStep smallKeys) (hmAllocPointers 8 100 200 fun _ => 0) [.insert 0 7 300] h ∧
      hmDeallocHashmap h = [300, 200, 100] ∧ h.FreesAll := by
  have hrun : ∃ h, Run (HmAllocStep smallKeys) (hmAllocPointers 8 100 200 fun _ => 0)
      [.insert 0 7 300] h ∧ hmDeallocHashmap h = [300, 200, 100] ∧ h.items = [300] ∧
      h.map.len = 1 ∧ h.map.cap = 8 ∧ ∀ index < 8, (h.map.elem index).isSome = (index < 1) :=
    ⟨_, Run.nil.snoc (.insert (by decide) (by decide) rfl), by decide, rfl, rfl, rfl, by decide⟩
  obtain ⟨h, hrun, hfreed, -, hlen, hcap, hitems⟩ := hrun
  refine ⟨h, hrun, hfreed, ?_⟩
  apply (hm_dealloc_right_iff (by decide) (by decide) (by decide) hrun).mpr
  intro index hindex
  rw [hcap] at hindex
  rw [← Option.isSome_iff_ne_none, hlen]
  simp [hitems index hindex]

/-- The item of another slot is not freed, and a null pointer is. -/
theorem second_slot_not_freed :
    ∃ h, Run (HmAllocStep smallKeys) (hmAllocPointers 8 100 200 fun _ => 0) [.insert 1 7 300] h ∧
      h.items = [300] ∧ hmDeallocHashmap h = [0, 200, 100] ∧ ¬ h.FreesAll := by
  have hrun : ∃ h, Run (HmAllocStep smallKeys) (hmAllocPointers 8 100 200 fun _ => 0)
      [.insert 1 7 300] h ∧ h.items = [300] ∧ hmDeallocHashmap h = [0, 200, 100] :=
    ⟨_, Run.nil.snoc (.insert (by decide) (by decide) rfl), rfl, by decide⟩
  obtain ⟨h, hrun, hitems, hfreed⟩ := hrun
  refine ⟨h, hrun, hitems, hfreed, fun hall => ?_⟩
  have hzero := hall.nonnull
  rw [hfreed] at hzero
  exact hzero List.mem_cons_self

end Lib
end Micael
