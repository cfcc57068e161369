import Micael.Lib.Hashmap

/-!
# Maps that are only inserted into

`hm_insert` does not look for its key, so a key that is inserted again is stored twice, and its
first entry is the one that lookups find.  As long as nothing is removed, every entry is
behind occupied slots only, and an insertion changes no lookup that has found something.

Main results:

- Theorem {lit}`Hashmap.Grown.insert`: insertions keep the entries in reach.
- Theorem {lit}`Hashmap.Grown.hmGet_insert`: what every lookup gives after an insertion.
- Theorem {lit}`hmRemove_of_get`: a key that a lookup finds is removed without a fault.
- Theorem {lit}`Hashmap.Grown.hmRemove_absent`: the removal of an absent key changes nothing.
- Theorem {lit}`hmHashNum_injective`: distinct numbers have distinct hashes.
-/

namespace Micael
namespace Lib

variable {K : Type*} {hash : K → UInt32} {hm hm' : Hashmap} {k k' : K} {elem : Nat}

/-! ## Lookups -/

/-- Turn {lit}`i` of the probe for a key is the first one that meets the key, and the slots
before it are occupied. -/
structure Hashmap.FoundAt (hm : Hashmap) (key : UInt32) (i data : Nat) : Prop where
  lt : i < bucketMaxLen
  holds : hm.Holds (hm.slot key i) key data
  path : ∀ j < i, ∃ key' data', hm.Holds (hm.slot key j) key' data' ∧ key' ≠ key

/-- A lookup returns the first entry of its key. -/
theorem Hashmap.FoundAt.hmGet {i data : Nat} (h : hm.FoundAt (hash k) i data)
    (hvalid : hash k ≠ uint32Max) : hmGet hash hm k = data := by
  obtain ⟨n, hn⟩ : ∃ n, bucketMaxLen - i = n + 1 := ⟨bucketMaxLen - i - 1, by have := h.lt; omega⟩
  have helem : hm.elem (hm.slot (hash k) i) = some ⟨data, hash k, true⟩ := h.holds
  rw [Lib.hmGet, if_neg hvalid, ← Hashmap.slot_zero, getLoop_advance h.lt.le h.path, hn, getLoop,
    helem]
  simp

/-- A loop that returns something has met the key behind occupied slots. -/
theorem getLoop_ne_zero {key : UInt32} {n i : Nat}
    (h : getLoop hm key n (hm.slot key i) ≠ 0) :
    ∃ j < n, hm.Holds (hm.slot key (i + j)) key (getLoop hm key n (hm.slot key i)) ∧
      ∀ l < j, ∃ key' data, hm.Holds (hm.slot key (i + l)) key' data ∧ key' ≠ key := by
  induction n generalizing i with
  | zero => exact absurd rfl h
  | succ n ih =>
      cases helem : hm.elem (hm.slot key i) with
      | none => simp [getLoop, helem] at h
      | some item =>
          obtain ⟨data, key', occupied⟩ := item
          cases occupied with
          | false => simp [getLoop, helem] at h
          | true =>
              by_cases hkey : key' = key
              · subst hkey
                have hloop : getLoop hm key' (n + 1) (hm.slot key' i) = data := by
                  simp [getLoop, helem]
                rw [hloop]
                exact ⟨0, by omega, helem, by omega⟩
              · have hloop : getLoop hm key (n + 1) (hm.slot key i) =
                    getLoop hm key n (hm.slot key (i + 1)) := by
                  simp [getLoop, helem, hkey, Hashmap.next_slot]
                rw [hloop] at h ⊢
                obtain ⟨j, hj, hholds, hpath⟩ := ih h
                refine ⟨j + 1, by omega, ?_, ?_⟩
                · rwa [Nat.add_assoc, Nat.add_comm 1 j] at hholds
                · intro l hl
                  cases l with
                  | zero => exact ⟨key', data, helem, hkey⟩
                  | succ l =>
                      have hnext := hpath l (by omega)
                      rwa [Nat.add_assoc, Nat.add_comm 1 l] at hnext

/-- A lookup that returns something has found it. -/
theorem foundAt_of_hmGet (h : hmGet hash hm k ≠ 0) :
    hash k ≠ uint32Max ∧ ∃ i, hm.FoundAt (hash k) i (hmGet hash hm k) := by
  have hvalid : hash k ≠ uint32Max := by
    intro hmax
    exact h (by rw [hmGet, if_pos hmax])
  refine ⟨hvalid, ?_⟩
  rw [hmGet, if_neg hvalid, ← Hashmap.slot_zero] at h ⊢
  obtain ⟨i, hi, hholds, hpath⟩ := getLoop_ne_zero h
  simp only [Nat.zero_add] at hholds hpath
  exact ⟨i, hi, hholds, hpath⟩

/-- A key that a lookup finds is removed without a fault: the entry that was found goes. -/
theorem hmRemove_of_get (h : hmGet hash hm k ≠ 0) :
    ∃ index, hm.Holds index (hash k) (hmGet hash hm k) ∧
      hmRemove hash hm k = .ok (none, hm.vacate index) := by
  obtain ⟨hvalid, i, hfound⟩ := foundAt_of_hmGet h
  obtain ⟨n, hn⟩ : ∃ n, bucketMaxLen - i = n + 1 :=
    ⟨bucketMaxLen - i - 1, by have := hfound.lt; omega⟩
  have helem : hm.elem (hm.slot (hash k) i) = some ⟨hmGet hash hm k, hash k, true⟩ := hfound.holds
  refine ⟨hm.slot (hash k) i, hfound.holds, ?_⟩
  rw [hmRemove, if_neg hvalid, ← Hashmap.slot_zero,
    removeLoop_advance hfound.lt.le hfound.path, hn, removeLoop, helem]
  simp only [if_true]
  rfl

/-- The loop of a removal ends at an item with the key. -/
theorem removeLoop_some {key : UInt32} {n i index : Nat}
    (h : removeLoop hm key n i = .ok (some index)) :
    ∃ item, hm.elem index = some item ∧ item.key = key := by
  induction n generalizing i with
  | zero => simp [removeLoop] at h
  | succ n ih =>
      cases helem : hm.elem i with
      | none => simp [removeLoop, helem] at h
      | some item =>
          by_cases hkey : item.key = key
          · simp only [removeLoop, helem, if_pos hkey, Except.ok.injEq, Option.some.injEq] at h
            subst h
            exact ⟨item, helem, hkey⟩
          · simp only [removeLoop, helem, if_neg hkey] at h
            exact ih h

/-- Vacating a slot that is not occupied changes nothing. -/
theorem Hashmap.vacate_of_vacant {index : Nat} (hvacant : ¬ hm.Occupied index) :
    hm.vacate index = hm := by
  unfold Hashmap.vacate
  have hsame : (hm.elem index).map (fun item => { item with occupied := false }) =
      hm.elem index := by
    cases helem : hm.elem index with
    | none => rfl
    | some item =>
        obtain ⟨data, key, occupied⟩ := item
        cases occupied with
        | false => rfl
        | true => exact absurd ⟨_, helem, rfl⟩ hvacant
  rw [hsame, Function.update_eq_self]

/-- A removal adds no entry. -/
theorem Hashmap.Holds.of_remove {e : Option Errno} (hremove : hmRemove hash hm k = .ok (e, hm'))
    {index data : Nat} {key : UInt32} (h : hm'.Holds index key data) : hm.Holds index key data := by
  unfold hmRemove at hremove
  by_cases hmax : hash k = uint32Max
  · rw [if_pos hmax] at hremove
    obtain ⟨-, rfl⟩ := Prod.mk.inj (Except.ok.inj hremove)
    exact h
  · rw [if_neg hmax] at hremove
    obtain ⟨found, -, hend⟩ := Halt.bind_eq_ok.mp hremove
    cases found with
    | none =>
        obtain ⟨-, rfl⟩ := Prod.mk.inj (Except.ok.inj hend)
        exact h
    | some removed =>
        obtain ⟨-, rfl⟩ := Prod.mk.inj (Except.ok.inj hend)
        exact (Hashmap.vacate_holds_iff.mp h).2

/-! ## Insertions -/

/-- The map after a new item was put into a slot. -/
def Hashmap.put (hm : Hashmap) (index : Nat) (key : UInt32) (data : Nat) : Hashmap :=
  { hm with
    len := hm.len + 1
    elem := Function.update hm.elem index (some ⟨data, key, true⟩) }

theorem Hashmap.put_holds_iff {index index' data data' : Nat} {key key' : UInt32} :
    (hm.put index key data).Holds index' key' data' ↔
      if index' = index then key' = key ∧ data' = data else hm.Holds index' key' data' := by
  by_cases hindex : index' = index
  · subst hindex
    simp only [Hashmap.Holds, Hashmap.put, Function.update_self, if_true, Option.some.injEq,
      HmItem.mk.injEq, and_true]
    constructor
    · rintro ⟨rfl, rfl⟩
      exact ⟨rfl, rfl⟩
    · rintro ⟨rfl, rfl⟩
      exact ⟨rfl, rfl⟩
  · simp only [Hashmap.Holds, Hashmap.put, Function.update_of_ne hindex, if_neg hindex]

theorem Hashmap.put_holds_self (hm : Hashmap) (index : Nat) (key : UInt32) (data : Nat) :
    (hm.put index key data).Holds index key data :=
  Function.update_self ..

/-- An item that goes into a vacant slot replaces no entry. -/
theorem Hashmap.Holds.put {index index' data data' : Nat} {key key' : UInt32}
    (h : hm.Holds index' key' data') (hvacant : ¬ hm.Occupied index) :
    (hm.put index key data).Holds index' key' data' := by
  have hne : index' ≠ index := by
    rintro rfl
    exact hvacant h.occupied
  rw [Hashmap.put_holds_iff, if_neg hne]
  exact h

theorem Hashmap.Occupied.put {index index' data : Nat} {key : UInt32}
    (h : hm.Occupied index') (hvacant : ¬ hm.Occupied index) :
    (hm.put index key data).Occupied index' := by
  obtain ⟨key', data', hholds⟩ := h.holds
  exact (hholds.put hvacant).occupied

/-- A map that was only inserted into: an entry is in its probe window behind occupied slots, and
its pointer is not null. -/
structure Hashmap.Grown (hm : Hashmap) : Prop where
  path : ∀ index key data, hm.Holds index key data →
    ∃ i < bucketMaxLen, index = hm.slot key i ∧ ∀ j < i, hm.Occupied (hm.slot key j)
  nonnull : ∀ index key data, hm.Holds index key data → data ≠ 0

theorem grown_alloc (cap : Nat) : (hmAllocHashmap cap).Grown where
  path _ _ _ h := by cases h
  nonnull _ _ _ h := by cases h

/-- What a successful insertion puts where. -/
theorem hmInsert_eq_put (h : hmInsert hash hm k elem = (none, hm')) :
    elem ≠ 0 ∧ ∃ i < bucketMaxLen, ¬ hm.Occupied (hm.slot (hash k) i) ∧
      (∀ j < i, hm.Occupied (hm.slot (hash k) j)) ∧
      hm' = hm.put (hm.slot (hash k) i) (hash k) elem :=
  hmInsert_some h

/-- A key with the reserved hash is not inserted. -/
theorem hmInsert_valid (h : hmInsert hash hm k elem = (none, hm')) : hash k ≠ uint32Max := by
  intro hmax
  by_cases helem : elem = 0
  · simp [hmInsert, helem] at h
  · by_cases hfull : hm.len = hm.cap
    · simp [hmInsert, helem, hfull] at h
    · simp [hmInsert, helem, hfull, hmax] at h

/-- When an insertion succeeds. -/
theorem exists_hmInsert (helem : elem ≠ 0) (hroom : hm.len ≠ hm.cap) (hvalid : hash k ≠ uint32Max)
    (hprobe : hmFindFreeBucket hm (hash k) ≠ none) :
    ∃ hm', hmInsert hash hm k elem = (none, hm') := by
  obtain ⟨index, hindex⟩ := Option.ne_none_iff_exists'.mp hprobe
  rw [hmInsert, if_neg helem, if_neg hroom, if_neg hvalid, hindex]
  exact ⟨_, rfl⟩

/-- Insertions keep all entries in reach. -/
theorem Hashmap.Grown.insert (hgrown : hm.Grown) {e : Option Errno}
    (hins : hmInsert hash hm k elem = (e, hm')) : hm'.Grown := by
  cases e with
  | some e => exact hmInsert_error hins ▸ hgrown
  | none =>
      obtain ⟨hnonnull, i, hi, hvacant, hbefore, rfl⟩ := hmInsert_eq_put hins
      constructor
      case path =>
        intro index key data hholds
        rw [Hashmap.put_holds_iff] at hholds
        by_cases hindex : index = hm.slot (hash k) i
        · rw [if_pos hindex] at hholds
          obtain ⟨rfl, -⟩ := hholds
          exact ⟨i, hi, hindex, fun j hj => (hbefore j hj).put hvacant⟩
        · rw [if_neg hindex] at hholds
          obtain ⟨j, hj, hslot, hpath⟩ := hgrown.path index key data hholds
          exact ⟨j, hj, hslot, fun l hl => (hpath l hl).put hvacant⟩
      case nonnull =>
        intro index key data hholds
        rw [Hashmap.put_holds_iff] at hholds
        by_cases hindex : index = hm.slot (hash k) i
        · rw [if_pos hindex] at hholds
          exact hholds.2 ▸ hnonnull
        · rw [if_neg hindex] at hholds
          exact hgrown.nonnull index key data hholds

/-- An entry behind occupied slots gives a first entry of its key. -/
theorem foundAt_of_holds {key : UInt32} {i data : Nat} (hi : i < bucketMaxLen)
    (hholds : hm.Holds (hm.slot key i) key data) (hpath : ∀ j < i, hm.Occupied (hm.slot key j)) :
    ∃ j data', hm.FoundAt key j data' := by
  classical
  have hex : ∃ j, ∃ data', hm.Holds (hm.slot key j) key data' := ⟨i, data, hholds⟩
  have hle : Nat.find hex ≤ i := Nat.find_min' hex ⟨data, hholds⟩
  obtain ⟨data', hfirst⟩ := Nat.find_spec hex
  refine ⟨Nat.find hex, data', hle.trans_lt hi, hfirst, ?_⟩
  intro j hj
  obtain ⟨key', data'', hother⟩ := (hpath j (hj.trans_le hle)).holds
  refine ⟨key', data'', hother, ?_⟩
  rintro rfl
  exact Nat.find_min hex hj ⟨data'', hother⟩

/-- Every entry of a map that was only inserted into can be found. -/
theorem Hashmap.Grown.hmGet_ne_zero (hgrown : hm.Grown) (hvalid : hash k ≠ uint32Max)
    {index data : Nat} (hholds : hm.Holds index (hash k) data) : hmGet hash hm k ≠ 0 := by
  obtain ⟨i, hi, rfl, hpath⟩ := hgrown.path index _ data hholds
  obtain ⟨j, data', hfound⟩ := foundAt_of_holds hi hholds hpath
  rw [hfound.hmGet hvalid]
  exact hgrown.nonnull _ _ _ hfound.holds

/-- The removal of a key that no lookup finds changes nothing. -/
theorem Hashmap.Grown.hmRemove_absent (hgrown : hm.Grown) (hget : hmGet hash hm k = 0)
    {e : Option Errno} (hremove : hmRemove hash hm k = .ok (e, hm')) : hm' = hm := by
  unfold hmRemove at hremove
  by_cases hmax : hash k = uint32Max
  · rw [if_pos hmax] at hremove
    exact (congrArg Prod.snd (Except.ok.inj hremove)).symm
  · rw [if_neg hmax] at hremove
    obtain ⟨found, hloop, hend⟩ := Halt.bind_eq_ok.mp hremove
    cases found with
    | none => exact (congrArg Prod.snd (Except.ok.inj hend)).symm
    | some index =>
        have hvacate : hm' = hm.vacate index := (congrArg Prod.snd (Except.ok.inj hend)).symm
        rw [hvacate]
        apply Hashmap.vacate_of_vacant
        intro hoccupied
        obtain ⟨item, helem, hkey⟩ := removeLoop_some hloop
        obtain ⟨key, data, hholds⟩ := hoccupied.holds
        have hsame : item = ⟨data, key, true⟩ := Option.some.inj (helem.symm.trans hholds)
        have hheld : hm.Holds index (hash k) data := by
          rw [← hkey, hsame]
          exact hholds
        exact hgrown.hmGet_ne_zero hmax hheld hget

/-- A lookup that has found something finds it again after an insertion. -/
theorem hmGet_insert_of_found (hins : hmInsert hash hm k elem = (none, hm'))
    (hget : hmGet hash hm k' ≠ 0) : hmGet hash hm' k' = hmGet hash hm k' := by
  obtain ⟨-, i, hi, hvacant, -, rfl⟩ := hmInsert_eq_put hins
  obtain ⟨hvalid, j, hfound⟩ := foundAt_of_hmGet hget
  have hfound' : (hm.put (hm.slot (hash k) i) (hash k) elem).FoundAt (hash k') j
      (hmGet hash hm k') := by
    refine ⟨hfound.lt, hfound.holds.put hvacant, fun l hl => ?_⟩
    obtain ⟨key, data, hother, hne⟩ := hfound.path l hl
    exact ⟨key, data, hother.put hvacant, hne⟩
  exact hfound'.hmGet hvalid

/-- The inserted key is found, if only through an older entry. -/
theorem hmGet_insert_ne_zero (hnonnull : ∀ index key data, hm.Holds index key data → data ≠ 0)
    (hins : hmInsert hash hm k elem = (none, hm')) (hsame : hash k' = hash k) :
    hmGet hash hm' k' ≠ 0 := by
  have hvalid := hmInsert_valid hins
  obtain ⟨hdata, i, hi, hvacant, hbefore, rfl⟩ := hmInsert_eq_put hins
  have hself := hm.put_holds_self (hm.slot (hash k) i) (hash k) elem
  obtain ⟨j, data, hfound⟩ := foundAt_of_holds hi hself fun j hj => (hbefore j hj).put hvacant
  have hfound' : (hm.put (hm.slot (hash k) i) (hash k) elem).FoundAt (hash k') j data := by
    rw [hsame]
    exact hfound
  rw [hfound'.hmGet (by rwa [hsame])]
  have hheld := hfound.holds
  rw [Hashmap.put_holds_iff] at hheld
  split at hheld
  · exact hheld.2 ▸ hdata
  · exact hnonnull _ _ _ hheld

/-- A key that no lookup found is found after its insertion. -/
theorem hmGet_insert_self (hnonnull : ∀ index key data, hm.Holds index key data → data ≠ 0)
    (hget : hmGet hash hm k = 0) (hins : hmInsert hash hm k elem = (none, hm')) :
    hmGet hash hm' k = elem := by
  have hvalid := hmInsert_valid hins
  obtain ⟨-, i, hi, hvacant, hbefore, rfl⟩ := hmInsert_eq_put hins
  have hpath : ∀ j < i, ∃ key data, hm.Holds (hm.slot (hash k) j) key data ∧ key ≠ hash k := by
    intro j hj
    obtain ⟨key, data, hholds⟩ := (hbefore j hj).holds
    refine ⟨key, data, hholds, ?_⟩
    -- an older entry of the key would have been found
    rintro rfl
    obtain ⟨l, data', hfound⟩ := foundAt_of_holds (hj.trans hi) hholds
      fun l hl => hbefore l (hl.trans hj)
    rw [hfound.hmGet hvalid] at hget
    exact hnonnull _ _ _ hfound.holds hget
  have hfound : (hm.put (hm.slot (hash k) i) (hash k) elem).FoundAt (hash k) i elem := by
    refine ⟨hi, hm.put_holds_self _ _ _, fun j hj => ?_⟩
    obtain ⟨key, data, hother, hne⟩ := hpath j hj
    exact ⟨key, data, hother.put hvacant, hne⟩
  exact hfound.hmGet hvalid

/-- What a lookup gives after an insertion: what it gave before, if that was something, and
else the new pointer for the inserted key. -/
theorem Hashmap.Grown.hmGet_insert (hgrown : hm.Grown)
    (hins : hmInsert hash hm k elem = (none, hm')) :
    hmGet hash hm' k' =
      if hmGet hash hm k' ≠ 0 then hmGet hash hm k'
      else if hash k' = hash k then elem
      else 0 := by
  by_cases hget : hmGet hash hm k' ≠ 0
  · rw [if_pos hget]
    exact hmGet_insert_of_found hins hget
  · rw [if_neg hget]
    by_cases hmax : hash k' = uint32Max
    · rw [if_neg fun h : hash k' = hash k => hmInsert_valid hins (h ▸ hmax), hmGet, if_pos hmax]
    have hvalid : hash k' ≠ uint32Max := hmax
    have habsent : ∀ index data, ¬ hm.Holds index (hash k') data :=
      fun index data hholds => hget (hgrown.hmGet_ne_zero hvalid hholds)
    by_contra hne
    have hgrown' := hgrown.insert hins
    obtain ⟨-, i, hi, hvacant, -, rfl⟩ := hmInsert_eq_put hins
    by_cases hsame : hash k' = hash k
    · rw [if_pos hsame] at hne
      have hself : (hm.put (hm.slot (hash k) i) (hash k) elem).Holds (hm.slot (hash k) i) (hash k')
          elem := by
        rw [Hashmap.put_holds_iff, if_pos rfl]
        exact ⟨hsame, rfl⟩
      obtain ⟨-, j, hfound⟩ := foundAt_of_hmGet (hgrown'.hmGet_ne_zero hvalid hself)
      have hheld := hfound.holds
      rw [Hashmap.put_holds_iff] at hheld
      split at hheld
      · exact hne hheld.2
      · exact habsent _ _ hheld
    · rw [if_neg hsame] at hne
      obtain ⟨-, j, hfound⟩ := foundAt_of_hmGet hne
      have hheld := hfound.holds
      rw [Hashmap.put_holds_iff] at hheld
      split at hheld
      · exact hsame hheld.1
      · exact habsent _ _ hheld

/-! ## The hash of a number -/

/-- Folding the high half into the low half is undone by folding again. -/
theorem fold_involutive : Function.Involutive fun x : UInt32 => (x >>> 16) ^^^ x := by
  intro x
  apply UInt32.toBitVec_inj.mp
  have hamount : UInt32.toBitVec 16 % 32 = 16#32 := by decide
  ext i hi
  simp only [UInt32.toBitVec_xor, UInt32.toBitVec_shiftRight, hamount, BitVec.getElem_xor,
    BitVec.ushiftRight_eq', BitVec.toNat_ofNat, BitVec.getElem_ushiftRight,
    BitVec.getLsbD_xor, BitVec.getLsbD_ushiftRight]
  have hhigh : x.toBitVec.getLsbD (16 % 2 ^ 32 + (16 % 2 ^ 32 + i)) = false :=
    BitVec.getLsbD_of_ge _ _ (by omega)
  rw [hhigh, Bool.false_xor, ← Bool.xor_assoc, Bool.xor_self, Bool.false_xor]

/-- The factor of `hm_hash_num` is odd, so multiplying by it loses nothing. -/
theorem mul_injective : Function.Injective fun x : UInt32 => x * 0x45d9f3b := by
  intro x y hxy
  have hinverse : (0x45d9f3b : UInt32) * 0x119de1f3 = 1 := by decide
  have hback := congrArg (· * (0x119de1f3 : UInt32)) hxy
  simpa only [UInt32.mul_assoc, hinverse, UInt32.mul_one] using hback

theorem hmHashNum_injective : Function.Injective hmHashNum := by
  have hround : Function.Injective fun x : UInt32 => ((x >>> 16) ^^^ x) * 0x45d9f3b :=
    mul_injective.comp fold_involutive.injective
  exact fold_involutive.injective.comp (hround.comp hround)

end Lib
end Micael
